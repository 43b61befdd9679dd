-- The cache-tree of an index: its nodes, and how a path makes them invalid
-- (`cache-tree.c`).
import Git.Lib.Bsearch
import Git.CacheEntry

open bsearch

namespace git

/-- A node. `down` holds its subtrees, each under the name of its directory. -/
inductive cache_tree where
  | mk (entry_count : Int) (sha1 : Sha1) (down : List (Bytes × cache_tree))

namespace cache_tree

def entry_count : cache_tree → Int
  | mk n _ _ => n

def sha1 : cache_tree → Sha1
  | mk _ s _ => s

def down : cache_tree → List (Bytes × cache_tree)
  | mk _ _ d => d

@[simp] theorem entry_count_mk (n : Int) (s : Sha1) (d : List (Bytes × cache_tree)) :
    (mk n s d).entry_count = n := rfl
@[simp] theorem sha1_mk (n : Int) (s : Sha1) (d : List (Bytes × cache_tree)) :
    (mk n s d).sha1 = s := rfl
@[simp] theorem down_mk (n : Int) (s : Sha1) (d : List (Bytes × cache_tree)) :
    (mk n s d).down = d := rfl

/-- A node from `cache_tree()`: zeroed by `xcalloc`, then made invalid. -/
def new : cache_tree := mk (-1) (Vector.replicate 20 0) []

end cache_tree

/-- The shorter name first, then the bytes. -/
def subtree_name_cmp (one two : Bytes) : Ordering :=
  if one.length < two.length then .lt
  else if two.length < one.length then .gt
  else memcmp one two one.length

def subtree_pos (it : cache_tree) (path : Bytes) : Pos :=
  search (fun sub => subtree_name_cmp path sub.1) it.down

/-- The subtree `path`, when there is one. `create` off. -/
def find_subtree (it : cache_tree) (path : Bytes) : Option cache_tree :=
  match subtree_pos it path with
  | .found pos => it.down[pos]?.map (·.2)
  | .absent _ => none

/-- `find_subtree` with `create` on. A new subtree is given its node at once,
as the two callers do next. -/
def create_subtree (it : cache_tree) (path : Bytes) : cache_tree :=
  match subtree_pos it path with
  | .found _ => it
  | .absent pos => .mk it.entry_count it.sha1 (it.down.insertIdx pos (path, .new))

/-- `down[pos]->cache_tree = sub`, for the subtree `path`. -/
def set_subtree (it : cache_tree) (path : Bytes) (sub : cache_tree) : cache_tree :=
  match subtree_pos it path with
  | .found pos => .mk it.entry_count it.sha1 (it.down.set pos (path, sub))
  | .absent _ => it

/-- The names between the slashes of a path. -/
def components : Bytes → List Bytes
  | [] => [[]]
  | c :: path =>
    if c = SLASH then [] :: components path
    else
      match components path with
      | [] => [[c]]
      | name :: rest => (c :: name) :: rest

/-- `cache_tree_invalidate_path`, on the components of the path. -/
def invalidate : cache_tree → List Bytes → cache_tree
  | it, [] => it
  | it, [name] =>
    match subtree_pos it name with
    | .found pos => .mk (-1) it.sha1 (it.down.eraseIdx pos)
    | .absent _ => .mk (-1) it.sha1 it.down
  | it, name :: rest =>
    let it' : cache_tree := .mk (-1) it.sha1 it.down
    match find_subtree it name with
    | some down => set_subtree it' name (invalidate down rest)
    | none => it'

def cache_tree_invalidate_path (it : Option cache_tree) (path : Bytes) : Option cache_tree :=
  it.map fun it => invalidate it (components path)

/-! ## Components -/

theorem components_ne_nil (path : Bytes) : components path ≠ [] := by
  cases path with
  | nil => simp [components]
  | cons c path =>
    unfold components
    split
    · simp
    · split <;> simp

theorem components_of_no_slash {path : Bytes} (h : SLASH ∉ path) : components path = [path] := by
  induction path with
  | nil => rfl
  | cons c path ih =>
    rw [List.mem_cons, not_or] at h
    rw [components, if_neg (Ne.symm h.1), ih h.2]

theorem components_append (name path : Bytes) (h : SLASH ∉ name) :
    components (name ++ SLASH :: path) = name :: components path := by
  induction name with
  | nil => simp [components]
  | cons c name ih =>
    rw [List.mem_cons, not_or] at h
    rw [List.cons_append, components, if_neg (Ne.symm h.1), ih h.2]

/-- A path is one name, or a name, a slash and a path. -/
theorem path_cases (path : Bytes) :
    SLASH ∉ path ∨ ∃ name rest, path = name ++ SLASH :: rest ∧ SLASH ∉ name := by
  by_cases h : SLASH ∈ path
  · right
    obtain ⟨name, rest, hp, hn⟩ := List.eq_append_cons_of_mem h
    exact ⟨name, rest, hp, hn⟩
  · exact Or.inl h

/-! ## Subtrees of a node -/

/-- The order of `subtree_name_cmp`: the shorter name first. -/
def subtree_key (sub : Bytes × cache_tree) : Nat ×ₗ Bytes := toLex (sub.1.length, sub.1)

theorem subtree_name_cmp_compares (one two : Bytes) :
    (subtree_name_cmp one two).Compares (toLex (one.length, one)) (toLex (two.length, two)) := by
  unfold subtree_name_cmp
  split_ifs with h1 h2
  · exact Prod.Lex.toLex_lt_toLex.mpr (Or.inl h1)
  · exact Prod.Lex.toLex_lt_toLex.mpr (Or.inl h2)
  · have hlen : one.length = two.length := by omega
    have hc := memcmp_compares one two
    rw [← hlen, Nat.min_self] at hc
    simp only [lt_irrefl, if_false] at hc
    cases hm : memcmp one two one.length with
    | lt =>
      rw [hm] at hc
      exact Prod.Lex.toLex_lt_toLex.mpr (Or.inr ⟨hlen, hc⟩)
    | eq =>
      rw [hm] at hc
      have heq : one = two := hc
      rw [heq]
      exact rfl
    | gt =>
      rw [hm] at hc
      exact Prod.Lex.toLex_lt_toLex.mpr (Or.inr ⟨hlen.symm, hc⟩)

theorem subtree_key_eq {a b : Bytes × cache_tree} : subtree_key a = subtree_key b ↔ a.1 = b.1 := by
  unfold subtree_key
  rw [EmbeddingLike.apply_eq_iff_eq, Prod.mk.injEq]
  exact ⟨fun h => h.2, fun h => ⟨congrArg _ h, h⟩⟩

/-- The subtrees of a node stand in their order. -/
def cache_tree.Sorted (it : cache_tree) : Prop := Ascends subtree_key it.down

theorem subtree_pos_spec {it : cache_tree} (h : it.Sorted) (path : Bytes) :
    (∃ pre sub post, it.down = pre ++ (path, sub) :: post ∧ subtree_pos it path = .found pre.length) ∨
      ∃ pre post, it.down = pre ++ post ∧ subtree_pos it path = .absent pre.length ∧
        (∀ a ∈ pre, ∀ sub, subtree_key a < subtree_key (path, sub)) ∧
        ∀ b ∈ post, ∀ sub, subtree_key (path, sub) < subtree_key b := by
  rcases search_spec (k := toLex (path.length, path)) h (fun sub _ => subtree_name_cmp_compares path sub.1) with
    ⟨pre, x, post, hdown, hpos, hkey⟩ | ⟨pre, post, hdown, hpos, hpre, hpost⟩
  · have hx : x.1 = path := by
      have hk : subtree_key x = subtree_key (path, x.2) := hkey
      rwa [subtree_key_eq] at hk
    exact Or.inl ⟨pre, x.2, post, by rw [← hx, hdown], hpos⟩
  · exact Or.inr ⟨pre, post, hdown, hpos, fun a ha _ => hpre a ha, fun b hb _ => hpost b hb⟩

theorem find_subtree_mem {it sub : cache_tree} {path : Bytes} (h : it.Sorted) :
    find_subtree it path = some sub ↔ (path, sub) ∈ it.down := by
  unfold find_subtree
  rcases subtree_pos_spec h path with
    ⟨pre, x, post, hdown, hpos⟩ | ⟨pre, post, hdown, hpos, hpre, hpost⟩
  · have hmem : (path, x) ∈ it.down := by simp [hdown]
    simp only [hpos, hdown, List.getElem?_append_right (Nat.le_refl _), Nat.sub_self,
      List.getElem?_cons_zero, Option.map_some, Option.some.injEq]
    rw [← hdown]
    constructor
    · rintro rfl
      exact hmem
    · intro hs
      have := h.eq_of_key hmem hs (subtree_key_eq.mpr rfl)
      exact congrArg Prod.snd this
  · simp only [hpos, reduceCtorEq, false_iff, hdown]
    intro hs
    rcases List.mem_append.mp hs with hs | hs
    · exact lt_irrefl _ (hpre _ hs sub)
    · exact lt_irrefl _ (hpost _ hs sub)

theorem find_subtree_none {it : cache_tree} {path : Bytes} (h : it.Sorted)
    (hf : find_subtree it path = none) : ∀ sub ∈ it.down, sub.1 ≠ path := by
  intro sub hs hp
  subst hp
  have : find_subtree it sub.1 = some sub.2 := (find_subtree_mem h).mpr hs
  rw [hf] at this
  cases this

/-- `create_subtree` finds the subtree, or makes a new one. -/
theorem create_subtree_spec {it : cache_tree} (h : it.Sorted) (path : Bytes) :
    ∃ sub, (create_subtree it path).Sorted ∧
      find_subtree (create_subtree it path) path = some sub ∧
      (create_subtree it path).entry_count = it.entry_count ∧
      (create_subtree it path).sha1 = it.sha1 ∧
      ((path, sub) ∈ it.down ∨ sub = .new ∧ ∀ s ∈ it.down, s.1 ≠ path) ∧
      ∀ s, s ∈ (create_subtree it path).down ↔ s = (path, sub) ∨ s ∈ it.down ∧ s.1 ≠ path := by
  unfold create_subtree
  rcases subtree_pos_spec h path with
    ⟨pre, x, post, hdown, hpos⟩ | ⟨pre, post, hdown, hpos, hpre, hpost⟩
  · have hmem : (path, x) ∈ it.down := by simp [hdown]
    rw [hpos]
    refine ⟨x, h, (find_subtree_mem h).mpr hmem, rfl, rfl, Or.inl hmem, ?_⟩
    intro s
    constructor
    · intro hs
      by_cases hp : s.1 = path
      · exact Or.inl (h.eq_of_key hs hmem (subtree_key_eq.mpr hp))
      · exact Or.inr ⟨hs, hp⟩
    · rintro (rfl | hs)
      · exact hmem
      · exact hs.1
  · rw [hpos]
    have hd : it.down.insertIdx pre.length (path, cache_tree.new) =
        pre ++ (path, .new) :: post := by rw [hdown, insertIdx_append]
    have hs : (cache_tree.mk it.entry_count it.sha1
        (it.down.insertIdx pre.length (path, cache_tree.new))).Sorted := by
      unfold cache_tree.Sorted at h ⊢
      rw [cache_tree.down_mk, hd]
      exact Ascends.insert (hdown ▸ h) (fun a ha => hpre a ha _) (fun b hb => hpost b hb _)
    have hnone : ∀ s ∈ it.down, s.1 ≠ path := by
      intro s hs hp
      rw [hdown, List.mem_append] at hs
      rcases hs with hs | hs
      · exact absurd (hpre s hs s.2) (by rw [← hp]; exact lt_irrefl _)
      · exact absurd (hpost s hs s.2) (by rw [← hp]; exact lt_irrefl _)
    refine ⟨.new, hs, (find_subtree_mem hs).mpr ?_, rfl, rfl, Or.inr ⟨rfl, hnone⟩, ?_⟩
    · simp [hd]
    · intro s
      have hiff : s ∈ it.down ∧ s.1 ≠ path ↔ s ∈ it.down := ⟨fun h => h.1, fun h => ⟨h, hnone s h⟩⟩
      rw [hiff, cache_tree.down_mk, hd, hdown]
      simp only [List.mem_append, List.mem_cons]
      tauto

theorem set_subtree_spec {it sub0 : cache_tree} {path : Bytes} (sub : cache_tree) (h : it.Sorted)
    (hf : find_subtree it path = some sub0) :
    (set_subtree it path sub).Sorted ∧ (set_subtree it path sub).entry_count = it.entry_count ∧
      (set_subtree it path sub).sha1 = it.sha1 ∧
      ∀ s, s ∈ (set_subtree it path sub).down ↔ s = (path, sub) ∨ s ∈ it.down ∧ s.1 ≠ path := by
  unfold set_subtree
  rcases subtree_pos_spec h path with
    ⟨pre, x, post, hdown, hpos⟩ | ⟨pre, post, hdown, hpos, hpre, hpost⟩
  · rw [hpos]
    have hd : it.down.set pre.length (path, sub) = pre ++ (path, sub) :: post := by
      rw [hdown, set_append]
    have ha : Ascends subtree_key (pre ++ (path, x) :: post) := hdown ▸ h
    have h' : Ascends subtree_key (pre ++ (path, sub) :: post) :=
      ha.replace (subtree_key_eq.mpr rfl)
    refine ⟨?_, rfl, rfl, ?_⟩
    · unfold cache_tree.Sorted
      rw [cache_tree.down_mk, hd]
      exact h'
    · intro s
      have ho := ha.mem_others s
      rw [← hdown, Ne, subtree_key_eq] at ho
      rw [← ho, cache_tree.down_mk, hd]
      simp only [List.mem_append, List.mem_cons]
      tauto
  · exfalso
    simp [find_subtree, hpos] at hf

/-- The subtree `path` is found or made, and `new` is put in its place. -/
theorem put_subtree_spec {it : cache_tree} (h : it.Sorted) (path : Bytes) :
    ∃ sub, find_subtree (create_subtree it path) path = some sub ∧
      ((path, sub) ∈ it.down ∨ sub = .new ∧ ∀ s ∈ it.down, s.1 ≠ path) ∧
      ∀ new, (set_subtree (create_subtree it path) path new).Sorted ∧
        (set_subtree (create_subtree it path) path new).entry_count = it.entry_count ∧
        (set_subtree (create_subtree it path) path new).sha1 = it.sha1 ∧
        ∀ s, s ∈ (set_subtree (create_subtree it path) path new).down ↔
          s = (path, new) ∨ s ∈ it.down ∧ s.1 ≠ path := by
  obtain ⟨sub, hs1, hf, hcount1, hsha1, horigin, hmem1⟩ := create_subtree_spec h path
  refine ⟨sub, hf, horigin, fun new => ?_⟩
  obtain ⟨hs2, hcount2, hsha2, hmem2⟩ := set_subtree_spec new hs1 hf
  refine ⟨hs2, hcount2.trans hcount1, hsha2.trans hsha1, fun s => ?_⟩
  rw [hmem2, hmem1]
  constructor
  · rintro (rfl | ⟨rfl | hs, hne⟩)
    · exact Or.inl rfl
    · exact absurd rfl hne
    · exact Or.inr hs
  · rintro (rfl | hs)
    · exact Or.inl rfl
    · exact Or.inr ⟨Or.inr hs, hs.2⟩

/-- The node without the subtree `path`, as an invalidation leaves it. -/
theorem invalidate_leaf_spec {it : cache_tree} (h : it.Sorted) (path : Bytes) :
    (invalidate it [path]).Sorted ∧ (invalidate it [path]).entry_count = -1 ∧
      ∀ s, s ∈ (invalidate it [path]).down ↔ s ∈ it.down ∧ s.1 ≠ path := by
  unfold invalidate
  rcases subtree_pos_spec h path with
    ⟨pre, x, post, hdown, hpos⟩ | ⟨pre, post, hdown, hpos, hpre, hpost⟩
  · rw [hpos]
    have hd : it.down.eraseIdx pre.length = pre ++ post := by rw [hdown, eraseIdx_append]
    have ha : Ascends subtree_key (pre ++ (path, x) :: post) := hdown ▸ h
    refine ⟨?_, rfl, ?_⟩
    · unfold cache_tree.Sorted
      rw [cache_tree.down_mk, hd]
      exact ha.sublist (List.Sublist.append_left (List.sublist_cons_self _ _) _)
    · intro s
      have ho := Ascends.mem_others ha s
      rw [← hdown, Ne, subtree_key_eq] at ho
      rw [cache_tree.down_mk, hd]
      exact ho
  · rw [hpos]
    refine ⟨h, rfl, ?_⟩
    intro s
    refine ⟨fun hs => ⟨hs, fun hp => ?_⟩, fun hs => hs.1⟩
    have hs' : s ∈ pre ++ post := hdown ▸ hs
    rcases List.mem_append.mp hs' with hs' | hs'
    · exact absurd (hpre s hs' s.2) (by rw [← hp]; exact lt_irrefl _)
    · exact absurd (hpost s hs' s.2) (by rw [← hp]; exact lt_irrefl _)

end git
