-- When a cache-tree agrees with the index, and that the invalidation of a
-- path keeps it so when entries of that path come and go.
import Git.CacheTreeUpdate
import Git.IndexRuns

open bsearch

namespace git

/-! ## The tree object of some entries -/

/-- `ce` is in the directory `base`, a path with its last slash, or empty. -/
def Within (base : Bytes) (ce : cache_entry) : Prop :=
  base <+: ce.name ∧ base.length < ce.name.length

instance (base : Bytes) (ce : cache_entry) : Decidable (Within base ce) := by
  unfold Within; infer_instance

/-- The entries of the index in a directory. -/
def entries_within (cache : List cache_entry) (base : Bytes) : List cache_entry :=
  cache.filter (fun ce => decide (Within base ce))

/-- The directory `name` in the directory `base`. -/
def subdir (base name : Bytes) : Bytes := base ++ name ++ [SLASH]

/-- `buffer` is the tree object of some entries of the directory `base`: a
line for each file, and a line for each directory with the hash of the tree
object of its entries. -/
inductive TreeObject (hash_tree : Bytes → Sha1) : Bytes → List cache_entry → Bytes → Prop where
  | nil (base : Bytes) : TreeObject hash_tree base [] []
  | file {base : Bytes} {ce : cache_entry} {rest : List cache_entry} {buffer : Bytes}
      (hname : before_slash (ce.name.drop base.length) = none)
      (hrest : TreeObject hash_tree base rest buffer) :
      TreeObject hash_tree base (ce :: rest)
        (tree_entry ce.ce_mode (ce.name.drop base.length) ce.sha1 ++ buffer)
  | dir {base name : Bytes} {ce : cache_entry} {group rest : List cache_entry} {sub buffer : Bytes}
      (hname : before_slash (ce.name.drop base.length) = some name)
      (hgroup : ∀ e ∈ ce :: group, Within (subdir base name) e)
      (hout : ∀ e ∈ rest, ¬ Within (subdir base name) e)
      (hsub : TreeObject hash_tree (subdir base name) (ce :: group) sub)
      (hrest : TreeObject hash_tree base rest buffer) :
      TreeObject hash_tree base (ce :: group ++ rest)
        (tree_entry S_IFDIR name (hash_tree sub) ++ buffer)

/-- Not an intent-to-add entry. -/
def written (ce : cache_entry) : Bool := !ce.has CE_INTENT_TO_ADD

/-! ## Agreement -/

/-- What a node with a count says of the index: the count and the tree
object of the merged entries in its directory. -/
structure Covers (hash_tree : Bytes → Sha1) (cache : List cache_entry) (base : Bytes)
    (it : cache_tree) : Prop where
  count : it.entry_count = (entries_within cache base).length
  merged : ∀ ce ∈ entries_within cache base, ce_stage ce = 0
  object : ∃ buffer, TreeObject hash_tree base ((entries_within cache base).filter written) buffer ∧
    it.sha1 = hash_tree buffer

/-- The node, with everything under it, agrees with the index. -/
inductive Coherent (hash_tree : Bytes → Sha1) (cache : List cache_entry) :
    Bytes → cache_tree → Prop where
  | mk {base : Bytes} {it : cache_tree} (sorted : it.Sorted) (names : ∀ sub ∈ it.down, SLASH ∉ sub.1)
      (covers : 0 ≤ it.entry_count → Covers hash_tree cache base it)
      (valid : 0 ≤ it.entry_count → ∀ sub ∈ it.down, 0 ≤ sub.2.entry_count)
      (down : ∀ sub ∈ it.down, Coherent hash_tree cache (subdir base sub.1) sub.2) :
      Coherent hash_tree cache base it

section Coherent
variable {hash_tree : Bytes → Sha1} {cache cache' : List cache_entry} {base : Bytes}
  {it : cache_tree}

theorem Coherent.sorted (h : Coherent hash_tree cache base it) : it.Sorted := by
  cases h; assumption

theorem Coherent.names (h : Coherent hash_tree cache base it) : ∀ sub ∈ it.down, SLASH ∉ sub.1 := by
  cases h; assumption

theorem Coherent.covers (h : Coherent hash_tree cache base it) :
    0 ≤ it.entry_count → Covers hash_tree cache base it := by
  cases h; assumption

theorem Coherent.valid (h : Coherent hash_tree cache base it) :
    0 ≤ it.entry_count → ∀ sub ∈ it.down, 0 ≤ sub.2.entry_count := by
  cases h; assumption

theorem Coherent.down (h : Coherent hash_tree cache base it) :
    ∀ sub ∈ it.down, Coherent hash_tree cache (subdir base sub.1) sub.2 := by
  cases h; assumption

theorem coherent_new (hash_tree : Bytes → Sha1) (cache : List cache_entry) (base : Bytes) :
    Coherent hash_tree cache base .new :=
  .mk List.Pairwise.nil (by simp [cache_tree.new]) (by simp [cache_tree.new])
    (by simp [cache_tree.new]) (by simp [cache_tree.new])

theorem prefix_subdir (base name : Bytes) : base <+: subdir base name := by
  unfold subdir
  rw [List.append_assoc]
  exact List.prefix_append _ _

/-- A node that is in a part of the index that stays as it was. -/
theorem Coherent.same (h : Coherent hash_tree cache base it)
    (hs : ∀ b, base <+: b → entries_within cache' b = entries_within cache b) :
    Coherent hash_tree cache' base it := by
  induction h with
  | mk sorted names covers valid _ ih =>
    refine .mk sorted names ?_ valid ?_
    · intro hv
      obtain ⟨hc, hm, ho⟩ := covers hv
      rw [← hs _ List.prefix_rfl] at hc hm ho
      exact ⟨hc, hm, ho⟩
    · intro sub hsub
      exact ih sub hsub fun b hb => hs b ((prefix_subdir _ _).trans hb)

end Coherent

/-! ## Changes along a path -/

/-- `base` is a directory on the way to `path`, or one in its place. -/
def Along (path base : Bytes) : Prop := base <+: path ∨ path ++ [SLASH] <+: base

/-- The entries changed only along `path`. -/
def ChangedAlong (path : Bytes) (cache cache' : List cache_entry) : Prop :=
  ∀ base, ¬ Along path base → entries_within cache' base = entries_within cache base

theorem before_slash_none {path : Bytes} : before_slash path = none ↔ SLASH ∉ path := by
  unfold before_slash
  split <;> simp [*]

theorem before_slash_append {name : Bytes} (rest : Bytes) (h : SLASH ∉ name) :
    before_slash (name ++ SLASH :: rest) = some name := by
  have : (name ++ SLASH :: rest).takeWhile (· != SLASH) = name := by
    rw [List.takeWhile_append_of_pos, List.takeWhile_cons_of_neg (by simp), List.append_nil]
    intro c hc
    simp only [bne_iff_ne, ne_eq]
    rintro rfl
    exact h hc
  unfold before_slash
  rw [if_pos (by simp), this]

theorem before_slash_some {path name : Bytes} (h : before_slash path = some name) :
    SLASH ∉ name ∧ ∃ rest, path = name ++ SLASH :: rest := by
  rcases path_cases path with hp | ⟨n, rest, rfl, hn⟩
  · rw [before_slash_none.mpr hp] at h
    cases h
  · rw [before_slash_append rest hn] at h
    cases h
    exact ⟨hn, rest, rfl⟩

/-- Two paths that go on from one directory by different names. -/
theorem not_along_of_ne {base name n rest : Bytes} (hn : SLASH ∉ name) (hn' : SLASH ∉ n)
    (hne : n ≠ name) (hr : rest = [] ∨ ∃ r, rest = SLASH :: r) {b : Bytes}
    (hb : subdir base name <+: b) : ¬ Along (base ++ (n ++ rest)) b := by
  -- the slash-free beginning of what follows `base` would be both names
  have hkey : ∀ x y : Bytes, name ++ SLASH :: x = n ++ SLASH :: y → False := by
    intro x y hxy
    have h1 := before_slash_append x hn
    rw [hxy, before_slash_append y hn'] at h1
    exact hne (Option.some.inj h1)
  unfold subdir at hb
  rintro (hp | hp)
  · obtain ⟨x, hx⟩ := hb.trans hp
    simp only [List.append_assoc, List.append_cancel_left_eq, List.singleton_append] at hx
    rcases hr with rfl | ⟨r, rfl⟩
    · have : SLASH ∈ n := by
        rw [List.append_nil] at hx
        rw [← hx]
        simp
      exact hn' this
    · exact hkey _ _ hx
  · obtain ⟨x, rfl⟩ := hb
    obtain ⟨y, hy⟩ := hp
    simp only [List.append_assoc, List.append_cancel_left_eq, List.singleton_append] at hy
    rcases hr with rfl | ⟨r, rfl⟩
    · exact hkey _ _ hy.symm
    · exact hkey _ _ hy.symm

theorem Coherent.off {hash_tree : Bytes → Sha1} {cache cache' : List cache_entry}
    {base name n rest : Bytes} {sub : cache_tree}
    (h : Coherent hash_tree cache (subdir base name) sub)
    (hc : ChangedAlong (base ++ (n ++ rest)) cache cache') (hn : SLASH ∉ name) (hn' : SLASH ∉ n)
    (hne : n ≠ name) (hr : rest = [] ∨ ∃ r, rest = SLASH :: r) :
    Coherent hash_tree cache' (subdir base name) sub :=
  h.same fun _ hb => hc _ (not_along_of_ne hn hn' hne hr hb)

theorem invalidate_cons (it : cache_tree) (name : Bytes) {rest : List Bytes} (hr : rest ≠ []) :
    invalidate it (name :: rest) =
      match find_subtree it name with
      | some down => set_subtree (.mk (-1) it.sha1 it.down) name (invalidate down rest)
      | none => .mk (-1) it.sha1 it.down := by
  cases rest with
  | nil => exact absurd rfl hr
  | cons a rest => rfl

/-- Invalidation keeps the agreement when entries change along the path. -/
theorem Coherent.invalidate {hash_tree : Bytes → Sha1} {cache cache' : List cache_entry}
    {base path : Bytes} {it : cache_tree} (h : Coherent hash_tree cache base it)
    (hc : ChangedAlong (base ++ path) cache cache') :
    Coherent hash_tree cache' base (invalidate it (components path)) := by
  induction hl : path.length using Nat.strong_induction_on generalizing base path it with
  | _ len ih =>
    rcases path_cases path with hp | ⟨name, rest, rfl, hn⟩
    · rw [components_of_no_slash hp]
      obtain ⟨hs, hcount, hmem⟩ := invalidate_leaf_spec h.sorted path
      refine .mk hs ?_ ?_ ?_ ?_
      · exact fun sub hsub => h.names sub ((hmem sub).mp hsub).1
      · intro hv
        rw [hcount] at hv
        omega
      · intro hv
        rw [hcount] at hv
        omega
      · intro sub hsub
        obtain ⟨hsub, hne⟩ := (hmem sub).mp hsub
        have hc' : ChangedAlong (base ++ (path ++ [])) cache cache' := by simpa using hc
        exact (h.down sub hsub).off hc' (h.names sub hsub) hp hne.symm (Or.inl rfl)
    · rw [components_append name rest hn, invalidate_cons _ _ (components_ne_nil rest)]
      have hrest : ∀ sub ∈ it.down, sub.1 ≠ name →
          Coherent hash_tree cache' (subdir base sub.1) sub.2 := fun sub hsub hne =>
        (h.down sub hsub).off hc (h.names sub hsub) hn hne.symm (Or.inr ⟨rest, rfl⟩)
      cases hf : find_subtree it name with
      | none =>
        have hno := find_subtree_none h.sorted hf
        exact .mk h.sorted h.names (by simp) (by simp) fun sub hsub => hrest sub hsub (hno sub hsub)
      | some down =>
        have hmem := (find_subtree_mem h.sorted).mp hf
        have hdown := h.down _ hmem
        have hsub : Coherent hash_tree cache' (subdir base name) (git.invalidate down (components rest)) := by
          refine ih rest.length (by rw [← hl]; simp; omega) hdown ?_ rfl
          unfold subdir
          simpa using hc
        have hf' : find_subtree (.mk (-1) it.sha1 it.down) name = some down := hf
        have hsorted : (cache_tree.mk (-1) it.sha1 it.down).Sorted := h.sorted
        obtain ⟨h1, h2, -, h4⟩ := set_subtree_spec (git.invalidate down (components rest)) hsorted hf'
        refine .mk h1 ?_ (by simp [h2]) (by simp [h2]) ?_
        · intro sub hs
          rcases (h4 sub).mp hs with rfl | ⟨hs, -⟩
          · exact hn
          · exact h.names sub hs
        · intro sub hs
          rcases (h4 sub).mp hs with rfl | ⟨hs, hne⟩
          · exact hsub
          · exact hrest sub hs hne

/-! ## Operations on the index -/

theorem ChangedAlong.refl (path : Bytes) (cache : List cache_entry) :
    ChangedAlong path cache cache := fun _ _ => rfl

theorem ChangedAlong.trans {path : Bytes} {c1 c2 c3 : List cache_entry}
    (h1 : ChangedAlong path c1 c2) (h2 : ChangedAlong path c2 c3) : ChangedAlong path c1 c3 :=
  fun b hb => (h2 b hb).trans (h1 b hb)

/-- `n` is the path, a file under it, or a directory above it. -/
def Related (path n : Bytes) : Prop := n = path ∨ Under path n ∨ Under n path

theorem not_within_of_related {path base : Bytes} {e : cache_entry} (hb : ¬ Along path base)
    (he : Related path e.name) : ¬ Within base e := by
  rintro ⟨hp, hlen⟩
  rcases he with heq | hu | hu
  · exact hb (Or.inl (heq ▸ hp))
  · obtain ⟨r, hr⟩ := hu
    have hdir : path ++ [SLASH] <+: e.name := ⟨r, by rw [hr]; simp⟩
    rcases List.prefix_or_prefix_of_prefix hp hdir with h | h
    · rcases List.prefix_concat_iff.mp h with h | h
      · exact hb (Or.inr (h ▸ List.prefix_rfl))
      · exact hb (Or.inl h)
    · exact hb (Or.inr h)
  · exact hb (Or.inl (hp.trans hu.starts))

theorem filter_eq_of_sublist {α : Type*} {p : α → Bool} {l l' : List α} (hn : l.Nodup)
    (hs : l'.Sublist l) (hk : ∀ e ∈ l, p e = true → e ∈ l') : l'.filter p = l.filter p := by
  refine (hs.filter p).eq_of_length_le ?_
  have hsub : l.filter p ⊆ l'.filter p := by
    intro e he
    obtain ⟨he, hp⟩ := List.mem_filter.mp he
    exact List.mem_filter.mpr ⟨hk e he hp, hp⟩
  exact (List.subperm_of_subset (hn.filter p) hsub).length_le

theorem Trims.changed_along {P : cache_entry → Prop} {istate istate' : index_state} {path : Bytes}
    (ht : Trims P istate istate') (h : Ordered istate)
    (hP : ∀ e ∈ istate.cache, P e → Related path e.name) :
    ChangedAlong path istate.cache istate'.cache := by
  intro b hb
  refine filter_eq_of_sublist h.ascends.nodup ht.sublist fun e he hw => ?_
  by_contra hout
  exact not_within_of_related hb (hP e he (ht.gone e he hout)) (by simpa using hw)

theorem entries_within_append (l l' : List cache_entry) (base : Bytes) :
    entries_within (l ++ l') base = entries_within l base ++ entries_within l' base :=
  List.filter_append ..

theorem entries_within_cons_out {e : cache_entry} {base : Bytes} (l : List cache_entry)
    (h : ¬ Within base e) : entries_within (e :: l) base = entries_within l base :=
  List.filter_cons_of_neg (by simpa using h)

theorem changed_along_insert {path : Bytes} {e : cache_entry} (pre post : List cache_entry)
    (he : e.name = path) : ChangedAlong path (pre ++ post) (pre ++ e :: post) := by
  intro b hb
  rw [entries_within_append, entries_within_append,
    entries_within_cons_out _ (not_within_of_related hb (Or.inl he))]

theorem Leaves.related {ce e : cache_entry} {option : add_option} (h : Leaves ce option e) :
    Related ce.name e.name := by
  rcases h with ⟨-, hn⟩ | ⟨-, -, -, hw⟩
  · exact Or.inl hn
  · exact Or.inr hw.1

/-- No entry of another name has the key of `ce`: two names of 4095 bytes and
more may have one. -/
def NoAlias (istate : index_state) (ce : cache_entry) : Prop :=
  ∀ e ∈ istate.cache, e.key = ce.key → e.name = ce.name

theorem Adds.changed_along {istate : index_state} {ce : cache_entry} {option : add_option}
    {r : index_state × Bool} (ha : Adds istate ce option r) (h : Ordered istate)
    (hno : NoAlias istate ce) :
    ChangedAlong ce.name istate.cache r.1.cache ∧
      r.1.cache_tree = cache_tree_invalidate_path istate.cache_tree ce.name := by
  have h0 := h.invalidate_path ce.name
  cases ha with
  | kept old hold hkey hnew => exact ⟨ChangedAlong.refl _ _, rfl⟩
  | replaced pre post old hcache hkey hnew =>
    refine ⟨?_, rfl⟩
    have hnew := (add_name_hash_key (istate.invalidate_path ce.name) ce).1
    have hold : old.name = ce.name := hno old (by simp [hcache]) hkey
    have hc : (replace_index_entry (istate.invalidate_path ce.name) pre.length ce).cache =
        pre ++ add_name_hash (istate.invalidate_path ce.name) ce :: post := by
      simp only [replace_index_entry, set_index_entry, index_state.invalidate_path, hcache, set_append]
    rw [hc, hcache]
    intro b hb
    rw [changed_along_insert pre post hnew b hb, changed_along_insert pre post hold b hb]
  | refused istate' hno htrims =>
    exact ⟨htrims.changed_along h0 fun e _ he => he.related, htrims.cache_tree⟩
  | inserted istate' pre post hno htrims hcache hpre hpost hmerged =>
    refine ⟨?_, htrims.cache_tree⟩
    have h1 : ChangedAlong ce.name istate.cache istate'.cache :=
      htrims.changed_along h0 fun e _ he => he.related
    refine h1.trans ?_
    rw [hcache]
    exact changed_along_insert pre post (add_name_hash_key istate' ce).1

/-- The cache-tree of an index agrees with its entries. -/
def CoherentIndex (hash_tree : Bytes → Sha1) (istate : index_state) : Prop :=
  ∀ it, istate.cache_tree = some it → Coherent hash_tree istate.cache [] it

theorem CoherentIndex.along {hash_tree : Bytes → Sha1} {istate istate' : index_state}
    {path : Bytes} (h : CoherentIndex hash_tree istate)
    (hc : ChangedAlong path istate.cache istate'.cache)
    (ht : istate'.cache_tree = cache_tree_invalidate_path istate.cache_tree path) :
    CoherentIndex hash_tree istate' := by
  intro it hit
  rw [ht] at hit
  obtain ⟨it0, h0, rfl⟩ := Option.map_eq_some_iff.mp hit
  exact (h it0 h0).invalidate hc

theorem coherent_add {hash_tree : Bytes → Sha1} {istate : index_state} {ce : cache_entry}
    {option : add_option} (h : CoherentIndex hash_tree istate) (ho : Ordered istate)
    (hc : Named ce) (hj : option.just_append = false) (hno : NoAlias istate ce) :
    CoherentIndex hash_tree (add_index_entry istate ce option).1 := by
  obtain ⟨h1, h2⟩ := (add_index_entry_adds ho hc hj).changed_along ho hno
  exact h.along h1 h2

theorem coherent_remove_file {hash_tree : Bytes → Sha1} {istate : index_state} (path : Bytes)
    (h : CoherentIndex hash_tree istate) (ho : Ordered istate) :
    CoherentIndex hash_tree (remove_file_from_index istate path) := by
  have ht := trims_remove_file istate path
  exact h.along (ht.changed_along (ho.invalidate_path path) fun e _ he => Or.inl he) ht.cache_tree

theorem coherent_before_rename {hash_tree : Bytes → Sha1} {istate : index_state} {nr : Nat}
    {old : cache_entry} (h : CoherentIndex hash_tree istate) (ho : Ordered istate)
    (hold : istate.cache[nr]? = some old) : CoherentIndex hash_tree (before_rename istate nr old) := by
  have ht : Trims (fun e => e.name = old.name) (istate.invalidate_path old.name)
      (before_rename istate nr old) := trims_remove hold rfl
  exact h.along (ht.changed_along (ho.invalidate_path _) fun e _ he => Or.inl he) ht.cache_tree

theorem coherent_rename {hash_tree : Bytes → Sha1} {istate : index_state} {nr : Nat}
    {old : cache_entry} {new_name : Bytes} (h : CoherentIndex hash_tree istate)
    (ho : Ordered istate) (hold : istate.cache[nr]? = some old)
    (hno : NoAlias (before_rename istate nr old) (renamed old new_name)) :
    CoherentIndex hash_tree (rename_index_entry_at istate nr new_name) := by
  rw [rename_eq new_name hold]
  exact coherent_add (coherent_before_rename h ho hold)
    ((trims_before_rename istate nr old).ordered (ho.invalidate_path _)) (renamed_named _ _) rfl hno

end git
