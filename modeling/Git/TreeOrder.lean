-- Tree objects: their lines, the order of `base_name_compare`, and the files that a tree object
-- holds when its subtrees are read too.
import Git.Lib.Digits
import Git.Coherent

namespace git

/-! ## Lines -/

/-- One line of a tree object. -/
structure tree_item where
  mode : BitVec 32
  name : Bytes
  sha1 : Sha1

def tree_buffer (items : List tree_item) : Bytes :=
  items.flatMap fun x => tree_entry x.mode x.name x.sha1

theorem tree_buffer_cons (x : tree_item) (items : List tree_item) :
    tree_buffer (x :: items) = tree_entry x.mode x.name x.sha1 ++ tree_buffer items := by
  rw [tree_buffer, List.flatMap_cons]
  rfl

/-- `name[len]`, with `'/'` for the end of a directory. -/
def byte_after (name : Bytes) (len : Nat) (mode : BitVec 32) : UInt8 :=
  let c := name[len]?.getD 0
  if c = 0 ∧ S_ISDIR mode = true then SLASH else c

def base_name_compare (name1 : Bytes) (len1 : Nat) (mode1 : BitVec 32) (name2 : Bytes)
    (len2 : Nat) (mode2 : BitVec 32) : Ordering :=
  let len := min len1 len2
  let cmp := memcmp name1 name2 len
  if cmp ≠ .eq then cmp
  else
    let c1 := byte_after name1 len mode1
    let c2 := byte_after name2 len mode2
    if c1 < c2 then .lt else if c2 < c1 then .gt else .eq

/-- The first line is before the second one in a tree object. -/
def ItemBefore (a b : tree_item) : Prop :=
  base_name_compare a.name a.name.length a.mode b.name b.name.length b.mode = .lt

/-- The lines are in the order of tree objects, each name and kind once. -/
def Canonical (items : List tree_item) : Prop := items.Pairwise ItemBefore

/-! ## The order -/

/-- A name as tree objects sort it. -/
def sort_name (name : Bytes) (mode : BitVec 32) : Bytes :=
  if S_ISDIR mode = true then name ++ [SLASH] else name

theorem sort_name_cons (c : UInt8) (name : Bytes) (mode : BitVec 32) :
    sort_name (c :: name) mode = c :: sort_name name mode := by
  unfold sort_name
  split <;> rfl

theorem base_name_compare_cons (c : UInt8) (name1 name2 : Bytes) (mode1 mode2 : BitVec 32) :
    base_name_compare (c :: name1) (c :: name1).length mode1 (c :: name2) (c :: name2).length mode2 =
      base_name_compare name1 name1.length mode1 name2 name2.length mode2 := by
  unfold base_name_compare
  simp only [List.length_cons, Nat.succ_min_succ, memcmp, lt_irrefl, if_false]
  rfl

theorem byte_after_nil (mode : BitVec 32) (len : Nat) :
    byte_after [] len mode = if S_ISDIR mode = true then SLASH else 0 := by
  simp [byte_after]

theorem byte_after_cons {c : UInt8} (name : Bytes) (mode : BitVec 32) (h : c ≠ 0) :
    byte_after (c :: name) 0 mode = c := by
  simp [byte_after, h]

theorem pos_of_ne_zero {c : UInt8} (h : c ≠ 0) : 0 < c := by
  rw [UInt8.lt_iff_toNat_lt]
  exact Nat.pos_of_ne_zero fun h0 => h (UInt8.toNat_inj.mp h0)

/-- A directory sorts with a slash at its end. -/
theorem base_name_compare_lt {name1 name2 : Bytes} (mode1 mode2 : BitVec 32)
    (hs1 : SLASH ∉ name1) (hs2 : SLASH ∉ name2) (h1 : (0 : UInt8) ∉ name1) (h2 : (0 : UInt8) ∉ name2)
    (h : sort_name name1 mode1 < sort_name name2 mode2) :
    base_name_compare name1 name1.length mode1 name2 name2.length mode2 = .lt := by
  induction name1 generalizing name2 with
  | nil =>
    have hlt : byte_after [] 0 mode1 < byte_after name2 0 mode2 := by
      rw [byte_after_nil]
      cases name2 with
      | nil =>
        rw [byte_after_nil]
        unfold sort_name at h
        cases hd1 : S_ISDIR mode1 with
        | true => cases hd2 : S_ISDIR mode2 <;> simp [hd1, hd2] at h
        | false =>
          cases hd2 : S_ISDIR mode2 with
          | true => decide
          | false => simp [hd1, hd2] at h
      | cons c name2 =>
        have hc : c ≠ 0 := fun hc => h2 (hc ▸ List.mem_cons_self)
        have hcs : c ≠ SLASH := fun hc => hs2 (hc ▸ List.mem_cons_self)
        rw [byte_after_cons name2 mode2 hc]
        rw [sort_name_cons] at h
        unfold sort_name at h
        cases hd : S_ISDIR mode1 with
        | false => simpa using pos_of_ne_zero hc
        | true =>
          rw [hd, if_pos rfl, List.nil_append, List.cons_lt_cons_iff] at h
          rcases h with h | ⟨h, -⟩
          · simpa using h
          · exact absurd h.symm hcs
    unfold base_name_compare
    simp only [List.length_nil, Nat.zero_min, memcmp, ne_eq, not_true_eq_false, if_false, if_pos hlt]
  | cons c name1 ih =>
    have hc : c ≠ 0 := fun hc => h1 (hc ▸ List.mem_cons_self)
    have hcs : c ≠ SLASH := fun hc => hs1 (hc ▸ List.mem_cons_self)
    rw [sort_name_cons] at h
    cases name2 with
    | nil =>
      have hlt : byte_after (c :: name1) 0 mode1 < byte_after [] 0 mode2 := by
        rw [byte_after_cons name1 mode1 hc, byte_after_nil]
        unfold sort_name at h
        cases hd : S_ISDIR mode2 with
        | false => simp [hd] at h
        | true =>
          rw [hd, if_pos rfl, List.nil_append, List.cons_lt_cons_iff] at h
          rcases h with h | ⟨h, -⟩
          · simpa using h
          · exact absurd h hcs
      unfold base_name_compare
      simp only [List.length_nil, Nat.min_zero, memcmp, ne_eq, not_true_eq_false, if_false, if_pos hlt]
    | cons d name2 =>
      rw [sort_name_cons, List.cons_lt_cons_iff] at h
      rcases h with h | ⟨rfl, h⟩
      · unfold base_name_compare
        simp [memcmp, h]
      · rw [base_name_compare_cons]
        exact ih (fun hm => hs1 (List.mem_cons_of_mem _ hm)) (fun hm => hs2 (List.mem_cons_of_mem _ hm))
          (fun hm => h1 (List.mem_cons_of_mem _ hm)) (fun hm => h2 (List.mem_cons_of_mem _ hm)) h

/-! ## Lines are read back -/

theorem split_at_byte {c : UInt8} {a a' r r' : Bytes} (ha : c ∉ a) (ha' : c ∉ a')
    (h : a ++ c :: r = a' ++ c :: r') : a = a' ∧ r = r' := by
  induction a generalizing a' with
  | nil =>
    cases a' with
    | nil => exact ⟨rfl, (List.cons.inj h).2⟩
    | cons x a' => exact absurd (List.cons.inj h).1 fun hx => ha' (hx ▸ List.mem_cons_self)
  | cons x a ih =>
    cases a' with
    | nil => exact absurd (List.cons.inj h).1.symm fun hx => ha (hx ▸ List.mem_cons_self)
    | cons y a' =>
      obtain ⟨rfl, htail⟩ := List.cons.inj h
      obtain ⟨rfl, hr⟩ := ih (fun hm => ha (List.mem_cons_of_mem _ hm))
        (fun hm => ha' (List.mem_cons_of_mem _ hm)) htail
      exact ⟨rfl, hr⟩

theorem octal_no_blank (mode : BitVec 32) : (32 : UInt8) ∉ octal mode := by
  intro h
  have hdigit : digit_text.is_digit 8 32 = true :=
    digit_text.mem_write (by decide) (by decide) mode.toNat 32 h
  revert hdigit
  decide

/-- A buffer has the names of one list of lines. -/
theorem tree_buffer_names {items items' : List tree_item} (h : ∀ x ∈ items, (0 : UInt8) ∉ x.name)
    (h' : ∀ x ∈ items', (0 : UInt8) ∉ x.name) (hb : tree_buffer items = tree_buffer items') :
    items.map (·.name) = items'.map (·.name) := by
  have hempty : ∀ (x : tree_item) (items : List tree_item), tree_buffer (x :: items) ≠ [] := by
    intro x items hnil
    rw [tree_buffer_cons] at hnil
    simp [tree_entry] at hnil
  induction items generalizing items' with
  | nil =>
    cases items' with
    | nil => rfl
    | cons x items' => exact absurd hb.symm (hempty x items')
  | cons x items ih =>
    cases items' with
    | nil => exact absurd hb (hempty x items)
    | cons y items' =>
      rw [tree_buffer_cons, tree_buffer_cons, tree_entry, tree_entry] at hb
      simp only [List.append_assoc, List.cons_append] at hb
      obtain ⟨-, hb⟩ := split_at_byte (octal_no_blank x.mode) (octal_no_blank y.mode) hb
      obtain ⟨hname, hb⟩ := split_at_byte (h x List.mem_cons_self) (h' y List.mem_cons_self) hb
      have hlen : x.sha1.toList.length = y.sha1.toList.length := by simp
      have hrest := (List.append_inj hb hlen).2
      rw [List.map_cons, List.map_cons, hname, ih (fun z hz => h z (List.mem_cons_of_mem _ hz))
        (fun z hz => h' z (List.mem_cons_of_mem _ hz)) hrest]

/-! ## What a tree object holds -/

/-- A path with its mode and its object. -/
abbrev tree_file := Bytes × BitVec 32 × Sha1

/-- `files` are what the tree object of the directory `base` with these lines holds, its
subtrees and theirs included. Each subtree has lines, in the order of tree objects. -/
inductive Flattens (hash_tree : Bytes → Sha1) : Bytes → List tree_item → List tree_file → Prop where
  | nil (base : Bytes) : Flattens hash_tree base [] []
  | file {base : Bytes} {x : tree_item} {items : List tree_item} {files : List tree_file}
      (hname : SLASH ∉ x.name) (hmode : S_ISDIR x.mode = false)
      (hrest : Flattens hash_tree base items files) :
      Flattens hash_tree base (x :: items) ((base ++ x.name, x.mode, x.sha1) :: files)
  | dir {base : Bytes} {x : tree_item} {items sub : List tree_item} {below files : List tree_file}
      (hname : SLASH ∉ x.name) (hmode : x.mode = S_IFDIR)
      (hsha1 : x.sha1 = hash_tree (tree_buffer sub)) (hlines : sub ≠ []) (hcanonical : Canonical sub)
      (hsub : Flattens hash_tree (subdir base x.name) sub below)
      (hrest : Flattens hash_tree base items files) :
      Flattens hash_tree base (x :: items) (below ++ files)

section
variable {hash_tree : Bytes → Sha1} {base : Bytes} {items : List tree_item} {files : List tree_file}

/-- A file is in a line: as the file itself, or below it. -/
theorem Flattens.line_of_file (h : Flattens hash_tree base items files) :
    ∀ p ∈ files, ∃ x ∈ items, SLASH ∉ x.name ∧ (p.1 = base ++ x.name ∨ subdir base x.name <+: p.1) := by
  induction h with
  | nil => simp
  | @file base x items files hname hmode hrest ih =>
    intro p hp
    rcases List.mem_cons.mp hp with rfl | hp
    · exact ⟨x, List.mem_cons_self, hname, Or.inl rfl⟩
    · obtain ⟨y, hy, hyp⟩ := ih p hp
      exact ⟨y, List.mem_cons_of_mem _ hy, hyp⟩
  | @dir base x items sub below files hname hmode hsha1 hlines hcanonical hsub hrest ihsub ih =>
    intro p hp
    rcases List.mem_append.mp hp with hp | hp
    · obtain ⟨y, -, -, hyp⟩ := ihsub p hp
      refine ⟨x, List.mem_cons_self, hname, Or.inr ?_⟩
      rcases hyp with hyp | hyp
      · exact hyp ▸ List.prefix_append _ _
      · exact (prefix_subdir _ _).trans hyp
    · obtain ⟨y, hy, hyp⟩ := ih p hp
      exact ⟨y, List.mem_cons_of_mem _ hy, hyp⟩

/-- Each line has a file. -/
theorem Flattens.file_of_line (h : Flattens hash_tree base items files) :
    ∀ x ∈ items, ∃ p ∈ files, base ++ x.name <+: p.1 := by
  induction h with
  | nil => simp
  | @file base x items files hname hmode hrest ih =>
    intro y hy
    rcases List.mem_cons.mp hy with rfl | hy
    · exact ⟨_, List.mem_cons_self, List.prefix_rfl⟩
    · obtain ⟨p, hp, hyp⟩ := ih y hy
      exact ⟨p, List.mem_cons_of_mem _ hp, hyp⟩
  | @dir base x items sub below files hname hmode hsha1 hlines hcanonical hsub hrest ihsub ih =>
    intro y hy
    rcases List.mem_cons.mp hy with rfl | hy
    · obtain ⟨z, sub, rfl⟩ := List.exists_cons_of_ne_nil hlines
      obtain ⟨p, hp, hzp⟩ := ihsub z List.mem_cons_self
      refine ⟨p, List.mem_append_left _ hp, ?_⟩
      refine List.IsPrefix.trans ?_ hzp
      rw [subdir, List.append_assoc]
      exact List.prefix_append _ _
    · obtain ⟨p, hp, hyp⟩ := ih y hy
      exact ⟨p, List.mem_append_right _ hp, hyp⟩

end

end git
