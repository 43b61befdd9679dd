-- The lookup of a path in a tree, `get_tree_entry` of `tree-walk.c`, and that it finds what the
-- trees hold, whatever the names beside it are.
import Git.TreeDesc
import Git.TreeOrder

namespace git.tree_lookup

open git.tree_reader

/-! ## The lookup -/

def canon_mode (mode : BitVec 32) : BitVec 32 :=
  if S_ISREG mode then S_IFREG ||| ce_permissions mode
  else if S_ISLNK mode then S_IFLNK
  else if S_ISDIR mode then S_IFDIR
  else S_IFGITLINK

/-- The difference of the two pointers as an `int`. -/
def tree_entry_len (ne : name_entry) : Int := (BitVec.ofNat 32 (ne.sha1 - ne.path - 1)).toInt

/-- The 20 bytes that `hashcpy` takes. -/
def object_name (tree : Bytes) (sha1 : Nat) : Sha1 := Vector.ofFn fun i => tree[sha1 + i]?.getD 0

/-- The result of a lookup, with the mode if one was written. `missing` is -1. -/
inductive lookup where
  | found (sha1 : Sha1) (mode : Option (BitVec 32))
  | missing
  | fault (f : fault)
  | endless
  deriving DecidableEq

/-- What is done with one entry when the descriptor is behind it: the result, or nothing to
look at the next one. -/
def look_at (get_tree_entry : Sha1 → Bytes → lookup) (tree name : Bytes) (entry : name_entry) :
    Option lookup :=
  let mode := canon_mode entry.mode
  let sha1 := object_name tree entry.sha1
  let namelen := (BitVec.ofNat 32 name.length).toInt
  let entrylen := tree_entry_len entry
  if entrylen > namelen then none
  -- `memcmp` takes a negative length for a huge one.
  else if entrylen < 0 then some (.fault .overrun)
  else
    match memcmp name (tree.drop entry.path) entrylen.toNat with
    | .gt => none
    | .lt => some .missing
    | .eq =>
      if entrylen = namelen then some (.found sha1 (some mode))
      else if name[entrylen.toNat]? ≠ some SLASH then none
      else if !S_ISDIR mode then some .missing
      else if entrylen + 1 = namelen then some (.found sha1 (some mode))
      else some (get_tree_entry sha1 (name.drop (entrylen.toNat + 1)))

def find_tree_entry (get_tree_entry : Sha1 → Bytes → lookup) (tree name : Bytes) :
    Nat → tree_desc → lookup
  | 0, _ => .endless
  | turns + 1, t =>
    if t.size = 0 then .missing
    else
      match update_tree_entry tree t with
      | .error f => .fault f
      | .ok behind =>
        match look_at get_tree_entry tree name t.entry with
        | some result => result
        | none => find_tree_entry get_tree_entry tree name turns behind

/-- `read_object_with_reference` gives the bytes of a tree and its name. `unset` is the
descriptor on the stack. -/
def get_tree_entry (read_object_with_reference : Sha1 → Option (Bytes × Sha1))
    (unset : tree_desc) : Nat → Sha1 → Bytes → lookup
  | 0, _, _ => .endless
  | depth + 1, tree_sha1, name =>
    match read_object_with_reference tree_sha1 with
    | none => .missing
    | some (tree, root) =>
      if name = [] then .found root none
      else if tree.length = 0 then .missing
      else
        match init_tree_desc tree unset 0 tree.length with
        | .error f => .fault f
        | .ok t =>
          find_tree_entry (get_tree_entry read_object_with_reference unset depth) tree name
            (tree.length + 1) t

/-! ## Trees -/

/-- A name of an entry, or of a component of a path. -/
structure Component (name : Bytes) : Prop where
  non_empty : name ≠ []
  no_slash : SLASH ∉ name
  no_nul : (0 : UInt8) ∉ name

/-- In the order of tree objects, and each name once. -/
structure WellFormed (items : List tree_item) : Prop where
  names : ∀ x ∈ items, Component x.name
  canonical : Canonical items
  nodup : (items.map (·.name)).Nodup

/-- The objects: each of them is a well-formed tree. -/
structure tree_store where
  trees : Sha1 → Option (List tree_item)
  well_formed : ∀ sha1 items, trees sha1 = some items → WellFormed items

def tree_store.read_object_with_reference (store : tree_store) (sha1 : Sha1) :
    Option (Bytes × Sha1) :=
  (store.trees sha1).map fun items => (tree_buffer items, sha1)

/-- The entries of a tree with the trees below it read too: their paths. -/
inductive Names (store : tree_store) : Sha1 → List Bytes → tree_item → Prop where
  | entry {root : Sha1} {items : List tree_item} {x : tree_item}
      (htree : store.trees root = some items) (hx : x ∈ items) : Names store root [x.name] x
  | deeper {root : Sha1} {items : List tree_item} {d x : tree_item} {path : List Bytes}
      (htree : store.trees root = some items) (hd : d ∈ items) (hdir : S_ISDIR d.mode = true)
      (hbelow : Names store d.sha1 path x) : Names store root (d.name :: path) x

/-- The components with single slashes between them. -/
def path_name (path : List Bytes) : Bytes := [SLASH].intercalate path

/-! ## One entry -/

theorem memcmp_eq_iff {name entry : Bytes} (h : entry.length ≤ name.length) :
    memcmp name entry entry.length = .eq ↔ entry <+: name := by
  induction entry generalizing name with
  | nil => simp [memcmp]
  | cons c entry ih =>
    cases name with
    | nil => simp at h
    | cons d name =>
      rw [List.length_cons, memcmp, List.cons_prefix_cons]
      rcases lt_trichotomy c d with hlt | rfl | hgt
      · simp [hlt, hlt.not_gt, hlt.ne]
      · simp [ih (Nat.le_of_succ_le_succ h)]
      · simp [hgt, hgt.ne']

theorem memcmp_append (name entry rest : Bytes) :
    memcmp name (entry ++ rest) entry.length = memcmp name entry entry.length := by
  induction entry generalizing name with
  | nil => cases name <;> cases rest <;> simp [memcmp]
  | cons c entry ih =>
    cases name with
    | nil => simp [memcmp]
    | cons d name => simp only [List.cons_append, List.length_cons, memcmp, ih]

/-- What `look_at` does, for the entry as a line of the tree. -/
def look_item (get_tree_entry : Sha1 → Bytes → lookup) (name : Bytes) (x : tree_item) :
    Option lookup :=
  let mode := canon_mode x.mode
  if name.length < x.name.length then none
  else
    match memcmp name x.name x.name.length with
    | .gt => none
    | .lt => some .missing
    | .eq =>
      if x.name.length = name.length then some (.found x.sha1 (some mode))
      else if name[x.name.length]? ≠ some SLASH then none
      else if !S_ISDIR mode then some .missing
      else if x.name.length + 1 = name.length then some (.found x.sha1 (some mode))
      else some (get_tree_entry x.sha1 (name.drop (x.name.length + 1)))

/-- What is behind the first component of a path: nothing, or a slash and more. -/
def Below (tail : Bytes) : Prop := tail = [] ∨ ∃ rest, rest ≠ [] ∧ tail = SLASH :: rest

/-- An entry that the path goes on behind with a slash, or ends with, is its first component. -/
theorem Below.eq_of_prefix {c e tail : Bytes} (htail : Below tail) (hc : SLASH ∉ c)
    (he : SLASH ∉ e) (h : e <+: c ++ tail) (hend : ∀ ch ∈ (c ++ tail)[e.length]?, ch = SLASH) :
    e = c := by
  obtain ⟨r, hr⟩ := h
  rcases htail with rfl | ⟨rest, -, rfl⟩
  · rw [List.append_nil] at hr hend
    cases r with
    | nil => rwa [List.append_nil] at hr
    | cons ch r =>
      obtain rfl : ch = SLASH := hend ch (by simp [← hr])
      exact absurd (hr ▸ List.mem_append_right e List.mem_cons_self) hc
  · cases r with
    | nil =>
      rw [List.append_nil] at hr
      exact absurd (hr ▸ List.mem_append_right c List.mem_cons_self) he
    | cons ch r =>
      obtain rfl : ch = SLASH := hend ch (by simp [← hr])
      exact (split_at_byte he hc hr).1

theorem S_ISDIR_canon_mode (mode : BitVec 32) : S_ISDIR (canon_mode mode) = S_ISDIR mode := by
  unfold canon_mode
  split
  · rename_i hreg
    have hperm : S_ISDIR (S_IFREG ||| ce_permissions mode) = false := by
      unfold ce_permissions
      split <;> decide
    rw [hperm]
    simp only [S_ISREG, S_ISDIR, beq_iff_eq] at hreg ⊢
    rw [hreg]
    decide
  · split
    · rename_i hlnk
      simp only [S_ISLNK, S_ISDIR, beq_iff_eq] at hlnk ⊢
      rw [hlnk]
      decide
    · split
      · rename_i hdir
        rw [hdir]
        decide
      · rename_i hdir
        rw [Bool.not_eq_true] at hdir
        rw [hdir]
        decide

section
variable (get : Sha1 → Bytes → lookup) {c tail : Bytes} {x : tree_item}

/-- What the entry of the first component gives. -/
def result_at (get : Sha1 → Bytes → lookup) (tail : Bytes) (x : tree_item) : lookup :=
  if tail = [] then .found x.sha1 (some (canon_mode x.mode))
  else if S_ISDIR x.mode then get x.sha1 tail.tail
  else .missing

theorem look_item_eq (htail : Below tail) (hx : x.name = c) :
    look_item get (c ++ tail) x = some (result_at get tail x) := by
  subst hx
  have hlen : ¬ (x.name ++ tail).length < x.name.length := by simp
  have hcmp : memcmp (x.name ++ tail) x.name x.name.length = .eq :=
    (memcmp_eq_iff (by simp)).mpr (List.prefix_append _ _)
  rw [look_item, if_neg hlen, hcmp, result_at]
  rcases htail with rfl | ⟨rest, hrest, rfl⟩
  · simp
  · have hpos : rest.length ≠ 0 := fun h => hrest (List.length_eq_zero_iff.mp h)
    have hslash : (x.name ++ SLASH :: rest)[x.name.length]? = some SLASH := by simp
    have hdrop : (x.name ++ SLASH :: rest).drop (x.name.length + 1) = rest := by simp
    simp only [hslash, hdrop, S_ISDIR_canon_mode, List.length_append, List.length_cons,
      List.cons_ne_nil, if_false, List.tail_cons, ne_eq, not_true_eq_false]
    rw [if_neg (by omega)]
    cases S_ISDIR x.mode with
    | false => rfl
    | true =>
      simp only [Bool.not_true, Bool.false_eq_true, if_false, if_true]
      rw [if_neg (by omega)]

theorem look_item_other (htail : Below tail) (hc : SLASH ∉ c) (hslash : SLASH ∉ x.name)
    (hx : x.name ≠ c) :
    look_item get (c ++ tail) x = none ∨
      x.name.length ≤ (c ++ tail).length ∧
        memcmp (c ++ tail) x.name x.name.length = .lt ∧
        look_item get (c ++ tail) x = some .missing := by
  by_cases hlen : (c ++ tail).length < x.name.length
  · exact Or.inl (by rw [look_item, if_pos hlen])
  have hle : x.name.length ≤ (c ++ tail).length := Nat.le_of_not_lt hlen
  rw [look_item, if_neg hlen]
  cases hcmp : memcmp (c ++ tail) x.name x.name.length with
  | gt => exact Or.inl rfl
  | lt => exact Or.inr ⟨hle, rfl, rfl⟩
  | eq =>
    have hprefix := (memcmp_eq_iff hle).mp hcmp
    have hend : ¬ ∀ ch ∈ (c ++ tail)[x.name.length]?, ch = SLASH :=
      fun h => hx (htail.eq_of_prefix hc hslash hprefix h)
    have hshort : x.name.length ≠ (c ++ tail).length := by
      intro heq
      exact hend (by rw [heq]; simp)
    have hnot : (c ++ tail)[x.name.length]? ≠ some SLASH := by
      intro heq
      exact hend (by rw [heq]; simp)
    refine Or.inl ?_
    simp only [if_neg hshort, if_pos hnot]

end

/-- An entry before the one of the first component does not stop the scan. -/
theorem memcmp_before {e d tail : Bytes} {em dm : BitVec 32} (he : (0 : UInt8) ∉ e)
    (htail : Below tail) (hdir : tail = [] ∨ S_ISDIR dm = true)
    (hlen : e.length ≤ (d ++ tail).length)
    (h : base_name_compare e e.length em d d.length dm = .lt) :
    memcmp (d ++ tail) e e.length ≠ .lt := by
  induction e generalizing d with
  | nil => cases d <;> cases tail <;> simp [memcmp]
  | cons a e ih =>
    obtain ⟨ha, he⟩ : a ≠ 0 ∧ (0 : UInt8) ∉ e := by simpa [eq_comm] using he
    cases d with
    | nil =>
      rcases htail with rfl | ⟨rest, -, rfl⟩
      · simp at hlen
      · have hbefore : a < SLASH := by
          have hdm : S_ISDIR dm = true := hdir.resolve_left (List.cons_ne_nil _ _)
          unfold base_name_compare at h
          simpa [memcmp, byte_after_nil, byte_after_cons e em ha, if_pos hdm] using h
        simp [memcmp, hbefore, hbefore.not_gt]
    | cons b d =>
      rw [List.cons_append, List.length_cons, memcmp]
      rcases lt_trichotomy a b with hlt | rfl | hgt
      · simp [hlt, hlt.not_gt]
      · rw [base_name_compare_cons] at h
        simpa using ih he (by simpa using hlen) h
      · unfold base_name_compare at h
        simp [memcmp, hgt, hgt.not_gt] at h

/-! ## The lines of a tree -/

def find_item (get_tree_entry : Sha1 → Bytes → lookup) (name : Bytes) : List tree_item → lookup
  | [] => .missing
  | x :: items =>
    match look_item get_tree_entry name x with
    | some result => result
    | none => find_item get_tree_entry name items

theorem WellFormed.tail {x : tree_item} {items : List tree_item} (h : WellFormed (x :: items)) :
    WellFormed items :=
  ⟨fun y hy => h.names y (List.mem_cons_of_mem _ hy), (List.pairwise_cons.mp h.canonical).2,
    (List.nodup_cons.mp h.nodup).2⟩

/-- The scan gives what the entry of the first component gives, if there is one. -/
theorem find_item_eq {items : List tree_item} {c tail : Bytes} (hitems : WellFormed items)
    (htail : Below tail) (hc : SLASH ∉ c) (get : Sha1 → Bytes → lookup) :
    (∀ x ∈ items, x.name = c → find_item get (c ++ tail) items = result_at get tail x) ∧
      ((∀ x ∈ items, x.name ≠ c) → find_item get (c ++ tail) items = .missing) := by
  induction items with
  | nil => exact ⟨by simp, fun _ => rfl⟩
  | cons e items ih =>
    obtain ⟨ihfound, ihmissing⟩ := ih hitems.tail
    have hename := hitems.names e List.mem_cons_self
    by_cases he : e.name = c
    · have hfirst : find_item get (c ++ tail) (e :: items) = result_at get tail e := by
        rw [find_item, look_item_eq get htail he]
      refine ⟨fun x hx hxc => ?_, fun h => absurd he (h e List.mem_cons_self)⟩
      rcases List.mem_cons.mp hx with rfl | hx
      · exact hfirst
      · have hnot := (List.nodup_cons.mp hitems.nodup).1
        exact absurd (List.mem_map.mpr ⟨x, hx, hxc.trans he.symm⟩) hnot
    · rcases look_item_other get htail hc hename.no_slash he with hon | ⟨hlen, hlt, hstop⟩
      · have hskip : find_item get (c ++ tail) (e :: items) = find_item get (c ++ tail) items := by
          rw [find_item, hon]
        rw [hskip]
        refine ⟨fun x hx hxc => ?_, fun h => ihmissing fun x hx => h x (List.mem_cons_of_mem _ hx)⟩
        rcases List.mem_cons.mp hx with rfl | hx
        · exact absurd hxc he
        · exact ihfound x hx hxc
      · have hmissing : find_item get (c ++ tail) (e :: items) = .missing := by
          rw [find_item, hstop]
        rw [hmissing]
        refine ⟨fun x hx hxc => ?_, fun _ => rfl⟩
        rcases List.mem_cons.mp hx with rfl | hx
        · exact absurd hxc he
        -- The scan stops before the entry only if the entry does not have what is asked for.
        · subst hxc
          by_cases hdir : tail = [] ∨ S_ISDIR x.mode = true
          · have hbefore := (List.pairwise_cons.mp hitems.canonical).1 x hx
            exact absurd hlt (memcmp_before hename.no_nul htail hdir hlen hbefore)
          · rw [not_or] at hdir
            rw [result_at, if_neg hdir.1, if_neg hdir.2]

/-! ## The descriptor over the lines -/

/-- The bytes of a line. -/
def line (x : tree_item) : Bytes := git.tree_entry x.mode x.name x.sha1

theorem tree_buffer_line (x : tree_item) (items : List tree_item) :
    tree_buffer (x :: items) = line x ++ tree_buffer items := tree_buffer_cons x items

theorem line_eq (x : tree_item) (rest : Bytes) :
    line x ++ rest = octal x.mode ++ 32 :: (x.name ++ 0 :: (x.sha1.toList ++ rest)) := by
  simp [line, git.tree_entry]

theorem length_line (x : tree_item) :
    (line x).length = (octal x.mode).length + x.name.length + 22 := by
  simp only [line, git.tree_entry, List.length_append, List.length_cons, Vector.length_toList]
  omega

theorem octal_pos (mode : BitVec 32) : 0 < (octal mode).length :=
  List.length_pos_of_ne_nil (digit_text.write_ne_nil (by decide) mode.toNat)

theorem mode_loop_digits {digits : Bytes} (h : ∀ c ∈ digits, digit_text.is_digit 8 c = true)
    (str acc : Nat) (rest : Bytes) :
    mode_loop str (BitVec.ofNat 32 acc) (digits ++ 32 :: rest) =
      .ok (some (str + digits.length + 1,
        BitVec.ofNat 32 (digit_text.read 8 acc (digits ++ 32 :: rest)).1)) := by
  induction digits generalizing str acc with
  | nil => simp [mode_loop, digit_text.read, show digit_text.is_digit 8 32 = false by decide]
  | cons c digits ih =>
    have hc := h c List.mem_cons_self
    have hbounds : 48 ≤ c.toNat ∧ c.toNat < 56 := by
      simpa [digit_text.is_digit] using hc
    have hblank : c ≠ 32 := by
      rintro rfl
      exact absurd hbounds.1 (by decide)
    have hoctal : ¬ (c < 48 ∨ 55 < c) := by
      rw [UInt8.lt_iff_toNat_lt, UInt8.lt_iff_toNat_lt, not_or]
      exact ⟨not_lt.mpr hbounds.1, not_lt.mpr (Nat.le_of_lt_succ hbounds.2)⟩
    have hvalue : (BitVec.ofNat 32 acc <<< 3) + BitVec.ofNat 32 (c.toNat - 48) =
        BitVec.ofNat 32 (acc * 8 + (c.toNat - 48)) := by
      apply BitVec.eq_of_toNat_eq
      simp [BitVec.toNat_shiftLeft, Nat.shiftLeft_eq]
    rw [List.cons_append, mode_loop, if_neg hblank, if_neg hoctal, hvalue, digit_text.read,
      if_pos hc, ih (fun d hd => h d (List.mem_cons_of_mem c hd)), List.length_cons,
      Nat.add_right_comm str 1, Nat.add_assoc str digits.length 1]

theorem get_mode_line {tree : Bytes} {buf : Nat} {mode : BitVec 32} {rest : Bytes}
    (h : tree.drop buf = octal mode ++ 32 :: rest) :
    get_mode tree buf = .ok (some (buf + (octal mode).length + 1, mode)) := by
  have hdigits : ∀ c ∈ octal mode, digit_text.is_digit 8 c = true :=
    digit_text.mem_write (by decide) (by decide) mode.toNat
  obtain ⟨d, digits, hd⟩ := List.exists_cons_of_ne_nil (List.ne_nil_of_length_pos (octal_pos mode))
  have hfirst : byte_at tree buf = .ok d := by
    have hget : (tree.drop buf)[0]? = some d := by simp [h, hd]
    rw [List.getElem?_drop, Nat.add_zero] at hget
    rw [byte_at, hget]
  have hblank : d ≠ 32 := by
    rintro rfl
    exact octal_no_blank mode (hd ▸ List.mem_cons_self)
  have hread : digit_text.read 8 0 (octal mode ++ 32 :: rest) = (mode.toNat, 32 :: rest) :=
    digit_text.read_write (by decide) (by decide) mode.toNat (by simp; decide)
  rw [get_mode, hfirst, ok_bind, if_neg hblank, h]
  have hloop := mode_loop_digits hdigits buf 0 rest
  rw [hread] at hloop
  simpa using hloop

theorem strlen_name {name : Bytes} (h : (0 : UInt8) ∉ name) (rest : Bytes) :
    strlen (name ++ 0 :: rest) = .ok name.length := by
  induction name with
  | nil => simp [strlen]
  | cons c name ih =>
    obtain ⟨hc, hname⟩ : c ≠ 0 ∧ (0 : UInt8) ∉ name := by simpa [eq_comm] using h
    rw [List.cons_append, strlen, if_neg hc, ih hname]
    rfl

/-- The NUL of the last name is 21 bytes from the end. -/
theorem sentinel (x : tree_item) (items : List tree_item) :
    21 ≤ (tree_buffer (x :: items)).length ∧
      (tree_buffer (x :: items))[(tree_buffer (x :: items)).length - 21]? = some 0 := by
  induction items generalizing x with
  | nil =>
    have hlen := length_line x
    rw [tree_buffer_line, show tree_buffer [] = [] from rfl, List.append_nil]
    refine ⟨by omega, ?_⟩
    have hplace : (line x).length - 21 = (octal x.mode).length + (1 + x.name.length) := by omega
    have hbytes := line_eq x []
    rw [List.append_nil] at hbytes
    rw [hplace, hbytes, List.getElem?_append_right (by omega), Nat.add_sub_cancel_left,
      Nat.add_comm 1, List.getElem?_cons_succ, List.getElem?_append_right le_rfl, Nat.sub_self]
    rfl
  | cons y items ih =>
    obtain ⟨hlen, hnul⟩ := ih y
    rw [tree_buffer_line x, List.length_append]
    refine ⟨by omega, ?_⟩
    rw [Nat.add_sub_assoc hlen, List.getElem?_append_right (by omega), Nat.add_sub_cancel_left,
      hnul]

/-- The entry of a descriptor has this line. -/
structure Decoded (tree : Bytes) (entry : name_entry) (x : tree_item) : Prop where
  name : ∃ rest, tree.drop entry.path = x.name ++ rest
  place : entry.sha1 = entry.path + x.name.length + 1
  sha1 : object_name tree entry.sha1 = x.sha1
  mode : entry.mode = x.mode

theorem object_name_eq {tree : Bytes} {place : Nat} {sha1 : Sha1} {rest : Bytes}
    (h : tree.drop place = sha1.toList ++ rest) : object_name tree place = sha1 := by
  apply Vector.ext
  intro i hi
  have hget : tree[place + i]? = some sha1[i] := by
    rw [← List.getElem?_drop, h, List.getElem?_append_left (by simpa using hi)]
    simp
  simp [object_name, hget]

theorem decode_line {tree : Bytes} {buf : Nat} {x : tree_item} {items : List tree_item}
    (hbytes : tree.drop buf = tree_buffer (x :: items)) (hx : Component x.name)
    (hsize : (tree_buffer (x :: items)).length < 2 ^ 31) (desc : tree_desc) :
    ∃ entry, decode_tree_entry tree desc buf (tree_buffer (x :: items)).length =
        .ok { desc with entry } ∧
      Decoded tree entry x ∧ entry.sha1 + 20 = buf + (line x).length := by
  obtain ⟨hlong, hnul⟩ := sentinel x items
  have hlen := length_line x
  have hname : 0 < x.name.length := List.length_pos_of_ne_nil hx.non_empty
  have hoctal := octal_pos x.mode
  have hbuffer : (tree_buffer (x :: items)).length =
      (line x).length + (tree_buffer items).length := by
    rw [tree_buffer_line, List.length_append]
  have hshape := hbytes
  rw [tree_buffer_line, line_eq] at hshape
  have hlast : byte_at tree (buf + (tree_buffer (x :: items)).length - 21) = .ok 0 := by
    rw [byte_at, Nat.add_sub_assoc hlong, ← List.getElem?_drop, hbytes, hnul]
  -- From the name on, and from the object name on.
  have hpath : tree.drop (buf + (octal x.mode).length + 1) =
      x.name ++ 0 :: (x.sha1.toList ++ tree_buffer items) := by
    rw [Nat.add_assoc, ← List.drop_drop, hshape, ← List.drop_drop, List.drop_left]
    rfl
  have hsha1 : tree.drop (buf + (octal x.mode).length + 1 + (x.name.length + 1)) =
      x.sha1.toList ++ tree_buffer items := by
    rw [← List.drop_drop, hpath, ← List.drop_drop, List.drop_left]
    rfl
  have hfirst : ∃ c, byte_at tree (buf + (octal x.mode).length + 1) = .ok c ∧ c ≠ 0 := by
    obtain ⟨c, name, hc⟩ := List.exists_cons_of_ne_nil hx.non_empty
    have hget : (tree.drop (buf + (octal x.mode).length + 1))[0]? = some c := by
      rw [hpath, hc]
      rfl
    rw [List.getElem?_drop, Nat.add_zero] at hget
    exact ⟨c, by rw [byte_at, hget], fun h0 => hx.no_nul (h0 ▸ hc ▸ List.mem_cons_self)⟩
  obtain ⟨c, hbyte, hc⟩ := hfirst
  have hmod : (x.name.length + 1) % 2 ^ 32 = x.name.length + 1 := Nat.mod_eq_of_lt (by omega)
  refine ⟨⟨buf + (octal x.mode).length + 1 + (x.name.length + 1),
    buf + (octal x.mode).length + 1, x.mode⟩, ?_, ⟨⟨_, hpath⟩, rfl, ?_, rfl⟩, ?_⟩
  · rw [decode_tree_entry, if_neg (by omega), hlast, ok_bind, if_neg (not_not.mpr rfl),
      get_mode_line hshape, ok_bind]
    simp only
    rw [hbyte, ok_bind, if_neg hc, hpath, strlen_name hx.no_nul, ok_bind, hmod]
  · exact object_name_eq hsha1
  · simp only
    omega

/-- The descriptor is in front of these lines. -/
structure Reads (tree : Bytes) (t : tree_desc) (items : List tree_item) : Prop where
  bytes : tree.drop t.buffer = tree_buffer items
  size : t.size.toNat = (tree_buffer items).length
  entry : ∀ x ∈ items.head?, Decoded tree t.entry x ∧ t.entry.sha1 + 20 = t.buffer + (line x).length

/-- The entry that decoding leaves at some lines. -/
theorem reads_decoded {tree : Bytes} {items : List tree_item} (desc : tree_desc)
    (hnames : ∀ x ∈ items, Component x.name) (hbytes : tree.drop desc.buffer = tree_buffer items)
    (hsize : desc.size.toNat = (tree_buffer items).length)
    (hsmall : (tree_buffer items).length < 2 ^ 31) :
    ∃ t, (if (tree_buffer items).length ≠ 0 then
        decode_tree_entry tree desc desc.buffer (tree_buffer items).length else .ok desc) = .ok t ∧
      Reads tree t items := by
  cases items with
  | nil => exact ⟨desc, by simp [tree_buffer], hbytes, hsize, by simp⟩
  | cons x items =>
    have hlong := (sentinel x items).1
    rw [if_pos (by omega)]
    obtain ⟨entry, heq, hdecoded, hend⟩ :=
      decode_line hbytes (hnames x List.mem_cons_self) hsmall desc
    refine ⟨_, heq, hbytes, hsize, ?_⟩
    rintro y hy
    obtain rfl : x = y := by simpa using hy
    exact ⟨hdecoded, hend⟩

theorem init_reads {items : List tree_item} (hnames : ∀ x ∈ items, Component x.name)
    (hsmall : (tree_buffer items).length < 2 ^ 31) (unset : tree_desc) :
    ∃ t, init_tree_desc (tree_buffer items) unset 0 (tree_buffer items).length = .ok t ∧
      Reads (tree_buffer items) t items := by
  refine reads_decoded
    { unset with
      buffer := 0
      size := BitVec.ofNat 32 (tree_buffer items).length } hnames (by simp) ?_ hsmall
  rw [BitVec.toNat_ofNat, Nat.mod_eq_of_lt (by omega)]

theorem update_reads {tree : Bytes} {t : tree_desc} {x : tree_item} {items : List tree_item}
    (h : Reads tree t (x :: items)) (hnames : ∀ y ∈ items, Component y.name)
    (hsmall : (tree_buffer (x :: items)).length < 2 ^ 31) :
    ∃ t', update_tree_entry tree t = .ok t' ∧ Reads tree t' items := by
  obtain ⟨-, hend⟩ := h.entry x rfl
  have hsize := h.size
  have hbytes := h.bytes
  rw [tree_buffer_line, List.length_append] at hsize hsmall
  rw [tree_buffer_line] at hbytes
  have hlen : t.entry.sha1 + 20 - t.buffer = (line x).length := by omega
  have hleft : t.size.toNat - (line x).length = (tree_buffer items).length := by omega
  rw [update_tree_entry]
  simp only [hlen, hleft]
  rw [if_neg (by omega)]
  refine reads_decoded
    { t with
      buffer := t.entry.sha1 + 20
      size := BitVec.ofNat 32 (tree_buffer items).length } hnames ?_ ?_ (by omega)
  · simp only [hend]
    rw [← List.drop_drop, hbytes, List.drop_left]
  · rw [BitVec.toNat_ofNat, Nat.mod_eq_of_lt (by omega)]

theorem look_at_eq {tree name : Bytes} {entry : name_entry} {x : tree_item}
    (h : Decoded tree entry x) (hx : x.name.length < 2 ^ 31) (hname : name.length < 2 ^ 31)
    (get : Sha1 → Bytes → lookup) : look_at get tree name entry = look_item get name x := by
  obtain ⟨rest, hrest⟩ := h.name
  have hentry : tree_entry_len entry = x.name.length := by
    have hdiff : entry.sha1 - entry.path - 1 = x.name.length := by
      have hplace := h.place
      omega
    rw [tree_entry_len, hdiff, BitVec.toInt_eq_toNat_of_lt] <;> simp <;> omega
  have hlen : (BitVec.ofNat 32 name.length).toInt = name.length := by
    rw [BitVec.toInt_eq_toNat_of_lt] <;> simp <;> omega
  have hnext : ((x.name.length : Int) + 1 = name.length) ↔ x.name.length + 1 = name.length := by
    omega
  have hpos : ¬ ((x.name.length : Int) < 0) := by omega
  unfold look_at look_item
  simp only [hentry, hlen, h.mode, h.sha1, hrest, Int.toNat_natCast, memcmp_append, gt_iff_lt,
    Nat.cast_lt, Nat.cast_inj, hpos, if_false, hnext]

theorem find_tree_entry_eq {tree name : Bytes} {items : List tree_item} {t : tree_desc}
    {turns : Nat} (h : Reads tree t items) (hnames : ∀ x ∈ items, Component x.name)
    (hsmall : (tree_buffer items).length < 2 ^ 31) (hname : name.length < 2 ^ 31)
    (hturns : (tree_buffer items).length < turns) (get : Sha1 → Bytes → lookup) :
    find_tree_entry get tree name turns t = find_item get name items := by
  induction items generalizing t turns with
  | nil =>
    obtain ⟨turns, rfl⟩ := Nat.exists_eq_add_one_of_ne_zero (Nat.ne_zero_of_lt hturns)
    have hzero : t.size = 0 := BitVec.eq_of_toNat_eq h.size
    rw [find_tree_entry, if_pos hzero]
    rfl
  | cons x items ih =>
    obtain ⟨turns, rfl⟩ := Nat.exists_eq_add_one_of_ne_zero (Nat.ne_zero_of_lt hturns)
    have hothers : ∀ y ∈ items, Component y.name := fun y hy => hnames y (List.mem_cons_of_mem _ hy)
    obtain ⟨hdecoded, -⟩ := h.entry x rfl
    obtain ⟨t', hupdate, hreads⟩ := update_reads h hothers hsmall
    have hlen := length_line x
    have hsize := h.size
    rw [tree_buffer_line, List.length_append] at hsmall hturns hsize
    have hsome : t.size ≠ 0 := by
      intro hzero
      have hnone : t.size.toNat = 0 := by
        rw [hzero]
        rfl
      omega
    rw [find_tree_entry, if_neg hsome, hupdate, find_item]
    simp only
    rw [look_at_eq hdecoded (by omega) hname]
    cases look_item get name x with
    | some result => rfl
    | none => exact ih hreads hothers (by omega) (by omega)

/-! ## Paths -/

/-- The trees are of less than 2 GiB. -/
def tree_store.Small (store : tree_store) : Prop :=
  ∀ sha1 items, store.trees sha1 = some items → (tree_buffer items).length < 2 ^ 31

theorem path_name_cons (c : Bytes) (path : List Bytes) :
    path_name (c :: path) = c ++ if path = [] then [] else SLASH :: path_name path := by
  cases path with
  | nil => simp [path_name]
  | cons d path => simp [path_name]

theorem path_name_ne_nil {path : List Bytes} (hne : path ≠ []) (h : ∀ c ∈ path, Component c) :
    path_name path ≠ [] := by
  obtain ⟨c, path, rfl⟩ := List.exists_cons_of_ne_nil hne
  rw [path_name_cons]
  exact List.append_ne_nil_of_left_ne_nil (h c List.mem_cons_self).non_empty _

theorem names_cons_iff {store : tree_store} {root : Sha1} {items : List tree_item}
    (hroot : store.trees root = some items) (c : Bytes) (path : List Bytes) (x : tree_item) :
    Names store root (c :: path) x ↔ ∃ d ∈ items, d.name = c ∧
      (path = [] ∧ x = d ∨ S_ISDIR d.mode = true ∧ Names store d.sha1 path x) := by
  constructor
  · intro h
    cases h with
    | entry htree hx =>
      obtain rfl := Option.some.inj (hroot.symm.trans htree)
      exact ⟨x, hx, rfl, Or.inl ⟨rfl, rfl⟩⟩
    | deeper htree hd hdir hbelow =>
      obtain rfl := Option.some.inj (hroot.symm.trans htree)
      exact ⟨_, hd, rfl, Or.inr ⟨hdir, hbelow⟩⟩
  · rintro ⟨d, hd, rfl, ⟨rfl, rfl⟩ | ⟨hdir, hbelow⟩⟩
    · exact .entry hroot hd
    · exact .deeper hroot hd hdir hbelow

theorem not_names_nil {store : tree_store} {root : Sha1} {x : tree_item} :
    ¬ Names store root [] x := by
  intro h
  cases h

/-- A call at a tree is a scan of its lines. -/
theorem get_tree_entry_scan {store : tree_store} (hstore : store.Small) (unset : tree_desc)
    {root : Sha1} {items : List tree_item} (hroot : store.trees root = some items) {name : Bytes}
    (hne : name ≠ []) (hname : name.length < 2 ^ 31) (depth : Nat) :
    get_tree_entry store.read_object_with_reference unset (depth + 1) root name =
      find_item (get_tree_entry store.read_object_with_reference unset depth) name items := by
  have hitems := store.well_formed root items hroot
  have hsmall := hstore root items hroot
  rw [get_tree_entry, tree_store.read_object_with_reference, hroot, Option.map_some]
  simp only [if_neg hne]
  by_cases hempty : (tree_buffer items).length = 0
  · cases items with
    | nil => simp [tree_buffer, find_item]
    | cons x items =>
      have hlong := (sentinel x items).1
      omega
  · rw [if_neg hempty]
    obtain ⟨t, hinit, hreads⟩ := init_reads hitems.names hsmall unset
    rw [hinit]
    exact find_tree_entry_eq hreads hitems.names hsmall hname (Nat.lt_succ_self _) _

/-- The lookup gives the object name and the mode, in its canonical form, of what the path
names in the trees, and misses where it names nothing. -/
theorem get_tree_entry_finds (store : tree_store) (hstore : store.Small) (unset : tree_desc)
    (root : Sha1) (path : List Bytes) (hpath : path ≠ []) (hcomponents : ∀ c ∈ path, Component c)
    (hlen : (path_name path).length < 2 ^ 31) (depth : Nat) (hdepth : path.length ≤ depth) :
    (∀ x, Names store root path x →
      get_tree_entry store.read_object_with_reference unset depth root (path_name path) =
        .found x.sha1 (some (canon_mode x.mode))) ∧
      ((∀ x, ¬ Names store root path x) →
        get_tree_entry store.read_object_with_reference unset depth root (path_name path) =
          .missing) := by
  induction path generalizing root depth with
  | nil => exact absurd rfl hpath
  | cons c path ih =>
    obtain ⟨depth, rfl⟩ := Nat.exists_eq_add_one_of_ne_zero (n := depth) (by
      rw [List.length_cons] at hdepth
      omega)
    have hrest : ∀ d ∈ path, Component d := fun d hd => hcomponents d (List.mem_cons_of_mem _ hd)
    cases hroot : store.trees root with
    | none =>
      have hcall : get_tree_entry store.read_object_with_reference unset (depth + 1) root
          (path_name (c :: path)) = .missing := by
        rw [get_tree_entry, tree_store.read_object_with_reference, hroot]
        rfl
      refine ⟨fun x hx => ?_, fun _ => hcall⟩
      cases hx with
      | entry htree => simp [hroot] at htree
      | deeper htree => simp [hroot] at htree
    | some items =>
      have htail : Below (if path = [] then [] else SLASH :: path_name path) := by
        split
        · exact Or.inl rfl
        · exact Or.inr ⟨_, path_name_ne_nil ‹_› hrest, rfl⟩
      obtain ⟨hfound, hmissing⟩ := find_item_eq (store.well_formed root items hroot) htail
        (hcomponents c List.mem_cons_self).no_slash
        (get_tree_entry store.read_object_with_reference unset depth)
      simp only [get_tree_entry_scan hstore unset hroot (path_name_ne_nil hpath hcomponents) hlen,
        names_cons_iff hroot]
      rw [path_name_cons] at hlen ⊢
      -- What a directory of that name goes on with.
      have hsub : ∀ d ∈ items, d.name = c → path ≠ [] → S_ISDIR d.mode = true →
          find_item (get_tree_entry store.read_object_with_reference unset depth)
              (c ++ if path = [] then [] else SLASH :: path_name path) items =
            get_tree_entry store.read_object_with_reference unset depth d.sha1
              (path_name path) := by
        intro d hd hdc hne hdir
        rw [hfound d hd hdc, result_at, if_neg hne, if_neg (List.cons_ne_nil _ _), if_pos hdir,
          List.tail_cons]
      have hdeep : path ≠ [] → (path_name path).length < 2 ^ 31 := by
        intro hne
        rw [if_neg hne, List.length_append, List.length_cons] at hlen
        omega
      have hdepth : path.length ≤ depth := Nat.le_of_succ_le_succ hdepth
      constructor
      · rintro x ⟨d, hd, hdc, ⟨rfl, rfl⟩ | ⟨hdir, hx⟩⟩
        · rw [hfound x hd hdc, result_at, if_pos (if_pos rfl)]
        · have hne : path ≠ [] := by
            rintro rfl
            exact not_names_nil hx
          rw [hsub d hd hdc hne hdir]
          exact (ih d.sha1 hne hrest (hdeep hne) depth hdepth).1 x hx
      · intro hnone
        by_cases hd : ∃ d ∈ items, d.name = c
        · obtain ⟨d, hd, hdc⟩ := hd
          have hne : path ≠ [] := fun h => hnone d ⟨d, hd, hdc, Or.inl ⟨h, rfl⟩⟩
          by_cases hdir : S_ISDIR d.mode = true
          · rw [hsub d hd hdc hne hdir]
            exact (ih d.sha1 hne hrest (hdeep hne) depth hdepth).2 fun x hx =>
              hnone x ⟨d, hd, hdc, Or.inr ⟨hdir, hx⟩⟩
          · rw [hfound d hd hdc, result_at, if_neg hne, if_neg (List.cons_ne_nil _ _), if_neg hdir]
        · exact hmissing fun x hx hxc => hd ⟨x, hx, hxc⟩

/-! ## Two stores -/

/-- `a/x` among files whose names begin like `a`. -/
def crowded (sha1 : Sha1) : Option (List tree_item) :=
  if sha1 = Vector.replicate 20 0 then
    some [⟨0o100644, [97, 45, 98], Vector.replicate 20 2⟩,
      ⟨0o100644, [97, 46, 99], Vector.replicate 20 3⟩,
      ⟨S_IFDIR, [97], Vector.replicate 20 1⟩,
      ⟨0o100644, [97, 48], Vector.replicate 20 4⟩]
  else if sha1 = Vector.replicate 20 1 then some [⟨0o100644, [120], Vector.replicate 20 5⟩]
  else none

theorem crowded_cases {sha1 : Sha1} {items : List tree_item} (h : crowded sha1 = some items) :
    some items = crowded (Vector.replicate 20 0) ∨
      some items = crowded (Vector.replicate 20 1) := by
  by_cases hroot : sha1 = Vector.replicate 20 0
  · exact Or.inl (hroot ▸ h.symm)
  · by_cases hsub : sha1 = Vector.replicate 20 1
    · exact Or.inr (hsub ▸ h.symm)
    · simp [crowded, hroot, hsub] at h

def crowded_store : tree_store where
  trees := crowded
  well_formed sha1 items h := by
    have hnames : ∀ items : List tree_item,
        (∀ x ∈ items, x.name ≠ [] ∧ SLASH ∉ x.name ∧ (0 : UInt8) ∉ x.name) →
          ∀ x ∈ items, Component x.name :=
      fun items h x hx => ⟨(h x hx).1, (h x hx).2.1, (h x hx).2.2⟩
    rcases crowded_cases h with h | h
    · obtain rfl := Option.some.inj h
      refine ⟨hnames _ (by decide), ?_, by decide⟩
      unfold Canonical ItemBefore
      decide
    · obtain rfl := Option.some.inj h
      exact ⟨hnames _ (by decide), List.pairwise_singleton _ _, by decide⟩

theorem a_x_is_found :
    get_tree_entry crowded_store.read_object_with_reference ⟨0, ⟨0, 0, 0⟩, 0⟩ 2
        (Vector.replicate 20 0) (path_name [[97], [120]]) =
      .found (Vector.replicate 20 5) (some (canon_mode 0o100644)) := by
  have hsmall : crowded_store.Small := by
    intro sha1 items h
    have hshort : (tree_buffer items).length ≤ 200 := by
      rcases crowded_cases h with h | h
      · obtain rfl := Option.some.inj h
        simp [tree_buffer, git.tree_entry, show (octal 33188#32).length = 6 by decide,
          show (octal S_IFDIR).length = 5 by decide]
      · obtain rfl := Option.some.inj h
        simp [tree_buffer, git.tree_entry, show (octal 33188#32).length = 6 by decide]
    omega
  have hpath : ∀ c ∈ ([[97], [120]] : List Bytes), Component c := by
    simp only [List.mem_cons, List.not_mem_nil, or_false, forall_eq_or_imp, forall_eq]
    exact ⟨⟨by decide, by decide, by decide⟩, ⟨by decide, by decide, by decide⟩⟩
  refine (get_tree_entry_finds crowded_store hsmall ⟨0, ⟨0, 0, 0⟩, 0⟩ (Vector.replicate 20 0)
    [[97], [120]] (by decide) hpath (by decide) 2 (by decide)).1
    ⟨0o100644, [120], Vector.replicate 20 5⟩ ?_
  have hroot : crowded_store.trees (Vector.replicate 20 0) = crowded (Vector.replicate 20 0) := rfl
  have hsub : crowded_store.trees (Vector.replicate 20 1) = crowded (Vector.replicate 20 1) := rfl
  refine .deeper (d := ⟨S_IFDIR, [97], Vector.replicate 20 1⟩) hroot ?_ (by decide) ?_
  · simp
  · exact .entry hsub List.mem_cons_self

/-- A file whose mode says that its group may write it. -/
def writable : tree_item := ⟨0o100664, [97], Vector.replicate 20 1⟩

/-- Only the tree of the null name, with this one file. -/
def writable_store : tree_store where
  trees sha1 := if sha1 = Vector.replicate 20 0 then some [writable] else none
  well_formed sha1 items h := by
    obtain ⟨-, rfl⟩ : sha1 = Vector.replicate 20 0 ∧ [writable] = items := by simpa using h
    refine ⟨?_, List.pairwise_singleton _ _, List.nodup_singleton _⟩
    simp only [List.mem_singleton, forall_eq]
    exact ⟨by decide, by decide, by decide⟩

/-- The mode is not given as the tree has it. -/
theorem the_group_bit_is_lost :
    Names writable_store (Vector.replicate 20 0) [[97]] writable ∧
      get_tree_entry writable_store.read_object_with_reference ⟨0, ⟨0, 0, 0⟩, 0⟩ 1
          (Vector.replicate 20 0) [97] ≠
        .found writable.sha1 (some writable.mode) := by
  have hroot : writable_store.trees (Vector.replicate 20 0) = some [writable] := by
    simp [writable_store]
  exact ⟨.entry hroot List.mem_cons_self, by decide⟩

end git.tree_lookup
