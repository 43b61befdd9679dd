-- The reader of tree objects in `tree-walk.c`: `init_tree_desc` and `tree_entry`, and that no
-- tree object makes it read outside of its buffer.
import Git.CacheEntry

namespace git.tree_reader

/-! ## Reading the buffer

Pointers are offsets into the buffer `tree`. A read at or behind its end is an `overrun`. -/

inductive fault where
  | corrupt_tree_file
  | overrun
  deriving DecidableEq

def byte_at (tree : Bytes) (i : Nat) : Except fault UInt8 :=
  match tree[i]? with
  | some c => .ok c
  | none => .error .overrun

/-- The loop of `get_mode` at the offset `str`, where the bytes of `rest` are. -/
def mode_loop : Nat → BitVec 32 → Bytes → Except fault (Option (Nat × BitVec 32))
  | _, _, [] => .error .overrun
  | str, mode, c :: rest =>
    if c = 32 then .ok (some (str + 1, mode))
    else if c < 48 ∨ 55 < c then .ok none
    else mode_loop (str + 1) ((mode <<< 3) + BitVec.ofNat 32 (c.toNat - 48)) rest

/-- The offset behind the blank, and the mode. -/
def get_mode (tree : Bytes) (str : Nat) : Except fault (Option (Nat × BitVec 32)) := do
  let c ← byte_at tree str
  if c = 32 then .ok none else mode_loop str 0 (tree.drop str)

def strlen : Bytes → Except fault Nat
  | [] => .error .overrun
  | c :: rest => if c = 0 then .ok 0 else (· + 1) <$> strlen rest

/-! ## Descriptors -/

structure name_entry where
  sha1 : Nat
  path : Nat
  mode : BitVec 32
  deriving DecidableEq

structure tree_desc where
  buffer : Nat
  entry : name_entry
  size : BitVec 32

def decode_tree_entry (tree : Bytes) (desc : tree_desc) (buf size : Nat) :
    Except fault tree_desc :=
  if size < 24 then .error .corrupt_tree_file
  else do
    let last ← byte_at tree (buf + size - 21)
    if last ≠ 0 then .error .corrupt_tree_file
    else
      match ← get_mode tree buf with
      | none => .error .corrupt_tree_file
      | some (path, mode) =>
        let first ← byte_at tree path
        if first = 0 then .error .corrupt_tree_file
        else
          let namelen ← strlen (tree.drop path)
          -- `unsigned int len`
          let len := (namelen + 1) % 2 ^ 32
          .ok { desc with entry := ⟨path + len, path, mode⟩ }

/-- The field takes the low 32 bits of `size`, the first entry is decoded with all of it. -/
def init_tree_desc (tree : Bytes) (desc : tree_desc) (buffer size : Nat) : Except fault tree_desc :=
  let desc := { desc with buffer, size := BitVec.ofNat 32 size }
  if size ≠ 0 then decode_tree_entry tree desc buffer size else .ok desc

def update_tree_entry (tree : Bytes) (desc : tree_desc) : Except fault tree_desc :=
  let after := desc.entry.sha1 + 20
  let size := desc.size.toNat
  let len := after - desc.buffer
  if size < len then .error .corrupt_tree_file
  else
    let size := size - len
    let desc := { desc with buffer := after, size := BitVec.ofNat 32 size }
    if size ≠ 0 then decode_tree_entry tree desc after size else .ok desc

/-- The entry, if there is one more, and the descriptor behind it. -/
def tree_entry (tree : Bytes) (desc : tree_desc) : Except fault (Option name_entry × tree_desc) :=
  if desc.size = 0 then .ok (none, desc)
  else (some desc.entry, ·) <$> update_tree_entry tree desc

inductive ending where
  | exhausted
  | fault (f : fault)
  | endless
  deriving DecidableEq

/-- `while (tree_entry(&desc, &entry))`: the entries, each with the offset where it starts, and
how the loop ends. -/
def walk (tree : Bytes) : Nat → tree_desc → List (Nat × name_entry) × ending
  | 0, _ => ([], .endless)
  | turns + 1, desc =>
    match tree_entry tree desc with
    | .error f => ([], .fault f)
    | .ok (none, _) => ([], .exhausted)
    | .ok (some entry, behind) =>
      let (entries, ending) := walk tree turns behind
      ((desc.buffer, entry) :: entries, ending)

/-- All entries of a tree object. The descriptor is not initialised before. -/
def parse_tree (tree : Bytes) (desc : tree_desc) : List (Nat × name_entry) × ending :=
  match init_tree_desc tree desc 0 tree.length with
  | .error f => ([], .fault f)
  | .ok desc => walk tree (tree.length + 1) desc

/-! ## What an entry takes of the buffer -/

def is_octal (c : UInt8) : Prop := 48 ≤ c ∧ c ≤ 55

/-- From `start` on there are the mode, a blank, the name and its NUL; the name is not empty.
All of it and the object name are in the buffer. -/
structure Inside (tree : Bytes) (start : Nat) (entry : name_entry) : Prop where
  mode_text : start + 1 < entry.path
  digits : ∀ i, start ≤ i → i + 1 < entry.path → ∃ c, tree[i]? = some c ∧ is_octal c
  blank : tree[entry.path - 1]? = some 32
  name : ∃ len, 0 < len ∧ tree[entry.path + len]? = some 0 ∧
    (∀ i < len, ∃ c, tree[entry.path + i]? = some c ∧ c ≠ 0) ∧
    entry.sha1 = entry.path + (len + 1) % 2 ^ 32
  sha1 : entry.sha1 + 20 ≤ tree.length

/-- Each entry starts where the object name of the one before ends. -/
def Adjacent (start : Nat) : List (Nat × name_entry) → Prop
  | [] => True
  | (place, entry) :: entries => place = start ∧ Adjacent (entry.sha1 + 20) entries

/-! ## The sentinel

A NUL at a known place stops both scans. -/

theorem mode_loop_spec {rest : Bytes} {k : Nat} (hk : rest[k]? = some 0) (str : Nat)
    (mode : BitVec 32) :
    mode_loop str mode rest = .ok none ∨
      ∃ j mode', j < k ∧ rest[j]? = some 32 ∧
        (∀ i < j, ∃ c, rest[i]? = some c ∧ is_octal c) ∧
        mode_loop str mode rest = .ok (some (str + j + 1, mode')) := by
  induction rest generalizing k str mode with
  | nil => simp at hk
  | cons c rest ih =>
    by_cases hblank : c = 32
    · refine Or.inr ⟨0, mode, ?_, by simp [hblank], by simp, by simp [mode_loop, hblank]⟩
      rcases Nat.eq_zero_or_pos k with rfl | hpos
      · simp [hblank] at hk
      · exact hpos
    · by_cases hdigit : c < 48 ∨ 55 < c
      · exact Or.inl (by simp [mode_loop, hblank, hdigit])
      · have hoctal : is_octal c := by simpa [is_octal] using hdigit
        cases k with
        | zero =>
          rw [List.getElem?_cons_zero, Option.some.injEq] at hk
          subst hk
          exact absurd hoctal.1 (by decide)
        | succ k =>
          rw [List.getElem?_cons_succ] at hk
          have hloop : mode_loop str mode (c :: rest) =
              mode_loop (str + 1) ((mode <<< 3) + BitVec.ofNat 32 (c.toNat - 48)) rest := by
            rw [mode_loop, if_neg hblank, if_neg hdigit]
          rw [hloop]
          refine (ih hk _ _).imp_right ?_
          rintro ⟨j, mode', hj, hend, hdigits, heq⟩
          refine ⟨j + 1, mode', by omega, by simpa using hend, ?_, ?_⟩
          · intro i hi
            cases i with
            | zero => exact ⟨c, by simp, hoctal⟩
            | succ i => simpa using hdigits i (by omega)
          · rw [heq, Nat.add_right_comm str 1 j, Nat.add_assoc str j 1]

theorem strlen_spec {rest : Bytes} {k : Nat} (hk : rest[k]? = some 0) :
    ∃ n ≤ k, strlen rest = .ok n ∧ rest[n]? = some 0 ∧
      ∀ i < n, ∃ c, rest[i]? = some c ∧ c ≠ 0 := by
  induction rest generalizing k with
  | nil => simp at hk
  | cons c rest ih =>
    by_cases hnul : c = 0
    · exact ⟨0, Nat.zero_le k, by simp [strlen, hnul], by simp [hnul], by simp⟩
    · cases k with
      | zero => simp [hnul] at hk
      | succ k =>
        rw [List.getElem?_cons_succ] at hk
        obtain ⟨n, hn, heq, hend, hchars⟩ := ih hk
        refine ⟨n + 1, by omega, ?_, by simpa using hend, ?_⟩
        · rw [strlen, if_neg hnul, heq]
          rfl
        · intro i hi
          cases i with
          | zero => exact ⟨c, by simp, hnul⟩
          | succ i => simpa using hchars i (by omega)

theorem byte_at_ok {tree : Bytes} {i : Nat} (h : i < tree.length) :
    byte_at tree i = .ok tree[i] := by
  rw [byte_at, List.getElem?_eq_getElem h]

theorem ok_bind {α β : Type} (a : α) (f : α → Except fault β) : (.ok a >>= f) = f a := rfl

theorem get_mode_spec {tree : Bytes} (buf : Nat) {k : Nat} (hk : buf ≤ k)
    (hnul : tree[k]? = some 0) :
    get_mode tree buf = .ok none ∨
      ∃ path mode, get_mode tree buf = .ok (some (path, mode)) ∧ buf + 1 < path ∧ path ≤ k ∧
        tree[path - 1]? = some 32 ∧
        ∀ i, buf ≤ i → i + 1 < path → ∃ c, tree[i]? = some c ∧ is_octal c := by
  have hlen : k < tree.length := (List.getElem?_eq_some_iff.mp hnul).1
  rw [get_mode, byte_at_ok (by omega), ok_bind]
  by_cases hblank : tree[buf] = 32
  · exact Or.inl (by rw [if_pos hblank])
  rw [if_neg hblank]
  have hsentinel : (tree.drop buf)[k - buf]? = some 0 := by
    rw [List.getElem?_drop, Nat.add_sub_cancel' hk, hnul]
  refine (mode_loop_spec hsentinel buf 0).imp_right ?_
  rintro ⟨j, mode, hj, hend, hdigits, heq⟩
  rw [List.getElem?_drop] at hend
  refine ⟨buf + j + 1, mode, heq, ?_, by omega, by simpa using hend, ?_⟩
  · have hpos : j ≠ 0 := by
      rintro rfl
      rw [Nat.add_zero, List.getElem?_eq_getElem (by omega)] at hend
      exact hblank (Option.some.inj hend)
    omega
  · intro i hi hlt
    have hdigit := hdigits (i - buf) (by omega)
    rwa [List.getElem?_drop, Nat.add_sub_cancel' hi] at hdigit

/-- The NUL at 21 bytes from the end keeps both scans and the object name inside. -/
theorem decode_tree_entry_spec (tree : Bytes) (buf size : Nat) (h : buf + size ≤ tree.length)
    (desc : tree_desc) :
    decode_tree_entry tree desc buf size = .error .corrupt_tree_file ∨
      ∃ entry, decode_tree_entry tree desc buf size = .ok { desc with entry } ∧
        Inside tree buf entry := by
  unfold decode_tree_entry
  by_cases hsize : size < 24
  · exact Or.inl (if_pos hsize)
  rw [if_neg hsize, byte_at_ok (i := buf + size - 21) (by omega), ok_bind]
  by_cases hlast : tree[buf + size - 21] = 0
  swap
  · exact Or.inl (if_pos hlast)
  rw [if_neg (not_not.mpr hlast)]
  have hnul : tree[buf + size - 21]? = some 0 := by
    rw [List.getElem?_eq_getElem (by omega), hlast]
  rcases get_mode_spec buf (by omega) hnul with hnone |
    ⟨path, mode, hmode, hstart, hpath, hblank, hdigits⟩
  · exact Or.inl (by rw [hnone, ok_bind])
  rw [hmode, ok_bind]
  simp only
  rw [byte_at_ok (by omega), ok_bind]
  by_cases hfirst : tree[path] = 0
  · exact Or.inl (if_pos hfirst)
  rw [if_neg hfirst]
  have hsentinel : (tree.drop path)[buf + size - 21 - path]? = some 0 := by
    rw [List.getElem?_drop, Nat.add_sub_cancel' hpath, hnul]
  obtain ⟨n, hn, hlen, hend, hchars⟩ := strlen_spec hsentinel
  rw [hlen, ok_bind]
  simp only [List.getElem?_drop] at hend hchars
  have hmod : (n + 1) % 2 ^ 32 ≤ n + 1 := Nat.mod_le _ _
  refine Or.inr ⟨_, rfl, hstart, hdigits, hblank, ⟨n, ?_, hend, hchars, rfl⟩, ?_⟩
  · refine Nat.pos_of_ne_zero ?_
    rintro rfl
    rw [Nat.add_zero, List.getElem?_eq_getElem (by omega)] at hend
    exact hfirst (Option.some.inj hend)
  · simp only
    omega

/-! ## The walk -/

/-- What holds of the descriptor between two entries. -/
structure Placed (tree : Bytes) (desc : tree_desc) : Prop where
  rest : desc.buffer + desc.size.toNat ≤ tree.length
  entry : desc.size ≠ 0 → Inside tree desc.buffer desc.entry

theorem init_tree_desc_spec (tree : Bytes) (desc : tree_desc) :
    init_tree_desc tree desc 0 tree.length = .error .corrupt_tree_file ∨
      ∃ desc', init_tree_desc tree desc 0 tree.length = .ok desc' ∧ desc'.buffer = 0 ∧
        Placed tree desc' := by
  have hmod : tree.length % 2 ^ 32 ≤ tree.length := Nat.mod_le _ _
  unfold init_tree_desc
  simp only
  by_cases hsize : tree.length = 0
  · rw [if_neg (not_not.mpr hsize)]
    refine Or.inr ⟨_, rfl, rfl, ?_, fun h => absurd ?_ h⟩
    · simpa using hmod
    · simp [hsize]
  · rw [if_pos hsize]
    refine (decode_tree_entry_spec tree 0 tree.length (by simp) _).imp_right ?_
    rintro ⟨entry, heq, hinside⟩
    exact ⟨_, heq, rfl, by simpa using hmod, fun _ => hinside⟩

theorem Inside.start_lt {tree : Bytes} {start : Nat} {entry : name_entry}
    (h : Inside tree start entry) : start < entry.sha1 + 20 := by
  obtain ⟨len, -, -, -, hsha1⟩ := h.name
  have hstart := h.mode_text
  omega

/-- A call gives the entry of the descriptor and leaves it behind that entry. -/
theorem tree_entry_spec {tree : Bytes} {desc : tree_desc} (h : Placed tree desc)
    (hsize : desc.size ≠ 0) :
    tree_entry tree desc = .error .corrupt_tree_file ∨
      ∃ desc', tree_entry tree desc = .ok (some desc.entry, desc') ∧
        desc'.buffer = desc.entry.sha1 + 20 ∧ desc'.size.toNat < desc.size.toNat ∧
        Placed tree desc' := by
  have hstart := (h.entry hsize).start_lt
  have hrest := h.rest
  have hbound : desc.size.toNat < 2 ^ 32 := desc.size.isLt
  rw [tree_entry, if_neg hsize, update_tree_entry]
  simp only
  by_cases hshort : desc.size.toNat < desc.entry.sha1 + 20 - desc.buffer
  · rw [if_pos hshort]
    exact Or.inl rfl
  rw [if_neg hshort]
  have hleft : (BitVec.ofNat 32 (desc.size.toNat - (desc.entry.sha1 + 20 - desc.buffer))).toNat =
      desc.size.toNat - (desc.entry.sha1 + 20 - desc.buffer) := by
    rw [BitVec.toNat_ofNat, Nat.mod_eq_of_lt (by omega)]
  by_cases hend : desc.size.toNat - (desc.entry.sha1 + 20 - desc.buffer) = 0
  · rw [if_neg (not_not.mpr hend)]
    refine Or.inr ⟨_, rfl, rfl, ?_, ?_, fun hne => absurd ?_ hne⟩
    · simp only [hleft]
      omega
    · simp only [hleft]
      omega
    · simp only [hend]
      rfl
  · rw [if_pos hend]
    rcases decode_tree_entry_spec tree (desc.entry.sha1 + 20)
      (desc.size.toNat - (desc.entry.sha1 + 20 - desc.buffer)) (by omega)
      { desc with
        buffer := desc.entry.sha1 + 20
        size := BitVec.ofNat 32 (desc.size.toNat - (desc.entry.sha1 + 20 - desc.buffer)) } with
      hdie | ⟨entry, heq, hinside⟩
    · rw [hdie]
      exact Or.inl rfl
    · rw [heq]
      refine Or.inr ⟨_, rfl, rfl, ?_, ?_, fun _ => hinside⟩
      · simp only [hleft]
        omega
      · simp only [hleft]
        omega

theorem walk_spec {tree : Bytes} (turns : Nat) {desc : tree_desc} (h : Placed tree desc)
    (hturns : desc.size.toNat < turns) :
    ((walk tree turns desc).2 = .exhausted ∨
        (walk tree turns desc).2 = .fault .corrupt_tree_file) ∧
      (∀ p ∈ (walk tree turns desc).1, Inside tree p.1 p.2) ∧
      Adjacent desc.buffer (walk tree turns desc).1 := by
  induction turns generalizing desc with
  | zero => exact absurd hturns (Nat.not_lt_zero _)
  | succ turns ih =>
    rw [walk]
    by_cases hsize : desc.size = 0
    · rw [tree_entry, if_pos hsize]
      exact ⟨Or.inl rfl, by simp, trivial⟩
    · rcases tree_entry_spec h hsize with hdie | ⟨desc', heq, hbuffer, hless, hplaced⟩
      · rw [hdie]
        exact ⟨Or.inr rfl, by simp, trivial⟩
      · rw [heq]
        obtain ⟨hending, hinside, hadjacent⟩ := ih hplaced (by omega)
        refine ⟨hending, ?_, rfl, hbuffer ▸ hadjacent⟩
        intro p hp
        rcases List.mem_cons.mp hp with rfl | hp
        · exact h.entry hsize
        · exact hinside p hp

/-- Whatever the bytes are, the walk ends, with an error or without one, and reads no byte
outside of them; each entry it gives is inside and starts where the one before ends. -/
theorem parse_tree_stays_inside (tree : Bytes) (desc : tree_desc) :
    ((parse_tree tree desc).2 = .exhausted ∨
        (parse_tree tree desc).2 = .fault .corrupt_tree_file) ∧
      (∀ p ∈ (parse_tree tree desc).1, Inside tree p.1 p.2) ∧
      Adjacent 0 (parse_tree tree desc).1 := by
  unfold parse_tree
  rcases init_tree_desc_spec tree desc with hdie | ⟨desc', heq, hbuffer, hplaced⟩
  · rw [hdie]
    exact ⟨Or.inr rfl, by simp, trivial⟩
  · rw [heq]
    have hrest := hplaced.rest
    simpa only [hbuffer] using walk_spec (tree.length + 1) hplaced (by omega)

end git.tree_reader
