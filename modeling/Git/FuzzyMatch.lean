-- The files and lines of `builtin/apply.c`, and the comparison of two lines that ignores
-- changes of white space.
import Git.Ws

namespace git.fuzzy_match

open git.quote git.header_name git.ws

/-! ## Lines -/

structure line where
  len : Nat
  hash : UInt32
  LINE_COMMON : Bool
  LINE_PATCHED : Bool

/-- A file, which is an array of lines. -/
structure image where
  buf : Bytes
  line : List line

def image.len (img : image) : Nat := img.buf.length

def image.nr (img : image) : Nat := img.line.length

/-- A field of 24 bits. -/
def hash_line (cp : Bytes) : UInt32 :=
  cp.foldl (fun h c => if isspace c then h else h * 3 + c.toUInt32) 0 &&& 0xffffff

/-- The loop of `prepare_image`: `this` is what is read of the line. -/
def line_table (this : Bytes) : Bytes → List line
  | [] => if this = [] then [] else [⟨this.length, hash_line this, false, false⟩]
  | c :: buf =>
    if c = LF then
      ⟨(this ++ [c]).length, hash_line (this ++ [c]), false, false⟩ :: line_table [] buf
    else line_table (this ++ [c]) buf

def prepare_image (buf : Bytes) : image := ⟨buf, line_table [] buf⟩

/-! ## The comparison -/

/-- A buffer as the comparison of lines reads it. `beyond` is what stands for a byte outside
the buffer: nothing at all, or a NUL. -/
structure memory where
  buf : Bytes
  beyond : Option Unit

def memory.read (m : memory) (s : Int) : Option UInt8 :=
  if 0 ≤ s ∧ s < m.buf.length then m.buf[s.toNat]? else m.beyond.map fun _ => 0

theorem memory.inside {m : memory} {s : Int} {c : UInt8} (h : m.read s = some c) (hc : c ≠ 0) :
    0 ≤ s ∧ s < m.buf.length := by
  unfold read at h
  by_contra hout
  rw [if_neg hout] at h
  cases hb : m.beyond with
  | none =>
    rw [hb] at h
    cases h
  | some u =>
    rw [hb] at h
    exact hc (Option.some.inj h).symm

/-- Ignore line endings. -/
def skip_line_ending (m : memory) (last : Int) : Option Int :=
  match h : m.read last with
  | none => none
  | some c => if hc : c = CR ∨ c = LF then skip_line_ending m (last - 1) else some last
  termination_by (last + 1).toNat
  decreasing_by
    have hin := m.inside h (by rcases hc with rfl | rfl <;> decide)
    omega

/-- `while (isspace(*s) && s <= last) s++`. -/
def skip_space (m : memory) (last s : Int) : Option Int :=
  match m.read s with
  | none => none
  | some c => if isspace c ∧ s ≤ last then skip_space m last (s + 1) else some s
  termination_by (last + 1 - s).toNat
  decreasing_by omega

/-- Skip whitespace inside, where both have it. -/
def skip_inside (m1 m2 : memory) (last1 last2 s1 s2 : Int) : Option (Int × Int) := do
  let c1 ← m1.read s1
  if isspace c1 then
    let c2 ← m2.read s2
    if isspace c2 then
      let s1 ← skip_space m1 last1 s1
      let s2 ← skip_space m2 last2 s2
      return (s1, s2)
    else return (s1, s2)
  else return (s1, s2)

theorem skip_space_ge {m : memory} {last s t : Int} (h : skip_space m last s = some t) : s ≤ t := by
  induction s using skip_space.induct m last with
  | case1 s hread =>
    rw [skip_space, hread] at h
    cases h
  | case2 s c hread hc ih =>
    rw [skip_space, hread] at h
    simp only [if_pos hc] at h
    have := ih h
    omega
  | case3 s c hread hc =>
    rw [skip_space, hread] at h
    simp only [if_neg hc] at h
    exact (Option.some.inj h).le

theorem skip_inside_ge {m1 m2 : memory} {last1 last2 s1 s2 t1 t2 : Int}
    (h : skip_inside m1 m2 last1 last2 s1 s2 = some (t1, t2)) : s1 ≤ t1 ∧ s2 ≤ t2 := by
  unfold skip_inside at h
  simp only [Option.bind_eq_bind, Option.bind_eq_some_iff] at h
  obtain ⟨c1, -, h⟩ := h
  split_ifs at h with h1
  · simp only [Option.bind_eq_some_iff] at h
    obtain ⟨c2, -, h⟩ := h
    split_ifs at h with h2
    · simp only [Option.bind_eq_some_iff] at h
      obtain ⟨u1, hu1, u2, hu2, h⟩ := h
      cases h
      exact ⟨skip_space_ge hu1, skip_space_ge hu2⟩
    · cases h
      exact ⟨le_rfl, le_rfl⟩
  · cases h
    exact ⟨le_rfl, le_rfl⟩

/-- `while (!result)`: the two lines from `s1` and `s2` on. -/
def match_loop (m1 m2 : memory) (last1 last2 s1 s2 : Int) : Option Bool :=
  match m1.read s1, m2.read s2 with
  | some c1, some c2 =>
    match _h : skip_inside m1 m2 last1 last2 (s1 + 1) (s2 + 1) with
    | none => none
    | some (t1, t2) =>
      -- the end on one side only: no match
      if _hend : last2 < t2 ∧ t1 ≤ last1 ∨ last1 < t1 ∧ t2 ≤ last2 then some false
      else if _hboth : last1 < t1 ∧ last2 < t2 then some (c1 = c2)
      else if c1 = c2 then match_loop m1 m2 last1 last2 t1 t2
      else some false
  | _, _ => none
  termination_by (last1 + 1 - s1).toNat
  decreasing_by
    have hge := skip_inside_ge _h
    omega

/-- `fuzzy_matchlines` of the `n1` bytes at `s1` and the `n2` bytes at `s2`. `none`: it reads
where there is nothing. -/
def fuzzy_matchlines (m1 : memory) (s1 n1 : Nat) (m2 : memory) (s2 n2 : Nat) : Option Bool := do
  let last1 ← skip_line_ending m1 (s1 + n1 - 1)
  let last2 ← skip_line_ending m2 (s2 + n2 - 1)
  let s1 ← skip_space m1 last1 s1
  let s2 ← skip_space m2 last2 s2
  if last1 < s1 ∧ last2 < s2 then some true
  else match_loop m1 m2 last1 last2 s1 s2

end git.fuzzy_match
