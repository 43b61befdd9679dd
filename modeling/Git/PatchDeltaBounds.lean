-- What `patch_delta` reads and writes: every access to the delta, to the
-- source and to the result, inside the buffers or not.
import Git.PatchDelta

open git.delta (DELTA_SIZE_MIN copy_operands)

namespace git.delta_bounds

/-! ## Memory -/

/-- The delta and the source, and what stands in memory beyond them. `wide`
is what the machine gives for a shift by 64 bits or more. -/
structure memory where
  delta : Bytes
  beyond_delta : Nat → UInt8
  src : Bytes
  beyond_src : Nat → UInt8
  wide : Nat → Nat → BitVec 64
  /-- `src_size` is an `unsigned long`. -/
  src_lt : src.length < 2 ^ 64

def memory.delta_at (m : memory) (i : Nat) : UInt8 := m.delta[i]?.getD (m.beyond_delta i)
def memory.src_at (m : memory) (i : Nat) : UInt8 := m.src[i]?.getD (m.beyond_src i)

/-- A byte that is read of the delta or of the source, or written to the result. -/
inductive access where
  | delta (i : Nat)
  | src (i : Nat)
  | dst (i : Nat)
  deriving DecidableEq, Repr

/-- The pointer into the delta, and the accesses so far. -/
structure cursor where
  data : Nat
  log : List access

/-- `*data++` -/
def memory.next (m : memory) (c : cursor) : UInt8 × cursor :=
  (m.delta_at c.data, ⟨c.data + 1, .delta c.data :: c.log⟩)

/-- `memcpy(out, &from[start], n)` -/
def copied (origin : Nat → access) (start out n : Nat) : List access :=
  (List.range n).map (fun k => origin (start + k)) ++ (List.range n).map (fun k => .dst (out + k))

/-! ## The code -/

/-- `cmd << i`, of 64 bits -/
def shl (wide : Nat → Nat → BitVec 64) (cmd i : Nat) : Nat :=
  if i < 64 then (cmd <<< i) % 2 ^ 64 else (wide cmd i).toNat

/-- The loop of `get_delta_hdr_size`. -/
def hdr_size_from (m : memory) (i size : Nat) (c : cursor) : Nat × cursor :=
  let cmd := (m.next c).1.toNat
  let size := size ||| shl m.wide (cmd &&& 0x7f) i
  if cmd &&& 0x80 ≠ 0 ∧ c.data + 1 < m.delta.length then
    hdr_size_from m (i + 7) size (m.next c).2
  else (size, (m.next c).2)
  termination_by m.delta.length - c.data
  decreasing_by simp only [memory.next]; omega

def get_delta_hdr_size (m : memory) (c : cursor) : Nat × cursor := hdr_size_from m 0 0 c

/-- `if (cmd & flag) v |= *data++ << shift` -/
def operand (m : memory) (cmd flag shift : Nat) (vc : Nat × cursor) : Nat × cursor :=
  if cmd &&& flag ≠ 0 then (vc.1 ||| ((m.next vc.2).1.toNat <<< shift), (m.next vc.2).2) else vc

structure copy_range where
  cp_off : Nat
  cp_size : Nat
  cursor : cursor

/-- What follows the opcode of a copy. -/
def read_copy_operands (m : memory) (cmd : Nat) (c : cursor) : copy_range :=
  let off := operand m cmd 0x01 0 (0, c)
  let off := operand m cmd 0x02 8 off
  let off := operand m cmd 0x04 16 off
  let off := operand m cmd 0x08 24 off
  let size := operand m cmd 0x10 0 (0, off.2)
  let size := operand m cmd 0x20 8 size
  let size := operand m cmd 0x40 16 size
  ⟨off.1, if size.1 = 0 then 0x10000 else size.1, size.2⟩

theorem operand_data_le (m : memory) (cmd flag shift : Nat) (vc : Nat × cursor) :
    vc.2.data ≤ (operand m cmd flag shift vc).2.data := by
  unfold operand memory.next
  split
  · exact Nat.le_succ _
  · exact Nat.le_refl _

theorem copy_operands_data_le (m : memory) (cmd : Nat) (c : cursor) :
    c.data ≤ (read_copy_operands m cmd c).cursor.data := by
  unfold read_copy_operands
  simp only
  refine Nat.le_trans ?_ (operand_data_le ..)
  refine Nat.le_trans ?_ (operand_data_le ..)
  refine Nat.le_trans ?_ (operand_data_le ..)
  refine Nat.le_trans ?_ (operand_data_le ..)
  refine Nat.le_trans ?_ (operand_data_le ..)
  refine Nat.le_trans ?_ (operand_data_le ..)
  exact operand_data_le m cmd 0x01 0 (0, c)

inductive outcome where
  | null
  /-- `die("Data too large to fit into virtual memory space.")` -/
  | dies
  | buffer (dst : Bytes)
  deriving DecidableEq, Repr

/-- Where the loop is left: `if (data != top || size != 0)` -/
def sanity_check (m : memory) (out : Bytes) (size : Nat) (c : cursor) :
    outcome × List access :=
  (if c.data ≠ m.delta.length ∨ size ≠ 0 then .null else .buffer out, c.log)

/-- `while (data < top)`; `out` is what is written, `size` what is to come. -/
def patch_loop (m : memory) (out : Bytes) (size : Nat) (c : cursor) : outcome × List access :=
  if c.data < m.delta.length then
    let cmd := (m.next c).1.toNat
    let c' := (m.next c).2
    if cmd &&& 0x80 ≠ 0 then
      let cp := read_copy_operands m cmd c'
      if 2 ^ 64 ≤ cp.cp_off + cp.cp_size ∨ m.src.length < cp.cp_off + cp.cp_size ∨
          size < cp.cp_size then
        sanity_check m out size cp.cursor
      else
        patch_loop m (out ++ (List.range cp.cp_size).map (fun k => m.src_at (cp.cp_off + k)))
          (size - cp.cp_size)
          ⟨cp.cursor.data, copied .src cp.cp_off out.length cp.cp_size ++ cp.cursor.log⟩
    else if cmd ≠ 0 then
      if size < cmd then sanity_check m out size c'
      else
        patch_loop m (out ++ (List.range cmd).map (fun k => m.delta_at (c'.data + k)))
          (size - cmd) ⟨c'.data + cmd, copied .delta c'.data out.length cmd ++ c'.log⟩
    -- cmd == 0 is reserved for future encoding extensions.
    else (.null, c'.log)
  else sanity_check m out size c
  termination_by m.delta.length - c.data
  decreasing_by
    · have := copy_operands_data_le m (m.next c).1.toNat (m.next c).2
      simp only [memory.next] at this ⊢
      omega
    · simp only [memory.next]
      omega

def patch_delta (m : memory) : outcome × List access :=
  if m.delta.length < DELTA_SIZE_MIN then (.null, [])
  else
    -- make sure the orig file size matches what we expect
    let source := get_delta_hdr_size m ⟨0, []⟩
    if source.1 ≠ m.src.length then (.null, source.2.log)
    else
      -- now the result size
      let result := get_delta_hdr_size m source.2
      if 2 ^ 64 ≤ result.1 + 1 then (.dies, result.2.log)
      else patch_loop m [] result.1 result.2

/-! ## What is asked of it -/

/-- The size of the result that the header announces. -/
def announced (m : memory) : Nat :=
  (get_delta_hdr_size m (get_delta_hdr_size m ⟨0, []⟩).2).1

def InBounds (m : memory) (total : Nat) : access → Prop
  | .delta i => i < m.delta.length
  | .src i => i < m.src.length
  | .dst i => i < total

/-- All accesses are inside the buffers. -/
def Within (m : memory) (total : Nat) (log : List access) : Prop := ∀ a ∈ log, InBounds m total a

/-- Every access is inside its buffer, and a buffer that is returned has the
size that was announced. -/
structure Safe (m : memory) : Prop where
  within : Within m (announced m) (patch_delta m).2
  length : ∀ dst, (patch_delta m).1 = .buffer dst → dst.length = announced m

/-! ## Deltas that have all their bytes -/

/-- How many operands follow the opcode of a copy. -/
def operand_count (cmd : UInt8) : Nat :=
  [0x01, 0x02, 0x04, 0x08, 0x10, 0x20, 0x40].countP (fun flag => cmd.toNat &&& flag ≠ 0)

/-- A whole opcode, with what follows it, that adds `n` bytes to the result. -/
inductive Opcode (src_size : Nat) : Bytes → Nat → Prop
  | copy {cmd : UInt8} {operands : Bytes} {cp_off cp_size : Nat} (hcmd : 0x80 ≤ cmd.toNat)
      (hops : copy_operands cmd.toNat operands = some (cp_off, cp_size, []))
      (hsrc : cp_off + cp_size ≤ src_size) : Opcode src_size (cmd :: operands) cp_size
  | insert {cmd : UInt8} {literal : Bytes} (hcmd : cmd.toNat < 0x80) (hpos : 0 < cmd.toNat)
      (hlen : literal.length = cmd.toNat) : Opcode src_size (cmd :: literal) cmd.toNat

/-- Whole opcodes, one after another. -/
inductive Opcodes (src_size : Nat) : Bytes → Nat → Prop
  | nil : Opcodes src_size [] 0
  | cons {bytes rest : Bytes} {n k : Nat} (head : Opcode src_size bytes n)
      (tail : Opcodes src_size rest k) : Opcodes src_size (bytes ++ rest) (n + k)

/-- The delta has what opcode `cmd` reads, or `cmd` inserts more than is left
of the result and reads nothing. -/
def HasAll (left : Nat) (cmd : UInt8) (rest : Bytes) : Prop :=
  if 0x80 ≤ cmd.toNat then operand_count cmd ≤ rest.length
  else left < cmd.toNat ∨ cmd.toNat ≤ rest.length

/-- Each opcode that is reached through whole opcodes has what it reads. -/
def Complete (src_size size : Nat) (data : Bytes) : Prop :=
  ∀ done n cmd rest, data = done ++ cmd :: rest → Opcodes src_size done n → n ≤ size →
    HasAll (size - n) cmd rest

/-- The size in a header field, from bit `i` on, and what follows the field. -/
def field_from (wide : Nat → Nat → BitVec 64) : Nat → Nat → Bytes → Option (Nat × Bytes)
  | _, _, [] => none
  | i, size, cmd :: data =>
    let size := size ||| shl wide (cmd.toNat &&& 0x7f) i
    if cmd.toNat &&& 0x80 ≠ 0 ∧ data ≠ [] then field_from wide (i + 7) size data
    else some (size, data)

def field (wide : Nat → Nat → BitVec 64) (data : Bytes) : Option (Nat × Bytes) :=
  field_from wide 0 0 data

/-- The delta is too short, or is for a source of another size, or it has the
size of the result and all that its opcodes read. -/
def Whole (m : memory) : Prop :=
  m.delta.length < DELTA_SIZE_MIN ∨
    ∀ data, field m.wide m.delta = some (m.src.length, data) →
      data ≠ [] ∧ ∀ size ops, field m.wide data = some (size, ops) → size + 1 < 2 ^ 64 →
        Complete m.src.length size ops

/-! ## Accesses inside the buffers -/

section Within
variable {m : memory} {total : Nat}

@[simp] theorem within_nil : Within m total [] := by simp [Within]

@[simp] theorem within_cons (a : access) (log : List access) :
    Within m total (a :: log) ↔ InBounds m total a ∧ Within m total log := List.forall_mem_cons

@[simp] theorem within_append (l l' : List access) :
    Within m total (l ++ l') ↔ Within m total l ∧ Within m total l' := by
  simp only [Within, List.forall_mem_append]

theorem within_copied (origin : Nat → access) (start out n : Nat) :
    Within m total (copied origin start out n) ↔
      ∀ k < n, InBounds m total (origin (start + k)) ∧ out + k < total := by
  unfold copied
  rw [within_append]
  simp only [Within, List.forall_mem_map, List.mem_range, InBounds]
  constructor
  · exact fun h k hk => ⟨h.1 k hk, h.2 k hk⟩
  · exact fun h => ⟨fun k hk => (h k hk).1, fun k hk => (h k hk).2⟩

theorem within_next (c : cursor) :
    Within m total (m.next c).2.log ↔ c.data < m.delta.length ∧ Within m total c.log := by
  simp only [memory.next, within_cons, InBounds]

end Within

theorem delta_at_of_lt {m : memory} {i : Nat} (h : i < m.delta.length) :
    m.delta.drop i = m.delta_at i :: m.delta.drop (i + 1) := by
  unfold memory.delta_at
  rw [List.drop_eq_getElem_cons h, List.getElem?_eq_getElem h, Option.getD_some]

theorem drop_ne_nil {m : memory} {i : Nat} : m.delta.drop i ≠ [] ↔ i < m.delta.length := by
  rw [Ne, List.drop_eq_nil_iff, Nat.not_le]

/-! ## The header -/

/-- A header field that starts inside the delta is read inside the delta. -/
theorem hdr_size_from_reads (m : memory) (total i size : Nat) (c : cursor)
    (hc : c.data < m.delta.length) :
    field_from m.wide i size (m.delta.drop c.data) =
        some ((hdr_size_from m i size c).1, m.delta.drop (hdr_size_from m i size c).2.data) ∧
      (hdr_size_from m i size c).2.data ≤ m.delta.length ∧
      (Within m total (hdr_size_from m i size c).2.log ↔ Within m total c.log) := by
  fun_induction hdr_size_from m i size c with
  | case1 i size c cmd size' hmore ih =>
    obtain ⟨hread, hle, hlog⟩ := ih hmore.2
    refine ⟨?_, hle, ?_⟩
    · rw [delta_at_of_lt hc, field_from]
      rw [if_pos ⟨hmore.1, drop_ne_nil.mpr hmore.2⟩]
      exact hread
    · rw [hlog, within_next]
      exact and_iff_right hc
  | case2 i size c cmd size' hlast =>
    refine ⟨?_, hc, ?_⟩
    · rw [delta_at_of_lt hc, field_from]
      dsimp only
      rw [if_neg]
      · rfl
      · rw [drop_ne_nil]
        exact hlast
    · rw [within_next]
      exact and_iff_right hc

theorem get_delta_hdr_size_reads (m : memory) (total : Nat) (c : cursor)
    (hc : c.data < m.delta.length) :
    field m.wide (m.delta.drop c.data) =
        some ((get_delta_hdr_size m c).1, m.delta.drop (get_delta_hdr_size m c).2.data) ∧
      (get_delta_hdr_size m c).2.data ≤ m.delta.length ∧
      (Within m total (get_delta_hdr_size m c).2.log ↔ Within m total c.log) :=
  hdr_size_from_reads m total 0 0 c hc

/-- A header field that starts at the end is read past the end. -/
theorem get_delta_hdr_size_at_end (m : memory) (c : cursor) (hc : c.data = m.delta.length) :
    (get_delta_hdr_size m c).2 = (m.next c).2 := by
  unfold get_delta_hdr_size
  rw [hdr_size_from, if_neg (by omega)]

/-! ## Operands -/

/-- From `c` to `r`, the next `k` bytes of the delta are read. -/
structure Reads (m : memory) (total : Nat) (c r : cursor) (k : Nat) : Prop where
  data : r.data = c.data + k
  keeps : Within m total r.log → Within m total c.log
  within : c.data ≤ m.delta.length →
    (Within m total r.log ↔ Within m total c.log ∧ r.data ≤ m.delta.length)

theorem Reads.trans {m : memory} {total : Nat} {c r s : cursor} {k j : Nat}
    (h : Reads m total c r k) (h' : Reads m total r s j) : Reads m total c s (k + j) where
  data := by rw [h'.data, h.data, Nat.add_assoc]
  keeps hs := h.keeps (h'.keeps hs)
  within hc := by
    have hdata := h'.data
    constructor
    · intro hs
      have hr := (h.within hc).mp (h'.keeps hs)
      exact ⟨hr.1, ((h'.within hr.2).mp hs).2⟩
    · rintro ⟨hlog, hle⟩
      have hr : r.data ≤ m.delta.length := by omega
      exact (h'.within hr).mpr ⟨(h.within hc).mpr ⟨hlog, hr⟩, hle⟩

theorem operand_reads (m : memory) (total cmd flag shift : Nat) (vc : Nat × cursor) :
    Reads m total vc.2 (operand m cmd flag shift vc).2 (if cmd &&& flag ≠ 0 then 1 else 0) := by
  unfold operand
  by_cases hflag : cmd &&& flag ≠ 0
  · rw [if_pos hflag, if_pos hflag]
    exact ⟨rfl, fun h => (within_next _).mp h |>.2, fun _ => by rw [within_next, and_comm]; rfl⟩
  · rw [if_neg hflag, if_neg hflag]
    exact ⟨rfl, id, fun hc => ⟨fun h => ⟨h, hc⟩, fun h => h.1⟩⟩

/-- Inside the delta, the operand is that of the bytes that are left. -/
theorem operand_value {m : memory} {cmd flag shift : Nat} {vc : Nat × cursor}
    (h : (operand m cmd flag shift vc).2.data ≤ m.delta.length) :
    delta.operand cmd flag shift vc.1 (m.delta.drop vc.2.data) =
      some ((operand m cmd flag shift vc).1,
        m.delta.drop (operand m cmd flag shift vc).2.data) := by
  unfold operand at h ⊢
  unfold delta.operand
  by_cases hflag : cmd &&& flag ≠ 0
  · rw [if_pos hflag] at h
    rw [if_pos hflag, if_pos hflag, delta_at_of_lt h]
    rfl
  · rw [if_neg hflag, if_neg hflag]

theorem copy_operands_reads (m : memory) (total : Nat) (cmd : UInt8) (c : cursor) :
    Reads m total c (read_copy_operands m cmd.toNat c).cursor (operand_count cmd) := by
  unfold read_copy_operands operand_count
  dsimp only
  have h := (operand_reads m total cmd.toNat 0x01 0 (0, c)).trans
    ((operand_reads m total cmd.toNat 0x02 8 _).trans
      ((operand_reads m total cmd.toNat 0x04 16 _).trans
        ((operand_reads m total cmd.toNat 0x08 24 _).trans
          ((operand_reads m total cmd.toNat 0x10 0 (0, _)).trans
            ((operand_reads m total cmd.toNat 0x20 8 _).trans
              (operand_reads m total cmd.toNat 0x40 16 _))))))
  convert h using 1
  simp only [List.countP_cons, List.countP_nil, decide_eq_true_eq]
  omega

theorem copy_operands_value {m : memory} {cmd : Nat} {c : cursor}
    (h : (read_copy_operands m cmd c).cursor.data ≤ m.delta.length) :
    copy_operands cmd (m.delta.drop c.data) =
      some ((read_copy_operands m cmd c).cp_off, (read_copy_operands m cmd c).cp_size,
        m.delta.drop (read_copy_operands m cmd c).cursor.data) := by
  unfold read_copy_operands at h ⊢
  dsimp only at h ⊢
  have h6 := (operand_data_le ..).trans h
  have h5 := (operand_data_le ..).trans h6
  have h4 := (operand_data_le ..).trans h5
  have h3 := (operand_data_le ..).trans h4
  have h2 := (operand_data_le ..).trans h3
  have h1 := (operand_data_le ..).trans h2
  unfold copy_operands
  have e1 := operand_value h1
  have e2 := operand_value h2
  have e3 := operand_value h3
  have e4 := operand_value h4
  have e5 := operand_value h5
  have e6 := operand_value h6
  have e7 := operand_value h
  dsimp only at e1 e2 e3 e4 e5 e6 e7
  simp only [e1, e2, e3, e4, e5, e6, e7, Option.bind_eq_bind, Option.bind_some]

/-! ## Whole opcodes -/

/-- A reader looks at a first part of the data, and at nothing after it. -/
def Prefixed {α : Type} (read : Bytes → Option (α × Bytes)) : Prop :=
  ∀ data a rest, read data = some (a, rest) →
    ∃ pre, data = pre ++ rest ∧ ∀ x, read (pre ++ x) = some (a, x)

theorem Prefixed.bind {α β : Type} {read : Bytes → Option (α × Bytes)}
    {next : α → Bytes → Option (β × Bytes)} (h : Prefixed read) (hnext : ∀ a, Prefixed (next a)) :
    Prefixed (fun data => (read data).bind fun r => next r.1 r.2) := by
  intro data b rest heq
  obtain ⟨⟨a, mid⟩, hread, hb⟩ := Option.bind_eq_some_iff.mp heq
  obtain ⟨pre, rfl, hpre⟩ := h data a mid hread
  obtain ⟨pre', rfl, hpre'⟩ := hnext a mid b rest hb
  refine ⟨pre ++ pre', (List.append_assoc ..).symm, fun x => ?_⟩
  dsimp only
  rw [List.append_assoc, hpre, Option.bind_some, hpre']

theorem prefixed_some {α : Type} (a : α) : Prefixed (fun data => some (a, data)) := by
  intro data b rest heq
  obtain ⟨rfl, rfl⟩ := Prod.mk.inj (Option.some.inj heq)
  exact ⟨[], rfl, fun x => rfl⟩

theorem prefixed_operand (cmd flag shift v : Nat) : Prefixed (delta.operand cmd flag shift v) := by
  intro data a rest heq
  unfold delta.operand at heq ⊢
  by_cases hflag : cmd &&& flag ≠ 0
  · simp only [if_pos hflag] at heq ⊢
    cases data with
    | nil => cases heq
    | cons b data =>
      obtain ⟨rfl, rfl⟩ := Prod.mk.inj (Option.some.inj heq)
      exact ⟨[b], rfl, fun x => rfl⟩
  · simp only [if_neg hflag] at heq ⊢
    exact prefixed_some v data a rest heq

theorem copy_operands_prefixed (cmd : Nat) :
    Prefixed (fun data => (copy_operands cmd data).map fun r => ((r.1, r.2.1), r.2.2)) := by
  have h := (prefixed_operand cmd 0x01 0 0).bind fun off =>
    (prefixed_operand cmd 0x02 8 off).bind fun off =>
      (prefixed_operand cmd 0x04 16 off).bind fun off =>
        (prefixed_operand cmd 0x08 24 off).bind fun off =>
          (prefixed_operand cmd 0x10 0 0).bind fun size =>
            (prefixed_operand cmd 0x20 8 size).bind fun size =>
              (prefixed_operand cmd 0x40 16 size).bind fun size =>
                prefixed_some (off, if size = 0 then 0x10000 else size)
  convert h using 2 with data
  unfold copy_operands
  simp only [Option.bind_eq_bind, Option.map_bind, Function.comp_def, Option.map_some]

theorem copy_operands_first {cmd cp_off cp_size : Nat} {data rest : Bytes}
    (h : copy_operands cmd data = some (cp_off, cp_size, rest)) :
    ∃ pre, data = pre ++ rest ∧
      ∀ x, copy_operands cmd (pre ++ x) = some (cp_off, cp_size, x) := by
  have hmap : (copy_operands cmd data).map (fun r => ((r.1, r.2.1), r.2.2)) =
      some ((cp_off, cp_size), rest) := congrArg (Option.map _) h
  obtain ⟨pre, hdata, hread⟩ := copy_operands_prefixed cmd data _ _ hmap
  refine ⟨pre, hdata, fun x => ?_⟩
  obtain ⟨⟨off, n, r⟩, hr, heq⟩ := Option.map_eq_some_iff.mp (hread x)
  cases heq
  exact hr

/-- The first opcode decides: it has what it reads, and what follows it is
complete. -/
theorem complete_cons (src_size size : Nat) (cmd : UInt8) (rest : Bytes) :
    Complete src_size size (cmd :: rest) ↔
      HasAll size cmd rest ∧ ∀ bytes n rest', cmd :: rest = bytes ++ rest' →
        Opcode src_size bytes n → n ≤ size → Complete src_size (size - n) rest' := by
  constructor
  · intro h
    refine ⟨h [] 0 cmd rest rfl .nil (Nat.zero_le _), ?_⟩
    intro bytes n rest' heq hop hn done k cmd' rest'' hdone hops hk
    rw [Nat.sub_sub]
    refine h (bytes ++ done) (n + k) cmd' rest'' ?_ (.cons hop hops) (by omega)
    rw [heq, hdone, List.append_assoc]
  · rintro ⟨hall, hnext⟩ done n cmd' rest' heq hops hn
    cases hops with
    | nil =>
      obtain ⟨rfl, rfl⟩ := List.cons.inj heq
      exact hall
    | @cons bytes more k j hop hmore =>
      rw [List.append_assoc] at heq
      have := hnext bytes k _ heq hop (by omega) more j cmd' rest' rfl hmore (by omega)
      rwa [Nat.sub_sub] at this

theorem complete_nil (src_size size : Nat) : Complete src_size size [] := by
  intro done n cmd rest heq
  simp at heq

/-- No opcode starts with 0. -/
theorem complete_zero (src_size size : Nat) (rest : Bytes) :
    Complete src_size size (0 :: rest) := by
  rw [complete_cons]
  refine ⟨Or.inr (Nat.zero_le _), ?_⟩
  intro bytes n rest' heq hop
  cases hop with
  | copy hcmd =>
    obtain ⟨rfl, -⟩ := List.cons.inj heq
    exact absurd hcmd (by decide)
  | insert hcmd hpos =>
    obtain ⟨rfl, -⟩ := List.cons.inj heq
    exact absurd hpos (by decide)

theorem complete_insert (src_size size : Nat) {cmd : UInt8} (rest : Bytes)
    (hcmd : cmd.toNat < 0x80) (hpos : 0 < cmd.toNat) :
    Complete src_size size (cmd :: rest) ↔ size < cmd.toNat ∨ cmd.toNat ≤ rest.length ∧
      Complete src_size (size - cmd.toNat) (rest.drop cmd.toNat) := by
  rw [complete_cons, HasAll, if_neg (by omega)]
  constructor
  · rintro ⟨hall, hnext⟩
    by_cases hsize : size < cmd.toNat
    · exact Or.inl hsize
    · have hlen : cmd.toNat ≤ rest.length := hall.resolve_left hsize
      refine Or.inr ⟨hlen, hnext (cmd :: rest.take cmd.toNat) cmd.toNat _ ?_ ?_ (by omega)⟩
      · rw [List.cons_append, List.take_append_drop]
      · exact .insert hcmd hpos (by rw [List.length_take]; omega)
  · intro h
    refine ⟨h.imp_right And.left, ?_⟩
    intro bytes n rest' heq hop hn
    cases hop with
    | copy hcopy =>
      obtain ⟨rfl, -⟩ := List.cons.inj heq
      omega
    | @insert _ literal _ _ hlen =>
      rw [List.cons_append, List.cons.injEq] at heq
      obtain ⟨rfl, rfl⟩ := heq
      rcases h with h | ⟨-, h⟩
      · omega
      · rw [List.drop_left' hlen] at h
        exact h

theorem complete_copy (src_size size : Nat) {cmd : UInt8} {rest rest' : Bytes}
    {cp_off cp_size : Nat} (hcmd : 0x80 ≤ cmd.toNat)
    (hops : copy_operands cmd.toNat rest = some (cp_off, cp_size, rest'))
    (hlen : operand_count cmd ≤ rest.length) :
    Complete src_size size (cmd :: rest) ↔
      (cp_off + cp_size ≤ src_size → cp_size ≤ size →
        Complete src_size (size - cp_size) rest') := by
  obtain ⟨pre, rfl, hread⟩ := copy_operands_first hops
  have hwhole : copy_operands cmd.toNat pre = some (cp_off, cp_size, []) := by
    have h := hread []
    rwa [List.append_nil] at h
  rw [complete_cons, HasAll, if_pos hcmd]
  constructor
  · rintro ⟨-, hnext⟩ hsrc hsize
    exact hnext (cmd :: pre) cp_size rest' rfl (.copy hcmd hwhole hsrc) hsize
  · intro h
    refine ⟨hlen, ?_⟩
    intro bytes n rest'' heq hop hn
    cases hop with
    | @copy _ operands off _ hcopy hops' hsrc =>
      rw [List.cons_append, List.cons.injEq] at heq
      obtain ⟨rfl, hrest⟩ := heq
      obtain ⟨pre', hpre', hread'⟩ := copy_operands_first hops'
      rw [List.append_nil] at hpre'
      have hsame := hread' rest''
      rw [← hpre', ← hrest, hops] at hsame
      cases hsame
      exact h hsrc hn
    | insert hinsert =>
      obtain ⟨rfl, -⟩ := List.cons.inj heq
      omega

theorem not_complete_copy (src_size size : Nat) {cmd : UInt8} {rest : Bytes}
    (hcmd : 0x80 ≤ cmd.toNat) (hlen : rest.length < operand_count cmd) :
    ¬Complete src_size size (cmd :: rest) := by
  rw [complete_cons, HasAll, if_pos hcmd]
  exact fun h => absurd h.1 (Nat.not_le.mpr hlen)

/-! ## The loop -/

theorem patch_loop_past {m : memory} {out : Bytes} {size : Nat} {c : cursor}
    (hc : m.delta.length ≤ c.data) : patch_loop m out size c = sanity_check m out size c := by
  rw [patch_loop, if_neg (by omega)]

/-- The bytes of an opcode and its operands are in the log, and the opcode is
complete as far as it has them. -/
theorem within_copy_operands {m : memory} {total : Nat} {c : cursor}
    (hlt : c.data < m.delta.length) :
    Within m total (read_copy_operands m (m.delta_at c.data).toNat (m.next c).2).cursor.log ↔
      Within m total c.log ∧ operand_count (m.delta_at c.data) ≤
        (m.delta.drop (c.data + 1)).length := by
  have hreads := copy_operands_reads m total (m.delta_at c.data) (m.next c).2
  have hdata : (read_copy_operands m (m.delta_at c.data).toNat (m.next c).2).cursor.data =
      c.data + 1 + operand_count (m.delta_at c.data) := hreads.data
  rw [hreads.within hlt, within_next, and_iff_right hlt, hdata, List.length_drop]
  exact and_congr_right fun _ => by omega

/-- A copy that the delta has all of is complete just when what follows is, or
when the copy itself ends the loop. -/
theorem complete_at_copy {m : memory} {c : cursor} (size : Nat) (hlt : c.data < m.delta.length)
    (hcopy : (m.delta_at c.data).toNat &&& 0x80 ≠ 0)
    (hlen : operand_count (m.delta_at c.data) ≤ (m.delta.drop (c.data + 1)).length) :
    let cp := read_copy_operands m (m.delta_at c.data).toNat (m.next c).2
    Complete m.src.length size (m.delta.drop c.data) ↔
      (cp.cp_off + cp.cp_size ≤ m.src.length → cp.cp_size ≤ size →
        Complete m.src.length (size - cp.cp_size) (m.delta.drop cp.cursor.data)) := by
  intro cp
  have hdata : cp.cursor.data = c.data + 1 + operand_count (m.delta_at c.data) :=
    (copy_operands_reads m 0 (m.delta_at c.data) (m.next c).2).data
  have hinside : cp.cursor.data ≤ m.delta.length := by
    rw [List.length_drop] at hlen
    omega
  have hvalue := copy_operands_value hinside
  rw [delta_at_of_lt hlt]
  exact complete_copy m.src.length size ((delta.more_bit _ (UInt8.toNat_lt _)).mp hcopy) hvalue hlen

/-- From inside the delta, the loop keeps to the buffers just when the opcodes
that it reaches have what they read. -/
theorem patch_loop_within (m : memory) (total : Nat) (out : Bytes) (size : Nat) (c : cursor)
    (hc : c.data ≤ m.delta.length) (hout : out.length + size = total) :
    Within m total (patch_loop m out size c).2 ↔
      Within m total c.log ∧ Complete m.src.length size (m.delta.drop c.data) := by
  have hsrc := m.src_lt
  fun_induction patch_loop m out size c with
  | case1 out size c hlt cmd c' hcopy cp hwild =>
    refine (within_copy_operands hlt).trans (and_congr_right fun _ => ?_)
    constructor
    · intro hlen
      refine (complete_at_copy size hlt hcopy hlen).mpr fun hfits hsize => ?_
      have hfits' : cp.cp_off + cp.cp_size ≤ m.src.length := hfits
      have hsize' : cp.cp_size ≤ size := hsize
      rcases hwild with h | h | h <;> omega
    · intro hcomplete
      by_contra hlen
      rw [delta_at_of_lt hlt] at hcomplete
      exact not_complete_copy _ _ ((delta.more_bit _ (UInt8.toNat_lt _)).mp hcopy)
        (Nat.not_le.mp hlen) hcomplete
  | case2 out size c hlt cmd c' hcopy cp hfits ih =>
    have hcopied : Within m total (copied .src cp.cp_off out.length cp.cp_size) :=
      (within_copied ..).mpr fun k hk => ⟨by simp only [InBounds]; omega, by omega⟩
    by_cases hlen : operand_count (m.delta_at c.data) ≤ (m.delta.drop (c.data + 1)).length
    · have hdata : cp.cursor.data = c.data + 1 + operand_count (m.delta_at c.data) :=
        (copy_operands_reads m total (m.delta_at c.data) c').data
      have hcomplete : Complete m.src.length size (m.delta.drop c.data) ↔
          (cp.cp_off + cp.cp_size ≤ m.src.length → cp.cp_size ≤ size →
            Complete m.src.length (size - cp.cp_size) (m.delta.drop cp.cursor.data)) :=
        complete_at_copy size hlt hcopy hlen
      have hnext := ih (by rw [List.length_drop] at hlen; dsimp only; omega)
        (by rw [List.length_append, List.length_map, List.length_range]; omega)
      refine hnext.trans ?_
      rw [within_append, and_iff_right hcopied, hcomplete]
      refine and_congr ((within_copy_operands hlt).trans (and_iff_left hlen)) ?_
      have hsrc' := Nat.not_lt.mp fun h => hfits (Or.inr (Or.inl h))
      have hsize' := Nat.not_lt.mp fun h => hfits (Or.inr (Or.inr h))
      exact ⟨fun h _ _ => h, fun h => h hsrc' hsize'⟩
    · have hpast : ¬Within m total cp.cursor.log := fun h =>
        hlen ((within_copy_operands hlt).mp h).2
      have hdata : cp.cursor.data = c.data + 1 + operand_count (m.delta_at c.data) :=
        (copy_operands_reads m total (m.delta_at c.data) c').data
      rw [patch_loop_past (by rw [List.length_drop] at hlen; dsimp only; omega)]
      refine iff_of_false (fun h => hpast ((within_append ..).mp h).2) fun h => ?_
      rw [delta_at_of_lt hlt] at h
      exact not_complete_copy _ _ ((delta.more_bit _ (UInt8.toNat_lt _)).mp hcopy)
        (Nat.not_le.mp hlen) h.2
  | case3 out size c hlt cmd c' hcopy hpos hlong =>
    have hcmd : (m.delta_at c.data).toNat < 0x80 :=
      Nat.not_le.mp fun h => hcopy ((delta.more_bit _ (UInt8.toNat_lt _)).mpr h)
    rw [delta_at_of_lt hlt, complete_insert _ _ _ hcmd (Nat.pos_of_ne_zero hpos)]
    refine ((within_next c).trans (and_iff_right hlt)).trans ?_
    exact (and_iff_left (Or.inl hlong)).symm
  | case4 out size c hlt cmd c' hcopy hpos hfits ih =>
    have hcmd : (m.delta_at c.data).toNat < 0x80 :=
      Nat.not_le.mp fun h => hcopy ((delta.more_bit _ (UInt8.toNat_lt _)).mpr h)
    have hpos' : 0 < cmd := Nat.pos_of_ne_zero hpos
    have hdata : c'.data = c.data + 1 := rfl
    have hlog : Within m total c'.log ↔ Within m total c.log :=
      (within_next c).trans (and_iff_right hlt)
    rw [delta_at_of_lt hlt, complete_insert _ _ _ hcmd hpos',
      or_iff_right (show ¬size < (m.delta_at c.data).toNat from hfits), List.length_drop,
      List.drop_drop]
    by_cases hlen : c'.data + cmd ≤ m.delta.length
    · have hcopied : Within m total (copied .delta c'.data out.length cmd) :=
        (within_copied ..).mpr fun k hk => ⟨by simp only [InBounds]; omega, by omega⟩
      have hnext := ih hlen (by rw [List.length_append, List.length_map, List.length_range]; omega)
      refine hnext.trans ?_
      rw [within_append, and_iff_right hcopied, hlog]
      refine and_congr_right fun _ => (and_iff_right ?_).symm
      change cmd ≤ _
      omega
    · rw [patch_loop_past (by dsimp only; omega)]
      refine iff_of_false (fun h => ?_) fun h => ?_
      · have hlast := (within_copied ..).mp ((within_append ..).mp h).1 (cmd - 1) (by omega)
        have : c'.data + (cmd - 1) < m.delta.length := hlast.1
        omega
      · have : cmd ≤ m.delta.length - (c.data + 1) := h.2.1
        omega
  | case5 out size c hlt cmd c' hcopy hzero =>
    have hcmd : m.delta_at c.data = 0 := UInt8.toNat_inj.mp (not_not.mp hzero)
    rw [delta_at_of_lt hlt, hcmd, and_iff_left (complete_zero _ _ _)]
    exact (within_next c).trans (and_iff_right hlt)
  | case6 out size c hend =>
    rw [List.drop_eq_nil_of_le (Nat.not_lt.mp hend), and_iff_left (complete_nil _ _)]
    rfl

/-- What is written and what is to come make up the size. -/
theorem patch_loop_length (m : memory) (out : Bytes) (size : Nat) (c : cursor) (dst : Bytes)
    (h : (patch_loop m out size c).1 = .buffer dst) : dst.length = out.length + size := by
  have hsanity : ∀ {out : Bytes} {size : Nat} {c : cursor},
      (sanity_check m out size c).1 = .buffer dst → dst.length = out.length + size := by
    intro out size c h
    unfold sanity_check at h
    dsimp only at h
    split at h
    · cases h
    · cases h
      omega
  fun_induction patch_loop m out size c with
  | case1 out size c hlt cmd c' hcopy cp hwild => exact hsanity h
  | case2 out size c hlt cmd c' hcopy cp hfits ih =>
    rw [ih h, List.length_append, List.length_map, List.length_range]
    omega
  | case3 out size c hlt cmd hcopy hpos hlong => exact hsanity h
  | case4 out size c hlt cmd c' hcopy hpos hfits ih =>
    rw [ih h, List.length_append, List.length_map, List.length_range]
    omega
  | case5 out size c hlt cmd hcopy hzero => cases h
  | case6 out size c hend => exact hsanity h

/-! ## The whole delta -/

/-- What is returned has the size that the header announces, wherever the
bytes come from. -/
theorem patch_delta_length (m : memory) (dst : Bytes) (h : (patch_delta m).1 = .buffer dst) :
    dst.length = announced m := by
  unfold patch_delta at h
  dsimp only at h
  split_ifs at h with hmin hsrc hsize
  rw [patch_loop_length m _ _ _ dst h, List.length_nil, Nat.zero_add]
  rfl

/-- `patch_delta` keeps to the delta, to the source and to the result, and
returns no more and no less than was announced, just when the delta has the
size of the result and all that its opcodes read, or is turned down before. -/
theorem patch_delta_safe_iff (m : memory) : Safe m ↔ Whole m := by
  have hlength : Safe m ↔ Within m (announced m) (patch_delta m).2 :=
    ⟨Safe.within, fun h => ⟨h, patch_delta_length m⟩⟩
  rw [hlength]
  unfold patch_delta Whole
  by_cases hmin : m.delta.length < DELTA_SIZE_MIN
  · rw [if_pos hmin]
    exact iff_of_true within_nil (Or.inl hmin)
  rw [if_neg hmin, or_iff_right hmin]
  have hstart : (⟨0, []⟩ : cursor).data < m.delta.length := by
    unfold DELTA_SIZE_MIN at hmin
    dsimp only
    omega
  obtain ⟨hfield, hle, hlog⟩ := get_delta_hdr_size_reads m (announced m) ⟨0, []⟩ hstart
  rw [List.drop_zero] at hfield
  simp only [hfield, Option.some.injEq, Prod.mk.injEq]
  have hlog' : Within m (announced m) (get_delta_hdr_size m ⟨0, []⟩).2.log :=
    hlog.mpr within_nil
  by_cases hsrc : (get_delta_hdr_size m ⟨0, []⟩).1 = m.src.length
  · rw [if_neg (not_not.mpr hsrc)]
    simp only [hsrc, true_and, forall_eq', drop_ne_nil]
    by_cases hinside : (get_delta_hdr_size m ⟨0, []⟩).2.data < m.delta.length
    · obtain ⟨hfield2, hle2, hlog2⟩ := get_delta_hdr_size_reads m (announced m) _ hinside
      simp only [hfield2, Option.some.injEq, Prod.mk.injEq, and_imp, hinside, true_and]
      by_cases hdies : 2 ^ 64 ≤ (get_delta_hdr_size m (get_delta_hdr_size m ⟨0, []⟩).2).1 + 1
      · rw [if_pos hdies]
        refine iff_of_true (hlog2.mpr hlog') ?_
        rintro size ops rfl rfl h
        exact absurd h (Nat.not_lt.mpr hdies)
      · rw [if_neg hdies, patch_loop_within m (announced m) _ _ _ hle2 (Nat.zero_add _),
          and_iff_right (hlog2.mpr hlog')]
        constructor
        · rintro h size ops rfl rfl -
          exact h
        · exact fun h => h _ _ rfl rfl (Nat.not_le.mp hdies)
    · -- The size of the result is read past the end.
      have hend : (get_delta_hdr_size m ⟨0, []⟩).2.data = m.delta.length := by omega
      have hpast : ¬Within m (announced m)
          (get_delta_hdr_size m (get_delta_hdr_size m ⟨0, []⟩).2).2.log := by
        rw [get_delta_hdr_size_at_end m _ hend, within_next]
        exact fun h => hinside h.1
      refine iff_of_false (fun h => hpast ?_) fun h => hinside h.1
      split_ifs at h
      · exact h
      · rw [patch_loop_past] at h
        · exact h
        · rw [get_delta_hdr_size_at_end m _ hend]
          exact hend.ge.trans (Nat.le_succ _)
  · rw [if_pos hsrc]
    exact iff_of_true hlog' fun data h => absurd h.1 hsrc

/-- A source of three bytes, and a delta that inserts three bytes but has one. -/
def cut_short : memory where
  delta := [3, 3, 3, 7]
  beyond_delta := fun _ => 0
  src := [1, 2, 3]
  beyond_src := fun _ => 0
  wide := fun _ _ => 0
  src_lt := by decide

theorem patch_delta_reads_past : ¬∀ m : memory, Safe m := by
  intro h
  have hread : access.delta 5 ∈ (patch_delta cut_short).2 := by decide +kernel
  exact absurd ((h cut_short).within _ hread) (by simp [InBounds, cut_short])

end git.delta_bounds
