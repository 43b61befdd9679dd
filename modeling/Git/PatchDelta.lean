-- Deltas: the two sizes in the header, the opcodes that copy from the source
-- and that insert bytes, and how `patch_delta` replays them.
import Git.CacheEntry

namespace git.delta

/-- `DELTA_SIZE_MIN` -/
abbrev DELTA_SIZE_MIN : Nat := 4

/-! ## The header -/

/-- The loop of `get_delta_hdr_size`, where the next group of seven bits goes
to bit `i`. `none`: past the end of the buffer, or a shift by 64 and more. -/
def hdr_size_from : Nat → Nat → Bytes → Option (Nat × Bytes)
  | _, _, [] => none
  | i, size, cmd :: data =>
    if 64 ≤ i then none
    else
      let size := size ||| (((cmd.toNat &&& 0x7f) <<< i) % 2 ^ 64)
      if cmd.toNat &&& 0x80 ≠ 0 ∧ data ≠ [] then hdr_size_from (i + 7) size data
      else some (size, data)

def get_delta_hdr_size (data : Bytes) : Option (Nat × Bytes) := hdr_size_from 0 0 data

/-! ## Replaying a delta -/

inductive patched where
  /-- A byte outside the delta is read. -/
  | outside
  | fails
  | gives (dst_buf : Bytes)
  deriving DecidableEq, Repr

/-- `if (cmd & flag) v |= *data++ << shift` -/
def operand (cmd flag shift v : Nat) (data : Bytes) : Option (Nat × Bytes) :=
  if cmd &&& flag ≠ 0 then
    match data with
    | [] => none
    | b :: data => some (v ||| (b.toNat <<< shift), data)
  else some (v, data)

/-- What follows the opcode of a copy: `cp_off` and `cp_size`. -/
def copy_operands (cmd : Nat) (data : Bytes) : Option (Nat × Nat × Bytes) := do
  let (cp_off, data) ← operand cmd 0x01 0 0 data
  let (cp_off, data) ← operand cmd 0x02 8 cp_off data
  let (cp_off, data) ← operand cmd 0x04 16 cp_off data
  let (cp_off, data) ← operand cmd 0x08 24 cp_off data
  let (cp_size, data) ← operand cmd 0x10 0 0 data
  let (cp_size, data) ← operand cmd 0x20 8 cp_size data
  let (cp_size, data) ← operand cmd 0x40 16 cp_size data
  some (cp_off, if cp_size = 0 then 0x10000 else cp_size, data)

/-- Where the loop is left: `if (data != top || size != 0)` -/
def sanity_check (out : Bytes) (size : Nat) (data : Bytes) : patched :=
  if data ≠ [] ∨ size ≠ 0 then .fails else .gives out

/-- The loop of `patch_delta`; `size` is what is still to come. Each round
reads a byte, so that as many rounds as there are bytes do. -/
def patch_loop (src : Bytes) : Nat → Bytes → Nat → Bytes → patched
  | 0, out, size, data => sanity_check out size data
  | _ + 1, out, size, [] => sanity_check out size []
  | fuel + 1, out, size, cmd :: data =>
    if cmd.toNat &&& 0x80 ≠ 0 then
      match copy_operands cmd.toNat data with
      | none => .outside
      | some (cp_off, cp_size, data) =>
        if 2 ^ 64 ≤ cp_off + cp_size ∨ src.length < cp_off + cp_size ∨ size < cp_size then
          sanity_check out size data
        else
          patch_loop src fuel (out ++ (src.drop cp_off).take cp_size) (size - cp_size) data
    else if cmd ≠ 0 then
      if size < cmd.toNat then sanity_check out size data
      else if data.length < cmd.toNat then .outside
      else
        patch_loop src fuel (out ++ data.take cmd.toNat) (size - cmd.toNat)
          (data.drop cmd.toNat)
    else .fails

def patch_delta (src_buf delta_buf : Bytes) : patched :=
  if delta_buf.length < DELTA_SIZE_MIN then .fails
  else
    match get_delta_hdr_size delta_buf with
    | none => .outside
    | some (size, data) =>
      if size ≠ src_buf.length then .fails
      else
        match get_delta_hdr_size data with
        | none => .outside
        | some (size, data) => patch_loop src_buf data.length [] size data

example : patch_delta [1, 2, 3] [3, 4, 0x91, 1, 2, 2, 8, 9] = .gives [2, 3, 8, 9] := by decide

/-! ## Writing -/

/-- `while (i >= 0x80) { out[outpos++] = i | 0x80; i >>= 7; } out[outpos++] = i;` -/
def hdr_bytes (i : Nat) : Bytes :=
  if 0x80 ≤ i then UInt8.ofNat (i ||| 0x80) :: hdr_bytes (i >>> 7) else [UInt8.ofNat i]
  termination_by i
  decreasing_by rw [Nat.shiftRight_eq_div_pow]; omega

/-- `if (v & 0xff << shift) out[outpos++] = v >> shift` -/
def operand_bytes (v shift : Nat) : Bytes :=
  if v &&& (0xff <<< shift) ≠ 0 then [UInt8.ofNat (v >>> shift)] else []

/-- `if (v & 0xff << shift) i |= flag` -/
def operand_flag (v shift flag : Nat) : Nat := if v &&& (0xff <<< shift) ≠ 0 then flag else 0

/-- The opcode of a copy and its operands. -/
def copy_bytes (moff msize : Nat) : Bytes :=
  UInt8.ofNat (0x80 ||| operand_flag moff 0 0x01 ||| operand_flag moff 8 0x02 |||
      operand_flag moff 16 0x04 ||| operand_flag moff 24 0x08 |||
      operand_flag msize 0 0x10 ||| operand_flag msize 8 0x20) ::
    (operand_bytes moff 0 ++ operand_bytes moff 8 ++ operand_bytes moff 16 ++
      operand_bytes moff 24 ++ operand_bytes msize 0 ++ operand_bytes msize 8)

/-! ## The header that was written is read back -/

theorem and_low_seven (n : Nat) : n &&& 0x7f = n % 128 := Nat.and_two_pow_sub_one_eq_mod n 7

theorem more_bit (n : Nat) (h : n < 256) : n &&& 0x80 ≠ 0 ↔ 128 ≤ n := by
  have hbit : n &&& 0x80 = (n.testBit 7).toNat * 128 := Nat.and_two_pow n 7
  rw [hbit, Nat.testBit_eq_decide_div_mod_eq]
  by_cases hn : n < 128
  · have : n / 128 = 0 := by omega
    simp [this]
    omega
  · have : n / 128 % 2 = 1 := by omega
    simp [this]
    omega

/-- Every group but the last has the top bit and the low seven bits. -/
theorem more_byte (n : Nat) : (UInt8.ofNat (n ||| 0x80)).toNat = 128 + n % 128 := by
  have hlow : (n ||| 0x80) % 2 ^ 8 = n % 2 ^ 8 ||| 0x80 := by
    rw [Nat.or_mod_two_pow]
  have hor : n % 2 ^ 8 ||| 0x80 = 128 + n % 128 := by
    have hlt : n % 2 ^ 8 < 256 := Nat.mod_lt _ (by omega)
    have hmod : n % 128 = n % 2 ^ 8 % 128 := by omega
    rw [hmod]
    revert hlt
    generalize n % 2 ^ 8 = m
    revert m
    decide +kernel
  rw [UInt8.toNat_ofNat', hlow, hor]

/-- Bits above all those set so far are added. -/
theorem or_shift_eq_add {v : Nat} {s : Nat} (h : v < 2 ^ s) (n : Nat) :
    v ||| (n <<< s) = v + n * 2 ^ s := by
  have hadd : n <<< s + v = n <<< s ||| v := Nat.shiftLeft_add_eq_or_of_lt h n
  rw [Nat.or_comm, ← hadd, Nat.shiftLeft_eq, Nat.add_comm]

theorem hdr_bytes_ne_nil (n : Nat) : hdr_bytes n ≠ [] := by
  unfold hdr_bytes
  split <;> simp

/-- The groups of `n`, read from bit `i` on over a size that is below it. -/
theorem hdr_size_from_hdr_bytes (n : Nat) :
    ∀ (i size : Nat) (rest : Bytes), size < 2 ^ i → i < 64 → n * 2 ^ i < 2 ^ 64 →
      hdr_size_from i size (hdr_bytes n ++ rest) = some (size + n * 2 ^ i, rest) := by
  induction n using Nat.strong_induction_on with
  | _ n ih =>
    intro i size rest hsize hi hn
    rw [hdr_bytes]
    by_cases hmore : 0x80 ≤ n
    · rw [if_pos hmore, List.cons_append, hdr_size_from, if_neg (by omega)]
      have hbyte := more_byte n
      have hbit : (UInt8.ofNat (n ||| 0x80)).toNat &&& 0x80 ≠ 0 := by
        rw [more_bit _ (UInt8.toNat_lt _), hbyte]
        omega
      have hne : hdr_bytes (n >>> 7) ++ rest ≠ [] := by
        simp [hdr_bytes_ne_nil]
      have hgroup : (UInt8.ofNat (n ||| 0x80)).toNat &&& 0x7f = n % 128 := by
        rw [and_low_seven, hbyte]
        omega
      have hhigh : n >>> 7 = n / 128 := Nat.shiftRight_eq_div_pow n 7
      have hsplit : n = n / 128 * 128 + n % 128 := by omega
      have hpow : 2 ^ (i + 7) = 128 * 2 ^ i := by rw [Nat.pow_add]; omega
      have hlow : n % 128 * 2 ^ i ≤ n * 2 ^ i := Nat.mul_le_mul_right _ (Nat.mod_le _ _)
      have hpos : 0 < 2 ^ i := Nat.two_pow_pos i
      have hi7 : i + 7 < 64 := by
        by_contra hcon
        have h1 : 2 ^ 64 ≤ 2 ^ (i + 7) := Nat.pow_le_pow_right (by omega) (by omega)
        have h2 : 128 * 2 ^ i ≤ n * 2 ^ i := Nat.mul_le_mul_right _ hmore
        omega
      have hmul : n / 128 * 2 ^ (i + 7) + n % 128 * 2 ^ i = n * 2 ^ i := by
        calc n / 128 * 2 ^ (i + 7) + n % 128 * 2 ^ i
            = (n / 128 * 128 + n % 128) * 2 ^ i := by rw [hpow]; ring
          _ = n * 2 ^ i := by rw [← hsplit]
      have hnew : (size ||| ((n % 128) <<< i % 2 ^ 64)) = size + n % 128 * 2 ^ i := by
        rw [Nat.mod_eq_of_lt (by rw [Nat.shiftLeft_eq]; omega)]
        exact or_shift_eq_add hsize _
      have hsmall : size + n % 128 * 2 ^ i < 2 ^ (i + 7) := by
        have : n % 128 * 2 ^ i ≤ 127 * 2 ^ i := Nat.mul_le_mul_right _ (by omega)
        rw [hpow]
        omega
      dsimp only
      rw [if_pos ⟨hbit, hne⟩, hgroup, hnew, hhigh,
        ih (n / 128) (by omega) (i + 7) _ rest hsmall hi7 (by omega)]
      congr 2
      omega
    · rw [if_neg hmore, List.singleton_append, hdr_size_from, if_neg (by omega)]
      have hbyte : (UInt8.ofNat n).toNat = n := by
        rw [UInt8.toNat_ofNat']
        omega
      have hbit : ¬ (n &&& 0x80 ≠ 0 ∧ rest ≠ []) := by
        rw [more_bit n (by omega)]
        omega
      dsimp only
      rw [hbyte, if_neg hbit, and_low_seven, Nat.mod_eq_of_lt (show n < 128 by omega),
        Nat.mod_eq_of_lt (by rw [Nat.shiftLeft_eq]; omega), or_shift_eq_add hsize]

theorem get_delta_hdr_size_hdr_bytes (n : Nat) (h : n < 2 ^ 64) (rest : Bytes) :
    get_delta_hdr_size (hdr_bytes n ++ rest) = some (n, rest) := by
  have := hdr_size_from_hdr_bytes n 0 0 rest (by omega) (by omega) (by omega)
  rw [get_delta_hdr_size, this]
  simp

theorem length_hdr_bytes_pos (n : Nat) : 0 < (hdr_bytes n).length :=
  List.length_pos_of_ne_nil (hdr_bytes_ne_nil n)

/-- A size of 128 and more takes a second byte. -/
theorem length_hdr_bytes_two (n : Nat) (h : 0x80 ≤ n) : 2 ≤ (hdr_bytes n).length := by
  rw [hdr_bytes, if_pos h, List.length_cons]
  have := length_hdr_bytes_pos (n >>> 7)
  omega

/-- Each byte of the header takes seven bits of the size. -/
theorem length_hdr_bytes_le (k n : Nat) (h : n < 2 ^ (7 * (k + 1))) :
    (hdr_bytes n).length ≤ k + 1 := by
  induction k generalizing n with
  | zero =>
    rw [hdr_bytes, if_neg (by omega)]
    simp
  | succ k ih =>
    rw [hdr_bytes]
    split
    · have hpow : 2 ^ (7 * (k + 1 + 1)) = 128 * 2 ^ (7 * (k + 1)) := by
        rw [show 7 * (k + 1 + 1) = 7 + 7 * (k + 1) by ring, Nat.pow_add]
      have := ih (n >>> 7) (by rw [Nat.shiftRight_eq_div_pow]; omega)
      simpa using this
    · simp

/-! ## What an opcode says -/

inductive opcode where
  | copy (moff msize : Nat)
  | insert (lits : Bytes)

def opcode.bytes : opcode → Bytes
  | .copy moff msize => copy_bytes moff msize
  | .insert lits => UInt8.ofNat lits.length :: lits

/-- What the opcode adds to the target. -/
def opcode.gives (src : Bytes) : opcode → Bytes
  | .copy moff msize => (src.drop moff).take msize
  | .insert lits => lits

/-- The opcode can be written and stays in the source. -/
def opcode.Sound (src : Bytes) : opcode → Prop
  | .copy moff msize =>
    moff + msize ≤ src.length ∧ moff < 2 ^ 32 ∧ 0 < msize ∧ msize ≤ 0x10000
  | .insert lits => 0 < lits.length ∧ lits.length < 0x80

theorem byte_of_and (n s : Nat) : n &&& (0xff <<< s) = ((n >>> s) % 256) <<< s := by
  apply Nat.eq_of_testBit_eq
  intro i
  have hmask : (n >>> s) % 256 = (n >>> s) &&& 0xff :=
    (Nat.and_two_pow_sub_one_eq_mod (n >>> s) 8).symm
  rw [hmask, Nat.testBit_and, Nat.testBit_shiftLeft, Nat.testBit_shiftLeft, Nat.testBit_and,
    Nat.testBit_shiftRight]
  by_cases hi : s ≤ i
  · rw [show s + (i - s) = i by omega]
    simp [hi]
  · simp [hi]

/-- A byte that is left out is zero. -/
theorem and_mask_ne_zero (n s : Nat) : n &&& (0xff <<< s) ≠ 0 ↔ (n >>> s) % 256 ≠ 0 := by
  rw [byte_of_and, Nat.shiftLeft_eq]
  have hpos : 0 < 2 ^ s := Nat.two_pow_pos s
  constructor
  · intro h h0
    rw [h0] at h
    simp at h
  · intro h h0
    rcases Nat.mul_eq_zero.mp h0 with h1 | h1
    · exact h h1
    · omega

/-- An operand that was written is read, one that was left out is zero. -/
theorem operand_operand_bytes (cmd flag s v n : Nat) (rest : Bytes) (hv : v < 2 ^ s)
    (hflag : cmd &&& flag ≠ 0 ↔ n &&& (0xff <<< s) ≠ 0) :
    operand cmd flag s v (operand_bytes n s ++ rest) =
      some (v + n / 2 ^ s % 256 * 2 ^ s, rest) := by
  unfold operand
  rw [operand_bytes]
  by_cases h : n &&& (0xff <<< s) ≠ 0
  · rw [if_pos (hflag.mpr h), if_pos h, List.singleton_append]
    dsimp only
    rw [UInt8.toNat_ofNat', or_shift_eq_add hv, Nat.shiftRight_eq_div_pow]
  · rw [if_neg (mt hflag.mp h), if_neg h, List.nil_append]
    have hz : (n >>> s) % 256 = 0 := by
      by_contra hne
      exact h ((and_mask_ne_zero n s).mpr hne)
    rw [Nat.shiftRight_eq_div_pow] at hz
    rw [hz]
    simp

/-- The flags of the opcode are those that were set. -/
theorem copy_command : ∀ b0 b1 b2 b3 b4 b5 : Bool,
    let cmd := (UInt8.ofNat (0x80 ||| (if b0 then 0x01 else 0) ||| (if b1 then 0x02 else 0) |||
      (if b2 then 0x04 else 0) ||| (if b3 then 0x08 else 0) ||| (if b4 then 0x10 else 0) |||
      (if b5 then 0x20 else 0))).toNat
    cmd &&& 0x80 ≠ 0 ∧ (cmd &&& 0x01 ≠ 0 ↔ b0 = true) ∧ (cmd &&& 0x02 ≠ 0 ↔ b1 = true) ∧
      (cmd &&& 0x04 ≠ 0 ↔ b2 = true) ∧ (cmd &&& 0x08 ≠ 0 ↔ b3 = true) ∧
      (cmd &&& 0x10 ≠ 0 ↔ b4 = true) ∧ (cmd &&& 0x20 ≠ 0 ↔ b5 = true) ∧ cmd &&& 0x40 = 0 := by
  decide

theorem four_bytes (n : Nat) (h : n < 2 ^ 32) :
    n % 256 + n / 2 ^ 8 % 256 * 2 ^ 8 + n / 2 ^ 16 % 256 * 2 ^ 16 + n / 2 ^ 24 % 256 * 2 ^ 24 =
      n := by
  omega

theorem two_bytes (n : Nat) (h : n < 0x10000) : n % 256 + n / 2 ^ 8 % 256 * 2 ^ 8 = n := by
  omega

/-- A copy is read as it was written; a size of 64KB is the one that is left out. -/
theorem copy_operands_copy_bytes (moff msize : Nat) (rest : Bytes) (hoff : moff < 2 ^ 32)
    (hpos : 0 < msize) (hmax : msize ≤ 0x10000) :
    ∃ cmd data, copy_bytes moff msize ++ rest = cmd :: data ∧ cmd.toNat &&& 0x80 ≠ 0 ∧
      copy_operands cmd.toNat data = some (moff, msize, rest) := by
  have hcmd := copy_command (decide (moff &&& (0xff <<< 0) ≠ 0))
    (decide (moff &&& (0xff <<< 8) ≠ 0)) (decide (moff &&& (0xff <<< 16) ≠ 0))
    (decide (moff &&& (0xff <<< 24) ≠ 0)) (decide (msize &&& (0xff <<< 0) ≠ 0))
    (decide (msize &&& (0xff <<< 8) ≠ 0))
  simp only [decide_eq_true_eq] at hcmd
  rw [copy_bytes, List.cons_append]
  refine ⟨_, _, rfl, ?_⟩
  simp only [operand_flag]
  revert hcmd
  generalize UInt8.ofNat _ = cmd
  intro hcmd
  obtain ⟨htop, h0, h1, h2, h3, h4, h5, h6⟩ := hcmd
  refine ⟨htop, ?_⟩
  have hlast : ∀ v data, operand cmd.toNat 0x40 16 v data = some (v, data) := by
    intro v data
    unfold operand
    rw [if_neg (by simp [h6])]
  have hb : ∀ n k : Nat, n / 2 ^ k % 256 < 256 := fun n k => Nat.mod_lt _ (by omega)
  have ho0 := hb moff 8
  have ho1 := hb moff 16
  have hz0 := hb msize 8
  rw [copy_operands]
  simp only [List.append_assoc]
  rw [operand_operand_bytes _ _ _ _ _ _ (by omega) h0]
  simp only [Option.bind_eq_bind, Option.bind_some]
  rw [operand_operand_bytes _ _ _ _ _ _ (by omega) h1]
  simp only [Option.bind_some]
  rw [operand_operand_bytes _ _ _ _ _ _ (by omega) h2]
  simp only [Option.bind_some]
  rw [operand_operand_bytes _ _ _ _ _ _ (by omega) h3]
  simp only [Option.bind_some]
  rw [operand_operand_bytes _ _ _ _ _ _ (by omega) h4]
  simp only [Option.bind_some]
  rw [operand_operand_bytes _ _ _ _ _ _ (by omega) h5]
  simp only [Option.bind_some, hlast]
  have hmoff := four_bytes moff hoff
  have hsize : msize < 0x10000 → msize % 256 + msize / 2 ^ 8 % 256 * 2 ^ 8 = msize :=
    two_bytes msize
  congr 2
  · simpa using hmoff
  · congr 1
    by_cases hfull : msize = 0x10000
    · rw [hfull]
      rfl
    · have := hsize (by omega)
      rw [if_neg (by simp only [Nat.pow_zero, Nat.div_one, Nat.zero_add, Nat.mul_one]; omega)]
      simpa using this

/-! ## A delta of sound opcodes is replayed -/

theorem length_gives_copy {src : Bytes} {moff msize : Nat} (h : moff + msize ≤ src.length) :
    ((src.drop moff).take msize).length = msize := by
  rw [List.length_take, List.length_drop]
  omega

/-- One opcode of the loop. -/
theorem patch_loop_opcode (src : Bytes) (op : opcode) (h : op.Sound src) (fuel : Nat)
    (out rest : Bytes) (size : Nat) (hsrc : src.length < 2 ^ 64)
    (hsize : (op.gives src).length ≤ size) :
    patch_loop src (fuel + 1) out size (op.bytes ++ rest) =
      patch_loop src fuel (out ++ op.gives src) (size - (op.gives src).length) rest := by
  cases op with
  | copy moff msize =>
    obtain ⟨hin, hoff, hpos, hmax⟩ := h
    obtain ⟨cmd, data, heq, htop, hread⟩ := copy_operands_copy_bytes moff msize rest hoff hpos hmax
    have hlen : ((src.drop moff).take msize).length = msize := length_gives_copy hin
    simp only [opcode.gives, hlen] at hsize ⊢
    rw [opcode.bytes, heq, patch_loop, if_pos htop, hread]
    dsimp only
    rw [if_neg (by omega)]
  | insert lits =>
    obtain ⟨hpos, hmax⟩ := h
    simp only [opcode.gives] at hsize ⊢
    have hbyte : (UInt8.ofNat lits.length).toNat = lits.length := by
      rw [UInt8.toNat_ofNat']
      omega
    have htop : ¬ (UInt8.ofNat lits.length).toNat &&& 0x80 ≠ 0 := by
      rw [more_bit _ (UInt8.toNat_lt _), hbyte]
      omega
    have hne : UInt8.ofNat lits.length ≠ 0 := by
      intro h0
      rw [h0] at hbyte
      have : (0 : UInt8).toNat = 0 := rfl
      omega
    rw [opcode.bytes, List.cons_append, patch_loop, if_neg htop, if_pos hne, hbyte,
      if_neg (by omega), if_neg (by rw [List.length_append]; omega), List.take_left,
      List.drop_left]

theorem length_opcode_pos (op : opcode) : 0 < op.bytes.length := by
  cases op <;> simp [opcode.bytes, copy_bytes]

/-- The whole run: what the opcodes give, one after another. -/
theorem patch_loop_opcodes (src : Bytes) (hsrc : src.length < 2 ^ 64) (ops : List opcode)
    (h : ∀ op ∈ ops, op.Sound src) (fuel : Nat) (out : Bytes)
    (hfuel : (ops.flatMap opcode.bytes).length ≤ fuel) :
    patch_loop src fuel out (ops.flatMap (opcode.gives src)).length (ops.flatMap opcode.bytes) =
      .gives (out ++ ops.flatMap (opcode.gives src)) := by
  induction ops generalizing fuel out with
  | nil => cases fuel <;> simp [patch_loop, sanity_check]
  | cons op ops ih =>
    have hpos := length_opcode_pos op
    rw [List.flatMap_cons, List.length_append] at hfuel
    obtain ⟨fuel, rfl⟩ : ∃ k, fuel = k + 1 := ⟨fuel - 1, by omega⟩
    rw [List.flatMap_cons, List.flatMap_cons, patch_loop_opcode src op
      (h op List.mem_cons_self) fuel out _ _ hsrc (by rw [List.length_append]; omega),
      List.length_append, Nat.add_sub_cancel_left,
      ih (fun o ho => h o (List.mem_cons_of_mem _ ho)) _ _ (by omega), List.append_assoc]

/-- A header with the two sizes and sound opcodes for the target are a delta
that gives the target. -/
theorem patch_delta_opcodes (src trg : Bytes) (hsrc : src.length < 2 ^ 64)
    (htrg : trg.length < 2 ^ 64) (ops : List opcode) (h : ∀ op ∈ ops, op.Sound src)
    (hgives : ops.flatMap (opcode.gives src) = trg) (hne : ops ≠ []) :
    patch_delta src (hdr_bytes src.length ++ (hdr_bytes trg.length ++
      ops.flatMap opcode.bytes)) = .gives trg := by
  have hlong : ¬ (hdr_bytes src.length ++ (hdr_bytes trg.length ++
      ops.flatMap opcode.bytes)).length < DELTA_SIZE_MIN := by
    obtain ⟨op, rest, rfl⟩ := List.exists_cons_of_ne_nil hne
    have hop := h op List.mem_cons_self
    have hs := length_hdr_bytes_pos src.length
    have ht := length_hdr_bytes_pos trg.length
    simp only [List.length_append, List.flatMap_cons, DELTA_SIZE_MIN]
    cases op with
    | insert lits =>
      have := hop.1
      simp only [opcode.bytes, List.length_cons]
      omega
    | copy moff msize =>
      obtain ⟨hin, -, hpos, hmax⟩ := hop
      by_cases hfull : msize = 0x10000
      · -- the only opcode of one byte, but its source takes a longer header
        have := length_hdr_bytes_two src.length (by omega)
        have := length_opcode_pos (.copy moff msize)
        omega
      · have hbyte : 1 ≤ (operand_bytes msize 0 ++ operand_bytes msize 8).length := by
          by_contra hcon
          have hnil : operand_bytes msize 0 ++ operand_bytes msize 8 = [] :=
            List.eq_nil_of_length_eq_zero (by omega)
          rw [List.append_eq_nil_iff, operand_bytes, operand_bytes] at hnil
          have h0 : ¬ msize &&& (0xff <<< 0) ≠ 0 := by
            intro hb
            rw [if_pos hb] at hnil
            exact absurd hnil.1 (by simp)
          have h8 : ¬ msize &&& (0xff <<< 8) ≠ 0 := by
            intro hb
            rw [if_pos hb] at hnil
            exact absurd hnil.2 (by simp)
          rw [and_mask_ne_zero, Nat.shiftRight_eq_div_pow] at h0 h8
          have := two_bytes msize (by omega)
          omega
        simp only [opcode.bytes, copy_bytes, List.length_cons, List.length_append] at hbyte ⊢
        omega
  rw [patch_delta, if_neg hlong, get_delta_hdr_size_hdr_bytes _ hsrc]
  dsimp only
  rw [if_neg (by simp), get_delta_hdr_size_hdr_bytes _ htrg]
  dsimp only
  have hrun := patch_loop_opcodes src hsrc ops h _ [] (le_refl _)
  rw [hgives, List.nil_append] at hrun
  exact hrun

end git.delta
