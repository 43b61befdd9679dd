-- The variable length numbers of `varint.c`: seven bits a byte, the highest
-- first, each byte but the last with its top bit set and one less than the
-- digit it stands for.
import Git.CacheEntry

namespace git

/-- The loop of `decode_varint` after the byte `c`. At an overflow the value
is 0 and the pointer is where it was. `none`: past the end of the buffer. -/
def decode_varint_from (bufp : Bytes) : UInt8 → Nat → Bytes → Option (Nat × Bytes)
  | c, val, buf =>
    if c.toNat &&& 128 = 0 then some (val, buf)
    else
      let val := (val + 1) % 2 ^ 64
      if val = 0 ∨ 2 ^ 57 ≤ val then some (0, bufp)
      else
        match buf with
        | [] => none
        | c :: buf => decode_varint_from bufp c ((val * 128 + (c.toNat &&& 127)) % 2 ^ 64) buf
  termination_by structural _ _ buf => buf

def decode_varint (bufp : Bytes) : Option (Nat × Bytes) :=
  match bufp with
  | [] => none
  | c :: buf => decode_varint_from bufp c (c.toNat &&& 127) buf

/-- `while (value >>= 7) varint[--pos] = 128 | (--value & 127)` -/
def encode_varint_from (value : Nat) (varint : Bytes) : Bytes :=
  if value / 128 = 0 then varint
  else
    encode_varint_from (value / 128 - 1)
      (UInt8.ofNat (128 ||| ((value / 128 - 1) &&& 127)) :: varint)
  termination_by value

def encode_varint (value : Nat) : Bytes :=
  encode_varint_from value [UInt8.ofNat (value &&& 127)]

/-! ## The bytes of the encoding -/

theorem low_bits (n : Nat) : n &&& 127 = n % 128 := Nat.and_two_pow_sub_one_eq_mod n 7

theorem continued_byte (n : Nat) : (UInt8.ofNat (128 ||| (n &&& 127))).toNat = 128 + n % 128 := by
  have hlt : n % 128 < 2 ^ 7 := Nat.mod_lt _ (by omega)
  have hor : 128 ||| (n % 128) = 128 + n % 128 := by
    have := Nat.two_pow_add_eq_or_of_lt hlt 1
    rw [Nat.mul_one] at this
    exact this.symm
  rw [low_bits, hor, UInt8.toNat_ofNat']
  omega

theorem last_byte (n : Nat) : (UInt8.ofNat (n &&& 127)).toNat = n % 128 := by
  rw [low_bits, UInt8.toNat_ofNat']
  omega

theorem top_bit (c : Nat) (h : c < 256) : c &&& 128 = 0 ↔ c < 128 := by
  have hbit : c &&& 128 = (c.testBit 7).toNat * 128 := Nat.and_two_pow c 7
  rw [hbit, Nat.testBit_eq_decide_div_mod_eq]
  by_cases hc : c < 128
  · have : c / 128 % 2 = 0 := by omega
    simp [this, hc]
  · have : c / 128 % 2 = 1 := by omega
    simp [this, hc]

/-! ## Reading back what was written -/

/-- The bytes that the loop puts before the last digit `c` of `value` lead
the reader to `c`, with `value` read. -/
theorem decode_encode_from (value : Nat) (c : UInt8) (buf : Bytes) (hlt : value < 2 ^ 64)
    (hc : c.toNat % 128 = value % 128) :
    decode_varint (encode_varint_from value (c :: buf)) =
      decode_varint_from (encode_varint_from value (c :: buf)) c value buf := by
  induction value using Nat.strong_induction_on generalizing c buf with
  | _ value ih =>
    rw [encode_varint_from]
    by_cases h0 : value / 128 = 0
    · have hval : c.toNat &&& 127 = value := by
        rw [low_bits]
        omega
      simp only [h0, if_true, decode_varint, hval]
    · simp only [h0, if_false]
      set bufp := encode_varint_from (value / 128 - 1)
        (UInt8.ofNat (128 ||| ((value / 128 - 1) &&& 127)) :: c :: buf) with hbufp
      have hbyte := continued_byte (value / 128 - 1)
      rw [ih (value / 128 - 1) (by omega) _ (c :: buf) (by omega) (by omega), ← hbufp]
      have htop : ¬ (UInt8.ofNat (128 ||| ((value / 128 - 1) &&& 127))).toNat &&& 128 = 0 := by
        rw [top_bit _ (UInt8.toNat_lt _)]
        omega
      have hnext : (value / 128 - 1 + 1) % 2 ^ 64 = value / 128 := by omega
      have hdigit : (value / 128 * 128 + (c.toNat &&& 127)) % 2 ^ 64 = value := by
        rw [low_bits]
        omega
      have hfits : ¬ (value / 128 = 0 ∨ 2 ^ 57 ≤ value / 128) := by omega
      rw [decode_varint_from]
      simp only [htop, if_false, hnext, hfits, hdigit]

theorem encode_varint_from_append (value : Nat) (varint rest : Bytes) :
    encode_varint_from value varint ++ rest = encode_varint_from value (varint ++ rest) := by
  induction value using Nat.strong_induction_on generalizing varint with
  | _ value ih =>
    conv_lhs => rw [encode_varint_from]
    conv_rhs => rw [encode_varint_from]
    by_cases h0 : value / 128 = 0
    · simp only [h0, if_true]
    · simp only [h0, if_false]
      exact ih (value / 128 - 1) (by omega) _

/-- A number of 64 bits is read back, and the bytes after it are left. -/
theorem decode_encode_varint (value : Nat) (rest : Bytes) (hlt : value < 2 ^ 64) :
    decode_varint (encode_varint value ++ rest) = some (value, rest) := by
  have hlast : (UInt8.ofNat (value &&& 127)).toNat = value % 128 := last_byte value
  rw [encode_varint, encode_varint_from_append, List.singleton_append,
    decode_encode_from value _ rest hlt (by omega), decode_varint_from]
  simp only [top_bit _ (UInt8.toNat_lt _)]
  rw [if_pos (by omega)]

theorem length_encode_varint_from (k value : Nat) (varint : Bytes) (h : value < 128 ^ (k + 1)) :
    (encode_varint_from value varint).length ≤ varint.length + k := by
  induction k generalizing value varint with
  | zero =>
    rw [encode_varint_from, if_pos (by omega)]
    omega
  | succ k ih =>
    rw [encode_varint_from]
    by_cases h0 : value / 128 = 0
    · simp only [h0, if_true]
      omega
    · simp only [h0, if_false]
      have hpow : 128 ^ (k + 1 + 1) = 128 ^ (k + 1) * 128 := Nat.pow_succ ..
      have := ih (value / 128 - 1)
        (UInt8.ofNat (128 ||| ((value / 128 - 1) &&& 127)) :: varint) (by omega)
      rw [List.length_cons] at this
      omega

theorem le_length_encode_varint_from (value : Nat) (varint : Bytes) :
    varint.length ≤ (encode_varint_from value varint).length := by
  induction value using Nat.strong_induction_on generalizing varint with
  | _ value ih =>
    rw [encode_varint_from]
    by_cases h0 : value / 128 = 0
    · rw [if_pos h0]
    · rw [if_neg h0]
      refine Nat.le_trans ?_ (ih (value / 128 - 1) (by omega) _)
      rw [List.length_cons]
      exact Nat.le_succ _

/-- The encoding of an `int` takes five bytes at most. -/
theorem length_encode_varint (value : Nat) (hlt : value < 2 ^ 31) :
    (encode_varint value).length ≤ 5 :=
  length_encode_varint_from 4 value _ (by omega)

end git
