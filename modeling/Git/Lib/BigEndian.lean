-- Numbers in network byte order, and a buffer read word by word.
import Mathlib

namespace big_endian

/-- The lowest `n` bytes of `x`, the highest of them first. -/
def put : Nat → Nat → List UInt8
  | 0, _ => []
  | n + 1, x => put n (x / 256) ++ [UInt8.ofNat x]

/-- The number that the bytes say. -/
def value (bs : List UInt8) : Nat := bs.foldl (fun v b => v * 256 + b.toNat) 0

@[simp] theorem length_put (n x : Nat) : (put n x).length = n := by
  induction n generalizing x with
  | zero => rfl
  | succ n ih => simp [put, ih]

theorem value_put (n x : Nat) : value (put n x) = x % 256 ^ n := by
  induction n generalizing x with
  | zero => simp [put, value, Nat.mod_one]
  | succ n ih =>
    have hlast : (UInt8.ofNat x).toNat = x % 256 := UInt8.toNat_ofNat'
    have hstep : value (put (n + 1) x) = value (put n (x / 256)) * 256 + (UInt8.ofNat x).toNat := by
      simp [put, value]
    rw [hstep, ih, hlast, Nat.pow_succ, Nat.mul_comm (256 ^ n) 256, Nat.mod_mul]
    omega

/-- Only the lowest bytes count. -/
theorem put_mod (n x : Nat) : put n (x % 256 ^ n) = put n x := by
  induction n generalizing x with
  | zero => rfl
  | succ n ih =>
    have hlow : UInt8.ofNat (x % 256 ^ (n + 1)) = UInt8.ofNat x := by
      apply UInt8.toNat_inj.mp
      rw [UInt8.toNat_ofNat', UInt8.toNat_ofNat', Nat.pow_succ, Nat.mod_mul_left_mod]
    have hhigh : x % 256 ^ (n + 1) / 256 = x / 256 % 256 ^ n := by
      rw [Nat.pow_succ, Nat.mul_comm, Nat.mod_mul_right_div_self]
    rw [put, put, hlow, hhigh, ih]

/-- The high bytes come first. -/
theorem put_add (n k x : Nat) : put (n + k) x = put n (x / 256 ^ k) ++ put k x := by
  induction k generalizing x with
  | zero => simp [put]
  | succ k ih =>
    have hdiv : x / 256 / 256 ^ k = x / 256 ^ (k + 1) := by
      rw [Nat.div_div_eq_div_mul, Nat.pow_succ, Nat.mul_comm]
    rw [← Nat.add_assoc, put, ih, put, hdiv, List.append_assoc]

/-- A word of `8 * n` bits off the front of a buffer, and what is left. -/
def word (n : Nat) (bs : List UInt8) : Option (BitVec (8 * n) × List UInt8) :=
  if bs.length < n then none
  else some (BitVec.ofNat (8 * n) (value (bs.take n)), bs.drop n)

/-- A word that was put in front is the word that comes off. -/
@[simp] theorem word_put (n : Nat) (x : BitVec (8 * n)) (rest : List UInt8) :
    word n (put n x.toNat ++ rest) = some (x, rest) := by
  have hlen : ¬ (put n x.toNat ++ rest).length < n := by
    rw [List.length_append, length_put]
    omega
  have hx : x.toNat % 256 ^ n = x.toNat := by
    apply Nat.mod_eq_of_lt
    have := x.isLt
    rwa [Nat.pow_mul] at this
  unfold word
  rw [if_neg hlen, List.take_append_of_le_length (by simp), List.take_of_length_le (by simp),
    List.drop_append_of_le_length (by simp), List.drop_eq_nil_of_le (by simp), value_put, hx]
  simp

end big_endian
