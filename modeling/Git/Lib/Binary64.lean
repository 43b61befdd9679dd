-- Arithmetic of doubles that are not negative and neither huge nor tiny: each result is the
-- exact one rounded to 53 bits, to the nearest, and to the even one of two.
import Mathlib

namespace binary64

/-! ## Rounding -/

def half_even (y : ℚ) : Int :=
  if y - ⌊y⌋ < 1 / 2 then ⌊y⌋
  else if 1 / 2 < y - ⌊y⌋ then ⌊y⌋ + 1
  else if ⌊y⌋ % 2 = 0 then ⌊y⌋
  else ⌊y⌋ + 1

/-- The distance of neighbours between a power of two and the next. -/
def ulp (x : ℚ) : ℚ := 2 ^ (Int.log 2 x - 52)

def rnd (x : ℚ) : ℚ := if x = 0 then 0 else half_even (x / ulp x) * ulp x

theorem half_even_near (y : ℚ) : |(half_even y : ℚ) - y| ≤ 1 / 2 := by
  have hlow := Int.floor_le y
  have hhigh := Int.lt_floor_add_one y
  unfold half_even
  rw [abs_le]
  split_ifs with hless hmore heven
  · constructor <;> linarith
  · push_cast
    constructor <;> linarith
  · constructor <;> linarith
  · push_cast
    constructor <;> linarith

theorem half_even_int (n : Int) : half_even n = n := by
  rw [half_even, Int.floor_intCast, if_pos (by rw [sub_self]; norm_num)]

theorem ulp_pos (x : ℚ) : 0 < ulp x := zpow_pos (by norm_num) _

theorem ulp_le {x : ℚ} (h : 0 < x) : ulp x ≤ x / 2 ^ 52 := by
  rw [ulp, zpow_sub₀ (by norm_num : (2 : ℚ) ≠ 0)]
  have hlog : (2 : ℚ) ^ Int.log 2 x ≤ x := by exact_mod_cast Int.zpow_log_le_self one_lt_two h
  gcongr
  norm_num

/-- The relative error. -/
theorem rnd_near {x : ℚ} (h : 0 ≤ x) : |rnd x - x| ≤ x / 2 ^ 53 := by
  rcases h.eq_or_lt with rfl | hpos
  · simp [rnd]
  have hulp := ulp_pos x
  have hexact : (half_even (x / ulp x) : ℚ) * ulp x - x =
      ((half_even (x / ulp x) : ℚ) - x / ulp x) * ulp x := by
    rw [sub_mul, div_mul_cancel₀ x hulp.ne']
  rw [rnd, if_neg hpos.ne', hexact, abs_mul, abs_of_pos hulp]
  calc |(half_even (x / ulp x) : ℚ) - x / ulp x| * ulp x
      ≤ 1 / 2 * (x / 2 ^ 52) := by
        exact mul_le_mul (half_even_near _) (ulp_le hpos) hulp.le (by norm_num)
    _ = x / 2 ^ 53 := by ring

theorem rnd_nonneg {x : ℚ} (h : 0 ≤ x) : 0 ≤ rnd x := by
  have hnear := (abs_le.mp (rnd_near h)).1
  have hsmall : x / 2 ^ 53 ≤ x := div_le_self h (by norm_num)
  linarith

/-- Integers of 53 bits are exact. -/
theorem rnd_nat {n : Nat} (h : n < 2 ^ 53) : rnd n = n := by
  rcases Nat.eq_zero_or_pos n with rfl | hpos
  · simp [rnd]
  have hlog : Nat.log 2 n ≤ 52 := Nat.lt_succ_iff.mp (Nat.log_lt_of_lt_pow hpos.ne' h)
  have hulp : ulp (n : ℚ) * 2 ^ (52 - Nat.log 2 n) = 1 := by
    rw [ulp, Int.log_natCast, ← zpow_natCast, ← zpow_add₀ (by norm_num : (2 : ℚ) ≠ 0)]
    rw [Nat.cast_sub hlog]
    norm_num
  have hdiv : (n : ℚ) / ulp n = ((n * 2 ^ (52 - Nat.log 2 n) : Nat) : Int) := by
    rw [div_eq_iff (ulp_pos _).ne']
    push_cast
    rw [mul_assoc, mul_comm ((2 : ℚ) ^ _), hulp, mul_one]
  rw [rnd, if_neg (by exact_mod_cast hpos.ne'), hdiv, half_even_int, ← hdiv,
    div_mul_cancel₀ _ (ulp_pos _).ne']

/-! ## Operations -/

def of_nat (n : Nat) : ℚ := rnd n

def mul (a b : ℚ) : ℚ := rnd (a * b)

/-- `none` where the divisor is zero. -/
def div (a b : ℚ) : Option ℚ := if b = 0 then none else some (rnd (a / b))

theorem of_nat_exact {n : Nat} (h : n < 2 ^ 53) : of_nat n = n := rnd_nat h

end binary64
