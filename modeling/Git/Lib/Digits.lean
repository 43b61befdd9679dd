-- Numbers as text, in a base up to ten: the digits that are written, and the value that
-- `strtol` and `strtoul` read from the front of a text.
import Mathlib

namespace digit_text

/-! ## Writing and reading -/

/-- The digits of a number, the highest first. -/
def write (base n : Nat) : List UInt8 := (Nat.toDigits base n).map fun c => c.toNat.toUInt8

/-- With a minus in front of a negative number. -/
def write_int (base : Nat) (n : Int) : List UInt8 :=
  if n < 0 then 45 :: write base n.natAbs else write base n.natAbs

def is_digit (base : Nat) (c : UInt8) : Bool := 48 ≤ c.toNat && c.toNat < 48 + base

/-- The value of the digits at the front, behind those of `acc`, and the text that follows. -/
def read (base : Nat) : Nat → List UInt8 → Nat × List UInt8
  | acc, [] => (acc, [])
  | acc, c :: text =>
    if is_digit base c then read base (acc * base + (c.toNat - 48)) text else (acc, c :: text)

def is_space (c : UInt8) : Bool := c == 32 || (9 ≤ c && c ≤ 13)

/-- The sign, and what is behind it. -/
def sign : List UInt8 → Bool × List UInt8
  | 45 :: text => (true, text)
  | 43 :: text => (false, text)
  | text => (false, text)

/-- Blanks, a sign and digits: if there is a minus, the value, and what follows. Nothing
where no digit stands. -/
def scan (base : Nat) (text : List UInt8) : Option (Bool × Nat × List UInt8) :=
  let (minus, text) := sign (text.dropWhile is_space)
  if (text.head?.map (is_digit base)).getD false then
    some (minus, (read base 0 text).1, (read base 0 text).2)
  else none

/-- `strtol` with a `long` of 64 bits: the value, which saturates, and the place of `endptr`.
Nothing where `endptr` is the start. -/
def strtol (base : Nat) (text : List UInt8) : Option (Int × List UInt8) :=
  (scan base text).map fun (minus, n, rest) =>
    (max (-2 ^ 63) (min (2 ^ 63 - 1) (if minus then -(n : Int) else n)), rest)

/-- `strtoul`, which takes the negative of a value behind a minus. -/
def strtoul (base : Nat) (text : List UInt8) : Option (Nat × List UInt8) :=
  (scan base text).map fun (minus, n, rest) =>
    (if 2 ^ 64 ≤ n then 2 ^ 64 - 1 else if minus then (2 ^ 64 - n) % 2 ^ 64 else n, rest)

/-! ## What is written is read back -/

section
variable {base : Nat}

theorem digitChar_byte {d : Nat} (h : d < 10) : (Nat.digitChar d).toNat.toUInt8.toNat = 48 + d := by
  interval_cases d <;> rfl

theorem write_small {n : Nat} (hb : 1 < base) (h : n < base) :
    write base n = [(Nat.digitChar n).toNat.toUInt8] := by
  rw [write, Nat.toDigits_eq_if hb, if_pos h]
  rfl

theorem write_more {n : Nat} (hb : 1 < base) (h : base ≤ n) :
    write base n = write base (n / base) ++ [(Nat.digitChar (n % base)).toNat.toUInt8] := by
  rw [write, Nat.toDigits_eq_if hb, if_neg (not_lt.mpr h), List.map_append]
  rfl

theorem is_digit_byte (hb : base ≤ 10) {d : Nat} (h : d < base) :
    is_digit base (Nat.digitChar d).toNat.toUInt8 = true := by
  rw [is_digit, digitChar_byte (by omega), Bool.and_eq_true, decide_eq_true_eq, decide_eq_true_eq]
  omega

theorem mem_write (hb : 1 < base) (hb' : base ≤ 10) (n : Nat) :
    ∀ c ∈ write base n, is_digit base c = true := by
  induction n using Nat.strong_induction_on with
  | _ n ih =>
    intro c hc
    by_cases hn : n < base
    · rw [write_small hb hn, List.mem_singleton] at hc
      exact hc ▸ is_digit_byte hb' hn
    · rw [write_more hb (not_lt.mp hn), List.mem_append, List.mem_singleton] at hc
      rcases hc with hc | rfl
      · exact ih (n / base) (Nat.div_lt_self (by omega) hb) c hc
      · exact is_digit_byte hb' (Nat.mod_lt n (by omega))

theorem write_ne_nil (hb : 1 < base) (n : Nat) : write base n ≠ [] := by
  by_cases hn : n < base
  · rw [write_small hb hn]
    exact List.cons_ne_nil _ _
  · rw [write_more hb (not_lt.mp hn)]
    exact List.append_ne_nil_of_right_ne_nil _ (List.cons_ne_nil _ _)

theorem read_digit (hb : base ≤ 10) (acc : Nat) {d : Nat} (h : d < base) (text : List UInt8) :
    read base acc ((Nat.digitChar d).toNat.toUInt8 :: text) = read base (acc * base + d) text := by
  rw [read, if_pos (is_digit_byte hb h), digitChar_byte (by omega), Nat.add_sub_cancel_left]

/-- The reading goes on behind what was written. -/
theorem read_write_append (hb : 1 < base) (hb' : base ≤ 10) (n : Nat) (rest : List UInt8) :
    read base 0 (write base n ++ rest) = read base n rest := by
  induction n using Nat.strong_induction_on generalizing rest with
  | _ n ih =>
    by_cases hn : n < base
    · rw [write_small hb hn, List.singleton_append, read_digit hb' 0 hn, Nat.zero_mul, Nat.zero_add]
    · have hlt : n / base < n := Nat.div_lt_self (by omega) hb
      rw [write_more hb (not_lt.mp hn), List.append_assoc, ih (n / base) hlt,
        List.singleton_append, read_digit hb' _ (Nat.mod_lt n (by omega)), Nat.div_add_mod']

theorem read_write (hb : 1 < base) (hb' : base ≤ 10) (n : Nat) {rest : List UInt8}
    (h : ∀ c, rest.head? = some c → is_digit base c = false) :
    read base 0 (write base n ++ rest) = (n, rest) := by
  rw [read_write_append hb hb']
  cases rest with
  | nil => rfl
  | cons c rest =>
    rw [read, h c rfl]
    rfl

/-- A digit is neither a blank nor a sign. -/
theorem is_digit_plain {c : UInt8} (h : is_digit base c = true) :
    is_space c = false ∧ c ≠ 45 ∧ c ≠ 43 := by
  rw [is_digit, Bool.and_eq_true, decide_eq_true_eq, decide_eq_true_eq] at h
  refine ⟨?_, ?_, ?_⟩
  · rw [is_space, Bool.or_eq_false_iff, Bool.and_eq_false_iff, beq_eq_false_iff_ne,
      decide_eq_false_iff_not, decide_eq_false_iff_not, UInt8.le_iff_toNat_le,
      UInt8.le_iff_toNat_le]
    refine ⟨?_, Or.inr ?_⟩
    · rintro rfl
      exact absurd h.1 (by decide)
    · exact not_le.mpr (lt_of_lt_of_le (by decide) h.1)
  · rintro rfl
    exact absurd h.1 (by decide)
  · rintro rfl
    exact absurd h.1 (by decide)

theorem sign_digit {c : UInt8} (h : is_digit base c = true) (text : List UInt8) :
    sign (c :: text) = (false, c :: text) := by
  obtain ⟨-, hminus, hplus⟩ := is_digit_plain h
  unfold sign
  split
  · simp_all
  · simp_all
  · rfl

/-- The number is read back, with the blanks and the minus that stood before it. -/
theorem scan_write (hb : 1 < base) (hb' : base ≤ 10) (n : Nat) (minus : Bool)
    (blanks : List UInt8) {rest : List UInt8} (hblanks : ∀ c ∈ blanks, is_space c = true)
    (h : ∀ c, rest.head? = some c → is_digit base c = false) :
    scan base (blanks ++ ((if minus then [45] else []) ++ (write base n ++ rest))) =
      some (minus, n, rest) := by
  obtain ⟨d, digits, hd⟩ := List.exists_cons_of_ne_nil (write_ne_nil hb n)
  have hdigit : is_digit base d = true := mem_write hb hb' n d (hd ▸ List.mem_cons_self)
  have hread := read_write hb hb' n h
  have hfront : sign (((if minus then [45] else []) ++ (write base n ++ rest)).dropWhile is_space) =
      (minus, write base n ++ rest) := by
    cases minus with
    | true => rfl
    | false =>
      rw [hd, if_neg Bool.false_ne_true, List.nil_append, List.cons_append,
        List.dropWhile_cons_of_neg (by simp [(is_digit_plain hdigit).1])]
      exact sign_digit hdigit _
  have hhead : ((write base n ++ rest).head?.map (is_digit base)).getD false = true := by
    rw [hd]
    exact hdigit
  rw [scan, List.dropWhile_append_of_pos hblanks, hfront]
  simp only [hhead, if_true, hread]

theorem strtoul_write (hb : 1 < base) (hb' : base ≤ 10) {n : Nat} (hn : n < 2 ^ 64)
    {rest : List UInt8} (h : ∀ c, rest.head? = some c → is_digit base c = false) :
    strtoul base (write base n ++ rest) = some (n, rest) := by
  have hscan := scan_write hb hb' n false [] (by simp) h
  rw [if_neg Bool.false_ne_true, List.nil_append, List.nil_append] at hscan
  rw [strtoul, hscan]
  simp only [Option.map_some, if_neg (not_le.mpr hn), if_neg Bool.false_ne_true]

theorem strtol_write_int (hb : 1 < base) (hb' : base ≤ 10) {n : Int} (hlow : -2 ^ 63 ≤ n)
    (hhigh : n < 2 ^ 63) (blanks : List UInt8) {rest : List UInt8}
    (hblanks : ∀ c ∈ blanks, is_space c = true)
    (h : ∀ c, rest.head? = some c → is_digit base c = false) :
    strtol base (blanks ++ (write_int base n ++ rest)) = some (n, rest) := by
  have hvalue : max (-2 ^ 63 : Int) (min (2 ^ 63 - 1) n) = n := by omega
  have hscan := scan_write hb hb' n.natAbs (decide (n < 0)) blanks hblanks h
  have htext : (if decide (n < 0) = true then [45] else []) ++ (write base n.natAbs ++ rest) =
      write_int base n ++ rest := by
    unfold write_int
    by_cases hneg : n < 0
    · rw [if_pos hneg, if_pos (decide_eq_true hneg)]
      rfl
    · rw [if_neg hneg, if_neg (by simpa using hneg)]
      rfl
  rw [htext] at hscan
  rw [strtol, hscan, Option.map_some]
  have hsigned : (if decide (n < 0) = true then -(n.natAbs : Int) else n.natAbs) = n := by
    by_cases hneg : n < 0
    · rw [if_pos (decide_eq_true hneg)]
      omega
    · rw [if_neg (by simpa using hneg)]
      omega
  simp only [hsigned, hvalue]

end

example : strtol 10 (write_int 10 (-120) ++ [32, 55, 10]) = some (-120, [32, 55, 10]) := by
  decide

end digit_text
