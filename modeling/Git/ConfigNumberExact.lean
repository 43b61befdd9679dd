-- On which values the numbers that `git_parse_long` and `git_parse_ulong` store
-- are the ones that the values stand for.
import Git.ConfigNumber

namespace git.config

/-! ## The values -/

/-- The digits as a number, the highest first. -/
def positional (base : Nat) (digits : Bytes) : Nat :=
  Nat.ofDigits base (digits.reverse.map fun c => (digit base c).getD 0)

inductive Numeral : Bytes → Nat → Prop
  | decimal (c : UInt8) (digits : Bytes) : c ≠ 48 → (∀ d ∈ c :: digits, (digit 10 d).isSome) →
      Numeral (c :: digits) (positional 10 (c :: digits))
  | hexadecimal (x : UInt8) (digits : Bytes) : x = 120 ∨ x = 88 → digits ≠ [] →
      (∀ d ∈ digits, (digit 16 d).isSome) →
      Numeral (48 :: x :: digits) (positional 16 digits)
  | octal (digits : Bytes) : (∀ d ∈ digits, (digit 8 d).isSome) →
      Numeral (48 :: digits) (positional 8 digits)

inductive Integer : Bytes → Int → Prop
  | unsigned (spaces numeral : Bytes) (n : Nat) : (∀ c ∈ spaces, isspace c) →
      Numeral numeral n → Integer (spaces ++ numeral) n
  | plus (spaces numeral : Bytes) (n : Nat) : (∀ c ∈ spaces, isspace c) →
      Numeral numeral n → Integer (spaces ++ 43 :: numeral) n
  | minus (spaces numeral : Bytes) (n : Nat) : (∀ c ∈ spaces, isspace c) →
      Numeral numeral n → Integer (spaces ++ 45 :: numeral) (-n)

/-- In both cases. -/
inductive Unit : Bytes → Int → Prop
  | none : Unit [] 1
  | k (c : UInt8) : c = 107 ∨ c = 75 → Unit [c] (2 ^ 10)
  | m (c : UInt8) : c = 109 ∨ c = 77 → Unit [c] (2 ^ 20)
  | g (c : UInt8) : c = 103 ∨ c = 71 → Unit [c] (2 ^ 30)

/-- The value is the integer `n` and then a unit. -/
def Value (value : Bytes) (n unit : Int) : Prop :=
  ∃ text suffix, value = text ++ suffix ∧ Integer text n ∧ Unit suffix unit

/-! ## What the library reads -/

/-- No unit goes on with a number. -/
theorem no_digit {suffix : Bytes} {unit : Int} (h : Unit suffix unit) (base : Nat)
    (hbase : base ≤ 16) : ∀ c ∈ suffix.head?, digit base c = none := by
  have hletter : ∀ c : UInt8, c = 107 ∨ c = 75 ∨ c = 109 ∨ c = 77 ∨ c = 103 ∨ c = 71 →
      digit base c = none := by
    intro c hc
    unfold digit
    rcases hc with rfl | rfl | rfl | rfl | rfl | rfl
    all_goals
      rw [if_neg]
      simp
      omega
  cases h with
  | none => simp
  | k c hc =>
    simp only [List.head?_cons, Option.mem_some_iff, forall_eq']
    apply hletter
    tauto
  | m c hc =>
    simp only [List.head?_cons, Option.mem_some_iff, forall_eq']
    apply hletter
    tauto
  | g c hc =>
    simp only [List.head?_cons, Option.mem_some_iff, forall_eq']
    apply hletter
    tauto

theorem digits_loop_stops (base n : Nat) {suffix : Bytes}
    (h : ∀ c ∈ suffix.head?, digit base c = none) : digits_loop base n suffix = (n, suffix) := by
  cases suffix with
  | nil => rfl
  | cons c suffix =>
    rw [digits_loop, h c rfl]

theorem digits_loop_eq {base : Nat} {suffix : Bytes}
    (hend : ∀ c ∈ suffix.head?, digit base c = none) (digits : Bytes) :
    ∀ n, (∀ d ∈ digits, (digit base d).isSome) →
      digits_loop base n (digits ++ suffix) =
        (base ^ digits.length * n + positional base digits, suffix) := by
  induction digits with
  | nil =>
    intro n _
    rw [List.nil_append, digits_loop_stops base n hend]
    simp [positional]
  | cons c digits ih =>
    intro n hdigits
    obtain ⟨d, hd⟩ := Option.isSome_iff_exists.mp (hdigits c List.mem_cons_self)
    rw [List.cons_append, digits_loop, hd]
    simp only
    rw [ih _ fun e he => hdigits e (List.mem_cons_of_mem c he)]
    unfold positional
    rw [List.reverse_cons, List.map_append, Nat.ofDigits_append]
    simp only [List.map_cons, List.map_nil, Nat.ofDigits_singleton, hd, Option.getD_some,
      List.length_map, List.length_reverse, List.length_cons, pow_succ]
    rw [Prod.mk.injEq]
    refine ⟨?_, rfl⟩
    ring

theorem magnitude_eq {numeral suffix : Bytes} {n : Nat} {unit : Int} (h : Numeral numeral n)
    (hunit : Unit suffix unit) : magnitude (numeral ++ suffix) = some (n, suffix) := by
  cases h with
  | decimal c digits hc hdigits =>
    have hread := digits_loop_eq (no_digit hunit 10 (by omega)) (c :: digits) 0 hdigits
    rw [mul_zero, zero_add] at hread
    unfold magnitude
    split
    · rename_i heq
      exact absurd (List.cons.inj heq).1 hc
    · rename_i heq
      exact absurd (List.cons.inj heq).1 hc
    · rename_i heq
      obtain ⟨rfl, -⟩ := List.cons.inj heq
      rw [if_pos (hdigits c List.mem_cons_self), hread]
    · rename_i heq
      cases heq
  | hexadecimal x digits hx hne hdigits =>
    have hread := digits_loop_eq (no_digit hunit 16 (by omega)) digits 0 hdigits
    rw [mul_zero, zero_add] at hread
    cases digits with
    | nil => exact absurd rfl hne
    | cons c digits =>
      rw [← hread]
      exact if_pos ⟨hx, hdigits c List.mem_cons_self⟩
  | octal digits hdigits =>
    have hzero : ∀ d ∈ 48 :: digits, (digit 8 d).isSome := by
      intro d hd
      rcases List.mem_cons.mp hd with rfl | hd
      · rfl
      · exact hdigits d hd
    have hread := digits_loop_eq (no_digit hunit 8 (by omega)) (48 :: digits) 0 hzero
    have hlead : positional 8 (48 :: digits) = positional 8 digits := by
      unfold positional
      rw [List.reverse_cons, List.map_append, Nat.ofDigits_append]
      simp [digit]
    rw [mul_zero, zero_add, hlead] at hread
    unfold magnitude
    split
    · rename_i x c rest heq
      rw [if_neg]
      · rw [hread]
      · rintro ⟨hx, -⟩
        have htail := (List.cons.inj heq).2
        cases digits with
        | nil =>
          cases hunit with
          | none => cases htail
          | k => cases htail
          | m => cases htail
          | g => cases htail
        | cons d digits =>
          obtain ⟨rfl, -⟩ := List.cons.inj htail
          have := hdigits d List.mem_cons_self
          rcases hx with rfl | rfl
          · cases this
          · cases this
    · rw [hread]
    · rename_i hne heq
      obtain ⟨rfl, -⟩ := List.cons.inj heq
      exact (hne rfl).elim
    · rename_i heq
      cases heq

theorem numeral_starts {numeral : Bytes} {n : Nat} (h : Numeral numeral n) :
    ∃ c rest, numeral = c :: rest ∧ 48 ≤ c ∧ c ≤ 57 := by
  have hdecimal : ∀ c : UInt8, (digit 10 c).isSome → 48 ≤ c ∧ c ≤ 57 := by decide +kernel
  cases h with
  | decimal c digits hc hdigits => exact ⟨c, digits, rfl, hdecimal c (hdigits c List.mem_cons_self)⟩
  | hexadecimal x digits hx hne hdigits => exact ⟨48, x :: digits, rfl, by decide, by decide⟩
  | octal digits hdigits => exact ⟨48, digits, rfl, by decide, by decide⟩

theorem dropWhile_spaces {spaces : Bytes} {c : UInt8} {rest : Bytes}
    (h : ∀ c ∈ spaces, isspace c) (hc : ¬ isspace c) :
    (spaces ++ c :: rest).dropWhile isspace = c :: rest := by
  rw [List.dropWhile_append_of_pos h, List.dropWhile_cons_of_neg hc]

theorem scan_number_eq {text suffix : Bytes} {n unit : Int} (h : Integer text n)
    (hunit : Unit suffix unit) : scan_number (text ++ suffix) = (n, suffix) := by
  have hdigit : ∀ c : UInt8, 48 ≤ c ∧ c ≤ 57 → ¬ isspace c ∧ c ≠ 45 ∧ c ≠ 43 := by decide +kernel
  cases h with
  | unsigned spaces numeral n hspaces hnumeral =>
    obtain ⟨c, rest, rfl, hc⟩ := numeral_starts hnumeral
    obtain ⟨hspace, hminus, hplus⟩ := hdigit c hc
    have hread := magnitude_eq hnumeral hunit
    unfold scan_number
    rw [List.append_assoc, List.cons_append, dropWhile_spaces hspaces hspace]
    rw [List.cons_append] at hread
    simp [hminus, hplus, hread]
  | plus spaces numeral n hspaces hnumeral =>
    have hread := magnitude_eq hnumeral hunit
    unfold scan_number
    rw [List.append_assoc, List.cons_append, dropWhile_spaces hspaces (by decide)]
    simp [hread]
  | minus spaces numeral n hspaces hnumeral =>
    have hread := magnitude_eq hnumeral hunit
    unfold scan_number
    rw [List.append_assoc, List.cons_append, dropWhile_spaces hspaces (by decide)]
    simp [hread]

/-- In a type of 64 bits the factor is the unit, and a value times the unit wraps. -/
theorem parse_unit_factor_eq {suffix : Bytes} {unit : Int} (h : Unit suffix unit) (val : Int)
    (hval : to_uintmax val = val) : parse_unit_factor suffix val = some (to_uintmax (val * unit)) := by
  cases h with
  | none => rw [mul_one, hval]; rfl
  | k c hc => rcases hc with rfl | rfl <;> rfl
  | m c hc => rcases hc with rfl | rfl <;> rfl
  | g c hc => rcases hc with rfl | rfl <;> rfl

theorem unit_bounds {suffix : Bytes} {unit : Int} (h : Unit suffix unit) :
    1 ≤ unit ∧ unit ≤ 2 ^ 30 := by
  cases h with
  | none => decide
  | k => decide
  | m => decide
  | g => decide

theorem value_cons {value : Bytes} {n unit : Int} (h : Value value n unit) : value ≠ [] := by
  obtain ⟨text, suffix, rfl, htext, -⟩ := h
  cases htext with
  | unsigned spaces numeral n _ hnumeral =>
    obtain ⟨c, rest, rfl, -⟩ := numeral_starts hnumeral
    simp
  | plus => simp
  | minus => simp

/-! ## Signed -/

def FitsLong (bits : Nat) (n : Int) : Prop := -2 ^ (bits - 1) ≤ n ∧ n < 2 ^ (bits - 1)

def FitsUlong (bits : Nat) (n : Int) : Prop := 0 ≤ n ∧ n < 2 ^ bits

/-- The number succeeds exactly if the product fits, and is stored as it is. -/
def Exact (fits : Int → Prop) (ret : Option Int) (product : Int) : Prop :=
  (ret.isSome ↔ fits product) ∧ ∀ stored ∈ ret, stored = product

/-- What the tests of `git_parse_long` see is the low half of the integer. -/
def LongPasses (bits : Nat) (n unit : Int) : Prop :=
  to_int n ≠ -2 ^ 31 ∧ |to_int n| * unit < 2 ^ (bits - 1)

theorem abs_eq {n : Int} (h : to_int n ≠ -2 ^ 31) : abs n = |to_int n| := by
  have hlow : -2 ^ 31 ≤ to_int n ∧ to_int n < 2 ^ 31 := by
    constructor
    · exact Int.le_bmod (by decide)
    · exact Int.bmod_lt (by decide)
  unfold abs
  by_cases hneg : to_int n < 0
  · rw [if_pos hneg, abs_of_neg hneg]
    exact Int.bmod_eq_of_le (by omega) (by omega)
  · rw [if_neg hneg, abs_of_nonneg (by omega)]

theorem low_bounds (n : Int) : -2 ^ 31 ≤ to_int n ∧ to_int n < 2 ^ 31 :=
  ⟨Int.le_bmod (by decide), Int.bmod_lt (by decide)⟩

theorem to_uintmax_of_lt {n : Int} (h0 : 0 ≤ n) (h : n < 2 ^ 64) : to_uintmax n = n :=
  Int.emod_eq_of_lt h0 h

theorem to_intmax_product (n unit : Int) : to_intmax (to_uintmax n * unit) = to_intmax (n * unit) :=
  Int.emod_mul_bmod n (2 ^ 64)

/-- What `git_parse_long` does with the number and the unit. -/
theorem git_parse_long_value {value : Bytes} {n unit : Int} (bits : Nat) (h : Value value n unit)
    (hn : to_intmax n = n) : git_parse_long bits (some value) =
      if to_uintmax (to_uintmax (abs n) * unit) > maximum_signed_value_of_type bits ∨
          to_uintmax (abs n) > to_uintmax (to_uintmax (abs n) * unit) then none
      else some (to_long bits (to_intmax (n * unit))) := by
  have hne := value_cons h
  obtain ⟨text, suffix, rfl, htext, hunit⟩ := h
  obtain ⟨hone, hgiga⟩ := unit_bounds hunit
  have hscan := scan_number_eq htext hunit
  have hfactor := parse_unit_factor_eq hunit 1 rfl
  rw [one_mul, to_uintmax_of_lt (by omega) (by omega)] at hfactor
  have hparse : git_parse_long bits (some (text ++ suffix)) =
      (strtoimax (text ++ suffix)).bind fun p =>
      (parse_unit_factor p.2 1).bind fun factor =>
        let uval := to_uintmax (to_uintmax (abs p.1) * factor)
        if uval > maximum_signed_value_of_type bits ∨ to_uintmax (abs p.1) > uval then none
        else some (to_long bits (to_intmax (to_uintmax p.1 * factor))) := by
    unfold git_parse_long
    split
    · contradiction
    · rename_i heq
      exact absurd (Option.some.inj heq) hne
    · rename_i heq
      rw [Option.some.inj heq]
  rw [hparse]
  unfold strtoimax
  rw [hscan, if_pos hn, Option.bind_some]
  simp only [hfactor, Option.bind_some, to_intmax_product]

theorem git_parse_long_passes {bits : Nat} (hbits : bits = 32 ∨ bits = 64) {value : Bytes}
    {n unit : Int} (h : Value value n unit) (hn : to_intmax n = n)
    (hpass : LongPasses bits n unit) :
    git_parse_long bits (some value) = some (to_long bits (to_intmax (n * unit))) := by
  rw [git_parse_long_value bits h hn]
  obtain ⟨text, suffix, -, -, hunit⟩ := h
  obtain ⟨hone, -⟩ := unit_bounds hunit
  obtain ⟨hlow, hless⟩ := hpass
  have hbound : (2 : Int) ^ (bits - 1) ≤ 2 ^ 63 := by
    rcases hbits with rfl | rfl <;> decide
  have habs := abs_eq hlow
  obtain ⟨hmin, hmax⟩ := low_bounds n
  have hsmall : |to_int n| ≤ 2 ^ 31 := abs_le.mpr ⟨hmin, hmax.le⟩
  have hnonneg : 0 ≤ |to_int n| := abs_nonneg _
  have hgrows : |to_int n| ≤ |to_int n| * unit := le_mul_of_one_le_right hnonneg hone
  rw [if_neg]
  rw [habs, to_uintmax_of_lt hnonneg (by omega), to_uintmax_of_lt (by omega) (by omega), not_or]
  unfold maximum_signed_value_of_type
  constructor
  · omega
  · omega

theorem git_parse_long_stops {bits : Nat} (hbits : bits = 32 ∨ bits = 64) {value : Bytes}
    {n unit : Int} (h : Value value n unit) (hn : to_intmax n = n)
    (hpass : ¬ LongPasses bits n unit) : git_parse_long bits (some value) = none := by
  rw [git_parse_long_value bits h hn]
  obtain ⟨text, suffix, -, -, hunit⟩ := h
  obtain ⟨hone, hgiga⟩ := unit_bounds hunit
  have hbound : (2 : Int) ^ (bits - 1) ≤ 2 ^ 63 := by
    rcases hbits with rfl | rfl <;> decide
  rw [if_pos]
  left
  unfold maximum_signed_value_of_type
  by_cases hlow : to_int n = -2 ^ 31
  · -- the smallest `int` counts as a huge number, whatever the unit
    have habs : abs n = -2 ^ 31 := by
      unfold abs
      rw [hlow]
      rfl
    have hhuge : 2 ^ 63 ≤ to_uintmax (to_uintmax (-2 ^ 31) * unit) := by
      cases hunit with
      | none => decide
      | k => decide
      | m => decide
      | g => decide
    rw [habs]
    omega
  · have habs := abs_eq hlow
    obtain ⟨hmin, hmax⟩ := low_bounds n
    have hsmall : |to_int n| ≤ 2 ^ 31 := abs_le.mpr ⟨hmin, hmax.le⟩
    have hnonneg : 0 ≤ |to_int n| := abs_nonneg _
    have hproduct : |to_int n| * unit ≤ 2 ^ 31 * 2 ^ 30 :=
      mul_le_mul hsmall hgiga (by omega) (by omega)
    have hlarge : 2 ^ (bits - 1) ≤ |to_int n| * unit := by
      by_contra hless
      exact hpass ⟨hlow, not_le.mp hless⟩
    have hpos : 0 ≤ |to_int n| * unit := mul_nonneg hnonneg (by omega)
    rw [habs, to_uintmax_of_lt hnonneg (by omega), to_uintmax_of_lt hpos (by omega)]
    omega

theorem git_parse_long_out_of_range {value : Bytes} {n unit : Int} (bits : Nat)
    (h : Value value n unit) (hn : to_intmax n ≠ n) : git_parse_long bits (some value) = none := by
  obtain ⟨text, suffix, rfl, htext, hunit⟩ := h
  have hscan := scan_number_eq htext hunit
  unfold git_parse_long
  split
  · rfl
  · rfl
  · rename_i heq
    unfold strtoimax
    rw [← Option.some.inj heq, hscan, if_neg hn]
    rfl

theorem to_long_of_fits {bits : Nat} (hbits : bits = 32 ∨ bits = 64) {n : Int}
    (h : FitsLong bits n) : to_long bits (to_intmax n) = n := by
  obtain ⟨hmin, hmax⟩ := h
  have hintmax : to_intmax n = n := by
    rcases hbits with rfl | rfl
    · exact Int.bmod_eq_of_le (by omega) (by omega)
    · exact Int.bmod_eq_of_le (by omega) (by omega)
  rw [hintmax]
  rcases hbits with rfl | rfl
  · exact Int.bmod_eq_of_le (by omega) (by omega)
  · exact Int.bmod_eq_of_le (by omega) (by omega)

theorem not_fits_of_out_of_range {bits : Nat} (hbits : bits = 32 ∨ bits = 64) {n unit : Int}
    (hone : 1 ≤ unit) (hn : to_intmax n ≠ n) : ¬ FitsLong bits (n * unit) := by
  rintro ⟨hmin, hmax⟩
  apply hn
  have hbound : (2 : Int) ^ (bits - 1) ≤ 2 ^ 63 := by
    rcases hbits with rfl | rfl <;> decide
  have hrange : -2 ^ 63 ≤ n ∧ n < 2 ^ 63 := by
    constructor
    · by_contra hless
      have : n * unit ≤ n * 1 := Int.mul_le_mul_of_nonpos_left (by omega) hone
      omega
    · by_contra hmore
      have : n * 1 ≤ n * unit := Int.mul_le_mul_of_nonneg_left hone (by omega)
      omega
  exact Int.bmod_eq_of_le (by omega) (by omega)

/-- Where `strtoimax` can read the integer, the tests have to pass exactly the
products that fit. -/
theorem git_parse_long_exact_iff {bits : Nat} (hbits : bits = 32 ∨ bits = 64) {value : Bytes}
    {n unit : Int} (h : Value value n unit) :
    Exact (FitsLong bits) (git_parse_long bits (some value)) (n * unit) ↔
      to_intmax n ≠ n ∨ (LongPasses bits n unit ↔ FitsLong bits (n * unit)) := by
  by_cases hn : to_intmax n = n
  · rw [or_iff_right (not_not.mpr hn)]
    by_cases hpass : LongPasses bits n unit
    · rw [git_parse_long_passes hbits h hn hpass, iff_true_left hpass]
      constructor
      · rintro ⟨hfits, -⟩
        exact hfits.mp rfl
      · intro hfits
        refine ⟨iff_of_true rfl hfits, ?_⟩
        rintro stored hstored
        rw [← Option.some.inj hstored]
        exact to_long_of_fits hbits hfits
    · rw [git_parse_long_stops hbits h hn hpass, iff_false_left hpass]
      constructor
      · rintro ⟨hfits, -⟩ hfit
        cases hfits.mpr hfit
      · intro hfits
        exact ⟨iff_of_false (by simp) hfits, by simp⟩
  · rw [git_parse_long_out_of_range bits h hn]
    obtain ⟨text, suffix, -, -, hunit⟩ := h
    have hfits := not_fits_of_out_of_range hbits (unit_bounds hunit).1 hn
    exact iff_of_true ⟨iff_of_false (by simp) hfits, by simp⟩ (Or.inl hn)

/-! ## Unsigned -/

/-- What the tests of `git_parse_ulong` see wraps: they stop a product that is smaller
than the number, and one that is too large for a long shorter than 64 bits. -/
def UlongPasses (bits : Nat) (n unit : Int) : Prop :=
  to_uintmax (n * unit) < 2 ^ bits ∧ to_uintmax n ≤ to_uintmax (n * unit)

theorem git_parse_ulong_value {value : Bytes} {n unit : Int} (bits : Nat) (h : Value value n unit) :
    git_parse_ulong bits (some value) =
      if n.natAbs < 2 ^ 64 then
        if to_uintmax (n * unit) > maximum_unsigned_value_of_type bits ∨
            to_uintmax n > to_uintmax (n * unit) then none
        else some (to_uintmax (n * unit))
      else none := by
  have hne := value_cons h
  obtain ⟨text, suffix, rfl, htext, hunit⟩ := h
  have hscan := scan_number_eq htext hunit
  have hwraps : to_uintmax (to_uintmax n * unit) = to_uintmax (n * unit) := by
    unfold to_uintmax
    rw [Int.mul_emod, Int.emod_emod, ← Int.mul_emod]
  have hfactor := parse_unit_factor_eq hunit (to_uintmax n) (Int.emod_emod _ _)
  rw [hwraps] at hfactor
  have hparse : git_parse_ulong bits (some (text ++ suffix)) =
      (strtoumax (text ++ suffix)).bind fun p =>
      (parse_unit_factor p.2 p.1).bind fun val =>
        if val > maximum_unsigned_value_of_type bits ∨ p.1 > val then none
        else some val := by
    unfold git_parse_ulong
    split
    · contradiction
    · rename_i heq
      exact absurd (Option.some.inj heq) hne
    · rename_i heq
      rw [Option.some.inj heq]
  rw [hparse]
  unfold strtoumax
  rw [hscan]
  by_cases hrange : n.natAbs < 2 ^ 64
  · rw [if_pos hrange, if_pos hrange, Option.bind_some]
    simp only [hfactor, Option.bind_some]
  · rw [if_neg hrange, if_neg hrange, Option.bind_none]

theorem fits_ulong_passes {bits : Nat} (hbits : bits = 32 ∨ bits = 64) {n unit : Int}
    (hone : 1 ≤ unit) (h : FitsUlong bits (n * unit)) :
    n.natAbs < 2 ^ 64 ∧ UlongPasses bits n unit ∧ to_uintmax (n * unit) = n * unit := by
  obtain ⟨hmin, hmax⟩ := h
  have hbound : (2 : Int) ^ bits ≤ 2 ^ 64 := by
    rcases hbits with rfl | rfl <;> decide
  have hn : 0 ≤ n := nonneg_of_mul_nonneg_left hmin (by omega)
  have hgrows : n ≤ n * unit := le_mul_of_one_le_right hn hone
  have hproduct := to_uintmax_of_lt hmin (by omega)
  refine ⟨by omega, ⟨by omega, ?_⟩, hproduct⟩
  rw [hproduct, to_uintmax_of_lt hn (by omega)]
  exact hgrows

/-- A product that fits always passes; the tests have to stop all others of integers
that `strtoumax` can read. -/
theorem git_parse_ulong_exact_iff {bits : Nat} (hbits : bits = 32 ∨ bits = 64) {value : Bytes}
    {n unit : Int} (h : Value value n unit) :
    Exact (FitsUlong bits) (git_parse_ulong bits (some value)) (n * unit) ↔
      2 ^ 64 ≤ n.natAbs ∨ (UlongPasses bits n unit → FitsUlong bits (n * unit)) := by
  rw [git_parse_ulong_value bits h]
  obtain ⟨text, suffix, -, -, hunit⟩ := h
  have hone := (unit_bounds hunit).1
  have htests : (to_uintmax (n * unit) > maximum_unsigned_value_of_type bits ∨
      to_uintmax n > to_uintmax (n * unit)) ↔ ¬ UlongPasses bits n unit := by
    unfold UlongPasses maximum_unsigned_value_of_type
    omega
  by_cases hrange : n.natAbs < 2 ^ 64
  · rw [if_pos hrange, or_iff_right (not_le.mpr hrange)]
    by_cases hpass : UlongPasses bits n unit
    · rw [if_neg (htests.not.mpr (not_not.mpr hpass)), imp_iff_right hpass]
      constructor
      · rintro ⟨hfits, -⟩
        exact hfits.mp rfl
      · intro hfits
        refine ⟨iff_of_true rfl hfits, ?_⟩
        intro stored hstored
        rw [← Option.some.inj hstored]
        exact (fits_ulong_passes hbits hone hfits).2.2
    · rw [if_pos (htests.mpr hpass)]
      have hfits := fun hfits => hpass (fits_ulong_passes hbits hone hfits).2.1
      exact iff_of_true ⟨iff_of_false (by simp) hfits, by simp⟩ fun hp => absurd hp hpass
  · rw [if_neg hrange]
    have hfits := fun hfits => hrange (fits_ulong_passes hbits hone hfits).1
    exact iff_of_true ⟨iff_of_false (by simp) hfits, by simp⟩ (Or.inl (not_lt.mp hrange))

/-! ## Both -/

/-- Both functions are exact on exactly the values whose integer the library cannot
read, or on which the tests of the function do what they should: a long passes if and
only if the product fits, and an unsigned long, which always passes then, only if. -/
theorem config_numbers_are_exact_iff {bits : Nat} (hbits : bits = 32 ∨ bits = 64) {value : Bytes}
    {n unit : Int} (h : Value value n unit) :
    (Exact (FitsLong bits) (git_parse_long bits (some value)) (n * unit) ↔
      to_intmax n ≠ n ∨ (LongPasses bits n unit ↔ FitsLong bits (n * unit))) ∧
    (Exact (FitsUlong bits) (git_parse_ulong bits (some value)) (n * unit) ↔
      2 ^ 64 ≤ n.natAbs ∨ (UlongPasses bits n unit → FitsUlong bits (n * unit))) :=
  ⟨git_parse_long_exact_iff hbits h, git_parse_ulong_exact_iff hbits h⟩

/-- `"1k"`. -/
theorem a_kilo : Value [49, 107] 1 (2 ^ 10) := by
  have hone : positional 10 [49] = 1 := by simp [positional, digit]
  have hdigits := Numeral.decimal 49 [] (by decide) (by simp [digit])
  rw [hone] at hdigits
  exact ⟨[49], [107], rfl, Integer.unsigned [] [49] 1 (by simp) hdigits, Unit.k 107 (Or.inl rfl)⟩

theorem a_kilo_is_exact :
    Exact (FitsLong 64) (git_parse_long 64 (some [49, 107])) (1 * 2 ^ 10) ∧
      Exact (FitsUlong 64) (git_parse_ulong 64 (some [49, 107])) (1 * 2 ^ 10) := by
  have hexact := config_numbers_are_exact_iff (Or.inr rfl) a_kilo
  refine ⟨hexact.1.mpr (Or.inr ?_), hexact.2.mpr (Or.inr ?_)⟩
  · unfold LongPasses FitsLong
    decide
  · unfold UlongPasses FitsUlong
    decide

/-- `"2147483648"` is refused, `"17179869184g"` is stored as 0, and `"-1"` is the
largest unsigned long. -/
theorem some_numbers_are_not_exact :
    ¬ (∀ value n unit, Value value n unit →
      Exact (FitsLong 64) (git_parse_long 64 (some value)) (n * unit)) ∧
    ¬ (∀ value n unit, Value value n unit →
      Exact (FitsUlong 64) (git_parse_ulong 64 (some value)) (n * unit)) ∧
    git_parse_long 64 (some [49, 55, 49, 55, 57, 56, 54, 57, 49, 56, 52, 103]) = some 0 := by
  refine ⟨?_, ?_, by decide⟩
  · intro hall
    have hvalue : Value [50, 49, 52, 55, 52, 56, 51, 54, 52, 56] 2147483648 1 := by
      have hdigits := Numeral.decimal 50 [49, 52, 55, 52, 56, 51, 54, 52, 56] (by decide)
        (by simp [digit])
      have htext := Integer.unsigned [] _ _ (by simp) hdigits
      have hnumber : positional 10 [50, 49, 52, 55, 52, 56, 51, 54, 52, 56] = 2147483648 := by
        simp [positional, digit, Nat.ofDigits]
      rw [hnumber] at htext
      exact ⟨_, [], (List.append_nil _).symm, htext, Unit.none⟩
    have hfits := (hall _ _ _ hvalue).1.mpr (by unfold FitsLong; decide)
    have hnone : git_parse_long 64 (some [50, 49, 52, 55, 52, 56, 51, 54, 52, 56]) = none := by
      decide
    rw [hnone] at hfits
    cases hfits
  · intro hall
    have hvalue : Value [45, 49] (-1) 1 := by
      have htext := Integer.minus [] _ _ (by simp) (Numeral.decimal 49 [] (by decide) (by simp [digit]))
      have hnumber : positional 10 [49] = 1 := by simp [positional, digit]
      rw [hnumber] at htext
      exact ⟨_, [], (List.append_nil _).symm, htext, Unit.none⟩
    have hstored : git_parse_ulong 64 (some [45, 49]) = some (2 ^ 64 - 1) := by decide
    have hwrong := (hall _ _ _ hvalue).2 _ hstored
    cases hwrong

end git.config
