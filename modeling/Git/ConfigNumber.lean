-- The numbers of `config.c`: `strtoimax` and `strtoumax` as the C library has
-- them for base 0, the unit after the number, and what the overflow tests of
-- `git_parse_long` and `git_parse_ulong` let through.
import Git.CacheEntry

namespace git.config

/-! ## The machine's integers -/

def to_int (n : Int) : Int := n.bmod (2 ^ 32)

def to_intmax (n : Int) : Int := n.bmod (2 ^ 64)

def to_uintmax (n : Int) : Int := n % 2 ^ 64

/-- A `long` has 32 or 64 bits. -/
def to_long (bits : Nat) (n : Int) : Int := n.bmod (2 ^ bits)

def maximum_signed_value_of_type (bits : Nat) : Int := 2 ^ (bits - 1) - 1

def maximum_unsigned_value_of_type (bits : Nat) : Int := 2 ^ bits - 1

/-- Of an `int`; the smallest one, which has no absolute value, stays what it is. -/
def abs (j : Int) : Int := if to_int j < 0 then to_int (-to_int j) else to_int j

/-! ## strtoimax and strtoumax -/

/-- In the C locale. -/
def isspace (c : UInt8) : Bool := c == 32 || (9 ≤ c && c ≤ 13)

/-- The value of a digit of a base up to 36. -/
def digit (base : Nat) (c : UInt8) : Option Nat :=
  let d :=
    if 48 ≤ c ∧ c ≤ 57 then c.toNat - 48
    else if 97 ≤ c ∧ c ≤ 122 then c.toNat - 87
    else if 65 ≤ c ∧ c ≤ 90 then c.toNat - 55
    else base
  if d < base then some d else none

/-- The number that the digits continue, and where they end. -/
def digits_loop (base : Nat) : Nat → Bytes → Nat × Bytes
  | n, [] => (n, [])
  | n, c :: str =>
    match digit base c with
    | some d => digits_loop base (base * n + d) str
    | none => (n, c :: str)

/-- Base 0: `0x` and a hexadecimal digit, a `0`, or else a decimal number. -/
def magnitude (str : Bytes) : Option (Nat × Bytes) :=
  match str with
  | 48 :: x :: c :: rest =>
    if (x = 120 ∨ x = 88) ∧ (digit 16 c).isSome then some (digits_loop 16 0 (c :: rest))
    else some (digits_loop 8 0 str)
  | 48 :: _ => some (digits_loop 8 0 str)
  | c :: _ => if (digit 10 c).isSome then some (digits_loop 10 0 str) else none
  | [] => none

/-- The number before any bound, and `endptr`. Where there is none it is 0 and the
pointer goes nowhere. -/
def scan_number (nptr : Bytes) : Int × Bytes :=
  let str := nptr.dropWhile isspace
  let unsigned := if str.head? = some 45 ∨ str.head? = some 43 then str.tail else str
  match magnitude unsigned with
  | some (n, endptr) => (if str.head? = some 45 then -n else n, endptr)
  | none => (0, nptr)

/-- `none`: `errno` is `ERANGE`. -/
def strtoimax (nptr : Bytes) : Option (Int × Bytes) :=
  if to_intmax (scan_number nptr).1 = (scan_number nptr).1 then some (scan_number nptr) else none

/-- A minus sign is fine: it negates the number in its type. -/
def strtoumax (nptr : Bytes) : Option (Int × Bytes) :=
  if (scan_number nptr).1.natAbs < 2 ^ 64 then
    some (to_uintmax (scan_number nptr).1, (scan_number nptr).2)
  else none

/-! ## git_parse_long and git_parse_ulong -/

def tolower (c : UInt8) : UInt8 := if 65 ≤ c ∧ c ≤ 90 then c + 32 else c

/-- `!strcasecmp(s, t)`, with a `t` in lower case. -/
def same_but_case (s t : Bytes) : Bool := s.map tolower == t

def parse_unit_factor (endptr : Bytes) (val : Int) : Option Int :=
  if endptr = [] then some val
  else if same_but_case endptr [107] then some (to_uintmax (val * 1024))
  else if same_but_case endptr [109] then some (to_uintmax (val * (1024 * 1024)))
  else if same_but_case endptr [103] then some (to_uintmax (val * (1024 * 1024 * 1024)))
  else none

/-- What goes to `*ret`, or `none` where it returns 0. -/
def git_parse_long (bits : Nat) (value : Option Bytes) : Option Int :=
  match value with
  | none => none
  | some [] => none
  | some value =>
    (strtoimax value).bind fun (val, endptr) =>
      (parse_unit_factor endptr 1).bind fun factor =>
        let uval := to_uintmax (to_uintmax (abs val) * factor)
        if uval > maximum_signed_value_of_type bits ∨ to_uintmax (abs val) > uval then none
        else some (to_long bits (to_intmax (to_uintmax val * factor)))

def git_parse_ulong (bits : Nat) (value : Option Bytes) : Option Int :=
  match value with
  | none => none
  | some [] => none
  | some value =>
    (strtoumax value).bind fun (oldval, endptr) =>
      (parse_unit_factor endptr oldval).bind fun val =>
        if val > maximum_unsigned_value_of_type bits ∨ oldval > val then none else some val

end git.config
