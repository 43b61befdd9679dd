-- Binary patches: `emit_binary_diff` of `diff.c` writes a hunk for each
-- direction, `parse_binary` of `builtin/apply.c` reads them and
-- `apply_binary_fragment` applies one.
import Git.Base85
import Git.DiffDelta

namespace git.binary_patch

abbrev NEWLINE : UInt8 := 10

inductive patch_method where
  | BINARY_DELTA_DEFLATED | BINARY_LITERAL_DEFLATED
  deriving DecidableEq, Repr

open patch_method

/-- `"delta "` -/
def delta_word : Bytes := [100, 101, 108, 116, 97, 32]

/-- `"literal "` -/
def literal_word : Bytes := [108, 105, 116, 101, 114, 97, 108, 32]

def method_word : patch_method → Bytes
  | BINARY_DELTA_DEFLATED => delta_word
  | BINARY_LITERAL_DEFLATED => literal_word

/-! ## Writing -/

/-- What `%lu` prints. -/
def decimal (n : Nat) : Bytes :=
  if n < 10 then [UInt8.ofNat (48 + n)] else decimal (n / 10) ++ [UInt8.ofNat (48 + n % 10)]

/-- The letter that says how many bytes a line holds. -/
def length_letter (bytes : Nat) : UInt8 :=
  if bytes ≤ 26 then UInt8.ofNat (bytes + 65 - 1) else UInt8.ofNat (bytes - 26 + 97 - 1)

def data_line (line : Bytes) : Bytes :=
  length_letter line.length :: base85.encode_85 line ++ [NEWLINE]

/-- `while (data_size)`: lines of up to 52 bytes. -/
def data_lines (data : Bytes) : Bytes :=
  if data = [] then [] else data_line (data.take 52) ++ data_lines (data.drop 52)
  termination_by data.length
  decreasing_by
    rw [List.length_drop]
    have := List.length_pos_of_ne_nil (by assumption)
    omega

/-- The method and the size before deflating, the data, a blank line. -/
def hunk_text (method : patch_method) (orig_size : Nat) (data : Bytes) : Bytes :=
  method_word method ++ decimal orig_size ++ [NEWLINE] ++ (data_lines data ++ [NEWLINE])

/-- With an empty prefix. `none`: `diff_delta` has written past its buffer. -/
def emit_binary_diff_body (deflate_it : Bytes → Bytes) (one two : Bytes) : Option Bytes :=
  let deflated := deflate_it two
  let delta :=
    if one ≠ [] ∧ two ≠ [] then delta.diff_delta one two deflated.length else .null
  match delta with
  | .overrun => none
  | .null => some (hunk_text BINARY_LITERAL_DEFLATED two.length deflated)
  | .gives delta =>
    if (deflate_it delta).length < deflated.length then
      some (hunk_text BINARY_DELTA_DEFLATED delta.length (deflate_it delta))
    else some (hunk_text BINARY_LITERAL_DEFLATED two.length deflated)

/-- What follows `"GIT binary patch\n"`. -/
def emit_binary_diff (deflate_it : Bytes → Bytes) (one two : Bytes) : Option Bytes :=
  match emit_binary_diff_body deflate_it one two, emit_binary_diff_body deflate_it two one with
  | some forward, some reverse => some (forward ++ reverse)
  | _, _ => none

/-! ## Reading

A buffer is what the caller passed from the pointer on; a read past its end
gives `none`. -/

/-- The conversion to `int`. -/
def to_int (n : Int) : Int := (n + 2 ^ 31) % 2 ^ 32 - 2 ^ 31

def linelen : Bytes → Nat → Option Nat
  | _, 0 => some 0
  | [], _ + 1 => none
  | ch :: buffer, size + 1 =>
    if ch = NEWLINE then some 1 else (linelen buffer size).map (· + 1)

/-- `!prefixcmp(str, prefix)` -/
def starts_with : Bytes → Bytes → Option Bool
  | _, [] => some true
  | [], _ :: _ => none
  | s :: str, p :: pre => if s = p then starts_with str pre else some false

def isspace (ch : UInt8) : Bool := ch = 32 ∨ (9 ≤ ch ∧ ch ≤ 13)

def isdigit (ch : UInt8) : Bool := 48 ≤ ch ∧ ch ≤ 57

def strtoul_digits : Nat → Bytes → Option Nat
  | _, [] => none
  | v, ch :: buf =>
    if isdigit ch then strtoul_digits (v * 10 + (ch.toNat - 48)) buf else some v

/-- `ULONG_MAX` stands for what is too large. -/
def saturate (v : Nat) : Nat := if 2 ^ 64 ≤ v then 2 ^ 64 - 1 else v

/-- `strtoul(buf, NULL, 10)` -/
def strtoul (buf : Bytes) : Option Nat :=
  match buf.dropWhile isspace with
  | [] => none
  | 43 :: rest => (strtoul_digits 0 rest).map saturate
  | 45 :: rest =>
    (strtoul_digits 0 rest).map fun v =>
      if 2 ^ 64 ≤ v then 2 ^ 64 - 1 else (2 ^ 64 - v) % 2 ^ 64
  | digits => (strtoul_digits 0 digits).map saturate

structure fragment where
  binary_patch_method : patch_method
  patch : Bytes
  size : Nat
  deriving DecidableEq, Repr

/-- The number of bytes that the letter of a line stands for. -/
def byte_length (ch : UInt8) : Option Nat :=
  if 65 ≤ ch ∧ ch ≤ 90 then some (ch.toNat - 65 + 1)
  else if 97 ≤ ch ∧ ch ≤ 122 then some (ch.toNat - 97 + 27)
  else none

inductive line_data where
  | outside
  | corrupt
  | bytes (byte_length : Nat) (decoded : Bytes)
  deriving DecidableEq, Repr

/-- A line of `llen` bytes that is not blank. -/
def parse_data_line (llen : Int) (buffer : Bytes) : line_data :=
  if llen < 7 ∨ (llen - 2) % 5 ≠ 0 then .corrupt
  else
    match buffer with
    | [] => .outside
    | ch :: rest =>
      match byte_length ch with
      | none => .corrupt
      | some byte_length =>
        let max_byte_length := ((llen - 2) / 5 * 4).toNat
        if max_byte_length < byte_length ∨ byte_length + 4 ≤ max_byte_length then .corrupt
        else
          match base85.decode_85 byte_length rest with
          | .outside => .outside
          | .invalid => .corrupt
          | .ok decoded => .bytes byte_length decoded

inductive lines_result where
  | outside
  /-- `xrealloc` is asked for a negative size. -/
  | dies
  | corrupt
  | done (buffer : Bytes) (size : Nat) (used : Int) (data : Bytes)

/-- `error("...: %.*s", llen-1, buffer)`: with a negative precision the text
is printed up to a NUL. -/
def corrupt_line (llen : Int) (buffer : Bytes) : lines_result :=
  if llen - 1 < 0 ∧ 0 ∉ buffer then .outside else .corrupt

inductive lines_step where
  | stop (result : lines_result)
  | next (buffer : Bytes) (size : Nat) (used : Int) (data : Bytes)

/-- The line of `llen` bytes at `buffer`, blank or of data; `used` counts it. -/
def parse_line (llen : Int) (buffer : Bytes) (size : Nat) (used : Int) (data : Bytes) :
    lines_step :=
  if llen = 1 then .stop (.done (buffer.drop 1) (size - 1) used data)
  else
    match parse_data_line llen buffer with
    | .outside => .stop .outside
    | .corrupt => .stop (corrupt_line llen buffer)
    | .bytes byte_length decoded =>
      if 2 ^ 31 ≤ data.length + byte_length then .stop .dies
      else .next (buffer.drop llen.toNat) (size - llen.toNat) used (data ++ decoded)

/-- `llen = linelen(buffer, size); used += llen;` -/
def next_line (buffer : Bytes) (size : Nat) (used : Int) (data : Bytes) : lines_step :=
  match linelen buffer size with
  | none => .stop .outside
  | some len => parse_line (to_int len) buffer size (to_int (used + to_int len)) data

/-- `while (1)`: each line takes bytes off the buffer, so that a round for each
byte and one more are enough. -/
def parse_lines : Nat → Bytes → Nat → Int → Bytes → lines_result
  | 0, _, _, _, _ => .outside
  | fuel + 1, buffer, size, used, data =>
    match next_line buffer size used data with
    | .stop result => result
    | .next buffer size used data => parse_lines fuel buffer size used data

/-- The inflated data, if it has the size that the hunk says. -/
def inflate_it (inflate : Bytes → Option Bytes) (data : Bytes) (inflated_size : Nat) :
    Option Bytes :=
  match inflate data with
  | none => none
  | some out => if out.length = inflated_size then some out else none

inductive hunk_result where
  | outside
  | dies
  /-- No method word: NULL, and `*status_p` is 0. -/
  | no_hunk
  /-- NULL, and `*status_p` is -1. -/
  | corrupt
  | hunk (frag : fragment) (buffer : Bytes) (size : Nat) (used : Int)

/-- What follows a method word: `k` is its length. The size is not reduced by
the first line. -/
def parse_method (inflate : Bytes → Option Bytes) (method : patch_method) (k : Nat)
    (buffer : Bytes) (size : Nat) (llen : Int) : hunk_result :=
  match strtoul (buffer.drop k) with
  | none => .outside
  | some origlen =>
    if llen < 0 then .outside
    else
      match parse_lines (buffer.length + 1) (buffer.drop llen.toNat) size llen [] with
      | .outside => .outside
      | .dies => .dies
      | .corrupt => .corrupt
      | .done buffer size used data =>
        match inflate_it inflate data origlen with
        | none => .corrupt
        | some patch => .hunk ⟨method, patch, origlen⟩ buffer size used

def parse_binary_hunk (inflate : Bytes → Option Bytes) (buffer : Bytes) (size : Nat) :
    hunk_result :=
  match linelen buffer size with
  | none => .outside
  | some len =>
    match starts_with buffer delta_word with
    | none => .outside
    | some true => parse_method inflate BINARY_DELTA_DEFLATED 6 buffer size (to_int len)
    | some false =>
      match starts_with buffer literal_word with
      | none => .outside
      | some true => parse_method inflate BINARY_LITERAL_DEFLATED 8 buffer size (to_int len)
      | some false => .no_hunk

inductive parse_result where
  | outside
  | dies
  | error
  | parsed (forward : fragment) (reverse : Option fragment) (used : Int)

def parse_binary (inflate : Bytes → Option Bytes) (buffer : Bytes) (size : Nat) : parse_result :=
  match parse_binary_hunk inflate buffer size with
  | .outside => .outside
  | .dies => .dies
  | .no_hunk => .error
  | .corrupt => .error
  | .hunk forward buffer size used =>
    match parse_binary_hunk inflate buffer size with
    | .outside => .outside
    | .dies => .dies
    | .corrupt => .error
    | .no_hunk => .parsed forward none used
    | .hunk reverse _ _ used_1 => .parsed forward (some reverse) (to_int (used + used_1))

/-! ## Applying -/

/-- `fragment` is the forward hunk and `next` the reverse one. -/
def apply_binary_fragment (apply_in_reverse : Bool) (img : Bytes) (fragment : fragment)
    (next : Option binary_patch.fragment) : delta.patched :=
  match (if apply_in_reverse then next else some fragment) with
  | none => .fails
  | some frag =>
    match frag.binary_patch_method with
    | BINARY_DELTA_DEFLATED => delta.patch_delta img (frag.patch.take frag.size)
    | BINARY_LITERAL_DEFLATED => .gives (frag.patch.take frag.size)

end git.binary_patch
