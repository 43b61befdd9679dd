-- C-style quoting of `quote.c`: which bytes need it, how a name is written, and
-- that unquoting reads every written name back.
import Git.CacheEntry

namespace git.quote

/-- The double quote. -/
abbrev DQ : UInt8 := 34
abbrev BACKSLASH : UInt8 := 92

/-! ## Quoting -/

/-- 1: in octal; 0: in octal with `core.quotepath`; -1: never; or the letter of the escape. -/
def sq_lookup (c : UInt8) : Int :=
  match c with
  | 7 => 97 | 8 => 98 | 9 => 116 | 10 => 110 | 11 => 118 | 12 => 102 | 13 => 114
  | 34 => 34 | 92 => 92
  | c => if c < 32 ∨ c = 127 then 1 else if c < 128 then -1 else 0

def sq_must_quote (quote_path_fully : Bool) (c : UInt8) : Bool :=
  0 < sq_lookup c + if quote_path_fully then 1 else 0

/-- What is emitted for a byte that must be quoted. -/
def escape (ch : UInt8) : Bytes :=
  BACKSLASH ::
    if 32 ≤ sq_lookup ch then [.ofNat (sq_lookup ch).toNat]
    else [((ch >>> 6) &&& 3) + 48, ((ch >>> 3) &&& 7) + 48, (ch &&& 7) + 48]

/-- The name with its bytes escaped, in turns: up to the next byte that must be quoted,
and that byte. -/
def emitted (quote_path_fully : Bool) : Bytes → Bytes
  | [] => []
  | c :: p =>
    if sq_must_quote quote_path_fully c then escape c ++ emitted quote_path_fully p
    else c :: emitted quote_path_fully p

/-- No quotes where no byte needs them. -/
def quote_c_style (quote_path_fully : Bool) (name : Bytes) : Bytes :=
  if name.any (sq_must_quote quote_path_fully) then
    [DQ] ++ emitted quote_path_fully name ++ [DQ]
  else name

/-! ## Unquoting -/

/-- The escapes of one letter. -/
def escaped_letter (ch : UInt8) : Option UInt8 :=
  match ch with
  | 97 => some 7
  | 98 => some 8
  | 102 => some 12
  | 110 => some 10
  | 114 => some 13
  | 116 => some 9
  | 118 => some 11
  | 92 => some 92
  | 34 => some 34
  | _ => none

def octal_digit (ch : UInt8) : Bool := 48 ≤ ch && ch ≤ 55

/-- The byte of three octal digits, the first below 4. -/
def octal (a b c : UInt8) : Option UInt8 :=
  if 48 ≤ a ∧ a ≤ 51 ∧ octal_digit b ∧ octal_digit c then
    some (((a - 48) <<< 6) ||| ((b - 48) <<< 3) ||| (c - 48))
  else none

/-- Behind the opening quote: the name, and the text past the closing quote. -/
def unquote_loop : Bytes → Option (Bytes × Bytes)
  | [] => none
  | ch :: quoted =>
    if ch = DQ then some ([], quoted)
    else if ch = BACKSLASH then
      match quoted with
      | [] => none
      | ch :: quoted =>
        match escaped_letter ch with
        | some ch => (unquote_loop quoted).map fun (sb, endp) => (ch :: sb, endp)
        | none =>
          match quoted with
          | b :: c :: quoted =>
            match octal ch b c with
            | some ch => (unquote_loop quoted).map fun (sb, endp) => (ch :: sb, endp)
            | none => none
          | _ => none
    else if ch = 0 then none
    else (unquote_loop quoted).map fun (sb, endp) => (ch :: sb, endp)

/-- `none` where it returns -1. -/
def unquote_c_style (quoted : Bytes) : Option (Bytes × Bytes) :=
  match quoted with
  | ch :: quoted => if ch = DQ then unquote_loop quoted else none
  | [] => none

/-! ## Reading back -/

/-- A byte that needs no quote is none of those that mean something in quotes, and
no control character. -/
theorem plain_byte (fully : Bool) (c : UInt8) (h : sq_must_quote fully c = false) :
    c ≠ DQ ∧ c ≠ BACKSLASH ∧ 32 ≤ c := by
  revert h
  revert c fully
  decide +kernel

/-- An escape is a letter or three octal digits. -/
theorem escape_cases (c : UInt8) :
    (∃ a, escape c = [BACKSLASH, a] ∧ escaped_letter a = some c) ∨
    (∃ a b d, escape c = [BACKSLASH, a, b, d] ∧ escaped_letter a = none ∧ octal a b d = some c) := by
  by_cases h : 32 ≤ sq_lookup c
  · left
    have hback : ∀ c : UInt8, 32 ≤ sq_lookup c →
        escaped_letter (.ofNat (sq_lookup c).toNat) = some c := by
      decide +kernel
    refine ⟨_, ?_, hback c h⟩
    unfold escape
    rw [if_pos h]
  · right
    have hdigits : ∀ c : UInt8, escaped_letter (((c >>> 6) &&& 3) + 48) = none ∧
        octal (((c >>> 6) &&& 3) + 48) (((c >>> 3) &&& 7) + 48) ((c &&& 7) + 48) = some c := by
      decide +kernel
    refine ⟨_, _, _, ?_, (hdigits c).1, (hdigits c).2⟩
    unfold escape
    rw [if_neg h]

theorem unquote_loop_dq (endp : Bytes) : unquote_loop (DQ :: endp) = some ([], endp) := by
  rw [unquote_loop.eq_def]
  exact if_pos rfl

theorem unquote_loop_plain {c : UInt8} (hdq : c ≠ DQ) (hback : c ≠ BACKSLASH) (hlow : 32 ≤ c)
    (rest : Bytes) :
    unquote_loop (c :: rest) = (unquote_loop rest).map fun (sb, endp) => (c :: sb, endp) := by
  have hnul : c ≠ 0 := by
    rintro rfl
    exact absurd hlow (by decide)
  rw [unquote_loop.eq_def]
  simp only
  rw [if_neg hdq, if_neg hback, if_neg hnul]

theorem unquote_loop_escape (c : UInt8) (rest : Bytes) :
    unquote_loop (escape c ++ rest) =
      (unquote_loop rest).map fun (sb, endp) => (c :: sb, endp) := by
  rcases escape_cases c with ⟨a, hescape, hletter⟩ | ⟨a, b, d, hescape, hletter, hoctal⟩
  · rw [hescape]
    simp only [List.cons_append, List.nil_append]
    rw [unquote_loop.eq_def]
    simp only
    rw [if_neg (by decide), if_pos trivial]
    simp only [hletter]
  · rw [hescape]
    simp only [List.cons_append, List.nil_append]
    rw [unquote_loop.eq_def]
    simp only
    rw [if_neg (by decide), if_pos trivial]
    simp only [hletter, hoctal]

theorem unquote_loop_emitted (fully : Bool) (name endp : Bytes) :
    unquote_loop (emitted fully name ++ DQ :: endp) = some (name, endp) := by
  induction name with
  | nil =>
    rw [emitted, List.nil_append, unquote_loop_dq]
  | cons c name ih =>
    unfold emitted
    by_cases hc : sq_must_quote fully c = true
    · rw [if_pos hc, List.append_assoc, unquote_loop_escape, ih]
      rfl
    · obtain ⟨hdq, hback, hlow⟩ := plain_byte fully c (Bool.not_eq_true _ ▸ hc)
      rw [if_neg hc, List.cons_append, unquote_loop_plain hdq hback hlow, ih]
      rfl

theorem quote_c_style_plain {fully : Bool} {name : Bytes}
    (h : name.any (sq_must_quote fully) = false) : quote_c_style fully name = name := by
  unfold quote_c_style
  rw [h]
  rfl

/-- Unquoting reads a quoted name back, and goes on behind it. -/
theorem unquote_quote {fully : Bool} {name : Bytes} (h : name.any (sq_must_quote fully) = true)
    (endp : Bytes) :
    unquote_c_style (quote_c_style fully name ++ endp) = some (name, endp) := by
  unfold quote_c_style
  rw [if_pos h]
  simp only [List.cons_append, List.nil_append, List.append_assoc]
  unfold unquote_c_style
  simp only [if_true]
  exact unquote_loop_emitted fully name endp

end git.quote
