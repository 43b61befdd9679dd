-- `compat/fnmatch/fnmatch.c`: shell patterns, with the two flags that callers
-- give. A string ends where the list does.
import Git.CacheEntry

namespace git.compat

/-! ## Characters -/

abbrev SLASH : UInt8 := 47
abbrev STAR : UInt8 := 42
abbrev QUESTION : UInt8 := 63
abbrev BRACKET : UInt8 := 91
abbrev BRACKET_END : UInt8 := 93
abbrev ESCAPE : UInt8 := 92
abbrev MINUS : UInt8 := 45
abbrev COLON : UInt8 := 58

structure fnm_flags where
  FNM_PATHNAME : Bool
  FNM_CASEFOLD : Bool

def isupper (c : UInt8) : Bool := 65 ≤ c && c ≤ 90

def islower (c : UInt8) : Bool := 97 ≤ c && c ≤ 122

def isdigit (c : UInt8) : Bool := 48 ≤ c && c ≤ 57

def isalpha (c : UInt8) : Bool := isupper c || islower c

def isalnum (c : UInt8) : Bool := isalpha c || isdigit c

def isprint (c : UInt8) : Bool := 32 ≤ c && c < 127

def isspace (c : UInt8) : Bool := c == 32 || (9 ≤ c && c ≤ 13)

def tolower (c : UInt8) : UInt8 := if isupper c then c + 32 else c

def FOLD (flags : fnm_flags) (c : UInt8) : UInt8 := if flags.FNM_CASEFOLD then tolower c else c

/-- The classes of `[:name:]`, for the letters of a name. -/
def class_test (str : Bytes) (c : UInt8) : Option Bool :=
  if str = "alnum".toUTF8.toList then some (isalnum c)
  else if str = "alpha".toUTF8.toList then some (isalpha c)
  else if str = "blank".toUTF8.toList then some (c == 32 || c == 9)
  else if str = "cntrl".toUTF8.toList then some (c < 32 || c == 127)
  else if str = "digit".toUTF8.toList then some (isdigit c)
  else if str = "graph".toUTF8.toList then some (isprint c && !isspace c)
  else if str = "lower".toUTF8.toList then some (islower c)
  else if str = "print".toUTF8.toList then some (isprint c)
  else if str = "punct".toUTF8.toList then some (isprint c && !isspace c && !isalnum c)
  else if str = "space".toUTF8.toList then some (isspace c)
  else if str = "upper".toUTF8.toList then some (isupper c)
  else if str = "xdigit".toUTF8.toList then
    some (isdigit c || (65 ≤ c && c ≤ 70) || (97 ≤ c && c ≤ 102))
  else none

/-! ## Bracket expressions -/

/-- What the loop over a bracket expression finds. -/
inductive bracket
  /-- Ill-formed: the pattern matches nothing. -/
  | lost
  /-- With the character that `c` holds then, and the rest of the pattern. -/
  | matched (c : Option UInt8) (p : Bytes)
  | ended (p : Bytes)

/-- What stands behind `[:`. -/
inductive class_name
  | too_long
  | none
  | name (str rest : Bytes)

/-- At most six letters; `p` is one before the next character. -/
def class_letters : Nat → Bytes → Bytes → class_name
  | 0, _, _ => .too_long
  | left + 1, str, p =>
    match p.tail with
    | [] => .none
    | c :: rest =>
      if c = COLON ∧ rest.head? = some BRACKET_END then .name str rest.tail
      else if c < 97 ∨ 122 ≤ c then .none
      else class_letters left (str ++ [c]) p.tail

/-- A `char`, which is signed. -/
def to_char (c : UInt8) : Int := if c < 128 then c.toNat else c.toNat - 256

/-- `ch` is the character to match, and `c` the one of the pattern before `p`. -/
def bracket_loop (flags : fnm_flags) (ch : UInt8) : Nat → Option UInt8 → Bytes → bracket
  | 0, _, _ => .lost
  | _, none, _ => .lost
  | fuel + 1, some c, p =>
    let fn := FOLD flags ch
    let next (c : Option UInt8) (p : Bytes) : bracket :=
      if c = some BRACKET_END then .ended p else bracket_loop flags ch fuel c p
    let normal_bracket (c : UInt8) (p : Bytes) : bracket :=
      if FOLD flags c = fn then .matched (some c) p
      else if p.head? = some MINUS ∧ p.tail.head? ≠ some BRACKET_END then
        -- it is a range
        let range := p.tail
        let range := if range.head? = some ESCAPE then range.tail else range
        match range with
        | [] => .lost
        | cend :: p =>
          if to_char c ≤ fn.toNat ∧ fn ≤ FOLD flags cend then .matched (some MINUS) p
          else next p.head? p.tail
      else next p.head? p.tail
    if c = ESCAPE then
      match p with
      | [] => .lost
      | d :: p =>
        let c := FOLD flags d
        if c = fn then .matched (some c) p else next (some c) p
    else if c = BRACKET ∧ p.head? = some COLON then
      match class_letters 6 [] p with
      | .too_long => .lost
      | .none => normal_bracket BRACKET p
      | .name str rest =>
        if class_test str ch = some true then .matched (some COLON) rest
        else next (some COLON) rest
    else normal_bracket c p

def skip_class : Nat → Bytes → Option Bytes
  | 0, _ => none
  | fuel + 1, p =>
    match p.tail with
    | [] => none
    | c :: rest =>
      if c ≠ COLON ∨ rest.head? = some BRACKET_END then skip_class fuel p.tail else some p.tail

/-- Skip the rest of the `[...]` that already matched. -/
def skip_bracket : Nat → Option UInt8 → Bytes → Option Bytes
  | 0, _, _ => none
  | fuel + 1, c, p =>
    if c = some BRACKET_END then some p
    else
      match c, p with
      | none, _ => none
      | _, [] => none
      | _, c :: p =>
        if c = ESCAPE then
          match p with
          | [] => none
          | _ :: p => skip_bracket fuel (some c) p
        else if c = BRACKET ∧ p.head? = some COLON then
          (skip_class fuel p).bind fun p => skip_bracket fuel (p.drop 2).head? (p.drop 2)
        else skip_bracket fuel (some c) p

/-- The rest of the pattern, if the bracket expression matches `ch`. -/
def match_bracket (flags : fnm_flags) (ch : UInt8) (p : Bytes) : Option Bytes :=
  let fuel := 2 * p.length + 2
  -- '!' and '^'
  let not := p.head? = some 33 ∨ p.head? = some 94
  let p := if not then p.tail else p
  match bracket_loop flags ch fuel p.head? p.tail with
  | .lost => none
  | .ended p => if not then some p else none
  | .matched c p => if not then none else skip_bracket fuel c p

/-! ## Patterns -/

/-- What follows a `*`: more of them, and `?`, each of which takes a character. -/
def stars (flags : fnm_flags) : Bytes → Bytes → Option (Bytes × Bytes)
  | [], n => some ([], n)
  | c :: p, n =>
    if c = QUESTION ∨ c = STAR then
      if n.head? = some SLASH ∧ flags.FNM_PATHNAME then none
      else if c = QUESTION then
        match n with
        | [] => none
        | _ :: n => stars flags p n
      else stars flags p n
    else some (c :: p, n)

/-- Where the rest of the pattern may begin to match behind a `*`. -/
def candidates (flags : fnm_flags) : Bytes → List Bytes
  | [] => []
  | d :: n => if flags.FNM_PATHNAME ∧ d = SLASH then [] else (d :: n) :: candidates flags n

/-- What a turn of the loop comes to: a verdict, or the places where the match may go on. -/
inductive turn
  | verdict (found : Bool)
  | places (rest : List (Bytes × Bytes))

def after_star (flags : fnm_flags) : Option (Bytes × Bytes) → turn
  | none => .verdict false
  | some ([], n) => .verdict !(flags.FNM_PATHNAME && SLASH ∈ n)
  | some (c :: p, n) =>
    if c = BRACKET then .places ((candidates flags n).map fun n => (c :: p, n))
    else if c = SLASH ∧ flags.FNM_PATHNAME then
      match n.dropWhile fun d => d ≠ SLASH with
      | [] => .verdict false
      | _ :: n => .places [(p, n)]
    else
      let first := if c = ESCAPE then p.head? else some c
      .places (((candidates flags n).filter fun n =>
        n.head?.map (FOLD flags) = first.map (FOLD flags)).map fun n => (c :: p, n))

/-- `c` is the next character of the pattern, and `p` the rest. -/
def fnmatch_turn (flags : fnm_flags) (c : UInt8) (p n : Bytes) : turn :=
  let c := FOLD flags c
  if c = STAR then after_star flags (stars flags p n)
  else
    -- the others take one character
    match n with
    | [] => .verdict false
    | d :: n =>
      if c = QUESTION then
        if d = SLASH ∧ flags.FNM_PATHNAME then .verdict false else .places [(p, n)]
      else if c = ESCAPE then
        match p with
        | [] => .verdict false
        | c :: p => if FOLD flags d = FOLD flags c then .places [(p, n)] else .verdict false
      else if c = BRACKET then
        if d = SLASH ∧ flags.FNM_PATHNAME then .verdict false
        else
          match match_bracket flags d p with
          | none => .verdict false
          | some p => .places [(p, n)]
      else if c = FOLD flags d then .places [(p, n)]
      else .verdict false

def internal_fnmatch (flags : fnm_flags) : Nat → Bytes → Bytes → Bool
  | _, [], n => n.isEmpty
  | 0, _ :: _, _ => false
  | fuel + 1, c :: p, n =>
    match fnmatch_turn flags c p n with
    | .verdict b => b
    | .places rest => rest.any fun s => internal_fnmatch flags fuel s.1 s.2

/-- Whether the string matches: each turn takes at least one character of the pattern. -/
def fnmatch (pattern string : Bytes) (flags : fnm_flags) : Bool :=
  internal_fnmatch flags (pattern.length + 1) pattern string

/-! ## Literal patterns -/

/-- None of the characters that stand for something else. -/
def Literal (p : Bytes) : Prop := ∀ c ∈ p, c ≠ STAR ∧ c ≠ QUESTION ∧ c ≠ BRACKET ∧ c ≠ ESCAPE

theorem tolower_upper {c : UInt8} (h : isupper c = true) :
    97 ≤ (tolower c).toNat ∧ (tolower c).toNat ≤ 122 := by
  have hupper := h
  unfold isupper at hupper
  rw [Bool.and_eq_true, decide_eq_true_eq, decide_eq_true_eq, UInt8.le_iff_toNat_le,
    UInt8.le_iff_toNat_le] at hupper
  obtain ⟨hlow, hhigh⟩ := hupper
  have h65 : (65 : UInt8).toNat = 65 := rfl
  have h90 : (90 : UInt8).toNat = 90 := rfl
  have h32 : (32 : UInt8).toNat = 32 := rfl
  unfold tolower
  rw [if_pos h, UInt8.toNat_add]
  omega

/-- Folding makes none of them. -/
theorem Literal.fold {p : Bytes} (h : Literal p) (flags : fnm_flags) {c : UInt8} (hc : c ∈ p) :
    FOLD flags c ≠ STAR ∧ FOLD flags c ≠ QUESTION ∧ FOLD flags c ≠ BRACKET ∧
      FOLD flags c ≠ ESCAPE := by
  have hsame := h c hc
  unfold FOLD
  split_ifs with hfold
  · by_cases hupper : isupper c = true
    · obtain ⟨hlow, -⟩ := tolower_upper hupper
      refine ⟨?_, ?_, ?_, ?_⟩
      all_goals
        intro heq
        rw [heq] at hlow
        exact absurd hlow (by decide)
    · unfold tolower
      rw [if_neg hupper]
      exact hsame
  · exact hsame

theorem Literal.tail {c : UInt8} {p : Bytes} (h : Literal (c :: p)) : Literal p :=
  fun d hd => h d (List.mem_cons_of_mem c hd)

theorem fnmatch_turn_literal (flags : fnm_flags) {c : UInt8}
    (h : FOLD flags c ≠ STAR ∧ FOLD flags c ≠ QUESTION ∧ FOLD flags c ≠ BRACKET ∧
      FOLD flags c ≠ ESCAPE) (p : Bytes) (d : UInt8) (n : Bytes) :
    fnmatch_turn flags c p (d :: n) =
      if FOLD flags c = FOLD flags d then .places [(p, n)] else .verdict false := by
  obtain ⟨hstar, hquestion, hbracket, hescape⟩ := h
  unfold fnmatch_turn
  simp only
  rw [if_neg hstar, if_neg hquestion, if_neg hescape, if_neg hbracket]

/-- A literal pattern matches what it is itself, but for the case. -/
theorem internal_fnmatch_literal (flags : fnm_flags) (p : Bytes) :
    ∀ (fuel : Nat) (n : Bytes), p.length < fuel → Literal p →
      (internal_fnmatch flags fuel p n = true ↔ p.map (FOLD flags) = n.map (FOLD flags)) := by
  induction p with
  | nil =>
    intro fuel n _ _
    rw [internal_fnmatch, List.isEmpty_iff, List.map_nil]
    exact ⟨fun h => by rw [h]; rfl, fun h => List.map_eq_nil_iff.mp h.symm⟩
  | cons c p ih =>
    intro fuel n hfuel h
    rw [List.length_cons] at hfuel
    obtain ⟨fuel, rfl⟩ := Nat.exists_eq_succ_of_ne_zero (Nat.ne_of_gt (Nat.zero_lt_of_lt hfuel))
    have hplain := h.fold flags List.mem_cons_self
    have hlength : p.length < fuel := Nat.lt_of_succ_lt_succ hfuel
    rw [internal_fnmatch]
    cases n with
    | nil =>
      have hturn : fnmatch_turn flags c p [] = .verdict false := by
        unfold fnmatch_turn
        simp only
        rw [if_neg hplain.1]
      rw [hturn]
      exact ⟨fun h => (by cases h), fun h => (by cases h)⟩
    | cons d n =>
      rw [fnmatch_turn_literal flags hplain, List.map_cons, List.map_cons, List.cons.injEq]
      split_ifs with hsame
      · simp only [List.any_cons, List.any_nil, Bool.or_false]
        rw [ih fuel n hlength h.tail, and_iff_right hsame]
      · exact ⟨fun h => (by cases h), fun h => absurd h.1 hsame⟩

theorem fnmatch_literal (flags : fnm_flags) {p : Bytes} (h : Literal p) (n : Bytes) :
    fnmatch p n flags = true ↔ p.map (FOLD flags) = n.map (FOLD flags) :=
  internal_fnmatch_literal flags p _ n (Nat.lt_succ_self _) h

/-! ## A star and a literal -/

theorem mem_candidates {flags : fnm_flags} (hpath : flags.FNM_PATHNAME = false) (n : Bytes) :
    ∀ x, x ∈ candidates flags n ↔ x ≠ [] ∧ x <:+ n := by
  induction n with
  | nil =>
    intro x
    refine ⟨fun h => absurd h List.not_mem_nil, ?_⟩
    rintro ⟨hne, hsuffix⟩
    exact absurd (List.suffix_nil.mp hsuffix) hne
  | cons d n ih =>
    intro x
    rw [candidates, if_neg (by rw [hpath]; exact fun h => Bool.false_ne_true h.1), List.mem_cons,
      ih, List.suffix_cons_iff]
    constructor
    · rintro (rfl | ⟨hne, hsuffix⟩)
      · exact ⟨List.cons_ne_nil d n, Or.inl rfl⟩
      · exact ⟨hne, Or.inr hsuffix⟩
    · rintro ⟨hne, rfl | hsuffix⟩
      · exact Or.inl rfl
      · exact Or.inr ⟨hne, hsuffix⟩

/-- `*` and a literal match what ends with the literal, but for the case. -/
theorem fnmatch_star_literal {flags : fnm_flags} (hpath : flags.FNM_PATHNAME = false) {p : Bytes}
    (h : Literal p) (n : Bytes) :
    fnmatch (STAR :: p) n flags = true ↔ p.map (FOLD flags) <:+ n.map (FOLD flags) := by
  have hfold : FOLD flags STAR = STAR := by
    unfold FOLD
    split_ifs <;> rfl
  have hturn : fnmatch_turn flags STAR p n = after_star flags (stars flags p n) := by
    unfold fnmatch_turn
    simp only
    rw [if_pos hfold]
  unfold fnmatch
  rw [internal_fnmatch, hturn]
  cases p with
  | nil =>
    have hstars : stars flags [] n = some ([], n) := by
      unfold stars
      rfl
    rw [hstars, after_star, hpath, Bool.false_and]
    exact ⟨fun _ => List.nil_suffix, fun _ => rfl⟩
  | cons c p =>
    obtain ⟨hstar, hquestion, hbracket, hescape⟩ := h c List.mem_cons_self
    have hstars : stars flags (c :: p) n = some (c :: p, n) := by
      unfold stars
      exact if_neg (not_or.mpr ⟨hquestion, hstar⟩)
    have hnot : ¬ (c = SLASH ∧ flags.FNM_PATHNAME = true) := by
      rw [hpath]
      exact fun h => Bool.false_ne_true h.2
    have hlength : (c :: p).length < (STAR :: c :: p).length := Nat.lt_succ_self _
    rw [hstars, after_star, if_neg hbracket, if_neg hnot, if_neg hescape]
    simp only
    rw [List.any_eq_true]
    constructor
    · rintro ⟨s, hs, hmatch⟩
      obtain ⟨x, hx, rfl⟩ := List.mem_map.mp hs
      have hcandidate := (List.mem_filter.mp hx).1
      rw [internal_fnmatch_literal flags (c :: p) _ x hlength h] at hmatch
      rw [hmatch]
      exact ((mem_candidates hpath n x).mp hcandidate).2.map _
    · rintro ⟨a, ha⟩
      obtain ⟨b, x, hn, -, hx⟩ := List.append_eq_map_iff.mp ha
      have hne : x ≠ [] := by
        rintro rfl
        cases hx
      refine ⟨(c :: p, x), List.mem_map.mpr ⟨x, List.mem_filter.mpr ⟨?_, ?_⟩, rfl⟩, ?_⟩
      · exact (mem_candidates hpath n x).mpr ⟨hne, b, hn.symm⟩
      · cases x with
        | nil => exact absurd rfl hne
        | cons d x =>
          rw [List.map_cons, List.map_cons] at hx
          rw [List.head?_cons, Option.map_some, Option.map_some, decide_eq_true_eq]
          rw [(List.cons.inj hx).1]
      · rw [internal_fnmatch_literal flags (c :: p) _ x hlength h]
        exact hx.symm

end git.compat
