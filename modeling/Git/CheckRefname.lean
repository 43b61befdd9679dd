-- The format of a reference name, `check_refname_format` of `refs.c`, with its flags: which
-- names it lets through, and where that is not what `refs.h` says.
import Git.Refs
import Git.Lib.Fields

namespace git.refname

open git.refs (bad_ref_char component_chars)

structure refname_flags where
  REFNAME_ALLOW_ONELEVEL : Bool
  REFNAME_REFSPEC_PATTERN : Bool
  REFNAME_DOT_COMPONENT : Bool

/-- The loop of `check_refname_component`, with the character before and the length so far:
the length of the component, or nothing at an illegal character. -/
def component_length : UInt8 → Nat → Bytes → Option Nat
  | _, len, [] => some len
  | last, len, ch :: cp =>
    if ch = SLASH then some len
    else if bad_ref_char ch then none
    else if last = 46 ∧ ch = 46 then none
    else if last = 64 ∧ ch = 123 then none
    else component_length ch (len + 1) cp

def LOCK : Bytes := [46, 108, 111, 99, 107]

/-- The length of the component at the front, or nothing for -1. -/
def check_refname_component (refname : Bytes) (flags : refname_flags) : Option Nat :=
  match component_length 0 0 refname with
  | none => none
  | some len =>
    if len = 0 then some 0
    else if refname[0]? = some 46 ∧ !flags.REFNAME_DOT_COMPONENT then none
    -- "." is refused only where the name ends behind it.
    else if refname[0]? = some 46 ∧ refname[1]? = none then none
    else if 5 ≤ len ∧ (refname.drop (len - 5)).take 5 = LOCK then none
    else some len

/-- A wildcard as a whole component. -/
def at_wildcard (refname : Bytes) : Bool :=
  refname[0]? = some 42 && (refname[1]? = none || refname[1]? = some SLASH)

/-- The length of the next component, and the flags for the components behind it: there is one
wildcard at most. -/
def next_component (refname : Bytes) (flags : refname_flags) : Option (Nat × refname_flags) :=
  match check_refname_component refname flags with
  | some (len + 1) => some (len + 1, flags)
  | _ =>
    if flags.REFNAME_REFSPEC_PATTERN && at_wildcard refname then
      some (1, { flags with REFNAME_REFSPEC_PATTERN := false })
    else none

/-- The loop of `check_refname_format`. Each turn takes a component. -/
def format_loop : Nat → refname_flags → Nat → Bytes → Bool
  | 0, _, _, _ => false
  | turns + 1, flags, component_count, refname =>
    match next_component refname flags with
    | none => false
    | some (component_len, flags) =>
      if refname[component_len]? = none then
        refname[component_len - 1]? ≠ some 46 &&
          (flags.REFNAME_ALLOW_ONELEVEL || 2 ≤ component_count + 1)
      else format_loop turns flags (component_count + 1) (refname.drop (component_len + 1))

/-- Whether the function returns 0. -/
def check_refname_format (refname : Bytes) (flags : refname_flags) : Bool :=
  format_loop (refname.length + 1) flags 0 refname

/-! ## The rules -/

/-- What `git-check-ref-format.txt` does not let stand in a name. -/
def Forbidden (ch : UInt8) : Prop :=
  -- control characters, the space, DEL, and `~ ^ : ? [ \`
  ch < 32 ∨ ch = 32 ∨ ch = 127 ∨ ch ∈ ([126, 94, 58, 63, 91, 92] : Bytes)

def components (refname : Bytes) : List Bytes := refname.splitOn SLASH

/-- The rules, but for the one on a whole component ".". -/
structure Grammar (flags : refname_flags) (refname : Bytes) : Prop where
  non_empty : ∀ c ∈ components refname, c ≠ []
  dots : ∀ c ∈ components refname, c.head? = some 46 → flags.REFNAME_DOT_COMPONENT = true
  locks : ∀ c ∈ components refname, ¬ LOCK <:+ c
  double_dot : ¬ [46, 46] <:+: refname
  chars : ∀ ch ∈ refname, ¬ Forbidden ch
  at_brace : ¬ [64, 123] <:+: refname
  last : refname.getLast? ≠ some 46
  wildcards : ∀ c ∈ components refname, 42 ∈ c → c = [42]
  pattern : (components refname).count [42] ≤ if flags.REFNAME_REFSPEC_PATTERN then 1 else 0
  levels : flags.REFNAME_ALLOW_ONELEVEL = true ∨ 2 ≤ (components refname).length

/-- The rules of `git-check-ref-format.txt`, as the flags change them by `refs.h`:
`REFNAME_DOT_COMPONENT` is for components that start with a dot, but not for "." itself. -/
def Documented (flags : refname_flags) (refname : Bytes) : Prop :=
  Grammar flags refname ∧ [46] ∉ components refname

/-! ## One component -/

/-- A component that is no wildcard. -/
structure Legal (flags : refname_flags) (c : Bytes) : Prop where
  non_empty : c ≠ []
  chars : component_chars 0 c = true
  dots : c.head? = some 46 → flags.REFNAME_DOT_COMPONENT = true
  locks : ¬ LOCK <:+ c

/-- The text behind a component: none, or a slash and more. -/
def Behind (rest : Bytes) : Prop := ∀ ch ∈ rest.head?, ch = SLASH

theorem component_length_append {c rest : Bytes} (last : UInt8) (len : Nat) (hc : SLASH ∉ c)
    (hrest : Behind rest) :
    component_length last len (c ++ rest) =
      if component_chars last c then some (len + c.length) else none := by
  induction c generalizing last len with
  | nil =>
    cases rest with
    | nil => simp [component_length, component_chars]
    | cons ch rest =>
      have hch : ch = SLASH := hrest ch rfl
      simp [component_length, component_chars, hch]
  | cons ch c ih =>
    obtain ⟨hch, hc⟩ : ch ≠ SLASH ∧ SLASH ∉ c := by simpa [eq_comm] using hc
    rw [List.cons_append, component_length, if_neg hch, ih ch (len + 1) hc, component_chars]
    by_cases hbad : bad_ref_char ch
    · simp [hbad]
    · by_cases hdots : last = 46 ∧ ch = 46
      · simp [hdots]
      · by_cases hbrace : last = 64 ∧ ch = 123
        · simp [hbrace]
        · simp only [hbad, hdots, hbrace, if_false]
          have hpair : (last == 46 && ch == 46) = false := by simpa using hdots
          have hbrace : (last == 64 && ch == 123) = false := by simpa using hbrace
          simp only [hpair, hbrace, Bool.or_false, Bool.not_eq_true] at hbad ⊢
          simp [Nat.add_assoc, Nat.add_comm 1]

theorem lock_iff (c rest : Bytes) :
    (5 ≤ c.length ∧ ((c ++ rest).drop (c.length - 5)).take 5 = LOCK) ↔ LOCK <:+ c := by
  rw [List.suffix_iff_eq_drop]
  constructor
  · rintro ⟨hlen, htake⟩
    have hfive : (c.drop (c.length - 5)).length = 5 := by
      rw [List.length_drop]
      omega
    rw [List.drop_append_of_le_length (by omega), List.take_left' hfive] at htake
    exact htake.symm
  · intro h
    have hlen : 5 ≤ c.length := by
      have hl := congrArg List.length h
      rw [List.length_drop] at hl
      simp only [LOCK, List.length_cons, List.length_nil] at hl
      omega
    have hfive : (c.drop (c.length - 5)).length = 5 := by
      rw [List.length_drop]
      omega
    rw [List.drop_append_of_le_length (by omega), List.take_left' hfive]
    exact ⟨hlen, h.symm⟩

theorem check_component_empty {rest : Bytes} (hrest : Behind rest) (flags : refname_flags) :
    check_refname_component rest flags = some 0 := by
  have hlen := component_length_append 0 0 (c := []) (by simp) hrest
  rw [List.nil_append] at hlen
  simp [check_refname_component, hlen, component_chars]

theorem check_component_iff {c rest : Bytes} (hne : c ≠ []) (hc : SLASH ∉ c)
    (hrest : Behind rest) (flags : refname_flags) (n : Nat) :
    check_refname_component (c ++ rest) flags = some n ↔
      n = c.length ∧ Legal flags c ∧ ¬ (c = [46] ∧ rest = []) := by
  obtain ⟨ch, c', rfl⟩ := List.exists_cons_of_ne_nil hne
  have hsecond : ((ch :: c') ++ rest)[1]? = none ↔ c' = [] ∧ rest = [] := by
    cases c' <;> cases rest <;> simp
  have hlegal : Legal flags (ch :: c') ↔ component_chars 0 (ch :: c') = true ∧
      (ch = 46 → flags.REFNAME_DOT_COMPONENT = true) ∧ ¬ LOCK <:+ ch :: c' :=
    ⟨fun h => ⟨h.chars, fun hch => h.dots (by simp [hch]), h.locks⟩,
      fun h => ⟨hne, h.1, fun hch => h.2.1 (by simpa using hch), h.2.2⟩⟩
  have hlock := lock_iff (ch :: c') rest
  rw [List.cons_append] at hlock hsecond
  rw [check_refname_component, component_length_append 0 0 hc hrest, hlegal]
  by_cases hchars : component_chars 0 (ch :: c')
  · have hpos : (ch :: c').length ≠ 0 := by simp
    simp only [hchars, if_true, Nat.zero_add, hlock, hsecond, if_neg hpos, List.cons_append,
      List.getElem?_cons_zero, Option.ite_none_left_eq_some, Option.some.injEq, List.cons.injEq]
    constructor
    · rintro ⟨hdot, halone, hl, rfl⟩
      refine ⟨rfl, ⟨trivial, fun hch => ?_, hl⟩, fun h => halone ⟨h.1.1, h.1.2, h.2⟩⟩
      by_contra hflag
      exact hdot ⟨hch, by simp [hflag]⟩
    · rintro ⟨rfl, ⟨-, hdot, hl⟩, halone⟩
      exact ⟨fun h => by simp [hdot h.1] at h, fun h => halone ⟨⟨h.1, h.2.1⟩, h.2.2⟩, hl, rfl⟩
  · simp [hchars]

theorem at_wildcard_iff {c rest : Bytes} (hc : SLASH ∉ c) (hrest : Behind rest) :
    at_wildcard (c ++ rest) = true ↔ c = [42] := by
  rcases c with _ | ⟨ch, _ | ⟨ch', c⟩⟩
  · cases rest with
    | nil => simp [at_wildcard]
    | cons ch rest =>
      have hch : ch = SLASH := hrest ch rfl
      simp [at_wildcard, hch, show SLASH ≠ 42 by decide]
  · cases rest with
    | nil => simp [at_wildcard]
    | cons ch rest =>
      have hch : ch = SLASH := hrest ch rfl
      simp [at_wildcard, hch]
  · have hch' : ch' ≠ SLASH := fun h => hc (by simp [h])
    simp [at_wildcard, hch']

theorem not_legal_wildcard (flags : refname_flags) : ¬ Legal flags [42] :=
  fun h => absurd h.chars (by decide)

/-- What a turn of the loop takes. -/
theorem next_component_iff {c : Bytes} (rest : Bytes) (hc : SLASH ∉ c) (hrest : Behind rest)
    (flags flags' : refname_flags) (len : Nat) :
    next_component (c ++ rest) flags = some (len, flags') ↔ len = c.length ∧
      (Legal flags c ∧ ¬ (c = [46] ∧ rest = []) ∧ flags' = flags ∨
        c = [42] ∧ flags.REFNAME_REFSPEC_PATTERN = true ∧
          flags' = { flags with REFNAME_REFSPEC_PATTERN := false }) := by
  unfold next_component
  rcases eq_or_ne c [] with rfl | hne
  · have hwild : at_wildcard rest = false := by
      have h := at_wildcard_iff (c := []) (by simp) hrest
      simpa using h
    rw [List.nil_append, check_component_empty hrest]
    simp only [hwild, Bool.and_false, if_neg Bool.false_ne_true]
    simp [show ¬ Legal flags [] from fun h => h.non_empty rfl]
  · have hpos : 0 < c.length := List.length_pos_of_ne_nil hne
    by_cases hcheck : Legal flags c ∧ ¬ (c = [46] ∧ rest = [])
    · obtain ⟨n, hn⟩ : ∃ n, c.length = n + 1 := ⟨c.length - 1, by omega⟩
      have hwild : c ≠ [42] := fun h => not_legal_wildcard flags (h ▸ hcheck.1)
      rw [(check_component_iff hne hc hrest flags (n + 1)).mpr ⟨hn.symm, hcheck⟩]
      simp only [Option.some.injEq, Prod.mk.injEq, hcheck.1, hcheck.2, hwild, true_and,
        not_false_eq_true, false_and, or_false, hn, eq_comm]
    · have hnone : ∀ n, check_refname_component (c ++ rest) flags ≠ some n := fun n h =>
        hcheck ((check_component_iff hne hc hrest flags n).mp h).2
      have hdot : ¬ (Legal flags c ∧ ¬ (c = [46] ∧ rest = []) ∧ flags' = flags) :=
        fun h => hcheck ⟨h.1, h.2.1⟩
      rw [Option.eq_none_iff_forall_ne_some.mpr hnone]
      simp only [hdot, false_or, Bool.and_eq_true, at_wildcard_iff hc hrest,
        Option.ite_none_right_eq_some, Option.some.injEq, Prod.mk.injEq]
      constructor
      · rintro ⟨⟨hpattern, rfl⟩, rfl, rfl⟩
        exact ⟨rfl, rfl, hpattern, rfl⟩
      · rintro ⟨rfl, rfl, hpattern, rfl⟩
        exact ⟨⟨hpattern, rfl⟩, rfl, rfl⟩

/-! ## The loop -/

/-- The flags behind a component. -/
def Taken (flags : refname_flags) (c rest : Bytes) (flags' : refname_flags) : Prop :=
  Legal flags c ∧ ¬ (c = [46] ∧ rest = []) ∧ flags' = flags ∨
    c = [42] ∧ flags.REFNAME_REFSPEC_PATTERN = true ∧
      flags' = { flags with REFNAME_REFSPEC_PATTERN := false }

theorem format_loop_last {c : Bytes} (hc : SLASH ∉ c) (turns count : Nat)
    (flags : refname_flags) :
    format_loop (turns + 1) flags count c = true ↔
      (∃ flags', Taken flags c [] flags') ∧ c.getLast? ≠ some 46 ∧
        (flags.REFNAME_ALLOW_ONELEVEL = true ∨ 2 ≤ count + 1) := by
  have hnext := next_component_iff [] hc (by simp [Behind]) flags
  rw [List.append_nil] at hnext
  rw [format_loop]
  cases hn : next_component c flags with
  | none =>
    have hno : ¬ ∃ flags', Taken flags c [] flags' := by
      rintro ⟨flags', h⟩
      rw [(hnext flags' c.length).mpr ⟨rfl, h⟩] at hn
      cases hn
    simp [hno]
  | some taken =>
    obtain ⟨len, flags'⟩ := taken
    obtain ⟨rfl, htaken⟩ := (hnext flags' len).mp hn
    have hyes : ∃ flags', Taken flags c [] flags' := ⟨flags', htaken⟩
    have hsame : flags'.REFNAME_ALLOW_ONELEVEL = flags.REFNAME_ALLOW_ONELEVEL := by
      rcases htaken with ⟨-, -, rfl⟩ | ⟨-, -, rfl⟩ <;> rfl
    simp only [hyes, true_and, List.getElem?_length, if_true, hsame, List.getLast?_eq_getElem?]
    simp

theorem format_loop_more {c rest : Bytes} (hc : SLASH ∉ c) (turns count : Nat)
    (flags : refname_flags) :
    format_loop (turns + 1) flags count (c ++ SLASH :: rest) = true ↔
      ∃ flags', Taken flags c (SLASH :: rest) flags' ∧
        format_loop turns flags' (count + 1) rest = true := by
  have hnext := next_component_iff (SLASH :: rest) hc (by simp [Behind]) flags
  rw [format_loop]
  cases hn : next_component (c ++ SLASH :: rest) flags with
  | none =>
    refine iff_of_false Bool.false_ne_true ?_
    rintro ⟨flags', h, -⟩
    rw [(hnext flags' c.length).mpr ⟨rfl, h⟩] at hn
    cases hn
  | some taken =>
    obtain ⟨len, flags'⟩ := taken
    obtain ⟨rfl, htaken⟩ := (hnext flags' len).mp hn
    have hbehind : (c ++ SLASH :: rest)[c.length]? ≠ none := by simp
    have hdrop : (c ++ SLASH :: rest).drop (c.length + 1) = rest := by simp
    simp only [if_neg hbehind, hdrop]
    constructor
    · exact fun h => ⟨flags', htaken, h⟩
    · rintro ⟨flags'', htaken', h⟩
      have heq := (hnext flags'' c.length).mpr ⟨rfl, htaken'⟩
      rw [hn] at heq
      obtain ⟨-, rfl⟩ := Prod.mk.inj (Option.some.inj heq)
      exact h

/-- How many wildcards the flags allow. -/
def wildcards_left (flags : refname_flags) : Nat := if flags.REFNAME_REFSPEC_PATTERN then 1 else 0

/-- What the loop asks of the components from here on. -/
structure Rest (flags : refname_flags) (count : Nat) (refname : Bytes) : Prop where
  legal : ∀ c ∈ components refname, c = [42] ∨ Legal flags c
  pattern : (components refname).count [42] ≤ wildcards_left flags
  last : refname.getLast? ≠ some 46
  levels : flags.REFNAME_ALLOW_ONELEVEL = true ∨ 2 ≤ count + (components refname).length

theorem components_more {c rest : Bytes} (hc : SLASH ∉ c) :
    components (c ++ SLASH :: rest) = c :: components rest :=
  List.splitOn_append_cons_self_of_not_mem hc rest

theorem Legal.congr {flags flags' : refname_flags} {c : Bytes} (h : Legal flags c)
    (hdot : flags'.REFNAME_DOT_COMPONENT = flags.REFNAME_DOT_COMPONENT) : Legal flags' c :=
  ⟨h.non_empty, h.chars, fun hc => hdot ▸ h.dots hc, h.locks⟩

theorem rest_last_iff {c : Bytes} (hc : SLASH ∉ c) (flags : refname_flags) (count : Nat) :
    Rest flags count c ↔ (∃ flags', Taken flags c [] flags') ∧ c.getLast? ≠ some 46 ∧
      (flags.REFNAME_ALLOW_ONELEVEL = true ∨ 2 ≤ count + 1) := by
  have hone : components c = [c] := List.splitOn_eq_singleton hc
  constructor
  · rintro ⟨hlegal, hpattern, hlast, hlevels⟩
    rw [hone] at hlegal hpattern hlevels
    refine ⟨?_, hlast, hlevels⟩
    rcases hlegal c (List.mem_singleton_self c) with rfl | hl
    · refine ⟨_, Or.inr ⟨rfl, ?_, rfl⟩⟩
      by_contra hno
      simp [wildcards_left, hno] at hpattern
    · refine ⟨flags, Or.inl ⟨hl, ?_, rfl⟩⟩
      rintro ⟨rfl, -⟩
      exact hlast rfl
  · rintro ⟨⟨flags', h⟩, hlast, hlevels⟩
    refine ⟨?_, ?_, hlast, by rwa [hone]⟩
    · rw [hone]
      intro c' hc'
      rw [List.mem_singleton] at hc'
      rcases h with ⟨hl, -, -⟩ | ⟨hwild, -, -⟩
      · exact Or.inr (hc' ▸ hl)
      · exact Or.inl (hc'.trans hwild)
    · rw [hone]
      rcases h with ⟨hl, -, -⟩ | ⟨rfl, hpattern, -⟩
      · have hno : c ≠ [42] := fun heq => not_legal_wildcard flags (heq ▸ hl)
        simp [hno]
      · simp [wildcards_left, hpattern]

theorem getLast?_more {c rest : Bytes} :
    (c ++ SLASH :: rest).getLast? ≠ some 46 ↔ rest.getLast? ≠ some 46 := by
  rw [List.getLast?_append]
  cases rest with
  | nil => simp [show SLASH ≠ 46 by decide]
  | cons d rest => simp [List.getLast?_cons]

theorem rest_more_iff {c rest : Bytes} (hc : SLASH ∉ c) (flags : refname_flags) (count : Nat) :
    Rest flags count (c ++ SLASH :: rest) ↔
      ∃ flags', Taken flags c (SLASH :: rest) flags' ∧ Rest flags' (count + 1) rest := by
  have hlen : count + (c :: components rest).length = count + 1 + (components rest).length := by
    rw [List.length_cons]
    omega
  constructor
  · rintro ⟨hlegal, hpattern, hlast, hlevels⟩
    rw [components_more hc] at hlegal hpattern hlevels
    rw [hlen] at hlevels
    obtain ⟨hfirst, hothers⟩ := List.forall_mem_cons.mp hlegal
    rcases hfirst with rfl | hl
    · rw [List.count_cons_self] at hpattern
      have hflag : flags.REFNAME_REFSPEC_PATTERN = true := by
        by_contra hno
        simp [wildcards_left, hno] at hpattern
      refine ⟨_, Or.inr ⟨rfl, hflag, rfl⟩, ?_, ?_, getLast?_more.mp hlast, hlevels⟩
      · exact fun c' hc' => (hothers c' hc').imp_right (·.congr rfl)
      · simp only [wildcards_left, hflag, if_true] at hpattern ⊢
        simp only [Bool.false_eq_true, if_false]
        omega
    · have hno : c ≠ [42] := fun heq => not_legal_wildcard flags (heq ▸ hl)
      rw [List.count_cons_of_ne hno] at hpattern
      exact ⟨flags, Or.inl ⟨hl, by simp, rfl⟩, hothers, hpattern, getLast?_more.mp hlast, hlevels⟩
  · rintro ⟨flags', htaken, hlegal, hpattern, hlast, hlevels⟩
    refine ⟨?_, ?_, getLast?_more.mpr hlast, ?_⟩
    · rw [components_more hc]
      refine List.forall_mem_cons.mpr ⟨?_, fun c' hc' => (hlegal c' hc').imp_right fun hl => ?_⟩
      · exact htaken.elim (fun h => Or.inr h.1) fun h => Or.inl h.1
      · rcases htaken with ⟨-, -, rfl⟩ | ⟨-, -, rfl⟩
        · exact hl
        · exact hl.congr rfl
    · rw [components_more hc]
      rcases htaken with ⟨hl, -, rfl⟩ | ⟨rfl, hflag, rfl⟩
      · have hno : c ≠ [42] := fun heq => not_legal_wildcard flags' (heq ▸ hl)
        rwa [List.count_cons_of_ne hno]
      · rw [List.count_cons_self]
        simp only [wildcards_left, hflag, if_true] at hpattern ⊢
        simp only [Bool.false_eq_true, if_false] at hpattern
        omega
    · rw [components_more hc, hlen]
      rcases htaken with ⟨-, -, rfl⟩ | ⟨-, -, rfl⟩ <;> exact hlevels

theorem format_loop_iff (refname : Bytes) {turns : Nat} (hturns : refname.length < turns)
    (flags : refname_flags) (count : Nat) :
    format_loop turns flags count refname = true ↔ Rest flags count refname := by
  induction refname using fields.induction SLASH generalizing turns flags count with
  | last c hc =>
    obtain ⟨turns, rfl⟩ := Nat.exists_eq_add_one_of_ne_zero (Nat.ne_zero_of_lt hturns)
    rw [format_loop_last hc, rest_last_iff hc]
  | more c rest hc ih =>
    obtain ⟨turns, rfl⟩ := Nat.exists_eq_add_one_of_ne_zero (Nat.ne_zero_of_lt hturns)
    have hrest : rest.length < turns := by
      simp only [List.length_append, List.length_cons] at hturns
      omega
    rw [format_loop_more hc, rest_more_iff hc]
    simp only [ih hrest]

/-! ## The grammar -/

theorem forbidden_iff (ch : UInt8) : bad_ref_char ch = true ↔ Forbidden ch ∨ ch = 42 := by
  have hspace : ch ≤ 32 ↔ ch < 32 ∨ ch = 32 := le_iff_lt_or_eq
  simp only [bad_ref_char, Forbidden, Bool.or_eq_true, decide_eq_true_eq, beq_iff_eq, hspace,
    List.contains_iff_mem, List.mem_cons, List.not_mem_nil, or_false]
  tauto

theorem component_chars_iff (last : UInt8) (c : Bytes) :
    component_chars last c = true ↔ (∀ ch ∈ c, bad_ref_char ch = false) ∧
      ¬ [46, 46] <:+: last :: c ∧ ¬ [64, 123] <:+: last :: c := by
  induction c generalizing last with
  | nil => simp [component_chars, List.infix_cons_iff]
  | cons ch c ih =>
    have split : ∀ pair : Bytes, pair <:+: last :: ch :: c ↔
        pair <+: last :: ch :: c ∨ pair <:+: ch :: c := fun _ => List.infix_cons_iff
    rw [component_chars, Bool.and_eq_true, ih, split, split]
    simp only [List.mem_cons, forall_eq_or_imp, List.cons_prefix_cons, List.nil_prefix, and_true,
      Bool.not_eq_true', Bool.or_eq_false_iff, Bool.and_eq_false_iff, beq_eq_false_iff_ne]
    tauto

theorem infix_cons_of_ne {a b d : UInt8} {c : Bytes} (h : d ≠ a) :
    [a, b] <:+: d :: c ↔ [a, b] <:+: c := by
  rw [List.infix_cons_iff, List.cons_prefix_cons]
  simp [h.symm]

/-- The loop lets a name through where its grammar does. -/
theorem grammar_iff (flags : refname_flags) (refname : Bytes) :
    Grammar flags refname ↔ Rest flags 0 refname := by
  have hchars : ∀ c, component_chars 0 c = true ↔ (∀ ch ∈ c, ¬ Forbidden ch ∧ ch ≠ 42) ∧
      ¬ [46, 46] <:+: c ∧ ¬ [64, 123] <:+: c := by
    intro c
    rw [component_chars_iff, infix_cons_of_ne (by decide), infix_cons_of_ne (by decide)]
    simp only [← Bool.not_eq_true, forbidden_iff, not_or]
  constructor
  · rintro ⟨hne, hdots, hlocks, hdouble, hfree, hbrace, hlast, hwild, hpattern, hlevels⟩
    refine ⟨fun c hc => ?_, hpattern, hlast, by rwa [Nat.zero_add]⟩
    by_cases hstar : 42 ∈ c
    · exact Or.inl (hwild c hc hstar)
    · refine Or.inr ⟨hne c hc, (hchars c).mpr ⟨fun ch hch => ⟨?_, ?_⟩, ?_, ?_⟩, hdots c hc,
        hlocks c hc⟩
      · refine hfree ch ((fields.mem_iff ?_ refname).mpr ⟨c, hc, hch⟩)
        exact fun h => fields.notMem_of_mem hc (h ▸ hch)
      · exact fun h => hstar (h ▸ hch)
      · intro h
        exact hdouble ((fields.infix_iff SLASH (by decide) (by simp) refname).mpr ⟨c, hc, h⟩)
      · intro h
        exact hbrace ((fields.infix_iff SLASH (by decide) (by simp) refname).mpr ⟨c, hc, h⟩)
  · rintro ⟨hlegal, hpattern, hlast, hlevels⟩
    rw [Nat.zero_add] at hlevels
    refine ⟨?_, ?_, ?_, ?_, ?_, ?_, hlast, ?_, hpattern, hlevels⟩
    · intro c hc
      rcases hlegal c hc with rfl | hl
      · simp
      · exact hl.non_empty
    · intro c hc hdot
      rcases hlegal c hc with rfl | hl
      · simp at hdot
      · exact hl.dots hdot
    · intro c hc
      rcases hlegal c hc with rfl | hl
      · decide
      · exact hl.locks
    · rw [fields.infix_iff SLASH (by decide) (by simp)]
      rintro ⟨c, hc, hin⟩
      rcases hlegal c hc with rfl | hl
      · exact absurd hin (by decide)
      · exact ((hchars c).mp hl.chars).2.1 hin
    · intro ch hch
      by_cases hslash : ch = SLASH
      · rw [hslash]
        unfold Forbidden
        decide
      · obtain ⟨c, hc, hin⟩ := (fields.mem_iff hslash refname).mp hch
        rcases hlegal c hc with rfl | hl
        · rw [List.mem_singleton.mp hin]
          unfold Forbidden
          decide
        · exact (((hchars c).mp hl.chars).1 ch hin).1
    · rw [fields.infix_iff SLASH (by decide) (by simp)]
      rintro ⟨c, hc, hin⟩
      rcases hlegal c hc with rfl | hl
      · exact absurd hin (by decide)
      · exact ((hchars c).mp hl.chars).2.2 hin
    · intro c hc hstar
      rcases hlegal c hc with rfl | hl
      · rfl
      · exact absurd rfl (((hchars c).mp hl.chars).1 42 hstar).2

theorem check_refname_format_iff (refname : Bytes) (flags : refname_flags) :
    check_refname_format refname flags = true ↔ Grammar flags refname := by
  rw [check_refname_format, format_loop_iff refname (Nat.lt_succ_self _), grammar_iff]

/-- Without the two flags, the function is the one that reading a reference calls. -/
theorem check_refname_format_plain (refname : Bytes) (ALLOW_ONELEVEL : Bool) :
    check_refname_format refname ⟨ALLOW_ONELEVEL, false, false⟩ =
      refs.check_refname_format refname ALLOW_ONELEVEL := by
  have hone : ∀ c : Bytes, refs.check_refname_component c = true ↔
      Legal ⟨ALLOW_ONELEVEL, false, false⟩ c := by
    intro c
    simp only [refs.check_refname_component, Bool.and_eq_true, Bool.not_eq_true',
      List.isEmpty_eq_false_iff, bne_iff_ne]
    rw [← Bool.not_eq_true, List.isSuffixOf_iff_suffix]
    constructor
    · rintro ⟨⟨⟨hchars, hne⟩, hdot⟩, hlock⟩
      exact ⟨hne, hchars, fun h => absurd h hdot, hlock⟩
    · rintro ⟨hne, hchars, hdot, hlock⟩
      exact ⟨⟨⟨hchars, hne⟩, fun h => Bool.false_ne_true (hdot h)⟩, hlock⟩
  rw [Bool.eq_iff_iff, check_refname_format, format_loop_iff refname (Nat.lt_succ_self _)]
  simp only [refs.check_refname_format, Bool.and_eq_true, List.all_eq_true, hone, bne_iff_ne,
    Bool.or_eq_true, decide_eq_true_eq]
  constructor
  · rintro ⟨hlegal, hpattern, hlast, hlevels⟩
    rw [Nat.zero_add] at hlevels
    refine ⟨⟨fun c hc => (hlegal c hc).resolve_left ?_, hlast⟩, hlevels⟩
    rintro rfl
    exact absurd hc (List.count_eq_zero.mp (Nat.le_zero.mp hpattern))
  · rintro ⟨⟨hlegal, hlast⟩, hlevels⟩
    refine ⟨fun c hc => Or.inr (hlegal c hc), Nat.le_zero.mpr ?_, hlast, by rwa [Nat.zero_add]⟩
    exact List.count_eq_zero.mpr fun hc => not_legal_wildcard _ (hlegal _ hc)

/-! ## A component that is a dot -/

theorem getLast?_of_last_component {refname : Bytes} {ch : UInt8}
    (h : (components refname).getLast? = some [ch]) : refname.getLast? = some ch := by
  induction refname using fields.induction SLASH with
  | last c hc =>
    rw [components, List.splitOn_eq_singleton hc] at h
    obtain rfl : c = [ch] := Option.some.inj h
    rfl
  | more c rest hc ih =>
    have hne : components rest ≠ [] := List.splitOn_ne_nil _ _
    rw [components_more hc, List.getLast?_cons_of_ne_nil hne] at h
    rw [List.getLast?_append, List.getLast?_cons, ih h]
    rfl

theorem mem_dropLast_of_grammar {flags : refname_flags} {refname : Bytes}
    (h : Grammar flags refname) (hdot : [46] ∈ components refname) :
    [46] ∈ (components refname).dropLast := by
  have hne : components refname ≠ [] := List.splitOn_ne_nil _ _
  rw [← List.dropLast_append_getLast hne, List.mem_append, List.mem_singleton] at hdot
  refine hdot.resolve_right fun hlast => h.last (getLast?_of_last_component ?_)
  rw [List.getLast?_eq_some_getLast hne, hlast]

/-- The function keeps to its documentation but for a name of good form with a component "."
that is not the last one. -/
theorem format_documented_iff (flags : refname_flags) (refname : Bytes) :
    (check_refname_format refname flags = true ↔ Documented flags refname) ↔
      ¬ (flags.REFNAME_DOT_COMPONENT = true ∧ [46] ∈ (components refname).dropLast ∧
        Grammar flags refname) := by
  rw [check_refname_format_iff, Documented]
  constructor
  · rintro h ⟨-, hdot, hgrammar⟩
    exact (h.mp hgrammar).2 (List.mem_of_mem_dropLast hdot)
  · intro h
    refine ⟨fun hgrammar => ⟨hgrammar, fun hdot => h ⟨?_, ?_, hgrammar⟩⟩, And.left⟩
    · exact hgrammar.dots _ hdot rfl
    · exact mem_dropLast_of_grammar hgrammar hdot

/-- `refs/./a` is let through. -/
theorem a_dot_is_a_component :
    ¬ (check_refname_format [114, 101, 102, 115, 47, 46, 47, 97] ⟨true, false, true⟩ = true ↔
      Documented ⟨true, false, true⟩ [114, 101, 102, 115, 47, 46, 47, 97]) :=
  fun h => (h.mp (by decide)).2 (by decide)

end git.refname
