-- The whitespace check against the whitespace fix: on which lines a fixed line is clean and
-- stays as it is, and a line that nothing is reported of is copied unchanged.
import Git.WsIndent

namespace git.ws

open git.quote git.header_name

/-! ## The ends of lines -/

/-- No white space at the end. -/
def Solid (line : Bytes) : Prop := ∀ c ∈ line.getLast?, ¬ isspace c

theorem strip_solid (line : Bytes) : Solid (strip_trailing line) := by
  intro c hc
  obtain ⟨hne, rfl⟩ := List.mem_getLast?_eq_getLast hc
  exact List.rdropWhile_last_not isspace line hne

theorem strip_of_solid {line : Bytes} (h : Solid line) : strip_trailing line = line := by
  refine List.rdropWhile_eq_self_iff.mpr fun hne => h _ ?_
  exact List.getLast?_eq_some_getLast hne

theorem strip_append {line tail : Bytes} (h : ∀ c ∈ tail, isspace c) :
    strip_trailing (line ++ tail) = strip_trailing line := by
  induction tail using List.reverseRecOn with
  | nil => rw [List.append_nil]
  | append_singleton tail c ih =>
    rw [← List.append_assoc, strip_trailing, List.rdropWhile_concat_pos _ _ _ (h c (by simp))]
    exact ih fun d hd => h d (List.mem_append_left _ hd)

theorem strip_shorter {line : Bytes} :
    (strip_trailing line).length < line.length ↔ ¬ Solid line := by
  constructor
  · intro hlt h
    rw [strip_of_solid h] at hlt
    exact lt_irrefl _ hlt
  · intro h
    refine lt_of_le_of_ne (List.rdropWhile_prefix isspace line).length_le fun heq => h ?_
    rw [← (List.rdropWhile_prefix isspace line).eq_of_length heq]
    exact strip_solid line

/-- What the check sets aside at the end of a line. -/
inductive Eol (ws_rule : Nat) : Bytes → Prop
  | none : Eol ws_rule []
  | lf : Eol ws_rule [LF]
  | cr : has ws_rule WS_CR_AT_EOL → Eol ws_rule [CR]
  | crlf : has ws_rule WS_CR_AT_EOL → Eol ws_rule [CR, LF]

theorem Eol.isspace {ws_rule : Nat} {eol : Bytes} (h : Eol ws_rule eol) :
    ∀ c ∈ eol, isspace c := by
  cases h with
  | none => exact fun c hc => absurd hc List.not_mem_nil
  | lf => exact List.forall_mem_singleton.mpr rfl
  | cr _ => exact List.forall_mem_singleton.mpr rfl
  | crlf _ => exact List.forall_mem_cons.mpr ⟨rfl, List.forall_mem_singleton.mpr rfl⟩

theorem Eol.stops {ws_rule : Nat} {eol : Bytes} (h : Eol ws_rule eol) : Stops eol := by
  have hlf : LF ≠ SPACE ∧ LF ≠ TAB := by decide
  have hcr : CR ≠ SPACE ∧ CR ≠ TAB := by decide
  cases h with
  | none => simp [Stops]
  | lf => simpa [Stops] using hlf
  | cr _ => simpa [Stops] using hcr
  | crlf _ => simpa [Stops] using hcr

theorem eq_append_of_getLast? {line : Bytes} {c : UInt8} (h : line.getLast? = some c) :
    line = line.dropLast ++ [c] := by
  obtain ⟨body, rfl⟩ := List.getLast?_eq_some_iff.mp h
  rw [List.dropLast_concat]

/-- The line is its checked part and an end. -/
theorem checked_part_eol (line : Bytes) (ws_rule : Nat) :
    ∃ eol, Eol ws_rule eol ∧ line = checked_part line ws_rule ++ eol := by
  unfold checked_part
  dsimp only
  by_cases hlf : line.getLast? = some LF
  · rw [if_pos hlf]
    by_cases hcr : has ws_rule WS_CR_AT_EOL && line.dropLast.getLast? = some CR
    · rw [if_pos hcr]
      rw [Bool.and_eq_true, decide_eq_true_eq] at hcr
      refine ⟨[CR, LF], Eol.crlf hcr.1, ?_⟩
      have hline := eq_append_of_getLast? hlf
      rw [eq_append_of_getLast? hcr.2, List.append_assoc] at hline
      exact hline
    · rw [if_neg hcr]
      exact ⟨[LF], Eol.lf, eq_append_of_getLast? hlf⟩
  · rw [if_neg hlf]
    by_cases hcr : has ws_rule WS_CR_AT_EOL && line.getLast? = some CR
    · rw [if_pos hcr]
      rw [Bool.and_eq_true, decide_eq_true_eq] at hcr
      exact ⟨[CR], Eol.cr hcr.1, eq_append_of_getLast? hcr.2⟩
    · rw [if_neg hcr]
      exact ⟨[], Eol.none, (List.append_nil line).symm⟩

/-- Behind a text without white space at its end, the check sets the end aside. -/
theorem checked_part_solid {ws_rule : Nat} {body eol : Bytes} (h : Solid body)
    (heol : Eol ws_rule eol) : checked_part (body ++ eol) ws_rule = body := by
  have hlf : body.getLast? ≠ some LF := fun hlast => h LF hlast rfl
  have hcr : body.getLast? ≠ some CR := fun hlast => h CR hlast rfl
  have hnot : CR ≠ LF := by decide
  unfold checked_part
  cases heol with
  | none => simp [hlf, hcr]
  | lf => simp [hcr]
  | cr hrule => simp [hrule, hnot]
  | crlf hrule =>
    have hsplit : body ++ [CR, LF] = body ++ [CR] ++ [LF] := by simp
    rw [hsplit]
    simp [hrule]

/-! ## The check of a line -/

/-- The part of the line whose indent counts. -/
def text (line : Bytes) (ws_rule : Nat) : Bytes :=
  if has ws_rule WS_BLANK_AT_EOL then strip_trailing line else line

/-- There is white space before the end of the line, and the rule is against it. -/
def EndsBlank (line : Bytes) (ws_rule : Nat) : Prop :=
  has ws_rule WS_BLANK_AT_EOL ∧ ¬ Solid (checked_part line ws_rule)

theorem strip_checked_part (line : Bytes) (ws_rule : Nat) :
    strip_trailing (checked_part line ws_rule) = strip_trailing line := by
  obtain ⟨eol, heol, hline⟩ := checked_part_eol line ws_rule
  exact (strip_append heol.isspace).symm.trans (congrArg strip_trailing hline.symm)

theorem runs_checked_part (line : Bytes) (ws_rule : Nat) :
    runs 0 (checked_part line ws_rule) = runs 0 line := by
  obtain ⟨eol, heol, hline⟩ := checked_part_eol line ws_rule
  exact (runs_append _ _ heol.stops 0).symm.trans (congrArg (runs 0) hline.symm)

/-- Nothing is reported of a line when it ends well and its indent is clean. -/
theorem ws_check_eq_zero (line : Bytes) (ws_rule : Nat) : ws_check line ws_rule = 0 ↔
    ¬ EndsBlank line ws_rule ∧ CleanIndent ws_rule (runs 0 (text line ws_rule)) := by
  set checked := checked_part line ws_rule with hchecked
  set upto := if has ws_rule WS_BLANK_AT_EOL then strip_trailing checked else checked with hupto
  set result := if upto.length < checked.length then WS_BLANK_AT_EOL else 0 with hdef
  have hruns : runs 0 upto = runs 0 (text line ws_rule) := by
    rw [hupto, hchecked, text]
    split_ifs
    · rw [strip_checked_part]
    · exact runs_checked_part line ws_rule
  have hblank : result = 0 ↔ ¬ EndsBlank line ws_rule := by
    have hbit : WS_BLANK_AT_EOL ≠ 0 := by decide
    rw [hdef, hupto, EndsBlank, ← hchecked]
    by_cases hb : has ws_rule WS_BLANK_AT_EOL
    · simp only [hb, if_true, true_and]
      split_ifs with h
      · exact iff_of_false hbit (not_not.mpr (strip_shorter.mp h))
      · exact iff_of_true rfl fun hsolid => h (strip_shorter.mpr hsolid)
    · simp [hb]
  obtain ⟨rest, hstops, hindent⟩ := exists_indent upto 0
  rw [hruns, List.replicate_zero, List.nil_append] at hindent
  obtain ⟨hspaces, hresult⟩ := check_indent_of hstops ws_rule (runs 0 (text line ws_rule)).1
    (runs 0 (text line ws_rule)).2 0 result
  rw [← hindent] at hspaces hresult
  rw [hblank] at hresult
  unfold ws_check
  dsimp only
  rw [← hchecked, ← hupto, ← hdef, hspaces]
  by_cases hi : has ws_rule WS_INDENT_WITH_NON_TAB &&
    ws_tab_width ws_rule ≤ (runs 0 (text line ws_rule)).2
  · rw [if_pos hi, Nat.or_eq_zero_iff]
    rw [Bool.and_eq_true, decide_eq_true_eq] at hi
    refine iff_of_false (fun h => absurd h.2 (by decide)) fun h => ?_
    exact absurd (h.2.few_spaces hi.1) (not_lt.mpr hi.2)
  · rw [if_neg hi, hresult]
    rw [Bool.and_eq_true, decide_eq_true_eq, not_and, not_le] at hi
    exact ⟨fun h => ⟨h.1, h.2.1, h.2.2, hi⟩, fun h => ⟨h.1, h.2.1, h.2.2⟩⟩

/-! ## The fix of a line -/

/-- What the fix puts back at the end. -/
def kept_eol (line : Bytes) (ws_rule : Nat) : Bytes := (fix_trailing line ws_rule).2.1

theorem fix_trailing_text (line : Bytes) (ws_rule : Nat) :
    (fix_trailing line ws_rule).1 = text line ws_rule := by
  have hlf : ∀ c ∈ [LF], isspace c := List.forall_mem_singleton.mpr rfl
  have hcr : ∀ c ∈ [CR], isspace c := List.forall_mem_singleton.mpr rfl
  unfold fix_trailing text
  by_cases hb : has ws_rule WS_BLANK_AT_EOL
  · rw [if_pos hb, if_pos hb]
    by_cases h1 : line.getLast? = some LF
    · have hline : strip_trailing line = strip_trailing line.dropLast :=
        (congrArg strip_trailing (eq_append_of_getLast? h1)).trans (strip_append hlf)
      rw [if_pos h1, hline]
      by_cases h2 : line.dropLast.getLast? = some CR
      · have hdrop : strip_trailing line.dropLast = strip_trailing line.dropLast.dropLast :=
          (congrArg strip_trailing (eq_append_of_getLast? h2)).trans (strip_append hcr)
        rw [if_pos h2, hdrop]
      · rw [if_neg h2]
    · rw [if_neg h1]
  · rw [if_neg hb, if_neg hb]

/-- The end that is kept. -/
theorem kept_eol_cases {ws_rule : Nat} (hb : has ws_rule WS_BLANK_AT_EOL) (line : Bytes) :
    Eol ws_rule (kept_eol line ws_rule) ∧ kept_eol line ws_rule ≠ [CR] := by
  unfold kept_eol fix_trailing
  rw [if_pos hb]
  have hcrlf : [CR, LF] ≠ [CR] := by decide
  have hlf : [LF] ≠ [CR] := by decide
  split_ifs with h1 h2 hcr
  · exact ⟨Eol.crlf hcr, hcrlf⟩
  · exact ⟨Eol.lf, hlf⟩
  · exact ⟨Eol.lf, hlf⟩
  · exact ⟨Eol.none, (List.cons_ne_nil CR []).symm⟩

/-- Behind a text without white space at its end, the fix keeps the end, but not a lone
carriage return. -/
theorem kept_eol_solid {ws_rule : Nat} (hb : has ws_rule WS_BLANK_AT_EOL) {body eol : Bytes}
    (h : Solid body) (heol : Eol ws_rule eol) :
    kept_eol (body ++ eol) ws_rule = if eol = [CR] then [] else eol := by
  have hlf : body.getLast? ≠ some LF := fun hlast => h LF hlast rfl
  have hcr : body.getLast? ≠ some CR := fun hlast => h CR hlast rfl
  have hnot : CR ≠ LF := by decide
  unfold kept_eol fix_trailing
  rw [if_pos hb]
  cases heol with
  | none => simp [hlf]
  | lf => simp [hcr, hnot.symm]
  | cr hrule => simp [hnot]
  | crlf hrule =>
    have hsplit : body ++ [CR, LF] = body ++ [CR] ++ [LF] := by simp
    rw [hsplit]
    simp [hrule]

/-- The fixed line: its indent fixed, the text behind it and an end. -/
theorem ws_fix_copy_eq {ws_rule : Nat} (hw : 0 < ws_tab_width ws_rule) {line rest : Bytes}
    (h : Stops rest) {r : List Nat × Nat} (htext : text line ws_rule = indent_of r.1 r.2 ++ rest) :
    (ws_fix_copy line ws_rule).1 =
      indent_of (fixed_runs ws_rule r).1 (fixed_runs ws_rule r).2 ++ rest ++
        kept_eol line ws_rule := by
  have hfix := fix_leading_indent hw h r.1 r.2
  have hcopy : (ws_fix_copy line ws_rule).1 =
      (fix_leading (fix_trailing line ws_rule).1 ws_rule).1 ++
        (fix_leading (fix_trailing line ws_rule).1 ws_rule).2.1 ++ kept_eol line ws_rule := rfl
  rw [hcopy, fix_trailing_text, htext, hfix]

/-! ## The two together -/

/-- What the two should have to do with each other on a line. -/
structure FixMeetsCheck (line : Bytes) (ws_rule : Nat) : Prop where
  clean : ws_check (ws_fix_copy line ws_rule).1 ws_rule = 0
  text_kept : ((ws_fix_copy line ws_rule).1.filter fun c => !isspace c) =
    line.filter fun c => !isspace c
  unreported_kept : ws_check line ws_rule = 0 → (ws_fix_copy line ws_rule).1 = line
  again : (ws_fix_copy (ws_fix_copy line ws_rule).1 ws_rule).1 = (ws_fix_copy line ws_rule).1

/-- The lines and rules with which they have to do with each other what they should. -/
structure Fixable (line : Bytes) (ws_rule : Nat) : Prop where
  /-- The fix of spaces before a tab leaves tabs. -/
  no_forbidden_tab : ¬ SpaceBeforeForbiddenTab ws_rule (runs 0 (text line ws_rule))
  /-- The fix looks for spaces for a tab before any tab, the check behind the last alone. -/
  no_unreported_run : ¬ (has ws_rule WS_INDENT_WITH_NON_TAB ∧ ¬ has ws_rule WS_SPACE_BEFORE_TAB ∧
    ¬ EndsBlank line ws_rule ∧ (runs 0 (text line ws_rule)).2 < ws_tab_width ws_rule ∧
    ∃ k ∈ (runs 0 (text line ws_rule)).1, ws_tab_width ws_rule ≤ k)
  /-- The fix takes a carriage return without a newline away. -/
  no_lone_cr : ¬ (has ws_rule WS_BLANK_AT_EOL ∧ has ws_rule WS_CR_AT_EOL ∧
    line.getLast? = some CR ∧ ¬ EndsBlank line ws_rule ∧
    CleanIndent ws_rule (runs 0 (text line ws_rule)))

/-- The parts of a line, and of what the fix makes of it. -/
structure Parts (ws_rule : Nat) (line : Bytes) (r : List Nat × Nat) (rest eol : Bytes) : Prop where
  stops : Stops rest
  runs_eq : runs 0 (text line ws_rule) = r
  text_eq : text line ws_rule = indent_of r.1 r.2 ++ rest
  eol_eq : kept_eol line ws_rule = eol

theorem exists_parts (ws_rule : Nat) (line : Bytes) : ∃ r rest eol,
    Parts ws_rule line r rest eol := by
  obtain ⟨rest, hstops, htext⟩ := exists_indent (text line ws_rule) 0
  exact ⟨_, rest, _, hstops, rfl, htext, rfl⟩

theorem Parts.fixed_eq {ws_rule : Nat} {line : Bytes} {r : List Nat × Nat} {rest eol : Bytes}
    (h : Parts ws_rule line r rest eol) (hw : 0 < ws_tab_width ws_rule) :
    (ws_fix_copy line ws_rule).1 =
      indent_of (fixed_runs ws_rule r).1 (fixed_runs ws_rule r).2 ++ rest ++ eol := by
  rw [ws_fix_copy_eq hw h.stops h.text_eq, h.eol_eq]

/-- Every byte of an indent is white space. -/
theorem indent_of_isspace (rs : List Nat) (n : Nat) : ∀ c ∈ indent_of rs n, isspace c := by
  induction rs with
  | nil =>
    intro c hc
    rw [List.eq_of_mem_replicate hc]
    rfl
  | cons k rs ih =>
    intro c hc
    rw [indent_of, List.mem_append, List.mem_cons] at hc
    rcases hc with hc | rfl | hc
    · rw [List.eq_of_mem_replicate hc]
      rfl
    · rfl
    · exact ih c hc

theorem indent_of_eq_nil {rs : List Nat} {n : Nat} (h : indent_of rs n = []) :
    (rs, n) = ([], 0) := by
  cases rs with
  | nil => rw [(List.replicate_eq_nil_iff SPACE).mp h]
  | cons k rs => exact absurd (List.append_eq_nil_iff.mp h).2 (List.cons_ne_nil _ _)

/-- A text that was stripped stays so when its indent is fixed. -/
theorem Parts.solid {ws_rule : Nat} {line : Bytes} {r : List Nat × Nat} {rest eol : Bytes}
    (h : Parts ws_rule line r rest eol) (hw : 0 < ws_tab_width ws_rule)
    (hb : has ws_rule WS_BLANK_AT_EOL) :
    Solid (indent_of (fixed_runs ws_rule r).1 (fixed_runs ws_rule r).2 ++ rest) := by
  have htext := h.text_eq
  rw [text, if_pos hb] at htext
  have hsolid := strip_solid line
  rw [htext] at hsolid
  rcases List.eq_nil_or_concat rest with rfl | ⟨front, c, rfl⟩
  · have hnil : indent_of r.1 r.2 ++ [] = [] := by
      rw [← strip_of_solid hsolid, List.append_nil]
      exact List.rdropWhile_eq_nil_iff.mpr (indent_of_isspace r.1 r.2)
    have hr : r = ([], 0) := indent_of_eq_nil (List.append_eq_nil_iff.mp hnil).1
    have hclean : CleanIndent ws_rule r := by
      rw [hr]
      exact ⟨fun _ k hk => absurd hk List.not_mem_nil, fun _ => rfl, fun _ => hw⟩
    have hnarrow : NoWideRun ws_rule r := by
      rw [hr]
      exact fun _ k hk => absurd hk List.not_mem_nil
    rw [fixed_runs_of_clean hclean hnarrow, hnil]
    exact fun c hc => by cases hc
  · intro d hd
    refine hsolid d ?_
    rw [List.concat_eq_append, ← List.append_assoc, List.getLast?_concat] at hd ⊢
    exact hd

/-- The parts of the fixed line. -/
theorem Parts.again {ws_rule : Nat} {line : Bytes} {r : List Nat × Nat} {rest eol : Bytes}
    (h : Parts ws_rule line r rest eol) (hw : 0 < ws_tab_width ws_rule) :
    Parts ws_rule (ws_fix_copy line ws_rule).1 (fixed_runs ws_rule r) rest eol ∧
      ¬ EndsBlank (ws_fix_copy line ws_rule).1 ws_rule := by
  have hfixed := h.fixed_eq hw
  have hkept := h.eol_eq
  by_cases hb : has ws_rule WS_BLANK_AT_EOL
  · obtain ⟨heol, hne⟩ := kept_eol_cases hb line
    rw [hkept] at heol hne
    have hsolid := h.solid hw hb
    have htext : text (ws_fix_copy line ws_rule).1 ws_rule =
        indent_of (fixed_runs ws_rule r).1 (fixed_runs ws_rule r).2 ++ rest := by
      rw [text, if_pos hb, hfixed, strip_append heol.isspace, strip_of_solid hsolid]
    refine ⟨⟨h.stops, ?_, htext, ?_⟩, ?_⟩
    · rw [htext, runs_indent_of h.stops]
    · rw [hfixed, kept_eol_solid hb hsolid heol, if_neg hne]
    · rw [EndsBlank, hfixed, checked_part_solid hsolid heol]
      exact fun hends => hends.2 hsolid
  · have hnil : eol = [] := by
      rw [← hkept, kept_eol, fix_trailing, if_neg hb]
    have htext : text (ws_fix_copy line ws_rule).1 ws_rule =
        indent_of (fixed_runs ws_rule r).1 (fixed_runs ws_rule r).2 ++ rest := by
      rw [text, if_neg hb, hfixed, hnil, List.append_nil]
    refine ⟨⟨h.stops, ?_, htext, ?_⟩, fun hends => hb hends.1⟩
    · rw [htext, runs_indent_of h.stops]
    · rw [kept_eol, fix_trailing, if_neg hb, hnil]

theorem filter_isspace {s : Bytes} (h : ∀ c ∈ s, isspace c) :
    (s.filter fun c => !isspace c) = [] := by
  rw [List.filter_eq_nil_iff]
  intro c hc
  rw [h c hc]
  decide

theorem filter_text (line : Bytes) (ws_rule : Nat) :
    ((text line ws_rule).filter fun c => !isspace c) = line.filter fun c => !isspace c := by
  unfold text
  split_ifs with hb
  · have hall : ∀ c ∈ line.rtakeWhile isspace, isspace c := fun c => List.mem_rtakeWhile_imp
    have hsplit : strip_trailing line ++ line.rtakeWhile isspace = line :=
      List.rdropWhile_append_rtakeWhile
    conv_rhs => rw [← hsplit]
    rw [List.filter_append, filter_isspace hall, List.append_nil]
  · rfl

/-- The fix changes white space alone. -/
theorem Parts.text_kept {ws_rule : Nat} {line : Bytes} {r : List Nat × Nat} {rest eol : Bytes}
    (h : Parts ws_rule line r rest eol) (hw : 0 < ws_tab_width ws_rule) :
    ((ws_fix_copy line ws_rule).1.filter fun c => !isspace c) =
      line.filter fun c => !isspace c := by
  have heol : ∀ c ∈ eol, isspace c := by
    rw [← h.eol_eq]
    by_cases hb : has ws_rule WS_BLANK_AT_EOL
    · exact (kept_eol_cases hb line).1.isspace
    · rw [kept_eol, fix_trailing, if_neg hb]
      exact fun c hc => absurd hc List.not_mem_nil
  rw [h.fixed_eq hw, ← filter_text line ws_rule, h.text_eq]
  simp only [List.filter_append, filter_isspace heol, filter_isspace (indent_of_isspace _ _),
    List.nil_append, List.append_nil]

/-- What an unreported line is made of, and which end of it is kept. -/
theorem Parts.unreported {ws_rule : Nat} {line : Bytes} {r : List Nat × Nat} {rest eol : Bytes}
    (h : Parts ws_rule line r rest eol) (hends : ¬ EndsBlank line ws_rule) :
    (has ws_rule WS_BLANK_AT_EOL ∧ has ws_rule WS_CR_AT_EOL ∧ line.getLast? = some CR ∧
        line = indent_of r.1 r.2 ++ rest ++ [CR] ∧ eol = []) ∨
      (¬ (has ws_rule WS_BLANK_AT_EOL ∧ has ws_rule WS_CR_AT_EOL ∧ line.getLast? = some CR) ∧
        line = indent_of r.1 r.2 ++ rest ++ eol) := by
  have htext := h.text_eq
  have hkept := h.eol_eq
  by_cases hb : has ws_rule WS_BLANK_AT_EOL
  · have hsolid : Solid (checked_part line ws_rule) := by
      by_contra hnot
      exact hends ⟨hb, hnot⟩
    have hchecked : checked_part line ws_rule = indent_of r.1 r.2 ++ rest := by
      rw [← htext, text, if_pos hb, ← strip_checked_part line ws_rule, strip_of_solid hsolid]
    obtain ⟨end_, heol, hline⟩ := checked_part_eol line ws_rule
    rw [hchecked] at hline hsolid
    rw [hline, kept_eol_solid hb hsolid heol] at hkept
    cases heol with
    | none =>
      refine Or.inr ⟨fun hcr => ?_, ?_⟩
      · rw [hline, List.append_nil] at hcr
        exact hsolid CR hcr.2.2 rfl
      · rw [← hkept]
        exact hline
    | lf =>
      refine Or.inr ⟨fun hcr => ?_, ?_⟩
      · rw [hline, List.getLast?_concat] at hcr
        exact absurd hcr.2.2 (by decide)
      · rw [← hkept]
        exact hline
    | cr hrule =>
      refine Or.inl ⟨hb, hrule, ?_, hline, hkept.symm⟩
      rw [hline, List.getLast?_concat]
    | crlf hrule =>
      refine Or.inr ⟨fun hcr => ?_, ?_⟩
      · have hsplit : indent_of r.1 r.2 ++ rest ++ [CR, LF] =
            indent_of r.1 r.2 ++ rest ++ [CR] ++ [LF] := by simp
        rw [hline, hsplit, List.getLast?_concat] at hcr
        exact absurd hcr.2.2 (by decide)
      · rw [← hkept]
        exact hline
  · have hnil : eol = [] := by
      rw [← hkept, kept_eol, fix_trailing, if_neg hb]
    rw [text, if_neg hb] at htext
    refine Or.inr ⟨fun hcr => hb hcr.1, ?_⟩
    rw [hnil, List.append_nil]
    exact htext

/-- A line of which nothing is reported is copied unchanged unless it has a wide run before a tab
or ends in a carriage return that is taken away. -/
theorem Parts.unreported_kept {ws_rule : Nat} {line : Bytes} {r : List Nat × Nat}
    {rest eol : Bytes} (h : Parts ws_rule line r rest eol) (hw : 0 < ws_tab_width ws_rule)
    (hends : ¬ EndsBlank line ws_rule) (hclean : CleanIndent ws_rule r) :
    (ws_fix_copy line ws_rule).1 = line ↔ NoWideRun ws_rule r ∧
      ¬ (has ws_rule WS_BLANK_AT_EOL ∧ has ws_rule WS_CR_AT_EOL ∧ line.getLast? = some CR) := by
  have hfixed := h.fixed_eq hw
  constructor
  · intro hsame
    constructor
    · intro hi k hk
      by_contra hwide
      have hruns := (h.again hw).1.runs_eq
      rw [hsame, h.runs_eq] at hruns
      exact fixed_runs_ne hw hi hk (not_lt.mp hwide) hruns.symm
    · intro hcr
      rcases h.unreported hends with ⟨-, -, -, -, heol⟩ | ⟨hno, -⟩
      · have hlast := hcr.2.2
        rw [← hsame, hfixed, heol, List.append_nil] at hlast
        exact h.solid hw hcr.1 CR hlast rfl
      · exact hno hcr
  · rintro ⟨hnarrow, hcr⟩
    rcases h.unreported hends with ⟨hb, hrule, hlast, -⟩ | ⟨-, hline⟩
    · exact absurd ⟨hb, hrule, hlast⟩ hcr
    · rw [hfixed, fixed_runs_of_clean hclean hnarrow, ← hline]

/-- The fix and the check have to do with each other what they should exactly on the lines that
are `Fixable`. -/
theorem fix_meets_check_iff {ws_rule : Nat} (hrule : AcceptedRule ws_rule) (line : Bytes) :
    FixMeetsCheck line ws_rule ↔ Fixable line ws_rule := by
  have hw := hrule.width
  obtain ⟨r, rest, eol, h⟩ := exists_parts ws_rule line
  obtain ⟨hagain, hends'⟩ := h.again hw
  have hcheck := ws_check_eq_zero line ws_rule
  rw [h.runs_eq] at hcheck
  have hcheck' : ws_check (ws_fix_copy line ws_rule).1 ws_rule = 0 ↔
      ¬ SpaceBeforeForbiddenTab ws_rule r := by
    rw [ws_check_eq_zero, hagain.runs_eq, fixed_runs_clean hrule]
    exact and_iff_right hends'
  constructor
  · rintro ⟨hclean, -, hkept, -⟩
    refine ⟨?_, ?_, ?_⟩
    · rw [h.runs_eq]
      exact hcheck'.mp hclean
    · rw [h.runs_eq]
      rintro ⟨hi, hs, hends, hfew, k, hk, hwide⟩
      have hindent : CleanIndent ws_rule r :=
        ⟨fun hs' => absurd hs' hs, fun ht => absurd ⟨ht, hi⟩ hrule.one_wish, fun _ => hfew⟩
      have hsame := hkept (hcheck.mpr ⟨hends, hindent⟩)
      exact absurd (((h.unreported_kept hw hends hindent).mp hsame).1 hi k hk) (not_lt.mpr hwide)
    · rw [h.runs_eq]
      rintro ⟨hb, hrule', hlast, hends, hindent⟩
      have hsame := hkept (hcheck.mpr ⟨hends, hindent⟩)
      exact ((h.unreported_kept hw hends hindent).mp hsame).2 ⟨hb, hrule', hlast⟩
  · rintro ⟨htab, hrun, hcr⟩
    rw [h.runs_eq] at htab hrun hcr
    refine ⟨hcheck'.mpr htab, h.text_kept hw, fun hzero => ?_, ?_⟩
    · obtain ⟨hends, hindent⟩ := hcheck.mp hzero
      refine (h.unreported_kept hw hends hindent).mpr ⟨fun hi k hk => ?_, fun hlast => ?_⟩
      · by_contra hwide
        refine hrun ⟨hi, fun hs => ?_, hends, hindent.few_spaces hi, k, hk, not_lt.mp hwide⟩
        have hzero := hindent.no_space_before_tab hs k hk
        omega
      · exact hcr ⟨hlast.1, hlast.2.1, hlast.2.2, hends, hindent⟩
    · have hclean := (fixed_runs_clean hrule r).mpr htab
      rw [hagain.fixed_eq hw, fixed_runs_of_clean hclean (fixed_runs_narrow hw r), h.fixed_eq hw]

/-- A space before a tab with both space-before-tab and tab-in-indent: a tab is left. -/
theorem fix_meets_check_fails : ¬ ∀ ws_rule, AcceptedRule ws_rule → ∀ line,
    FixMeetsCheck line ws_rule := by
  intro hall
  have h := hall (WS_SPACE_BEFORE_TAB ||| WS_TAB_IN_INDENT ||| 8) ⟨by decide, by decide⟩
    [SPACE, TAB, 120, LF]
  exact absurd h.clean (by decide)

/-- Under the same rule a line with neither. -/
theorem fix_meets_check_iff_plain :
    AcceptedRule (WS_SPACE_BEFORE_TAB ||| WS_TAB_IN_INDENT ||| 8) ∧
      (FixMeetsCheck [SPACE, 120, SPACE, LF] (WS_SPACE_BEFORE_TAB ||| WS_TAB_IN_INDENT ||| 8) ↔
        Fixable [SPACE, 120, SPACE, LF] (WS_SPACE_BEFORE_TAB ||| WS_TAB_IN_INDENT ||| 8)) :=
  ⟨⟨by decide, by decide⟩, fix_meets_check_iff ⟨by decide, by decide⟩ _⟩

end git.ws
