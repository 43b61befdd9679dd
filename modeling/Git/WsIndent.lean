-- The whitespace check against the whitespace fix: an indent is a row of runs of spaces, each
-- before a tab, and a last run; what the check says of them and what the fix makes of them.
import Git.Ws

namespace git.ws

open git.quote git.header_name

/-! ## Indents as runs -/

/-- The spaces before each tab of the indent, and those behind the last tab; `n` were seen. -/
def runs : Nat → Bytes → List Nat × Nat
  | n, [] => ([], n)
  | n, c :: line =>
    if c = TAB then (n :: (runs 0 line).1, (runs 0 line).2)
    else if c = SPACE then runs (n + 1) line
    else ([], n)

def indent_of : List Nat → Nat → Bytes
  | [], n => List.replicate n SPACE
  | k :: rs, n => List.replicate k SPACE ++ TAB :: indent_of rs n

/-- The text behind an indent. -/
def Stops (rest : Bytes) : Prop := ∀ c ∈ rest.head?, c ≠ SPACE ∧ c ≠ TAB

theorem runs_spaces (k m : Nat) (line : Bytes) :
    runs m (List.replicate k SPACE ++ line) = runs (m + k) line := by
  induction k generalizing m with
  | zero => rfl
  | succ k ih =>
    have hnot : SPACE ≠ TAB := by decide
    simp only [List.replicate_succ, List.cons_append, runs, hnot, if_false, if_true]
    rw [ih, Nat.add_right_comm, Nat.add_assoc]

theorem runs_stops {rest : Bytes} (h : Stops rest) (m : Nat) : runs m rest = ([], m) := by
  cases rest with
  | nil => rfl
  | cons c rest =>
    obtain ⟨hspace, htab⟩ := h c rfl
    rw [runs, if_neg htab, if_neg hspace]

/-- The runs of an indent are those it was made of. -/
theorem runs_indent_of {rest : Bytes} (h : Stops rest) (rs : List Nat) (n : Nat) :
    runs 0 (indent_of rs n ++ rest) = (rs, n) := by
  induction rs with
  | nil => rw [indent_of, runs_spaces, runs_stops h, Nat.zero_add]
  | cons k rs ih =>
    rw [indent_of, List.append_assoc, runs_spaces, List.cons_append, runs, if_pos rfl, ih,
      Nat.zero_add]

/-- Every line is an indent and what stops it. -/
theorem exists_indent (line : Bytes) (m : Nat) : ∃ rest, Stops rest ∧
    List.replicate m SPACE ++ line = indent_of (runs m line).1 (runs m line).2 ++ rest := by
  induction line generalizing m with
  | nil => exact ⟨[], by simp [Stops], rfl⟩
  | cons c line ih =>
    by_cases htab : c = TAB
    · obtain ⟨rest, hstops, heq⟩ := ih 0
      refine ⟨rest, hstops, ?_⟩
      rw [runs, if_pos htab]
      simpa [indent_of, htab] using heq
    · by_cases hspace : c = SPACE
      · obtain ⟨rest, hstops, heq⟩ := ih (m + 1)
        refine ⟨rest, hstops, ?_⟩
        rw [runs, if_neg htab, if_pos hspace, ← heq, hspace, List.replicate_succ']
        simp
      · refine ⟨c :: line, by simp [Stops, htab, hspace], ?_⟩
        rw [runs, if_neg htab, if_neg hspace, indent_of]

/-- What comes behind the stop does not matter. -/
theorem runs_append (line tail : Bytes) (htail : Stops tail) (m : Nat) :
    runs m (line ++ tail) = runs m line := by
  induction line generalizing m with
  | nil => exact runs_stops htail m
  | cons c line ih =>
    rw [List.cons_append, runs, runs, ih 0, ih (m + 1)]

/-! ## The check of an indent -/

/-- Nothing in the indent is an error. -/
structure CleanIndent (ws_rule : Nat) (r : List Nat × Nat) : Prop where
  no_space_before_tab : has ws_rule WS_SPACE_BEFORE_TAB → ∀ k ∈ r.1, k = 0
  no_tab : has ws_rule WS_TAB_IN_INDENT → r.1 = []
  few_spaces : has ws_rule WS_INDENT_WITH_NON_TAB → r.2 < ws_tab_width ws_rule

theorem check_spaces (ws_rule k : Nat) (line : Bytes) (s : indent) :
    check_indentation ws_rule (List.replicate k SPACE ++ line) s =
      check_indentation ws_rule line { s with i := s.i + k } := by
  induction k generalizing s with
  | zero => rfl
  | succ k ih =>
    rw [List.replicate_succ, List.cons_append, check_indentation, if_pos rfl, ih]
    simp [Nat.add_right_comm, Nat.add_assoc]

theorem check_stops {rest : Bytes} (h : Stops rest) (ws_rule : Nat) (s : indent) :
    check_indentation ws_rule rest s = s := by
  cases rest with
  | nil => rfl
  | cons c rest =>
    obtain ⟨hspace, htab⟩ := h c rfl
    rw [check_indentation, if_neg hspace, if_pos htab]

/-- One tab with `k` spaces before it. -/
theorem check_tab_result (ws_rule i k result : Nat) :
    (if has ws_rule WS_SPACE_BEFORE_TAB && i < i + k then result ||| WS_SPACE_BEFORE_TAB
      else if has ws_rule WS_TAB_IN_INDENT then result ||| WS_TAB_IN_INDENT else result) = 0 ↔
      result = 0 ∧ (has ws_rule WS_SPACE_BEFORE_TAB → k = 0) ∧
        ¬ has ws_rule WS_TAB_IN_INDENT := by
  have hspace : WS_SPACE_BEFORE_TAB ≠ 0 := by decide
  have htab : WS_TAB_IN_INDENT ≠ 0 := by decide
  rcases Nat.eq_zero_or_pos k with rfl | hk
  · by_cases ht : has ws_rule WS_TAB_IN_INDENT <;> simp [ht, htab]
  · by_cases hs : has ws_rule WS_SPACE_BEFORE_TAB
    · simp [hs, hk, hspace, hk.ne']
    · by_cases ht : has ws_rule WS_TAB_IN_INDENT <;> simp [hs, ht, htab]

theorem check_indent_of {rest : Bytes} (h : Stops rest) (ws_rule : Nat) (rs : List Nat)
    (n i result : Nat) :
    (check_indentation ws_rule (indent_of rs n ++ rest) ⟨i, i, result⟩).i -
        (check_indentation ws_rule (indent_of rs n ++ rest) ⟨i, i, result⟩).written = n ∧
      ((check_indentation ws_rule (indent_of rs n ++ rest) ⟨i, i, result⟩).result = 0 ↔
        result = 0 ∧ (has ws_rule WS_SPACE_BEFORE_TAB → ∀ k ∈ rs, k = 0) ∧
          (has ws_rule WS_TAB_IN_INDENT → rs = [])) := by
  induction rs generalizing i result with
  | nil =>
    rw [indent_of, check_spaces, check_stops h]
    simp
  | cons k rs ih =>
    have hnot : TAB ≠ SPACE := by decide
    rw [indent_of, List.append_assoc, check_spaces, List.cons_append, check_indentation,
      if_neg hnot, if_neg (not_not.mpr rfl)]
    obtain ⟨hspaces, hresult⟩ := ih (i + k + 1) _
    refine ⟨hspaces, hresult.trans ?_⟩
    rw [check_tab_result]
    simp only [List.forall_mem_cons, reduceCtorEq, imp_false]
    tauto

/-! ## The fix of an indent -/

/-- The tabs that the runs before tabs become. -/
def tabs_for (width : Nat) (rs : List Nat) : Nat := (rs.map fun k => k / width + 1).sum

/-- The spaces that the runs before tabs become, `written` columns in. -/
def columns_for (width : Nat) : List Nat → Nat → Nat
  | [], _ => 0
  | k :: rs, written =>
    k + (width - (written + k) % width) +
      columns_for width rs (written + k + (width - (written + k) % width))

/-- The loop over the indent asks for tabs. -/
def Needs (ws_rule : Nat) (r : List Nat × Nat) : Prop :=
  (has ws_rule WS_SPACE_BEFORE_TAB ∧ ∃ k ∈ r.1, 0 < k) ∨
    (has ws_rule WS_INDENT_WITH_NON_TAB ∧
      ((∃ k ∈ r.1, ws_tab_width ws_rule ≤ k) ∨ ws_tab_width ws_rule ≤ r.2))

instance (ws_rule : Nat) (r : List Nat × Nat) : Decidable (Needs ws_rule r) :=
  inferInstanceAs (Decidable (_ ∨ _))

theorem needs_cons (ws_rule k : Nat) (rs : List Nat) (n : Nat) :
    Needs ws_rule (k :: rs, n) ↔ (has ws_rule WS_SPACE_BEFORE_TAB ∧ 0 < k) ∨
      (has ws_rule WS_INDENT_WITH_NON_TAB ∧ ws_tab_width ws_rule ≤ k) ∨ Needs ws_rule (rs, n) := by
  simp only [Needs, List.exists_mem_cons_iff, and_or_left, or_assoc, or_left_comm]

/-- What the fix makes of an indent. -/
def fixed_runs (ws_rule : Nat) (r : List Nat × Nat) : List Nat × Nat :=
  let width := ws_tab_width ws_rule
  if Needs ws_rule r then
    if has ws_rule WS_INDENT_WITH_NON_TAB then
      (List.replicate (tabs_for width r.1 + r.2 / width) 0, r.2 % width)
    else (List.replicate (tabs_for width r.1) 0, r.2)
  else if has ws_rule WS_TAB_IN_INDENT then ([], columns_for width r.1 0 + r.2)
  else r

theorem indent_of_append (rs : List Nat) (n m : Nat) :
    indent_of rs n ++ List.replicate m SPACE = indent_of rs (n + m) := by
  induction rs with
  | nil => rw [indent_of, indent_of, List.replicate_append_replicate]
  | cons k rs ih => rw [indent_of, indent_of, List.append_assoc, List.cons_append, ih]

theorem indent_of_tabs (j n : Nat) :
    indent_of (List.replicate j 0) n = List.replicate j TAB ++ List.replicate n SPACE := by
  induction j with
  | zero => rfl
  | succ j ih => simp [List.replicate_succ, indent_of, ih]

theorem spaces_to_tabs_spaces {width : Nat} (k m : Nat) (hm : m < width) (src : Bytes) :
    spaces_to_tabs width (List.replicate k SPACE ++ src) m =
      List.replicate ((m + k) / width) TAB ++ spaces_to_tabs width src ((m + k) % width) := by
  induction k generalizing m with
  | zero => simp [Nat.div_eq_of_lt hm, Nat.mod_eq_of_lt hm]
  | succ k ih =>
    rw [List.replicate_succ, List.cons_append, spaces_to_tabs, if_neg (not_not.mpr rfl)]
    split_ifs with hfull
    · have hsum : m + (k + 1) = k + width := by omega
      rw [ih 0 (by omega), hsum, Nat.add_div_right k (by omega), Nat.add_mod_right,
        List.replicate_succ, Nat.zero_add]
      rfl
    · rw [ih (m + 1) (by omega), show m + 1 + k = m + (k + 1) by omega]

theorem spaces_to_tabs_indent {width : Nat} (hw : 0 < width) (rs : List Nat) (n : Nat) :
    spaces_to_tabs width (indent_of rs n) 0 =
      indent_of (List.replicate (tabs_for width rs + n / width) 0) (n % width) := by
  rw [indent_of_tabs]
  induction rs with
  | nil =>
    have h := spaces_to_tabs_spaces n 0 hw []
    simpa [indent_of, tabs_for, spaces_to_tabs] using h
  | cons k rs ih =>
    have hnot : TAB ≠ SPACE := by decide
    have hsum : tabs_for width (k :: rs) + n / width =
        k / width + ((tabs_for width rs + n / width) + 1) := by
      simp only [tabs_for, List.map_cons, List.sum_cons]
      omega
    rw [indent_of, spaces_to_tabs_spaces k 0 hw, spaces_to_tabs, if_pos hnot, ih, hsum,
      Nat.zero_add, List.replicate_add (k / width), List.replicate_succ, List.append_assoc,
      List.cons_append]

theorem tabs_to_spaces_spaces (width k : Nat) (src : Bytes) (written : Nat) :
    tabs_to_spaces width (List.replicate k SPACE ++ src) written =
      List.replicate k SPACE ++ tabs_to_spaces width src (written + k) := by
  have hnot : SPACE ≠ TAB := by decide
  induction k generalizing written with
  | zero => rfl
  | succ k ih =>
    rw [List.replicate_succ, List.cons_append, tabs_to_spaces, if_neg hnot, ih,
      show written + 1 + k = written + (k + 1) by omega, List.cons_append]

theorem tabs_to_spaces_indent (width : Nat) (rs : List Nat) (written : Nat) :
    tabs_to_spaces width (indent_of rs 0) written =
      List.replicate (columns_for width rs written) SPACE := by
  induction rs generalizing written with
  | nil => rfl
  | cons k rs ih =>
    rw [indent_of, tabs_to_spaces_spaces, tabs_to_spaces, if_pos rfl, ih, columns_for,
      List.replicate_append_replicate, List.replicate_append_replicate, ← Nat.add_assoc k]

theorem indent_of_length (rs : List Nat) (n : Nat) :
    (indent_of rs n).length = (indent_of rs 0).length + n := by
  rw [← Nat.zero_add n, ← indent_of_append, List.length_append, List.length_replicate,
    Nat.zero_add]

/-! ## The loop over the indent -/

theorem scan_stops {rest : Bytes} (h : Stops rest) (ws_rule : Nat) (s : leading) :
    scan_leading ws_rule rest s = s := by
  cases rest with
  | nil => rfl
  | cons c rest =>
    obtain ⟨hspace, htab⟩ := h c rfl
    rw [scan_leading, if_neg htab, if_neg hspace]

/-- The loop over a run of spaces; only the last of them can ask for tabs first. -/
theorem scan_spaces (ws_rule k : Nat) (line : Bytes) (s : leading) :
    scan_leading ws_rule (List.replicate k SPACE ++ line) s =
      scan_leading ws_rule line
        { s with
          i := s.i + k
          space_end := if k = 0 then s.space_end else s.i + k
          need_fix_leading_space := s.need_fix_leading_space ||
            (has ws_rule WS_INDENT_WITH_NON_TAB && 0 < k &&
              ws_tab_width ws_rule ≤ s.i + k - s.tab_end) } := by
  induction k generalizing s with
  | zero => simp
  | succ k ih =>
    have hnot : SPACE ≠ TAB := by decide
    rw [List.replicate_succ, List.cons_append, scan_leading, if_neg hnot, if_pos rfl, ih]
    congr 1
    rw [leading.mk.injEq]
    refine ⟨by dsimp only; omega, rfl, ?_, ?_⟩
    · rw [if_neg (Nat.succ_ne_zero k)]
      dsimp only
      split_ifs <;> omega
    · dsimp only
      rw [Bool.eq_iff_iff]
      simp only [Bool.or_eq_true, Bool.and_eq_true, decide_eq_true_eq]
      constructor
      · rintro ((h | ⟨hi, h⟩) | ⟨⟨hi, hk⟩, h⟩)
        · exact Or.inl h
        · exact Or.inr ⟨⟨hi, by omega⟩, by omega⟩
        · exact Or.inr ⟨⟨hi, by omega⟩, by omega⟩
      · rintro (h | ⟨⟨hi, -⟩, h⟩)
        · exact Or.inl (Or.inl h)
        · rcases Nat.eq_zero_or_pos k with rfl | hk
          · exact Or.inl (Or.inr ⟨hi, by omega⟩)
          · exact Or.inr ⟨⟨hi, hk⟩, by omega⟩

/-- What the loop has found behind the indent. -/
structure Scanned (ws_rule : Nat) (rs : List Nat) (n : Nat) (before after : leading) : Prop where
  tab_end : after.tab_end = before.i + (indent_of rs 0).length
  space_end : 0 < n → after.space_end = before.i + (indent_of rs n).length
  no_space : n = 0 → after.space_end ≤ after.tab_end
  need : after.need_fix_leading_space ↔ before.need_fix_leading_space ∨
    (has ws_rule WS_SPACE_BEFORE_TAB ∧ 0 < before.space_end ∧ rs ≠ []) ∨ Needs ws_rule (rs, n)

theorem scan_indent_of {ws_rule : Nat} (hw : 0 < ws_tab_width ws_rule) {rest : Bytes}
    (h : Stops rest) (rs : List Nat) (n : Nat) (s : leading) (htab : s.tab_end = s.i)
    (hspace : s.space_end ≤ s.i) :
    Scanned ws_rule rs n s (scan_leading ws_rule (indent_of rs n ++ rest) s) := by
  induction rs generalizing s with
  | nil =>
    rw [indent_of, scan_spaces, scan_stops h]
    refine ⟨htab, fun hn => ?_, fun hn => ?_, ?_⟩
    · dsimp only
      rw [if_neg hn.ne', indent_of, List.length_replicate]
    · dsimp only
      rw [if_pos hn, htab]
      exact hspace
    · have hlen : s.i + n - s.tab_end = n := by omega
      simp only [hlen, Needs, Bool.or_eq_true, Bool.and_eq_true, decide_eq_true_eq,
        List.not_mem_nil, false_and, exists_false, and_false, false_or, ne_eq, not_true_eq_false]
      exact or_congr_right ⟨fun hn => ⟨hn.1.1, hn.2⟩, fun hn => ⟨⟨hn.1, by omega⟩, hn.2⟩⟩
  | cons k rs ih =>
    rw [indent_of, List.append_assoc, scan_spaces, List.cons_append, scan_leading, if_pos rfl]
    have hle : (if k = 0 then s.space_end else s.i + k) ≤ s.i + k + 1 := by
      split_ifs <;> omega
    obtain ⟨h1, h2, h3, h4⟩ :=
      ih ⟨s.i + k + 1, s.i + k + 1, if k = 0 then s.space_end else s.i + k, _⟩ rfl hle
    refine ⟨h1.trans ?_, fun hn => (h2 hn).trans ?_, h3, h4.trans ?_⟩
    · simp only [indent_of, List.length_append, List.length_cons, List.length_replicate]
      omega
    · simp only [indent_of, List.length_append, List.length_cons, List.length_replicate]
      omega
    · have hlen : s.i + k - s.tab_end = k := by omega
      have hseen : 0 < (if k = 0 then s.space_end else s.i + k) ↔ 0 < s.space_end ∨ 0 < k := by
        split_ifs <;> omega
      have hwide : 0 < k ∧ ws_tab_width ws_rule ≤ k ↔ ws_tab_width ws_rule ≤ k := by omega
      rw [needs_cons]
      simp only [hlen, Bool.or_eq_true, Bool.and_eq_true, decide_eq_true_eq, hseen, and_assoc,
        hwide]
      constructor
      · rintro (((ha | hi) | ⟨hs, he | hk⟩) | ⟨hs, he | hk, -⟩ | hneeds)
        · exact Or.inl ha
        · exact Or.inr (Or.inr (Or.inr (Or.inl hi)))
        · exact Or.inr (Or.inl ⟨hs, he, List.cons_ne_nil k rs⟩)
        · exact Or.inr (Or.inr (Or.inl ⟨hs, hk⟩))
        · exact Or.inr (Or.inl ⟨hs, he, List.cons_ne_nil k rs⟩)
        · exact Or.inr (Or.inr (Or.inl ⟨hs, hk⟩))
        · exact Or.inr (Or.inr (Or.inr (Or.inr hneeds)))
      · rintro (ha | ⟨hs, he, -⟩ | hk | hi | hneeds)
        · exact Or.inl (Or.inl (Or.inl ha))
        · exact Or.inl (Or.inr ⟨hs, Or.inl he⟩)
        · exact Or.inl (Or.inr ⟨hk.1, Or.inr hk.2⟩)
        · exact Or.inl (Or.inl (Or.inr hi))
        · exact Or.inr (Or.inr hneeds)

theorem indent_of_split (rs : List Nat) (n : Nat) (rest : Bytes) :
    indent_of rs n ++ rest = indent_of rs 0 ++ (List.replicate n SPACE ++ rest) := by
  rw [← List.append_assoc, indent_of_append, Nat.zero_add]

/-- The fix makes of the runs of an indent what `fixed_runs` says, and keeps what stops it. -/
theorem fix_leading_indent {ws_rule : Nat} (hw : 0 < ws_tab_width ws_rule) {rest : Bytes}
    (h : Stops rest) (rs : List Nat) (n : Nat) :
    (fix_leading (indent_of rs n ++ rest) ws_rule).1 ++
        (fix_leading (indent_of rs n ++ rest) ws_rule).2.1 =
      indent_of (fixed_runs ws_rule (rs, n)).1 (fixed_runs ws_rule (rs, n)).2 ++ rest := by
  obtain ⟨htab, hspace, hnone, hneed⟩ := scan_indent_of hw h rs n ⟨0, 0, 0, false⟩ rfl le_rfl
  have hlen := indent_of_length rs n
  simp only [Bool.false_eq_true, lt_irrefl, false_and, and_false, false_or, Nat.zero_add]
    at htab hspace hneed
  unfold fix_leading fixed_runs
  dsimp only
  by_cases hneeds : Needs ws_rule (rs, n)
  · rw [if_pos (hneed.mpr hneeds), if_pos hneeds]
    by_cases hi : has ws_rule WS_INDENT_WITH_NON_TAB
    · have hlast : (if (scan_leading ws_rule (indent_of rs n ++ rest) ⟨0, 0, 0, false⟩).tab_end <
          (scan_leading ws_rule (indent_of rs n ++ rest) ⟨0, 0, 0, false⟩).space_end then
          (scan_leading ws_rule (indent_of rs n ++ rest) ⟨0, 0, 0, false⟩).space_end
          else (scan_leading ws_rule (indent_of rs n ++ rest) ⟨0, 0, 0, false⟩).tab_end) =
          (indent_of rs n).length := by
        rcases Nat.eq_zero_or_pos n with rfl | hn
        · rw [if_neg (not_lt.mpr (hnone rfl)), htab]
        · have hend := hspace hn
          rw [if_pos (by omega), hend]
      simp only [hi, if_true, hlast, List.take_left, List.drop_left, spaces_to_tabs_indent hw]
    · simp only [hi, if_false, htab, Bool.false_eq_true]
      rw [indent_of_split rs n rest, List.take_left, List.drop_left, spaces_to_tabs_indent hw,
        Nat.zero_div, Nat.zero_mod, Nat.add_zero, ← indent_of_split]
  · rw [if_neg (fun hn => hneeds (hneed.mp hn)), if_neg hneeds]
    by_cases ht : has ws_rule WS_TAB_IN_INDENT
    · rw [if_pos ht]
      rcases rs with - | ⟨k, rs⟩
      · have hzero : (scan_leading ws_rule (indent_of [] n ++ rest) ⟨0, 0, 0, false⟩).tab_end = 0 :=
          htab
        simp [hzero, columns_for]
      · have hpos : 0 < (indent_of (k :: rs) 0).length := by simp [indent_of]
        simp only [htab, ht, hpos, Bool.true_and, decide_true, if_true]
        rw [indent_of_split (k :: rs) n rest, List.take_left, List.drop_left,
          tabs_to_spaces_indent, indent_of, ← List.append_assoc, List.replicate_append_replicate]
    · simp [ht]

/-! ## Fixed indents -/

/-- No run before a tab is wide enough for a tab, where such runs are looked for. -/
def NoWideRun (ws_rule : Nat) (r : List Nat × Nat) : Prop :=
  has ws_rule WS_INDENT_WITH_NON_TAB → ∀ k ∈ r.1, k < ws_tab_width ws_rule

/-- A clean indent without wide runs stays as it is. -/
theorem fixed_runs_of_clean {ws_rule : Nat} {r : List Nat × Nat} (h : CleanIndent ws_rule r)
    (hnarrow : NoWideRun ws_rule r) : fixed_runs ws_rule r = r := by
  have hneeds : ¬ Needs ws_rule r := by
    rintro (⟨hs, k, hk, hpos⟩ | ⟨hi, ⟨k, hk, hwide⟩ | hwide⟩)
    · exact hpos.ne' (h.no_space_before_tab hs k hk)
    · exact absurd (hnarrow hi k hk) (not_lt.mpr hwide)
    · exact absurd (h.few_spaces hi) (not_lt.mpr hwide)
  unfold fixed_runs
  dsimp only
  rw [if_neg hneeds]
  split_ifs with ht
  · rw [h.no_tab ht, columns_for, Nat.zero_add, ← h.no_tab ht]
  · rfl

/-- A clean indent with a wide run does not. -/
theorem fixed_runs_ne {ws_rule : Nat} {r : List Nat × Nat} (hw : 0 < ws_tab_width ws_rule)
    (hi : has ws_rule WS_INDENT_WITH_NON_TAB) {k : Nat} (hk : k ∈ r.1)
    (hwide : ws_tab_width ws_rule ≤ k) : fixed_runs ws_rule r ≠ r := by
  intro heq
  have hneeds : Needs ws_rule r := Or.inr ⟨hi, Or.inl ⟨k, hk, hwide⟩⟩
  rw [← heq] at hk
  unfold fixed_runs at hk
  rw [if_pos hneeds, if_pos hi] at hk
  have hzero := List.eq_of_mem_replicate hk
  omega

/-- The rules that can be asked for: a width, and one wish at most about the indent. -/
structure AcceptedRule (ws_rule : Nat) : Prop where
  width : 0 < ws_tab_width ws_rule
  one_wish : ¬ (has ws_rule WS_TAB_IN_INDENT ∧ has ws_rule WS_INDENT_WITH_NON_TAB)

/-- The rule asks for no space before a tab and for no tab, and there is one before one. -/
def SpaceBeforeForbiddenTab (ws_rule : Nat) (r : List Nat × Nat) : Prop :=
  has ws_rule WS_SPACE_BEFORE_TAB ∧ has ws_rule WS_TAB_IN_INDENT ∧ ∃ k ∈ r.1, 0 < k

/-- A fixed indent is clean, unless tabs are left that the rule forbids. -/
theorem fixed_runs_clean {ws_rule : Nat} (hrule : AcceptedRule ws_rule) (r : List Nat × Nat) :
    CleanIndent ws_rule (fixed_runs ws_rule r) ↔ ¬ SpaceBeforeForbiddenTab ws_rule r := by
  obtain ⟨hw, hone⟩ := hrule
  by_cases hneeds : Needs ws_rule r
  · unfold fixed_runs
    dsimp only
    rw [if_pos hneeds]
    by_cases hi : has ws_rule WS_INDENT_WITH_NON_TAB
    · rw [if_pos hi]
      have ht : ¬ has ws_rule WS_TAB_IN_INDENT := fun ht => hone ⟨ht, hi⟩
      refine iff_of_true ⟨fun _ k hk => List.eq_of_mem_replicate hk, fun ht' => absurd ht' ht,
        fun _ => Nat.mod_lt _ hw⟩ fun h => ht h.2.1
    · rw [if_neg hi]
      rcases hneeds with ⟨hs, k, hk, hpos⟩ | ⟨hi', -⟩
      · have htabs : tabs_for (ws_tab_width ws_rule) r.1 ≠ 0 := by
          obtain ⟨before, after, heq⟩ := List.append_of_mem hk
          rw [heq]
          simp [tabs_for]
        constructor
        · rintro hclean ⟨-, ht, -⟩
          exact htabs (List.replicate_eq_nil_iff 0 |>.mp (hclean.no_tab ht))
        · intro hno
          refine ⟨fun _ k hk => List.eq_of_mem_replicate hk, fun ht => ?_, fun hi' => absurd hi' hi⟩
          exact absurd ⟨hs, ht, k, hk, hpos⟩ hno
      · exact absurd hi' hi
  · have hno : ¬ SpaceBeforeForbiddenTab ws_rule r :=
      fun h => hneeds (Or.inl ⟨h.1, h.2.2⟩)
    refine iff_of_true ?_ hno
    unfold fixed_runs
    dsimp only
    rw [if_neg hneeds]
    split_ifs with ht
    · exact ⟨fun _ k hk => absurd hk List.not_mem_nil, fun _ => rfl,
        fun hi => absurd ⟨ht, hi⟩ hone⟩
    · refine ⟨fun hs k hk => ?_, fun ht' => absurd ht' ht, fun hi => ?_⟩
      · by_contra hpos
        exact hneeds (Or.inl ⟨hs, k, hk, Nat.pos_of_ne_zero hpos⟩)
      · by_contra hwide
        exact hneeds (Or.inr ⟨hi, Or.inr (not_lt.mp hwide)⟩)

/-- No fixed indent has a wide run. -/
theorem fixed_runs_narrow {ws_rule : Nat} (hw : 0 < ws_tab_width ws_rule) (r : List Nat × Nat) :
    NoWideRun ws_rule (fixed_runs ws_rule r) := by
  intro hi k hk
  unfold fixed_runs at hk
  by_cases hneeds : Needs ws_rule r
  · rw [if_pos hneeds, if_pos hi] at hk
    rw [List.eq_of_mem_replicate hk]
    exact hw
  · rw [if_neg hneeds] at hk
    split_ifs at hk with ht
    · exact absurd hk List.not_mem_nil
    · by_contra hwide
      exact hneeds (Or.inr ⟨hi, Or.inl ⟨k, hk, not_lt.mp hwide⟩⟩)

end git.ws
