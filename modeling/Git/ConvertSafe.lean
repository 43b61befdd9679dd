-- The check that `core.safecrlf` asks for: when a file that `crlf_to_git` lets pass comes
-- back from a checkout as it was.
import Git.ConvertRoundTrip

namespace git.convert

open crlf_action eol auto_crlf safe_crlf

/-! ## What the check lets pass -/

/-- The statistics that `check_safe_crlf` does not die on. -/
def safe (cfg : config) (action : crlf_action) (stats : text_stat) : Prop :=
  (output_eol cfg action = EOL_LF → stats.crlf = 0) ∧
    (output_eol cfg action = EOL_CRLF → stats.lf = stats.crlf)

/-- `crlf_to_git` gets to the check. -/
def reaches_check (cfg : config) (action : crlf_action) (index_cr : Bool) (src : Bytes) : Prop :=
  (action ≠ CRLF_BINARY ∧ ¬ (action = CRLF_GUESS ∧ cfg.auto_crlf = AUTO_CRLF_FALSE) ∧ src ≠ []) ∧
    (guesses action = true →
      (gather_stats src).cr = (gather_stats src).crlf ∧ is_binary (gather_stats src) = false) ∧
    (action = CRLF_GUESS → index_cr = false)

theorem check_safe_crlf_ok (cfg : config) (path : String) (action : crlf_action)
    (stats : text_stat) :
    check_safe_crlf cfg path action stats SAFE_CRLF_FAIL = .ok () ↔ safe cfg action stats := by
  unfold check_safe_crlf safe
  rw [if_neg (by decide)]
  cases output_eol cfg action with
  | EOL_UNSET => simp
  | EOL_CRLF =>
    by_cases h : stats.lf = stats.crlf <;> simp [h]
  | EOL_LF =>
    by_cases h : stats.crlf = 0 <;> simp [h]

/-- The check takes nothing but the files that are not safe. -/
theorem crlf_to_git_fail (cfg : config) (path : String) (index : Option Bytes)
    (action : crlf_action) (src : Bytes) (out : Option Bytes) :
    crlf_to_git cfg path index src action SAFE_CRLF_FAIL = .ok out ↔
      crlf_to_git cfg path index src action SAFE_CRLF_FALSE = .ok out ∧
        (reaches_check cfg action (has_cr_in_index index) src →
          safe cfg action (gather_stats src)) := by
  unfold crlf_to_git reaches_check
  by_cases hoff : action = CRLF_BINARY ∨ action = CRLF_GUESS ∧ cfg.auto_crlf = AUTO_CRLF_FALSE ∨
      src = []
  · rw [if_pos hoff, if_pos hoff]
    refine ⟨fun h => ⟨h, fun hreach => ?_⟩, fun h => h.1⟩
    rcases hoff with h | h | h
    · exact absurd h hreach.1.1
    · exact absurd h hreach.1.2.1
    · exact absurd h hreach.1.2.2
  rw [if_neg hoff, if_neg hoff]
  obtain ⟨hbinary, hguess, hnil⟩ := not_or.mp hoff |>.imp_right not_or.mp
  simp only
  by_cases hbin : guesses action = true ∧
      ((gather_stats src).cr ≠ (gather_stats src).crlf ∨ is_binary (gather_stats src) = true)
  · rw [if_pos hbin, if_pos hbin]
    refine ⟨fun h => ⟨h, fun hreach => ?_⟩, fun h => h.1⟩
    obtain ⟨hsame, htext⟩ := hreach.2.1 hbin.1
    rcases hbin.2 with h | h
    · exact absurd hsame h
    · rw [htext] at h
      cases h
  rw [if_neg hbin, if_neg hbin]
  by_cases hindex : action = CRLF_GUESS ∧ has_cr_in_index index = true
  · rw [if_pos hindex, if_pos hindex]
    refine ⟨fun h => ⟨h, fun hreach => ?_⟩, fun h => h.1⟩
    have hno := hreach.2.2 hindex.1
    rw [hindex.2] at hno
    cases hno
  rw [if_neg hindex, if_neg hindex]
  have hreach : reaches_check cfg action (has_cr_in_index index) src := by
    refine ⟨⟨hbinary, hguess, hnil⟩, fun h => ?_, fun h => ?_⟩
    · have hno := not_or.mp fun hor => hbin ⟨h, hor⟩
      exact ⟨not_not.mp hno.1, Bool.not_eq_true _ ▸ hno.2⟩
    · exact Bool.not_eq_true _ ▸ fun hyes => hindex ⟨h, hyes⟩
  have hnot_safe : check_safe_crlf cfg path action (gather_stats src) SAFE_CRLF_FALSE = .ok () :=
    if_pos (by decide)
  rw [hnot_safe]
  simp only [Except.bind]
  cases hcheck : check_safe_crlf cfg path action (gather_stats src) SAFE_CRLF_FAIL with
  | ok =>
    have hsafe := (check_safe_crlf_ok cfg path action _).mp hcheck
    exact ⟨fun h => ⟨h, fun _ => hsafe⟩, fun h => h.1⟩
  | error e =>
    refine ⟨fun h => (nomatch h), fun h => ?_⟩
    have hok := (check_safe_crlf_ok cfg path action _).mpr (h.2 hreach)
    rw [hcheck] at hok
    cases hok

theorem converts_reaches {cfg : config} {action : crlf_action} {index_cr : Bool} {src : Bytes}
    (h : converts_in cfg action index_cr (gather_stats src)) :
    reaches_check cfg action index_cr src := by
  obtain ⟨⟨hbinary, hguess⟩, htext, hindex, hcr⟩ := h
  refine ⟨⟨hbinary, hguess, ?_⟩, htext, hindex⟩
  rintro rfl
  exact hcr (by decide)

/-! ## Texts whose lines all end in CRLF -/

theorem crlf_le_lf (src : Bytes) : crlf_count src ≤ src.tail.count LF := by
  induction src with
  | nil => exact Nat.le_refl _
  | cons c src ih =>
    cases src with
    | nil => simp [crlf_count]
    | cons d src =>
      rw [crlf_count_cons]
      simp only [List.tail_cons, List.count_cons] at ih ⊢
      by_cases hd : d = LF
      · rw [if_pos (beq_iff_eq.mpr hd)]
        split_ifs <;> omega
      · rw [if_neg (fun h => hd h.2)]
        omega

theorem crlf_le_cr (src : Bytes) : crlf_count src ≤ src.count CR := by
  have h := count_cr_strip src
  omega

/-- A CR before every LF. -/
def with_cr (src : Bytes) : Bytes := src.flatMap fun c => if c = LF then [CR, LF] else [c]

theorem with_cr_strip (src : Bytes) (h : src.count LF = crlf_count src) :
    with_cr (strip_crlf src) = src := by
  match src with
  | [] => rfl
  | [c] =>
    have hc : c ≠ LF := by
      rintro rfl
      exact absurd h (by decide)
    simp [strip_crlf, with_cr, hc]
  | c :: d :: src =>
    have hle := crlf_le_lf (d :: src)
    rw [crlf_count_cons] at h
    by_cases hcrlf : c = CR ∧ d = LF
    · obtain ⟨rfl, rfl⟩ := hcrlf
      have hrest : src.count LF = crlf_count src := by
        have hlf : crlf_count (LF :: src) = crlf_count src := by
          rw [crlf_count, if_neg (fun h => absurd h.1 (by decide)), Nat.add_zero]
        rw [if_pos ⟨rfl, rfl⟩, hlf, List.count_cons_of_ne (by decide), List.count_cons_self] at h
        omega
      have hstrip : strip_crlf (CR :: LF :: src) = LF :: strip_crlf src := by
        rw [strip_crlf, if_pos ⟨rfl, rfl⟩, strip_crlf, if_neg (fun h => absurd h.1 (by decide))]
      rw [hstrip]
      exact congrArg (fun s => CR :: LF :: s) (with_cr_strip src hrest)
    · rw [if_neg hcrlf, Nat.add_zero] at h
      have hc : c ≠ LF := by
        rintro rfl
        have htail : src.count LF ≤ (d :: src).count LF := by
          rw [List.count_cons]
          omega
        rw [List.count_cons_self] at h
        simp only [List.tail_cons] at hle
        omega
      rw [List.count_cons_of_ne (Ne.symm hc.symm)] at h
      have hstrip : strip_crlf (c :: d :: src) = c :: strip_crlf (d :: src) := by
        rw [strip_crlf, if_neg]
        simpa using hcrlf
      rw [hstrip]
      have ih := with_cr_strip (d :: src) h
      unfold with_cr at ih ⊢
      rw [List.flatMap_cons, if_neg hc, ih]
      rfl

/-- No LF has a CR yet: all of them get one. -/
theorem add_cr_eq_with_cr (src : Bytes) : ∀ prev, crlf_count (prev :: src) = 0 →
    add_cr prev src = with_cr src := by
  induction src with
  | nil => exact fun _ _ => rfl
  | cons c src ih =>
    intro prev h
    rw [crlf_count_cons] at h
    have hrest := ih c (by omega)
    unfold add_cr with_cr
    rw [List.flatMap_cons]
    by_cases hc : c = LF
    · have hprev : prev ≠ CR := by
        rintro rfl
        rw [if_pos ⟨rfl, hc⟩] at h
        omega
      rw [if_pos ⟨hc, hprev⟩, if_pos hc, hrest]
      rfl
    · rw [if_neg (fun h => hc h.1), if_neg hc, hrest]
      rfl

theorem crlf_count_zero_cons (src : Bytes) : crlf_count (0 :: src) = crlf_count src := by
  rw [crlf_count, if_neg (fun h => absurd h.1 (by decide)), Nat.add_zero]

theorem count_lf_strip (src : Bytes) : (strip_crlf src).count LF = src.count LF := by
  induction src with
  | nil => rfl
  | cons c src ih =>
    rw [strip_crlf]
    split_ifs with h
    · rw [ih, h.1, List.count_cons_of_ne (by decide)]
    · rw [List.count_cons, List.count_cons, ih]

theorem count_lf_filter (src : Bytes) : (src.filter (· ≠ CR)).count LF = src.count LF :=
  List.count_filter (by decide)

theorem head_strip (src : Bytes) :
    (strip_crlf src).head? = some LF ↔ src.head? = some LF ∨ [CR, LF] <+: src := by
  cases src with
  | nil => simp [strip_crlf]
  | cons c src =>
    rw [strip_crlf]
    split_ifs with h
    · obtain ⟨rfl, hhead⟩ := h
      cases src with
      | nil => cases hhead
      | cons d src =>
        obtain rfl : d = LF := by simpa using hhead
        simp [strip_crlf, CR, LF]
    · cases src with
      | nil => simp [List.cons_prefix_cons]
      | cons d src =>
        have hno : ¬ (CR = c ∧ LF = d) := by
          rintro ⟨rfl, rfl⟩
          exact h ⟨rfl, rfl⟩
        simp only [List.head?_cons, Option.some.injEq, List.cons_prefix_cons,
          List.nil_prefix, and_true, hno, or_false]

/-- What is left of the CRLFs comes from a CR CR LF. -/
theorem crlf_count_strip_eq_zero (src : Bytes) :
    crlf_count (strip_crlf src) = 0 ↔ ¬ [CR, CR, LF] <:+: src := by
  induction src with
  | nil => simp [strip_crlf, crlf_count]
  | cons c src ih =>
    rw [List.infix_cons_iff, not_or, ← ih, List.cons_prefix_cons, strip_crlf]
    split_ifs with h
    · refine ⟨fun hzero => ⟨?_, hzero⟩, fun h => h.2⟩
      rintro ⟨-, hpre⟩
      obtain ⟨after, rfl⟩ := hpre
      have hne : CR = LF := Option.some.inj h.2
      exact absurd hne (by decide)
    · have hiff : (c = CR ∧ (strip_crlf src).head? = some LF) ↔
          (CR = c ∧ [CR, LF] <+: src) := by
        rw [head_strip]
        constructor
        · rintro ⟨rfl, hlf | hpre⟩
          · exact absurd ⟨rfl, hlf⟩ h
          · exact ⟨rfl, hpre⟩
        · rintro ⟨rfl, hpre⟩
          exact ⟨rfl, Or.inr hpre⟩
      rw [crlf_count, if_congr hiff rfl rfl]
      split_ifs with hcc
      · exact ⟨fun h => h.elim, fun h => absurd hcc h.1⟩
      · exact ⟨fun h => ⟨hcc, h⟩, fun h => h.2⟩

/-- A guess takes every CR out, so there is to be no lone one. -/
theorem filter_eq_strip (src : Bytes) (h : src.count CR = crlf_count src) :
    src.filter (· ≠ CR) = strip_crlf src := by
  induction src with
  | nil => rfl
  | cons c src ih =>
    have hle := crlf_le_cr src
    rw [crlf_count, List.count_cons] at h
    rw [strip_crlf, List.filter_cons]
    by_cases hc : c = CR
    · rw [if_pos (beq_iff_eq.mpr hc)] at h
      have hhead : c = CR ∧ src.head? = some LF := by
        by_contra hno
        rw [if_neg hno] at h
        omega
      rw [if_pos hhead] at h
      rw [if_neg (by simp [hc]), if_pos hhead, ih (by omega)]
    · rw [if_neg (fun h => hc (beq_iff_eq.mp h)), if_neg (fun h => hc h.1)] at h
      rw [if_pos (decide_eq_true hc), if_neg (fun h => hc h.1), ih (by omega)]

/-! ## A checked-in text, checked out -/

/-- Of these texts a check-in keeps the whole: every LF has one CR before it, and a guess
finds a CR nowhere else. -/
def Recreatable (action : crlf_action) (src : Bytes) : Prop :=
  src.count LF = crlf_count src ∧ ¬ [CR, CR, LF] <:+: src ∧
    (guesses action = true → src.count CR = crlf_count src)

theorem add_cr_strip_iff (action : crlf_action) (src : Bytes) :
    add_cr 0 (strip action src) = src ↔ Recreatable action src := by
  unfold Recreatable
  constructor
  · intro hback
    have hlf : (strip action src).count LF = src.count LF := by
      unfold strip
      split_ifs
      · exact count_lf_filter src
      · exact count_lf_strip src
    have hcrlf := crlf_count_add_cr (strip action src) 0
    rw [crlf_count_zero_cons, hback, hlf] at hcrlf
    have hcr := count_cr_add_cr (strip action src) 0
    rw [crlf_count_zero_cons, hback, hlf] at hcr
    unfold strip at hcr hback
    split_ifs at hcr hback with hguess
    · have hnone : (src.filter (· ≠ CR)).count CR = 0 := List.count_eq_zero.mpr (by simp)
      have hzero := crlf_le_cr (src.filter (· ≠ CR))
      have hsame : src.count CR = crlf_count src := by omega
      refine ⟨hcrlf.symm, ?_, fun _ => hsame⟩
      rw [← crlf_count_strip_eq_zero, ← filter_eq_strip src hsame]
      omega
    · have hstrip := count_cr_strip src
      refine ⟨hcrlf.symm, ?_, fun h => absurd h hguess⟩
      rw [← crlf_count_strip_eq_zero]
      omega
  · rintro ⟨hlf, htwo, hguess⟩
    have hstrip : strip action src = strip_crlf src := by
      unfold strip
      split_ifs with h
      · exact filter_eq_strip src (hguess h)
      · rfl
    rw [hstrip, add_cr_eq_with_cr, with_cr_strip src hlf]
    rw [crlf_count_zero_cons]
    exact (crlf_count_strip_eq_zero src).mpr htwo

theorem gather_lf (src : Bytes) : (gather_stats src).lf = BitVec.ofNat 32 (src.count LF) := by
  rw [gather_stats_eq]
  unfold without_eof counts
  split_ifs <;> rfl

theorem gather_cr (src : Bytes) : (gather_stats src).cr = BitVec.ofNat 32 (src.count CR) := by
  rw [gather_stats_eq]
  unfold without_eof counts
  split_ifs <;> rfl

theorem gather_crlf (src : Bytes) :
    (gather_stats src).crlf = BitVec.ofNat 32 (crlf_count src) := by
  rw [gather_stats_eq]
  unfold without_eof counts
  split_ifs <;> rfl

theorem strippable_of_crlf (action : crlf_action) {src : Bytes} (h : crlf_count src ≠ 0) :
    Strippable action src := by
  have hle := crlf_le_cr src
  unfold Strippable
  split_ifs
  · exact List.count_pos_iff.mp (by omega)
  · exact h

/-- A text that comes back whole is one that the checkout converts. -/
theorem recreatable_converts {cfg : config} {action : crlf_action} {index_cr : Bool} {src : Bytes}
    (hin : converts_in cfg action index_cr (gather_stats src))
    (heol : output_eol cfg action = EOL_CRLF) (hlf : (gather_stats src).lf ≠ 0)
    (h : Recreatable action src) :
    converts_out cfg action (gather_stats (strip action src)) := by
  have hback := (add_cr_strip_iff action src).mpr h
  have hstats : gather_stats src = with_crs (gather_stats (strip action src)) := by
    rw [← gather_stats_add_cr, hback]
  have hlf' : (gather_stats (strip action src)).lf = (gather_stats src).lf := by
    rw [hstats]
    rfl
  have hnone : crlf_count (strip action src) = 0 := by
    have hstrip : strip action src = strip_crlf src := by
      unfold strip
      split_ifs with hguess
      · exact filter_eq_strip src (h.2.2 hguess)
      · rfl
    rw [hstrip]
    exact (crlf_count_strip_eq_zero src).mpr h.2.1
  have hcrlf : (gather_stats (strip action src)).crlf = 0 := by
    rw [gather_crlf, hnone]
    rfl
  have hcr : guesses action = true → (gather_stats (strip action src)).cr = 0 := by
    intro hguess
    have hzero : (src.filter (· ≠ CR)).count CR = 0 := List.count_eq_zero.mpr (by simp)
    unfold strip
    rw [if_pos hguess, gather_cr, hzero]
    rfl
  refine ⟨⟨heol, ?_, ?_⟩, fun hguess => ⟨hcr ?_, hcrlf⟩, fun hguess => ⟨?_, ?_⟩⟩
  · rw [hlf']
    exact hlf
  · rw [hlf', hcrlf]
    exact hlf
  · rw [hguess]
    rfl
  · rw [hcr hguess, hcrlf]
  · have htext := (hin.2.1 hguess).2
    rw [hstats, is_binary_with_crs] at htext
    exact htext

/-- What the checkout makes of a text that the check-in has changed. -/
theorem recreated_iff {cfg : config} {action : crlf_action} {index_cr : Bool} {src : Bytes}
    (hin : converts_in cfg action index_cr (gather_stats src))
    (hsafe : safe cfg action (gather_stats src)) :
    (crlf_to_worktree cfg (strip action src) action).getD (strip action src) = src ↔
      crlf_count src = 0 ∨
        output_eol cfg action = EOL_CRLF ∧ (gather_stats src).lf ≠ 0 ∧ Recreatable action src := by
  rw [crlf_to_worktree_eq]
  by_cases hnone : crlf_count src = 0
  · have hcrlf : (gather_stats src).crlf = 0 := by
      rw [gather_crlf, hnone]
      rfl
    have hsame : strip action src = src := by
      apply strip_eq
      unfold Strippable
      split_ifs with hguess
      · exact absurd ((hin.2.1 hguess).1.trans hcrlf) hin.2.2.2
      · exact not_not.mpr hnone
    have hkeeps : ¬ converts_out cfg action (gather_stats src) := fun hout =>
      hout.1.2.2 (hsafe.2 hout.1.1)
    rw [hsame, if_neg hkeeps]
    exact ⟨fun _ => Or.inl hnone, fun _ => rfl⟩
  have hfewer := strip_fewer (strippable_of_crlf action hnone)
  by_cases hout : converts_out cfg action (gather_stats (strip action src))
  · rw [if_pos hout, add_cr_strip_iff]
    constructor
    · intro h
      have hlf := hout.1.2.1
      have hstats := gather_stats_add_cr (strip action src)
      rw [(add_cr_strip_iff action src).mpr h] at hstats
      rw [show (gather_stats (strip action src)).lf = (gather_stats src).lf by
        rw [hstats]; rfl] at hlf
      exact Or.inr ⟨hout.1.1, hlf, h⟩
    · rintro (h | h)
      · exact absurd h hnone
      · exact h.2.2
  · rw [if_neg hout]
    constructor
    · intro hsame
      rw [hsame] at hfewer
      exact absurd hfewer (lt_irrefl _)
    · rintro (h | ⟨heol, hlf, h⟩)
      · exact absurd h hnone
      · exact absurd (recreatable_converts hin heol hlf h) hout

theorem converts_out_reaches {cfg : config} {action : crlf_action} {index_cr : Bool}
    {src : Bytes} (hout : converts_out cfg action (gather_stats src))
    (hindex : action = CRLF_GUESS → index_cr = false) :
    reaches_check cfg action index_cr src := by
  obtain ⟨⟨heol, hlf, -⟩, -, htext⟩ := hout
  refine ⟨⟨?_, ?_, ?_⟩, htext, hindex⟩
  · rintro rfl
    unfold output_eol at heol
    cases heol
  · rintro ⟨rfl, hfalse⟩
    simp [output_eol, hfalse] at heol
  · rintro rfl
    exact hlf rfl

/-- When a file that is let pass comes back from a checkout as it was. -/
theorem safe_checkin_recreates_iff (cfg : config) (path : String) (index : Option Bytes)
    (action : crlf_action) (src : Bytes) :
    (∀ out, crlf_to_git cfg path index src action SAFE_CRLF_FAIL = .ok out →
      (crlf_to_worktree cfg (out.getD src) action).getD (out.getD src) = src) ↔
    ¬ (action = CRLF_GUESS ∧ has_cr_in_index index = true ∧
        converts_out cfg action (gather_stats src)) ∧
      (converts_in cfg action (has_cr_in_index index) (gather_stats src) ∧
          safe cfg action (gather_stats src) →
        crlf_count src = 0 ∨
          output_eol cfg action = EOL_CRLF ∧ (gather_stats src).lf ≠ 0 ∧
            Recreatable action src) := by
  have hpass : (∀ out, crlf_to_git cfg path index src action SAFE_CRLF_FAIL = .ok out →
      (crlf_to_worktree cfg (out.getD src) action).getD (out.getD src) = src) ↔
      ((reaches_check cfg action (has_cr_in_index index) src →
        safe cfg action (gather_stats src)) →
      (if converts_in cfg action (has_cr_in_index index) (gather_stats src) then
        (crlf_to_worktree cfg (strip action src) action).getD (strip action src)
      else (crlf_to_worktree cfg src action).getD src) = src) := by
    constructor
    · intro h hsafe
      have hout := h _ ((crlf_to_git_fail cfg path index action src _).mpr
        ⟨crlf_to_git_eq cfg path index action src, hsafe⟩)
      split_ifs at hout ⊢ with hin
      · exact hout
      · exact hout
    · intro h out hok
      obtain ⟨hout, hsafe⟩ := (crlf_to_git_fail cfg path index action src out).mp hok
      rw [crlf_to_git_eq] at hout
      obtain rfl := Except.ok.inj hout
      have hback := h hsafe
      split_ifs at hback ⊢ with hin
      · exact hback
      · exact hback
  rw [hpass]
  by_cases hin : converts_in cfg action (has_cr_in_index index) (gather_stats src)
  · have hreach := converts_reaches hin
    rw [if_pos hin]
    constructor
    · intro h
      refine ⟨?_, fun hsafe => (recreated_iff hin hsafe.2).mp (h fun _ => hsafe.2)⟩
      rintro ⟨hguess, hindex, -⟩
      rw [hin.2.2.1 hguess] at hindex
      cases hindex
    · intro h hsafe
      exact (recreated_iff hin (hsafe hreach)).mpr (h.2 ⟨hin, hsafe hreach⟩)
  rw [if_neg hin, crlf_to_worktree_eq]
  by_cases hout : converts_out cfg action (gather_stats src)
  · have hchanges : add_cr 0 src ≠ src := by
      intro hsame
      have hcrlf := crlf_count_add_cr src 0
      rw [crlf_count_zero_cons, hsame] at hcrlf
      apply hout.1.2.2
      rw [gather_lf, gather_crlf, hcrlf]
    have hnot_safe : ¬ safe cfg action (gather_stats src) := fun hsafe =>
      hout.1.2.2 (hsafe.2 hout.1.1)
    rw [if_pos hout]
    constructor
    · intro h
      refine ⟨fun hno => hchanges (h fun hreach => ?_), fun hconv => absurd hconv.1 hin⟩
      rw [hreach.2.2 hno.1] at hno
      cases hno.2.1
    · rintro ⟨hno, -⟩ hsafe
      refine absurd (hsafe (converts_out_reaches hout fun hguess => ?_)) hnot_safe
      exact Bool.not_eq_true _ ▸ fun hyes => hno ⟨hguess, hyes, hout⟩
  · rw [if_neg hout]
    exact ⟨fun _ => ⟨fun h => hout h.2.2, fun h => absurd h.1 hin⟩, fun _ _ => rfl⟩

/-- `"\r\r\n"`, where CRLF goes to the work tree: the repository gets `"\r\n"`, which a
checkout takes for a text in CRLF format. And an LF that goes by a CR in the index. -/
theorem two_crs_are_not_recreated :
    crlf_to_git autocrlf_true "a" none [CR, CR, LF] CRLF_CRLF SAFE_CRLF_FAIL =
        .ok (some [CR, LF]) ∧
      crlf_to_worktree autocrlf_true [CR, LF] CRLF_CRLF = none ∧
    crlf_to_git autocrlf_true "a" (some [CR, LF]) [97, LF] CRLF_GUESS SAFE_CRLF_FAIL = .ok none ∧
      crlf_to_worktree autocrlf_true [97, LF] CRLF_GUESS = some [97, CR, LF] := by
  decide

end git.convert
