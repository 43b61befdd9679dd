-- When a check-in gives back the blob that a checkout wrote: always, but for a text
-- that the expanded keywords stop being binary, and for counters that wrap.
import Git.ConvertCrlf

namespace git.convert

open crlf_action eol auto_crlf safe_crlf

/-! ## What the expansion counts for -/

theorem crlf_count_worktree (sha1 : Sha1) {src : Bytes} (h : Clean src) :
    crlf_count (ident_to_worktree_loop sha1 src) = crlf_count src := by
  induction h with
  | plain src hplain => rw [ident_to_worktree_plain sha1 hplain]
  | ident before rest hbefore _ ih =>
    have hline : LF ∉ [73, 100, 58] ++ expansion sha1 := by
      intro hmem
      rcases List.mem_append.mp hmem with hmem | hmem
      · exact absurd hmem (by decide)
      · exact (expansion_keyword sha1 rest).2.2 hmem
    rw [ident_to_worktree_ident sha1 rest hbefore, crlf_count_append, crlf_count_append,
      crlf_count_append, (expansion_keyword sha1 _).1, crlf_count_append, ih,
      crlf_count_line hline]
    rfl
  | other before after hbefore hid hkey _ ih =>
    rw [ident_to_worktree_other sha1 hbefore hid hkey, crlf_count_append, crlf_count_append, ih]

theorem getLast_dollar (before after : Bytes) :
    (before ++ DOLLAR :: after).getLast? = some (after.getLast?.getD DOLLAR) := by
  rw [List.getLast?_append, List.getLast?_cons]
  rfl

theorem getLast_worktree (sha1 : Sha1) {src : Bytes} (h : Clean src) :
    (ident_to_worktree_loop sha1 src).getLast? = src.getLast? := by
  induction h with
  | plain src hplain => rw [ident_to_worktree_plain sha1 hplain]
  | ident before rest hbefore _ ih =>
    rw [ident_to_worktree_ident sha1 rest hbefore, (expansion_keyword sha1 _).1, getLast_dollar,
      getLast_dollar, getLast_dollar, getLast_dollar, ih]
  | other before after hbefore hid hkey _ ih =>
    rw [ident_to_worktree_other sha1 hbefore hid hkey, getLast_dollar, getLast_dollar, ih]

theorem worktree_without_ident (sha1 : Sha1) {src : Bytes} (h : Clean src)
    (hcount : count_ident src = 0) : ident_to_worktree_loop sha1 src = src := by
  induction h with
  | plain src hplain => exact ident_to_worktree_plain sha1 hplain
  | ident before rest hbefore _ ih =>
    rw [count_ident_ident rest hbefore] at hcount
    exact absurd hcount (Nat.succ_ne_zero _)
  | other before after hbefore hid hkey _ ih =>
    rw [count_ident_dollar after hbefore, count_ident_rest_other hid hkey] at hcount
    rw [ident_to_worktree_other sha1 hbefore hid hkey, ih hcount]

/-- A checkout changes no count of bytes that the keyword does not have. -/
theorem countP_worktree_same {P : UInt8 → Bool} (sha1 : Sha1) {src : Bytes} (h : Clean src)
    (hhead : [73, 100, 58].countP P = 0) (hspace : P 32 = false)
    (hdigit : ∀ n < 16, P (hexdigit n) = false) :
    (ident_to_worktree_loop sha1 src).countP P = src.countP P := by
  have hcount := countP_worktree P sha1 h
  have hexp : (expansion sha1).countP P = 0 := by
    rw [countP_expansion P sha1 fun n hn => (hdigit n hn).trans hspace.symm,
      if_neg (by simp [hspace])]
  have hid : [73, 100].countP P = 0 := by
    rw [List.countP_eq_zero] at hhead ⊢
    exact fun c hc => hhead c (List.mem_append_left [58] hc)
  rw [List.countP_append, hhead, hexp, hid] at hcount
  omega

/-- The statistics of a blob whose keywords are expanded, each by 43 printable bytes. -/
def expanded_stats (b : Bytes) (ident : Bool) : text_stat :=
  let stats := gather_stats b
  if ident then
    { stats with printable := stats.printable + BitVec.ofNat 32 (43 * count_ident b) }
  else stats

theorem hexdigit_printable (n : Nat) (hn : n < 16) : is_printable (hexdigit n) = true := by
  interval_cases n <;> decide

theorem hexdigit_nonzero (n : Nat) (hn : n < 16) : decide (hexdigit n = 0) = false := by
  interval_cases n <;> decide

theorem gather_stats_worktree (sha1 : Sha1) {b : Bytes} (h : Clean b) :
    gather_stats (ident_to_worktree_loop sha1 b) = expanded_stats b true := by
  have hnul : (ident_to_worktree_loop sha1 b).countP (· = 0) = b.countP (· = 0) :=
    countP_worktree_same sha1 h (by decide) (by decide) hexdigit_nonzero
  have hcr : (ident_to_worktree_loop sha1 b).count CR = b.count CR := by
    apply countP_worktree_same sha1 h (by decide) (by decide)
    intro n hn
    rw [beq_eq_false_iff_ne]
    exact (hexdigit_bytes n hn).2.2.1
  have hlf : (ident_to_worktree_loop sha1 b).count LF = b.count LF := by
    apply countP_worktree_same sha1 h (by decide) (by decide)
    intro n hn
    rw [beq_eq_false_iff_ne]
    exact (hexdigit_bytes n hn).2.1
  have hnonprintable : (ident_to_worktree_loop sha1 b).countP is_nonprintable =
      b.countP is_nonprintable := by
    apply countP_worktree_same sha1 h (by decide) (by decide)
    intro n hn
    unfold is_nonprintable
    rw [hexdigit_printable n hn]
    rfl
  have hprintable : (ident_to_worktree_loop sha1 b).countP is_printable =
      b.countP is_printable + 43 * count_ident b := by
    have hcount := countP_worktree is_printable sha1 h
    have hid : [73, 100].countP is_printable = 2 := by decide
    have hhead : [73, 100, 58].countP is_printable = 3 := by decide
    rw [List.countP_append, countP_expansion is_printable sha1 hexdigit_printable,
      if_pos (by decide), hid, hhead] at hcount
    omega
  have hcounts : counts (ident_to_worktree_loop sha1 b) =
      { counts b with
        printable := (counts b).printable + BitVec.ofNat 32 (43 * count_ident b) } := by
    unfold counts
    rw [hnul, hcr, hlf, hnonprintable, hprintable, crlf_count_worktree sha1 h, BitVec.ofNat_add]
  unfold expanded_stats
  rw [gather_stats_eq, gather_stats_eq, hcounts, getLast_worktree sha1 h]
  unfold without_eof
  simp only [if_true]
  split_ifs <;> rfl

/-! ## Whether a text is converted -/

/-- `crlf_to_worktree` adds CRs to a text with these statistics. -/
def converts_out (cfg : config) (action : crlf_action) (stats : text_stat) : Prop :=
  (output_eol cfg action = EOL_CRLF ∧ stats.lf ≠ 0 ∧ stats.lf ≠ stats.crlf) ∧
    (action = CRLF_GUESS → stats.cr = 0 ∧ stats.crlf = 0) ∧
    (guesses action = true → stats.cr = stats.crlf ∧ is_binary stats = false)

/-- `crlf_to_git` removes CRs from a text with these statistics. -/
def converts_in (cfg : config) (action : crlf_action) (index_cr : Bool) (stats : text_stat) :
    Prop :=
  (action ≠ CRLF_BINARY ∧ ¬ (action = CRLF_GUESS ∧ cfg.auto_crlf = AUTO_CRLF_FALSE)) ∧
    (guesses action = true → stats.cr = stats.crlf ∧ is_binary stats = false) ∧
    (action = CRLF_GUESS → index_cr = false) ∧ stats.cr ≠ 0

instance (cfg : config) (action : crlf_action) (stats : text_stat) :
    Decidable (converts_out cfg action stats) := by
  unfold converts_out
  infer_instance

instance (cfg : config) (action : crlf_action) (index_cr : Bool) (stats : text_stat) :
    Decidable (converts_in cfg action index_cr stats) := by
  unfold converts_in
  infer_instance

/-- What `crlf_to_git` makes of a text that it converts. -/
def strip (action : crlf_action) (src : Bytes) : Bytes :=
  if guesses action then src.filter (· ≠ CR) else strip_crlf src

theorem crlf_to_worktree_eq (cfg : config) (action : crlf_action) (src : Bytes) :
    (crlf_to_worktree cfg src action).getD src =
      if converts_out cfg action (gather_stats src) then add_cr 0 src else src := by
  unfold crlf_to_worktree
  by_cases hnil : src = []
  · rw [if_pos (Or.inl hnil), hnil]
    split_ifs <;> rfl
  by_cases heol : output_eol cfg action ≠ EOL_CRLF
  · rw [if_pos (Or.inr heol), if_neg fun h => heol h.1.1]
    rfl
  rw [if_neg (not_or.mpr ⟨hnil, heol⟩)]
  simp only
  by_cases hlf : (gather_stats src).lf = 0
  · rw [if_pos hlf, if_neg fun h => h.1.2.1 hlf]
    rfl
  rw [if_neg hlf]
  by_cases hcrlf : (gather_stats src).lf = (gather_stats src).crlf
  · rw [if_pos hcrlf, if_neg fun h => h.1.2.2 hcrlf]
    rfl
  rw [if_neg hcrlf]
  by_cases hguess : action = CRLF_GUESS ∧
      ((gather_stats src).cr ≠ 0 ∨ (gather_stats src).crlf ≠ 0)
  · rw [if_pos hguess, if_neg]
    · rfl
    · rintro ⟨-, hzero, -⟩
      rcases hguess.2 with hcr | hcr
      · exact hcr (hzero hguess.1).1
      · exact hcr (hzero hguess.1).2
  rw [if_neg hguess]
  by_cases hbin : guesses action = true ∧
      ((gather_stats src).cr ≠ (gather_stats src).crlf ∨ is_binary (gather_stats src) = true)
  · rw [if_pos hbin, if_neg]
    · rfl
    · rintro ⟨-, -, hsame⟩
      rcases hbin.2 with hcr | hcr
      · exact hcr (hsame hbin.1).1
      · rw [(hsame hbin.1).2] at hcr
        cases hcr
  rw [if_neg hbin, if_pos]
  · rfl
  · refine ⟨⟨not_not.mp heol, hlf, hcrlf⟩, fun h => ?_, fun h => ?_⟩
    · have hno := not_or.mp fun hor => hguess ⟨h, hor⟩
      exact ⟨not_not.mp hno.1, not_not.mp hno.2⟩
    · have hno := not_or.mp fun hor => hbin ⟨h, hor⟩
      exact ⟨not_not.mp hno.1, Bool.not_eq_true _ ▸ hno.2⟩

theorem crlf_to_git_eq (cfg : config) (path : String) (index : Option Bytes)
    (action : crlf_action) (src : Bytes) :
    crlf_to_git cfg path index src action SAFE_CRLF_FALSE =
      .ok (if converts_in cfg action (has_cr_in_index index) (gather_stats src) then
        some (strip action src) else none) := by
  unfold crlf_to_git
  by_cases hoff : action = CRLF_BINARY ∨ action = CRLF_GUESS ∧ cfg.auto_crlf = AUTO_CRLF_FALSE ∨
      src = []
  · rw [if_pos hoff, if_neg]
    rintro ⟨⟨hbinary, hguess⟩, -, -, hcr⟩
    rcases hoff with h | h | h
    · exact hbinary h
    · exact hguess h
    · rw [h] at hcr
      exact hcr (by decide)
  rw [if_neg hoff]
  obtain ⟨hbinary, hguess, hnil⟩ := not_or.mp hoff |>.imp_right not_or.mp
  simp only
  by_cases hbin : guesses action = true ∧
      ((gather_stats src).cr ≠ (gather_stats src).crlf ∨ is_binary (gather_stats src) = true)
  · rw [if_pos hbin, if_neg]
    rintro ⟨-, hsame, -⟩
    rcases hbin.2 with hcr | hcr
    · exact hcr (hsame hbin.1).1
    · rw [(hsame hbin.1).2] at hcr
      cases hcr
  rw [if_neg hbin]
  by_cases hindex : action = CRLF_GUESS ∧ has_cr_in_index index = true
  · rw [if_pos hindex, if_neg]
    rintro ⟨-, -, hno, -⟩
    rw [hno hindex.1] at hindex
    cases hindex.2
  rw [if_neg hindex]
  have hsafe : check_safe_crlf cfg path action (gather_stats src) SAFE_CRLF_FALSE = .ok () :=
    if_pos (by decide)
  rw [hsafe]
  simp only [Except.bind]
  by_cases hcr : (gather_stats src).cr = 0
  · rw [if_pos hcr, if_neg fun h => h.2.2.2 hcr]
  · have hconverts : converts_in cfg action (has_cr_in_index index) (gather_stats src) := by
      refine ⟨⟨hbinary, hguess⟩, fun h => ?_, fun h => ?_, hcr⟩
      · have hno := not_or.mp fun hor => hbin ⟨h, hor⟩
        exact ⟨not_not.mp hno.1, Bool.not_eq_true _ ▸ hno.2⟩
      · exact Bool.not_eq_true _ ▸ fun hyes => hindex ⟨h, hyes⟩
    rw [if_neg hcr, if_pos hconverts]
    unfold strip
    split_ifs <;> rfl

/-! ## The ident step of both directions -/

theorem ident_to_git_eq (src : Bytes) (ident : Bool) :
    (ident_to_git src ident).getD src = if ident then ident_to_git_loop src else src := by
  unfold ident_to_git
  cases ident with
  | false => rfl
  | true =>
    by_cases hcount : count_ident src = 0
    · rw [if_pos (by simp [hcount]), if_pos rfl, settled_of_count hcount]
      rfl
    · rw [if_neg (by simp [hcount]), if_pos rfl]
      rfl

theorem ident_to_worktree_eq (hash_sha1_file : Bytes → Sha1) {src : Bytes} {ident : Bool}
    (h : ident = true → Clean src) :
    (ident_to_worktree hash_sha1_file src ident).getD src =
      if ident then ident_to_worktree_loop (hash_sha1_file src) src else src := by
  unfold ident_to_worktree
  cases ident with
  | false => rfl
  | true =>
    rw [if_neg (by decide), if_pos rfl]
    split_ifs with hcount
    · exact (worktree_without_ident _ (h rfl) hcount).symm
    · rfl

theorem crlf_count_to_git (src : Bytes) : crlf_count (ident_to_git_loop src) = crlf_count src := by
  induction src using dollar_induction with
  | plain src hplain => rw [ident_to_git_plain hplain]
  | dollar before after hbefore ih =>
    rw [ident_to_git_dollar after hbefore, crlf_count_append, crlf_count_append]
    by_cases hkey : ∃ keyword rest, Keyword after keyword rest
    · obtain ⟨keyword, rest, hk⟩ := hkey
      have hline : LF ∉ [73, 100, 58] ++ keyword := by
        intro hmem
        rcases List.mem_append.mp hmem with hmem | hmem
        · exact absurd hmem (by decide)
        · exact hk.2.2 hmem
      have hrest : rest.length ≤ after.length := by
        rw [hk.1]
        simp
        omega
      rw [git_rest_keyword hk, hk.1, crlf_count_append, crlf_count_append, ih rest hrest,
        crlf_count_line hline]
      rfl
    · rw [git_rest_other fun keyword rest hk => hkey ⟨keyword, rest, hk⟩, ih after (le_refl _)]

/-! ## The round trip -/

/-- What a check-in makes of a file, where the index has `index` for its path. -/
def checkin (cfg : config) (path : String) (index : Bytes) (ca : conv_attrs) (src : Bytes) :
    Except String Bytes :=
  (convert_to_git cfg path (some index) ca src SAFE_CRLF_FALSE).map fun dst => dst.getD src

/-- What a checkout makes of a blob. -/
def checkout (cfg : config) (hash_sha1_file : Bytes → Sha1) (ca : conv_attrs) (src : Bytes) :
    Bytes :=
  (convert_to_working_tree cfg hash_sha1_file ca src).getD src

/-- A check-in of the blob itself leaves it unchanged. -/
def Normalized (cfg : config) (path : String) (ca : conv_attrs) (b : Bytes) : Prop :=
  checkin cfg path b ca b = .ok b

/-- The exception of the CRLF step that `text=auto` makes, and the wrapped counters. -/
def RoundTrips (cfg : config) (action : crlf_action) (ident : Bool) (b : Bytes) : Prop :=
  let stats := expanded_stats b ident
  let adds := output_eol cfg action = EOL_CRLF ∧ stats.lf ≠ 0 ∧ stats.lf ≠ stats.crlf
  match action with
  | CRLF_BINARY => True
  | CRLF_AUTO =>
    stats.cr = stats.crlf ∧ is_binary stats = false ∧ (stats.cr ≠ 0 ∨ adds) → CR ∉ b
  | CRLF_GUESS =>
    adds ∧ stats.cr = 0 ∧ stats.crlf = 0 ∧ is_binary stats = false → CR ∉ b
  | _ => adds → stats.cr + (stats.lf - stats.crlf) ≠ 0 ∧ crlf_count b = 0

/-- The statistics after CRs are added. -/
def with_crs (stats : text_stat) : text_stat :=
  { stats with cr := stats.cr + (stats.lf - stats.crlf), crlf := stats.lf }

theorem gather_stats_add_cr (src : Bytes) :
    gather_stats (add_cr 0 src) = with_crs (gather_stats src) := by
  have hnul : (add_cr 0 src).countP (· = 0) = src.countP (· = 0) :=
    countP_add_cr (by decide) src 0
  have hlf : (add_cr 0 src).count LF = src.count LF := countP_add_cr (by decide) src 0
  have hprintable : (add_cr 0 src).countP is_printable = src.countP is_printable :=
    countP_add_cr (by decide) src 0
  have hnonprintable : (add_cr 0 src).countP is_nonprintable = src.countP is_nonprintable :=
    countP_add_cr (by decide) src 0
  have hzero : ∀ s : Bytes, crlf_count (0 :: s) = crlf_count s := fun s => by
    rw [crlf_count, if_neg fun h => absurd h.1 (by decide), Nat.add_zero]
  have hcr : BitVec.ofNat 32 ((add_cr 0 src).count CR) = BitVec.ofNat 32 (src.count CR) +
      (BitVec.ofNat 32 (src.count LF) - BitVec.ofNat 32 (crlf_count src)) := by
    have hsum := congrArg (BitVec.ofNat 32) (count_cr_add_cr src 0)
    rw [hzero, BitVec.ofNat_add, BitVec.ofNat_add] at hsum
    rw [← add_sub_assoc, ← hsum, add_sub_cancel_right]
  have hcrlf : crlf_count (add_cr 0 src) = src.count LF := by
    rw [← hzero, crlf_count_add_cr]
  rw [gather_stats_eq, gather_stats_eq, getLast_add_cr]
  unfold counts without_eof with_crs
  rw [hnul, hlf, hprintable, hnonprintable, hcr, hcrlf]
  split_ifs <;> rfl

/-- There is a CR for a check-in to remove. -/
def Strippable (action : crlf_action) (src : Bytes) : Prop :=
  if guesses action then CR ∈ src else crlf_count src ≠ 0

theorem strip_eq {action : crlf_action} {src : Bytes} (h : ¬ Strippable action src) :
    strip action src = src := by
  unfold Strippable at h
  unfold strip
  split_ifs at h ⊢ with hguess
  · apply List.filter_eq_self.mpr
    intro c hc
    exact decide_eq_true fun hcr => h (hcr ▸ hc)
  · exact strip_crlf_eq (not_not.mp h)

theorem strip_fewer {action : crlf_action} {src : Bytes} (h : Strippable action src) :
    (strip action src).count CR < src.count CR := by
  unfold Strippable at h
  unfold strip
  split_ifs at h ⊢ with hguess
  · have hzero : (src.filter (· ≠ CR)).count CR = 0 := by
      apply List.count_eq_zero.mpr
      simp
    rw [hzero]
    exact List.count_pos_iff.mpr h
  · have hcount := count_cr_strip src
    omega

theorem strip_add_cr (action : crlf_action) (src : Bytes) :
    strip action (add_cr 0 src) = strip action src := by
  unfold strip
  split_ifs
  · exact filter_add_cr src 0
  · exact strip_crlf_add_cr src 0

/-- A check-in of a text, step by step. -/
theorem checkin_eq (cfg : config) (path : String) (index : Bytes) (ca : conv_attrs)
    (src : Bytes) :
    checkin cfg path index ca src = .ok
      (let action := input_crlf_action ca.crlf_action ca.eol_attr
        let text := if converts_in cfg action (index.contains CR) (gather_stats src) then
          strip action src else src
        if ca.ident then ident_to_git_loop text else text) := by
  have hindex : has_cr_in_index (some index) = index.contains CR := rfl
  unfold checkin convert_to_git
  simp only [crlf_to_git_eq, Except.map, Option.getD_or, ident_to_git_eq, hindex]
  congr 1
  split_ifs <;> rfl

/-- A checkout of a blob, step by step. -/
theorem checkout_eq (cfg : config) (hash_sha1_file : Bytes → Sha1) (ca : conv_attrs) {b : Bytes}
    (h : ca.ident = true → Clean b) :
    checkout cfg hash_sha1_file ca b =
      let action := input_crlf_action ca.crlf_action ca.eol_attr
      let text := if ca.ident then ident_to_worktree_loop (hash_sha1_file b) b else b
      if converts_out cfg action (gather_stats text) then add_cr 0 text else text := by
  unfold checkout convert_to_working_tree
  simp only [Option.getD_or, ident_to_worktree_eq hash_sha1_file h, crlf_to_worktree_eq]

/-- What a check-in leaves alone has no CR to remove and no keyword to collapse. -/
theorem normalized_spec {cfg : config} {path : String} {ca : conv_attrs} {b : Bytes}
    (h : Normalized cfg path ca b) :
    (ca.ident = true → Clean b) ∧
      (converts_in cfg (input_crlf_action ca.crlf_action ca.eol_attr) (b.contains CR)
        (gather_stats b) → ¬ Strippable (input_crlf_action ca.crlf_action ca.eol_attr) b) := by
  unfold Normalized at h
  rw [checkin_eq] at h
  have hsub : ∀ s : Bytes, (if ca.ident then ident_to_git_loop s else s).Sublist s := by
    intro s
    split_ifs
    · exact ident_to_git_sublist s
    · exact List.Sublist.refl s
  have hb := Except.ok.inj h
  simp only at hb
  have hstrip : converts_in cfg (input_crlf_action ca.crlf_action ca.eol_attr) (b.contains CR)
      (gather_stats b) → ¬ Strippable (input_crlf_action ca.crlf_action ca.eol_attr) b := by
    intro hconverts hstrip
    rw [if_pos hconverts] at hb
    have hfewer := strip_fewer hstrip
    have hle := (hsub (strip (input_crlf_action ca.crlf_action ca.eol_attr) b)).count_le CR
    rw [hb] at hle
    omega
  refine ⟨fun hident => clean_of_settled ?_, hstrip⟩
  rw [if_pos hident] at hb
  split_ifs at hb with hconverts
  · rwa [strip_eq (hstrip hconverts)] at hb
  · exact hb

/-- The text after a checkout's ident step counts as the blob with longer keywords. -/
theorem expanded_text (sha1 : Sha1) {b : Bytes} {ident : Bool} (h : ident = true → Clean b) :
    let text := if ident then ident_to_worktree_loop sha1 b else b
    gather_stats text = expanded_stats b ident ∧ text.count CR = b.count CR ∧
      text.count LF = b.count LF ∧ crlf_count text = crlf_count b ∧
      (if ident then ident_to_git_loop text else text) = b := by
  cases ident with
  | false => exact ⟨rfl, rfl, rfl, rfl, rfl⟩
  | true =>
    have hclean := h rfl
    have hcount : ∀ c : UInt8, c = CR ∨ c = LF →
        (ident_to_worktree_loop sha1 b).count c = b.count c := by
      intro c hc
      have hne : (c == 32) = false ∧ [73, 100, 58].countP (· == c) = 0 ∧
          ∀ n < 16, (hexdigit n == c) = false := by
        simp only [beq_eq_false_iff_ne]
        rcases hc with rfl | rfl
        · exact ⟨by decide, by decide, fun n hn => (hexdigit_bytes n hn).2.2.1⟩
        · exact ⟨by decide, by decide, fun n hn => (hexdigit_bytes n hn).2.1⟩
      apply countP_worktree_same sha1 hclean hne.2.1 _ hne.2.2
      rw [beq_eq_false_iff_ne] at hne ⊢
      exact Ne.symm hne.1
    exact ⟨gather_stats_worktree sha1 hclean, hcount CR (Or.inl rfl), hcount LF (Or.inr rfl),
      crlf_count_worktree sha1 hclean, ident_to_git_worktree sha1 hclean⟩

theorem strippable_congr {action : crlf_action} {s t : Bytes} (hcr : s.count CR = t.count CR)
    (hcrlf : crlf_count s = crlf_count t) : Strippable action s ↔ Strippable action t := by
  unfold Strippable
  rw [hcrlf, ← List.count_pos_iff, hcr, List.count_pos_iff]

/-- The round trip in terms of what each direction converts. -/
theorem round_trip_iff (cfg : config) (path : String) (hash_sha1_file : Bytes → Sha1)
    (ca : conv_attrs) {b : Bytes} (h : ca.ident = true → Clean b) :
    let action := input_crlf_action ca.crlf_action ca.eol_attr
    let stats := expanded_stats b ca.ident
    checkin cfg path b ca (checkout cfg hash_sha1_file ca b) = .ok b ↔
      if converts_out cfg action stats then
        converts_in cfg action (b.contains CR) (with_crs stats) ∧ ¬ Strippable action b
      else converts_in cfg action (b.contains CR) stats → ¬ Strippable action b := by
  intro action stats
  obtain ⟨hstats, hcr, hlf, hcrlf, hundo⟩ := expanded_text (hash_sha1_file b) h
  rw [checkin_eq, checkout_eq cfg hash_sha1_file ca h, Except.ok.injEq]
  simp only
  generalize (if ca.ident then ident_to_worktree_loop (hash_sha1_file b) b else b) = text at *
  have hstrip : Strippable action text ↔ Strippable action b := strippable_congr hcr hcrlf
  -- a CR that the check-in removes from the blob itself stays lost
  have hlost : (if ca.ident then ident_to_git_loop (strip action text) else strip action text) = b ↔
      ¬ Strippable action b := by
    constructor
    · intro hb hyes
      have hfewer := strip_fewer (hstrip.mpr hyes)
      have hle : b.count CR ≤ (strip action text).count CR := by
        have hsub := congrArg (List.count CR) hb
        split_ifs at hsub
        · rw [← hsub]
          exact (ident_to_git_sublist _).count_le CR
        · exact hsub.ge
      omega
    · intro hno
      rw [strip_eq (mt hstrip.mp hno)]
      exact hundo
  rw [hstats]
  by_cases hout : converts_out cfg action stats
  · have hadds : gather_stats (add_cr 0 text) = with_crs stats := by
      rw [gather_stats_add_cr, hstats]
    rw [if_pos hout, if_pos hout, hadds]
    by_cases hin : converts_in cfg action (b.contains CR) (with_crs stats)
    · rw [if_pos hin, strip_add_cr, hlost]
      exact (and_iff_right hin).symm
    · -- the CRs that the checkout added stay
      rw [if_neg hin]
      refine iff_of_false ?_ fun h => hin h.1
      intro hb
      have hcount : crlf_count b = b.count LF := by
        have hsame := congrArg crlf_count hb
        have hall : crlf_count (add_cr 0 text) = b.count LF := by
          have hzero := crlf_count_add_cr text 0
          rwa [crlf_count, if_neg fun h => absurd h.1 (by decide), Nat.add_zero, hlf] at hzero
        split_ifs at hsame
        · rw [← hsame, crlf_count_to_git, hall]
        · rw [← hsame, hall]
      apply hout.1.2.2
      have hfields : stats.lf = BitVec.ofNat 32 (b.count LF) ∧
          stats.crlf = BitVec.ofNat 32 (crlf_count b) := by
        have hcounts : ∀ t, (gather_stats t).lf = (counts t).lf ∧
            (gather_stats t).crlf = (counts t).crlf := by
          intro t
          rw [gather_stats_eq]
          unfold without_eof
          split_ifs <;> exact ⟨rfl, rfl⟩
        have hthese := hcounts text
        rw [hstats] at hthese
        rw [hthese.1, hthese.2]
        unfold counts
        rw [hlf, hcrlf]
        exact ⟨rfl, rfl⟩
      rw [hfields.1, hfields.2, hcount]
  · rw [if_neg hout, if_neg hout, hstats]
    by_cases hin : converts_in cfg action (b.contains CR) stats
    · rw [if_pos hin, hlost]
      exact ⟨fun h _ => h, fun h => h hin⟩
    · rw [if_neg hin]
      exact iff_of_true hundo fun h => absurd h hin

theorem expanded_stats_lines (b : Bytes) (ident : Bool) :
    (expanded_stats b ident).cr = (gather_stats b).cr ∧
      (expanded_stats b ident).crlf = (gather_stats b).crlf := by
  unfold expanded_stats
  cases ident <;> exact ⟨rfl, rfl⟩

theorem is_binary_with_crs (stats : text_stat) : is_binary (with_crs stats) = is_binary stats := rfl

/-- The actions that do not guess. -/
theorem text_round_trips_iff {cfg : config} {action : crlf_action} {b : Bytes}
    {stats : text_stat} (hbinary : action ≠ CRLF_BINARY) (hguess : action ≠ CRLF_GUESS)
    (hguesses : guesses action = false)
    (hlines : stats.cr = (gather_stats b).cr ∧ stats.crlf = (gather_stats b).crlf)
    (h : converts_in cfg action (b.contains CR) (gather_stats b) → ¬ Strippable action b) :
    (if converts_out cfg action stats then
        converts_in cfg action (b.contains CR) (with_crs stats) ∧ ¬ Strippable action b
      else converts_in cfg action (b.contains CR) stats → ¬ Strippable action b) ↔
      (output_eol cfg action = EOL_CRLF ∧ stats.lf ≠ 0 ∧ stats.lf ≠ stats.crlf →
        stats.cr + (stats.lf - stats.crlf) ≠ 0 ∧ crlf_count b = 0) := by
  have hin : ∀ s : text_stat, converts_in cfg action (b.contains CR) s ↔ s.cr ≠ 0 := by
    intro s
    unfold converts_in
    rw [hguesses]
    simp [hbinary, hguess]
  have hout : converts_out cfg action stats ↔
      output_eol cfg action = EOL_CRLF ∧ stats.lf ≠ 0 ∧ stats.lf ≠ stats.crlf := by
    unfold converts_out
    rw [hguesses]
    simp [hguess]
  have hstrip : ¬ Strippable action b ↔ crlf_count b = 0 := by
    unfold Strippable
    rw [hguesses, if_neg (by decide), not_not]
  rw [hin, ← hlines.1] at h
  rw [if_congr Iff.rfl (and_congr (hin _) Iff.rfl).eq (imp_congr (hin _) Iff.rfl).eq, hstrip]
  split_ifs with hconverts
  · exact ⟨fun hall _ => hall, fun hall => hall (hout.mp hconverts)⟩
  · exact iff_of_true (fun hcr => hstrip.mp (h hcr)) fun hadds => absurd (hout.mpr hadds) hconverts

/-- Each action, where the blob is one that a check-in leaves alone. -/
theorem round_trips_iff {cfg : config} {action : crlf_action} {ident : Bool} {b : Bytes}
    (h : converts_in cfg action (b.contains CR) (gather_stats b) → ¬ Strippable action b) :
    (if converts_out cfg action (expanded_stats b ident) then
        converts_in cfg action (b.contains CR) (with_crs (expanded_stats b ident)) ∧
          ¬ Strippable action b
      else converts_in cfg action (b.contains CR) (expanded_stats b ident) →
        ¬ Strippable action b) ↔ RoundTrips cfg action ident b := by
  have hlines := expanded_stats_lines b ident
  unfold RoundTrips
  generalize expanded_stats b ident = stats at *
  -- a text that gets CRs has fewer CRLFs than LFs, so it can lose them again
  have hcr_add : stats.cr = stats.crlf → (with_crs stats).cr = stats.lf := by
    intro hsame
    unfold with_crs
    rw [hsame, add_sub_cancel]
  cases action with
  | CRLF_BINARY =>
    have heol : output_eol cfg CRLF_BINARY = EOL_UNSET := rfl
    rw [if_neg fun hout => absurd (heol.symm.trans hout.1.1) (by decide)]
    exact iff_of_true (fun hin => absurd rfl hin.1.1) trivial
  | CRLF_AUTO =>
    have hstrip : Strippable CRLF_AUTO b ↔ CR ∈ b := Iff.rfl
    rw [hstrip]
    dsimp only
    split_ifs with hout
    · obtain ⟨hadds, -, hguess⟩ := hout
      obtain ⟨hsame, hbin⟩ := hguess rfl
      have hin : converts_in cfg CRLF_AUTO (b.contains CR) (with_crs stats) := by
        refine ⟨⟨by decide, fun h => absurd h.1 (by decide)⟩, fun _ => ⟨?_, hbin⟩,
          fun h => absurd h (by decide), ?_⟩
        · exact hcr_add hsame
        · rw [hcr_add hsame]
          exact hadds.2.1
      rw [and_iff_right hin]
      exact ⟨fun hno _ => hno, fun hall => hall ⟨hsame, hbin, Or.inr hadds⟩⟩
    · constructor
      · rintro hall ⟨hsame, hbin, hor⟩
        rcases hor with hcr | hadds
        · exact hall ⟨⟨by decide, fun h => absurd h.1 (by decide)⟩, fun _ => ⟨hsame, hbin⟩,
            fun h => absurd h (by decide), hcr⟩
        · exact absurd ⟨hadds, fun h => absurd h (by decide), fun _ => ⟨hsame, hbin⟩⟩ hout
      · intro hall hin
        obtain ⟨hsame, hbin⟩ := hin.2.1 rfl
        exact hall ⟨hsame, hbin, Or.inl hin.2.2.2⟩
  | CRLF_GUESS =>
    have hstrip : Strippable CRLF_GUESS b ↔ CR ∈ b := Iff.rfl
    rw [hstrip]
    dsimp only
    split_ifs with hout
    · obtain ⟨hadds, hzero, hguess⟩ := hout
      obtain ⟨hsame, hbin⟩ := hguess rfl
      obtain ⟨hcr, hcrlf⟩ := hzero rfl
      constructor
      · exact fun hall _ => hall.2
      · intro hall
        have hno := hall ⟨hadds, hcr, hcrlf, hbin⟩
        refine ⟨⟨⟨by decide, ?_⟩, fun _ => ⟨?_, hbin⟩, fun _ => ?_, ?_⟩, hno⟩
        · rintro ⟨-, hoff⟩
          have heol : output_eol cfg CRLF_GUESS = EOL_UNSET := if_pos ⟨rfl, hoff⟩
          rw [heol] at hadds
          exact absurd hadds.1 (by decide)
        · exact hcr_add hsame
        · simpa using hno
        · rw [hcr_add hsame]
          exact hadds.2.1
    · constructor
      · rintro - ⟨hadds, hcr, hcrlf, hbin⟩
        exact absurd ⟨hadds, fun _ => ⟨hcr, hcrlf⟩, fun _ => ⟨hcr.trans hcrlf.symm, hbin⟩⟩ hout
      · intro _ hin
        have hno := hin.2.2.1 rfl
        simpa using hno
  | CRLF_TEXT => exact text_round_trips_iff (by decide) (by decide) (by decide) hlines h
  | CRLF_INPUT => exact text_round_trips_iff (by decide) (by decide) (by decide) hlines h
  | CRLF_CRLF => exact text_round_trips_iff (by decide) (by decide) (by decide) hlines h

/-- A checkout and then a check-in give back a normalized blob exactly on the blobs that
`RoundTrips` describes. -/
theorem checkin_undoes_checkout_iff (cfg : config) (path : String) (hash_sha1_file : Bytes → Sha1)
    (check : Option path_attrs) (b : Bytes) (h : Normalized cfg path (convert_attrs check) b) :
    let ca := convert_attrs check
    checkin cfg path b ca (checkout cfg hash_sha1_file ca b) = .ok b ↔
      RoundTrips cfg (input_crlf_action ca.crlf_action ca.eol_attr) ca.ident b := by
  obtain ⟨hclean, hstrip⟩ := normalized_spec h
  exact (round_trip_iff cfg path hash_sha1_file _ hclean).trans (round_trips_iff hstrip)

/-- `text=auto ident`. -/
def auto_ident : path_attrs where
  crlf := .ATTR_UNSET
  ident := .ATTR_TRUE
  eol := .ATTR_UNSET
  text := .value "auto"

/-- `core.autocrlf=true`, on a system whose lines end in LF. -/
def autocrlf_true : config := ⟨AUTO_CRLF_TRUE, EOL_UNSET, EOL_LF⟩

/-- `"$Id$\n"`. -/
def keyword_line : Bytes := [36, 73, 100, 36, 10]

theorem a_keyword_line_comes_back :
    Normalized autocrlf_true "a.c" (convert_attrs (some auto_ident)) keyword_line ∧
      checkin autocrlf_true "a.c" keyword_line (convert_attrs (some auto_ident))
        (checkout autocrlf_true (fun _ => Vector.replicate 20 0) (convert_attrs (some auto_ident))
          keyword_line) = .ok keyword_line := by
  have hnormal : Normalized autocrlf_true "a.c" (convert_attrs (some auto_ident)) keyword_line := by
    rfl
  have hno : CR ∉ keyword_line := by decide
  exact ⟨hnormal, (checkin_undoes_checkout_iff autocrlf_true "a.c"
    (fun _ => Vector.replicate 20 0) (some auto_ident) keyword_line hnormal).mpr fun _ => hno⟩

/-- A binary byte, three keywords and a CRLF: too little text to be text, until the
keywords are expanded. -/
def grown_text : Bytes :=
  [1] ++ [36, 73, 100, 36] ++ [36, 73, 100, 36] ++ [36, 73, 100, 36] ++ [13, 10]

/-- The CR of the blob does not survive a checkout and a check-in, whatever the object
name in the keywords is. -/
theorem a_grown_text_loses_its_cr :
    Normalized autocrlf_true "a.c" (convert_attrs (some auto_ident)) grown_text ∧
      ¬ ∀ hash_sha1_file, checkin autocrlf_true "a.c" grown_text (convert_attrs (some auto_ident))
        (checkout autocrlf_true hash_sha1_file (convert_attrs (some auto_ident)) grown_text) =
          .ok grown_text := by
  have hnormal : Normalized autocrlf_true "a.c" (convert_attrs (some auto_ident)) grown_text := by
    rfl
  refine ⟨hnormal, fun hall => ?_⟩
  obtain ⟨hclean, hstrip⟩ := normalized_spec hnormal
  have hround := (round_trips_iff hstrip).mp ((round_trip_iff autocrlf_true "a.c"
    (fun _ => Vector.replicate 20 0) _ hclean).mp (hall _))
  exact hround ⟨by decide, by decide, Or.inl (by decide)⟩ (by decide)

end git.convert
