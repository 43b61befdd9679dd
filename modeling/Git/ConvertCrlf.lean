-- The line endings of `convert.c`: what the statistics of a text count, and what
-- the CRs that a checkout adds do to them.
import Git.ConvertIdent

namespace git.convert

/-! ## What the statistics count -/

/-- BS, HT, ESC, FF, and everything from the space on but DEL. -/
def is_printable (c : UInt8) : Bool :=
  if c < 32 then c == 8 || c == 9 || c == 27 || c == 12 else c != 127

def is_nonprintable (c : UInt8) : Bool := !is_printable c && c != CR && c != LF

/-- The CRs with an LF after them. -/
def crlf_count : Bytes → Nat
  | [] => 0
  | c :: src => crlf_count src + if c = CR ∧ src.head? = some LF then 1 else 0

/-- One byte counts for one of them. -/
theorem count_byte_eq (c : UInt8) (next : Option UInt8) (stats : text_stat) :
    count_byte c next stats =
      { nul := stats.nul + BitVec.ofNat 32 (if c = 0 then 1 else 0)
        cr := stats.cr + BitVec.ofNat 32 (if c = CR then 1 else 0)
        lf := stats.lf + BitVec.ofNat 32 (if c = LF then 1 else 0)
        crlf := stats.crlf + BitVec.ofNat 32 (if c = CR ∧ next = some LF then 1 else 0)
        printable := stats.printable + BitVec.ofNat 32 (if is_printable c = true then 1 else 0)
        nonprintable :=
          stats.nonprintable + BitVec.ofNat 32 (if is_nonprintable c = true then 1 else 0) } := by
  unfold count_byte is_nonprintable is_printable
  by_cases hcr : c = CR
  · subst hcr
    by_cases hnext : next = some LF
    · simp [hnext, CR, LF]
    · simp [hnext, CR, LF]
  by_cases hlf : c = LF
  · subst hlf
    simp [CR, LF]
  by_cases hdel : c = 127
  · subst hdel
    simp [CR, LF]
  by_cases hlow : c < 32
  · by_cases hodd : c = 8 ∨ c = 9 ∨ c = 27 ∨ c = 12
    · have hnul : c ≠ 0 := by rcases hodd with rfl | rfl | rfl | rfl <;> decide
      have hb : (c == 8 || c == 9 || c == 27 || c == 12) = true := by
        simpa [or_assoc] using hodd
      simp [hcr, hlf, hdel, hlow, hodd, hnul, hb]
    · have hb : (c == 8 || c == 9 || c == 27 || c == 12) = false := by
        simpa [not_or, and_assoc] using hodd
      by_cases hnul : c = 0
      · subst hnul
        simp [CR, LF]
      · simp [hcr, hlf, hdel, hlow, hodd, hnul, hb]
  · have hnul : c ≠ 0 := by
      rintro rfl
      exact hlow (by decide)
    simp [hcr, hlf, hdel, hlow, hnul]

/-- The counts of a text, without the rule for an EOF at its end. -/
def counts (src : Bytes) : text_stat where
  nul := BitVec.ofNat 32 (src.countP (· = 0))
  cr := BitVec.ofNat 32 (src.count CR)
  lf := BitVec.ofNat 32 (src.count LF)
  crlf := BitVec.ofNat 32 (crlf_count src)
  printable := BitVec.ofNat 32 (src.countP is_printable)
  nonprintable := BitVec.ofNat 32 (src.countP is_nonprintable)

/-- An EOF at the end does not count. -/
def without_eof (last : Option UInt8) (stats : text_stat) : text_stat :=
  if last = some 26 then { stats with nonprintable := stats.nonprintable - 1 } else stats

theorem gather_loop_eq (src : Bytes) : ∀ stats : text_stat,
    gather_loop src stats =
      { nul := stats.nul + (counts src).nul
        cr := stats.cr + (counts src).cr
        lf := stats.lf + (counts src).lf
        crlf := stats.crlf + (counts src).crlf
        printable := stats.printable + (counts src).printable
        nonprintable := stats.nonprintable + (counts src).nonprintable } := by
  induction src with
  | nil =>
    intro stats
    simp [gather_loop, counts, crlf_count]
  | cons c src ih =>
    intro stats
    have hadd (x : BitVec 32) (m n : Nat) :
        x + BitVec.ofNat 32 m + BitVec.ofNat 32 n = x + BitVec.ofNat 32 (n + m) := by
      rw [BitVec.add_assoc, ← BitVec.ofNat_add, Nat.add_comm m n]
    rw [gather_loop, ih, count_byte_eq]
    unfold counts
    simp only [hadd, crlf_count, List.countP_cons, List.count_cons, decide_eq_true_eq, beq_iff_eq]

theorem gather_stats_eq (src : Bytes) :
    gather_stats src = without_eof src.getLast? (counts src) := by
  have hloop : gather_loop src ⟨0, 0, 0, 0, 0, 0⟩ = counts src := by
    rw [gather_loop_eq]
    simp
  unfold gather_stats without_eof
  rw [hloop]

/-! ## The CRs of a checkout -/

theorem crlf_count_append {before : Bytes} (after : Bytes) :
    crlf_count (before ++ DOLLAR :: after) = crlf_count before + crlf_count after := by
  induction before with
  | nil => simp [crlf_count, CR, DOLLAR]
  | cons c before ih =>
    rw [List.cons_append, crlf_count, crlf_count, ih]
    have hhead : (before ++ DOLLAR :: after).head? = some LF ↔ before.head? = some LF := by
      cases before with
      | nil => simp [LF, DOLLAR]
      | cons d before => rfl
    rw [if_congr (and_congr_right fun _ => hhead) rfl rfl]
    omega

theorem crlf_count_line {src : Bytes} (h : LF ∉ src) : crlf_count src = 0 := by
  induction src with
  | nil => rfl
  | cons c src ih =>
    obtain ⟨-, hsrc⟩ := List.ne_and_not_mem_of_not_mem_cons h
    rw [crlf_count, ih hsrc, if_neg]
    rintro ⟨-, hhead⟩
    exact hsrc (List.mem_of_head? hhead)

theorem countP_add_cr {P : UInt8 → Bool} (hP : P CR = false) (src : Bytes) :
    ∀ prev, (add_cr prev src).countP P = src.countP P := by
  induction src with
  | nil => exact fun _ => rfl
  | cons c src ih =>
    intro prev
    unfold add_cr
    split_ifs with h
    · rw [List.countP_cons_of_neg (by simp [hP]), List.countP_cons, List.countP_cons, ih, h.1]
    · rw [List.countP_cons, List.countP_cons, ih]

theorem crlf_count_cons (c d : UInt8) (src : Bytes) :
    crlf_count (c :: d :: src) = crlf_count (d :: src) + if c = CR ∧ d = LF then 1 else 0 := by
  rw [crlf_count]
  simp only [List.head?_cons, Option.some.injEq]

/-- Every LF without a CR before it gets one. -/
theorem count_cr_add_cr (src : Bytes) : ∀ prev,
    (add_cr prev src).count CR + crlf_count (prev :: src) = src.count CR + src.count LF := by
  induction src with
  | nil =>
    intro prev
    simp [add_cr, crlf_count]
  | cons c src ih =>
    intro prev
    have hc := ih c
    rw [crlf_count_cons]
    unfold add_cr
    by_cases hlf : c = LF
    · by_cases hprev : prev = CR
      · rw [if_neg (fun h => h.2 hprev), if_pos ⟨hprev, hlf⟩]
        simp only [List.count_cons, hlf] at hc ⊢
        simp only [beq_iff_eq, CR, LF] at hc ⊢
        simp only [show ¬ ((10 : UInt8) = 13) by decide, if_false, if_true] at hc ⊢
        omega
      · rw [if_pos ⟨hlf, hprev⟩, if_neg (fun h => hprev h.1)]
        simp only [List.count_cons, hlf] at hc ⊢
        simp only [beq_iff_eq, CR, LF] at hc ⊢
        simp only [show ¬ ((10 : UInt8) = 13) by decide, if_false, if_true] at hc ⊢
        omega
    · rw [if_neg (fun h => hlf h.1), if_neg (fun h => hlf h.2)]
      simp only [List.count_cons, beq_iff_eq, hlf, if_false]
      omega

/-- Afterwards every LF has a CR before it. -/
theorem crlf_count_add_cr (src : Bytes) : ∀ prev,
    crlf_count (prev :: add_cr prev src) = src.count LF := by
  induction src with
  | nil =>
    intro prev
    simp [add_cr, crlf_count]
  | cons c src ih =>
    intro prev
    have hc := ih c
    unfold add_cr
    by_cases hlf : c = LF
    · subst hlf
      by_cases hprev : prev = CR
      · rw [if_neg (fun h => h.2 hprev), crlf_count_cons, if_pos ⟨hprev, rfl⟩, hc,
          List.count_cons_self]
      · rw [if_pos ⟨rfl, hprev⟩, crlf_count_cons, crlf_count_cons, if_pos ⟨rfl, rfl⟩,
          if_neg (by simp [CR, LF]), hc, List.count_cons_self]
    · rw [if_neg (fun h => hlf h.1), crlf_count_cons, if_neg (fun h => hlf h.2), hc,
        List.count_cons_of_ne hlf]
      rfl

theorem getLast_add_cr (src : Bytes) : ∀ prev, (add_cr prev src).getLast? = src.getLast? := by
  induction src with
  | nil => exact fun _ => rfl
  | cons c src ih =>
    intro prev
    unfold add_cr
    split_ifs with h
    · rw [List.getLast?_cons, List.getLast?_cons, List.getLast?_cons, ih, h.1]
      rfl
    · rw [List.getLast?_cons, List.getLast?_cons, ih]

/-! ## The CRs of a check-in -/

theorem filter_add_cr (src : Bytes) : ∀ prev,
    (add_cr prev src).filter (· ≠ CR) = src.filter (· ≠ CR) := by
  induction src with
  | nil => exact fun _ => rfl
  | cons c src ih =>
    intro prev
    unfold add_cr
    split_ifs with h
    · rw [List.filter_cons_of_neg (by simp), List.filter_cons, List.filter_cons, ih, h.1]
    · rw [List.filter_cons, List.filter_cons, ih]

theorem head_add_cr (src : Bytes) : (add_cr CR src).head? = src.head? := by
  cases src with
  | nil => rfl
  | cons c src =>
    unfold add_cr
    rw [if_neg (fun h => h.2 rfl)]
    rfl

theorem strip_crlf_add_cr (src : Bytes) : ∀ prev,
    strip_crlf (add_cr prev src) = strip_crlf src := by
  induction src with
  | nil => exact fun _ => rfl
  | cons c src ih =>
    intro prev
    have hlf : ∀ s, strip_crlf (LF :: s) = LF :: strip_crlf s := by
      intro s
      rw [strip_crlf, if_neg (by simp [CR, LF])]
    unfold add_cr
    split_ifs with h
    · rw [h.1, strip_crlf, if_pos ⟨rfl, rfl⟩, hlf, hlf, ih]
    · rw [strip_crlf, strip_crlf, ih]
      by_cases hcr : c = CR
      · rw [hcr, head_add_cr]
      · rw [if_neg (fun h => hcr h.1), if_neg (fun h => hcr h.1)]

/-- A CR goes for every CRLF. -/
theorem count_cr_strip (src : Bytes) :
    (strip_crlf src).count CR + crlf_count src = src.count CR := by
  induction src with
  | nil => rfl
  | cons c src ih =>
    rw [strip_crlf, crlf_count]
    split_ifs with h
    · rw [h.1, List.count_cons_self]
      omega
    · rw [List.count_cons, List.count_cons]
      omega

theorem strip_crlf_eq {src : Bytes} (h : crlf_count src = 0) : strip_crlf src = src := by
  induction src with
  | nil => rfl
  | cons c src ih =>
    rw [crlf_count] at h
    split_ifs at h with hc
    rw [strip_crlf, if_neg hc, ih h]

end git.convert
