-- The ident keyword of `convert.c`: a check-in undoes the expansion of a checkout
-- in every text that a check-in leaves alone.
import Git.Convert

namespace git.convert

/-! ## The next dollar sign -/

theorem memchr_eq_none {c : UInt8} {src : Bytes} : memchr c src = none ↔ c ∉ src := by
  induction src with
  | nil => simp [memchr]
  | cons d src ih =>
    unfold memchr
    by_cases hd : d = c
    · rw [if_pos hd, hd]
      simp
    · rw [if_neg hd, Option.map_eq_none_iff, ih]
      simp [Ne.symm hd]

theorem memchr_append {c : UInt8} {before after : Bytes} (h : c ∉ before) :
    memchr c (before ++ c :: after) = some (before, after) := by
  induction before with
  | nil => simp [memchr]
  | cons d before ih =>
    obtain ⟨hd, hbefore⟩ := List.ne_and_not_mem_of_not_mem_cons h
    rw [List.cons_append, memchr, if_neg (Ne.symm hd), ih hbefore]
    rfl

theorem memchr_eq_some {c : UInt8} {src before after : Bytes} :
    memchr c src = some (before, after) ↔ src = before ++ c :: after ∧ c ∉ before := by
  constructor
  · intro h
    induction src generalizing before after with
    | nil => cases h
    | cons d src ih =>
      unfold memchr at h
      by_cases hd : d = c
      · rw [if_pos hd] at h
        obtain ⟨rfl, rfl⟩ := Prod.mk.inj (Option.some.inj h)
        exact ⟨by rw [hd]; rfl, List.not_mem_nil⟩
      · rw [if_neg hd] at h
        obtain ⟨⟨before', after'⟩, hmem, hpair⟩ := Option.map_eq_some_iff.mp h
        obtain ⟨rfl, rfl⟩ := Prod.mk.inj hpair
        obtain ⟨rfl, hnot⟩ := ih hmem
        exact ⟨rfl, List.not_mem_cons_of_ne_of_not_mem (Ne.symm hd) hnot⟩
  · rintro ⟨rfl, hnot⟩
    exact memchr_append hnot

/-- A text is cut at its first dollar sign in one way. -/
theorem cut_unique {c : UInt8} {a b x y : Bytes} (ha : c ∉ a) (hb : c ∉ b)
    (h : a ++ c :: x = b ++ c :: y) : a = b ∧ x = y := by
  have hcut : memchr c (a ++ c :: x) = some (a, x) := memchr_append ha
  rw [h, memchr_append hb] at hcut
  obtain ⟨rfl, rfl⟩ := Prod.mk.inj (Option.some.inj hcut)
  exact ⟨rfl, rfl⟩

/-- Induction along the dollar signs of a text. -/
theorem dollar_induction {P : Bytes → Prop} (plain : ∀ src, DOLLAR ∉ src → P src)
    (dollar : ∀ before after, DOLLAR ∉ before →
      (∀ src : Bytes, src.length ≤ after.length → P src) → P (before ++ DOLLAR :: after))
    (src : Bytes) : P src := by
  induction hn : src.length using Nat.strong_induction_on generalizing src with
  | _ n ih =>
    cases hcut : memchr DOLLAR src with
    | none => exact plain src (memchr_eq_none.mp hcut)
    | some cut =>
      obtain ⟨rfl, hbefore⟩ := memchr_eq_some.mp hcut
      apply dollar cut.1 cut.2 hbefore
      intro s hs
      apply ih s.length _ s rfl
      rw [← hn, List.length_append, List.length_cons]
      omega

/-! ## The shared loop -/

/-- What happens after a dollar sign depends on the loop on the text there only. -/
def Local (rest : (Bytes → Bytes) → Bytes → Bytes) : Prop :=
  ∀ (f g : Bytes → Bytes) (src : Bytes),
    (∀ s : Bytes, s.length ≤ src.length → f s = g s) → rest f src = rest g src

theorem at_dollars_succ (rest : (Bytes → Bytes) → Bytes → Bytes) (fuel : Nat) (src : Bytes) :
    at_dollars rest (fuel + 1) src =
      match memchr DOLLAR src with
      | none => src
      | some (before, after) => before ++ DOLLAR :: rest (at_dollars rest fuel) after := rfl

/-- More fuel than the text is long changes nothing. -/
theorem at_dollars_fuel {rest : (Bytes → Bytes) → Bytes → Bytes} (hrest : Local rest)
    (fuel : Nat) : ∀ (more : Nat) (src : Bytes), src.length ≤ fuel →
      at_dollars rest (fuel + more) src = at_dollars rest fuel src := by
  induction fuel with
  | zero =>
    intro more src hsrc
    obtain rfl := List.length_eq_zero_iff.mp (Nat.le_zero.mp hsrc)
    cases more with
    | zero => rfl
    | succ more => rfl
  | succ fuel ih =>
    intro more src hsrc
    rw [Nat.succ_add, at_dollars_succ, at_dollars_succ]
    cases hcut : memchr DOLLAR src with
    | none => rfl
    | some cut =>
      obtain ⟨hsplit, -⟩ := memchr_eq_some.mp hcut
      have hlen : cut.2.length ≤ fuel := by
        rw [hsplit] at hsrc
        simp only [List.length_append, List.length_cons] at hsrc
        omega
      simp only
      rw [hrest _ _ _ fun s hs => ih more s (hs.trans hlen)]

theorem at_dollars_plain (rest : (Bytes → Bytes) → Bytes → Bytes) {src : Bytes}
    (h : DOLLAR ∉ src) : at_dollars rest src.length src = src := by
  cases src with
  | nil => rfl
  | cons c src => rw [List.length_cons, at_dollars_succ, memchr_eq_none.mpr h]

theorem at_dollars_dollar {rest : (Bytes → Bytes) → Bytes → Bytes} (hrest : Local rest)
    {before : Bytes} (after : Bytes) (h : DOLLAR ∉ before) :
    at_dollars rest (before ++ DOLLAR :: after).length (before ++ DOLLAR :: after) =
      before ++ DOLLAR :: rest (fun s => at_dollars rest s.length s) after := by
  have hlen : (before ++ DOLLAR :: after).length = before.length + after.length + 1 := by
    simp only [List.length_append, List.length_cons]
    omega
  rw [hlen, at_dollars_succ, memchr_append h]
  simp only
  congr 2
  apply hrest
  intro s hs
  have hfuel : before.length + after.length =
      s.length + (before.length + after.length - s.length) := by
    omega
  rw [hfuel, at_dollars_fuel hrest _ _ _ (le_refl _)]

/-! ## Check-in -/

theorem ident_to_git_local : Local ident_to_git_rest := by
  intro f g src h
  unfold ident_to_git_rest
  split
  · rename_i keyword_on
    cases hcut : memchr DOLLAR keyword_on with
    | none => rfl
    | some cut =>
      obtain ⟨hsplit, -⟩ := memchr_eq_some.mp hcut
      have hafter : cut.2.length ≤ (73 :: 100 :: 58 :: keyword_on).length := by
        rw [hsplit]
        simp
        omega
      simp only
      rw [h _ (le_refl _), h _ hafter]
  · exact h src (le_refl _)

theorem ident_to_git_plain {src : Bytes} (h : DOLLAR ∉ src) : ident_to_git_loop src = src :=
  at_dollars_plain ident_to_git_rest h

theorem ident_to_git_dollar {before : Bytes} (after : Bytes) (h : DOLLAR ∉ before) :
    ident_to_git_loop (before ++ DOLLAR :: after) =
      before ++ DOLLAR :: ident_to_git_rest ident_to_git_loop after :=
  at_dollars_dollar ident_to_git_local after h

/-- A complete keyword on one line. -/
def Keyword (src keyword after : Bytes) : Prop :=
  src = [73, 100, 58] ++ keyword ++ DOLLAR :: after ∧ DOLLAR ∉ keyword ∧ LF ∉ keyword

theorem git_rest_keyword {loop : Bytes → Bytes} {src keyword after : Bytes}
    (h : Keyword src keyword after) :
    ident_to_git_rest loop src = [73, 100] ++ DOLLAR :: loop after := by
  obtain ⟨rfl, hdollar, hline⟩ := h
  have hcontains : ¬ keyword.contains LF = true := by simpa using hline
  simp only [ident_to_git_rest, List.cons_append, List.nil_append, memchr_append hdollar]
  rw [if_neg hcontains]

/-- Without a keyword the rest of the text is one of its own. -/
theorem git_rest_other {src : Bytes} (h : ∀ keyword after, ¬ Keyword src keyword after) :
    ident_to_git_rest ident_to_git_loop src = ident_to_git_loop src := by
  unfold ident_to_git_rest
  split
  · rename_i rest
    cases hcut : memchr DOLLAR rest with
    | none =>
      have hnot : DOLLAR ∉ 73 :: 100 :: 58 :: rest := by
        have hrest := memchr_eq_none.mp hcut
        simp [DOLLAR, hrest]
      exact (ident_to_git_plain hnot).symm
    | some cut =>
      obtain ⟨hsplit, hnot⟩ := memchr_eq_some.mp hcut
      simp only
      rw [if_pos]
      by_contra hline
      apply h cut.1 cut.2
      exact ⟨by rw [hsplit]; rfl, hnot, by simpa using hline⟩
  · rfl

/-! ## Texts that a check-in leaves alone -/

theorem ident_to_git_sublist (src : Bytes) : (ident_to_git_loop src).Sublist src := by
  induction src using dollar_induction with
  | plain src h => rw [ident_to_git_plain h]
  | dollar before after h ih =>
    rw [ident_to_git_dollar after h]
    apply (List.Sublist.refl before).append
    apply List.Sublist.cons_cons
    by_cases hkey : ∃ keyword rest, Keyword after keyword rest
    · obtain ⟨keyword, rest, hk⟩ := hkey
      rw [git_rest_keyword hk]
      obtain ⟨rfl, -⟩ := hk
      rw [List.append_assoc]
      apply (List.Sublist.refl [73, 100]).append
      apply List.Sublist.trans _ (List.sublist_append_right (58 :: keyword) _)
      apply List.Sublist.cons_cons
      exact ih rest (by simp; omega)
    · rw [git_rest_other fun keyword rest hk => hkey ⟨keyword, rest, hk⟩]
      exact ih after (le_refl _)

/-! ## Texts that a check-in leaves alone -/

/-- A text in which `ident_to_git` finds nothing to do. -/
inductive Clean : Bytes → Prop
  | plain (src : Bytes) : DOLLAR ∉ src → Clean src
  | ident (before rest : Bytes) : DOLLAR ∉ before → Clean rest →
      Clean (before ++ DOLLAR :: ([73, 100] ++ DOLLAR :: rest))
  | other (before after : Bytes) : DOLLAR ∉ before →
      (∀ rest, after ≠ [73, 100] ++ DOLLAR :: rest) →
      (∀ keyword rest, ¬ Keyword after keyword rest) → Clean after →
      Clean (before ++ DOLLAR :: after)

theorem settled_rest {src : Bytes} (h : ident_to_git_rest ident_to_git_loop src = src) :
    (∀ keyword rest, ¬ Keyword src keyword rest) ∧ ident_to_git_loop src = src := by
  have hkey : ∀ keyword rest, ¬ Keyword src keyword rest := by
    intro keyword rest hk
    rw [git_rest_keyword hk] at h
    have hlen := congrArg List.length h
    have hle := (ident_to_git_sublist rest).length_le
    rw [hk.1] at hlen
    simp only [List.length_append, List.length_cons, List.length_nil] at hlen
    omega
  exact ⟨hkey, (git_rest_other hkey).symm.trans h⟩

theorem clean_of_settled {src : Bytes} (h : ident_to_git_loop src = src) : Clean src := by
  induction src using dollar_induction with
  | plain src hplain => exact Clean.plain src hplain
  | dollar before after hbefore ih =>
    rw [ident_to_git_dollar after hbefore, List.append_cancel_left_eq, List.cons.injEq] at h
    obtain ⟨hkey, hafter⟩ := settled_rest h.2
    by_cases hid : ∃ rest, after = [73, 100] ++ DOLLAR :: rest
    · obtain ⟨rest, rfl⟩ := hid
      rw [ident_to_git_dollar rest (by decide), List.append_cancel_left_eq,
        List.cons.injEq] at hafter
      apply Clean.ident before rest hbefore
      exact ih rest (by simp; omega) (settled_rest hafter.2).2
    · apply Clean.other before after hbefore
      · exact fun rest hrest => hid ⟨rest, hrest⟩
      · exact hkey
      · exact ih after (le_refl _) hafter

/-! ## Checkout -/

theorem ident_to_worktree_local (sha1 : Sha1) : Local (ident_to_worktree_rest sha1) := by
  intro f g src h
  unfold ident_to_worktree_rest
  split
  · rename_i ch rest
    have hrest : rest.length ≤ (73 :: 100 :: ch :: rest).length := by
      simp
      omega
    rw [h _ (le_refl _), h _ hrest]
    cases hcut : memchr DOLLAR rest with
    | none => rfl
    | some cut =>
      obtain ⟨hsplit, -⟩ := memchr_eq_some.mp hcut
      have hafter : cut.2.length ≤ (73 :: 100 :: ch :: rest).length := by
        rw [hsplit]
        simp
        omega
      simp only
      rw [h _ hafter]
  · exact h src (le_refl _)

theorem ident_to_worktree_plain (sha1 : Sha1) {src : Bytes} (h : DOLLAR ∉ src) :
    ident_to_worktree_loop sha1 src = src :=
  at_dollars_plain (ident_to_worktree_rest sha1) h

theorem ident_to_worktree_dollar (sha1 : Sha1) {before : Bytes} (after : Bytes)
    (h : DOLLAR ∉ before) :
    ident_to_worktree_loop sha1 (before ++ DOLLAR :: after) =
      before ++ DOLLAR :: ident_to_worktree_rest sha1 (ident_to_worktree_loop sha1) after :=
  at_dollars_dollar (ident_to_worktree_local sha1) after h

theorem ident_to_worktree_ident (sha1 : Sha1) {before : Bytes} (rest : Bytes)
    (h : DOLLAR ∉ before) :
    ident_to_worktree_loop sha1 (before ++ DOLLAR :: ([73, 100] ++ DOLLAR :: rest)) =
      before ++ DOLLAR :: (expanded_id sha1 ++ ident_to_worktree_loop sha1 rest) := by
  rw [ident_to_worktree_dollar sha1 _ h]
  rfl

/-- Without a keyword the rest of the text is one of its own. -/
theorem ident_to_worktree_other (sha1 : Sha1) {before after : Bytes} (h : DOLLAR ∉ before)
    (hid : ∀ rest, after ≠ [73, 100] ++ DOLLAR :: rest)
    (hkey : ∀ keyword rest, ¬ Keyword after keyword rest) :
    ident_to_worktree_loop sha1 (before ++ DOLLAR :: after) =
      before ++ DOLLAR :: ident_to_worktree_loop sha1 after := by
  rw [ident_to_worktree_dollar sha1 _ h]
  congr 2
  unfold ident_to_worktree_rest
  split
  · rename_i ch rest
    by_cases hch : ch = DOLLAR
    · exact absurd (by rw [hch]; rfl) (hid rest)
    rw [if_neg hch]
    by_cases hcolon : ch = 58
    · rw [if_pos hcolon]
      cases hcut : memchr DOLLAR rest with
      | none =>
        have hnot : DOLLAR ∉ 73 :: 100 :: ch :: rest := by
          have hrest := memchr_eq_none.mp hcut
          simp [DOLLAR, hrest, Ne.symm hch]
        exact (ident_to_worktree_plain sha1 hnot).symm
      | some cut =>
        obtain ⟨hsplit, hnot⟩ := memchr_eq_some.mp hcut
        simp only
        rw [if_pos]
        by_contra hline
        apply hkey cut.1 cut.2
        rw [Bool.or_eq_true, not_or] at hline
        exact ⟨by rw [hsplit, hcolon]; rfl, hnot, by simpa using hline.1⟩
    · rw [if_neg hcolon]
  · rfl

/-! ## A checkout undone -/

theorem hexdigit_bytes (n : Nat) (hn : n < 16) :
    hexdigit n ≠ DOLLAR ∧ hexdigit n ≠ LF ∧ hexdigit n ≠ CR ∧ 32 ≤ hexdigit n ∧
      hexdigit n < 127 := by
  interval_cases n <;> decide

theorem hex_bytes (sha1 : Sha1) {P : UInt8 → Prop} (h : ∀ n < 16, P (hexdigit n)) :
    ∀ c ∈ sha1_to_hex sha1, P c := by
  intro c hc
  obtain ⟨b, -, hdigit⟩ := List.mem_flatMap.mp hc
  have hb := b.toNat_lt
  rcases List.mem_pair.mp hdigit with rfl | rfl
  · exact h _ (by omega)
  · exact h _ (by omega)

/-- What stands in an expanded keyword. -/
def expansion (sha1 : Sha1) : Bytes := [32] ++ sha1_to_hex sha1 ++ [32]

theorem expansion_keyword (sha1 : Sha1) (rest : Bytes) :
    Keyword (expanded_id sha1 ++ rest) (expansion sha1) rest := by
  have hbytes : ∀ c ∈ expansion sha1, c ≠ DOLLAR ∧ c ≠ LF := by
    intro c hc
    unfold expansion at hc
    simp only [List.mem_append, List.mem_singleton] at hc
    rcases hc with (rfl | hc) | rfl
    · decide
    · refine hex_bytes sha1 (P := fun c => c ≠ DOLLAR ∧ c ≠ LF) ?_ c hc
      exact fun n hn => ⟨(hexdigit_bytes n hn).1, (hexdigit_bytes n hn).2.1⟩
    · decide
  refine ⟨?_, fun h => (hbytes _ h).1 rfl, fun h => (hbytes _ h).2 rfl⟩
  unfold expanded_id expansion
  simp

/-- A checkout changes nothing before the first dollar sign. -/
theorem first_dollar {sha1 : Sha1} {src before after : Bytes} (hclean : Clean src)
    (hbefore : DOLLAR ∉ before) (h : ident_to_worktree_loop sha1 src = before ++ DOLLAR :: after) :
    ∃ rest, src = before ++ DOLLAR :: rest := by
  cases hclean with
  | plain _ hplain =>
    rw [ident_to_worktree_plain sha1 hplain] at h
    exact ⟨after, h⟩
  | ident a rest ha _ =>
    rw [ident_to_worktree_ident sha1 rest ha] at h
    obtain ⟨rfl, -⟩ := cut_unique ha hbefore h
    exact ⟨_, rfl⟩
  | other a rest ha hid hkey _ =>
    rw [ident_to_worktree_other sha1 ha hid hkey] at h
    obtain ⟨rfl, -⟩ := cut_unique ha hbefore h
    exact ⟨_, rfl⟩

theorem worktree_keyword {sha1 : Sha1} {src : Bytes} (hclean : Clean src)
    (hkey : ∀ keyword rest, ¬ Keyword src keyword rest) (keyword rest : Bytes) :
    ¬ Keyword (ident_to_worktree_loop sha1 src) keyword rest := by
  rintro ⟨hsplit, hdollar, hline⟩
  have hbefore : DOLLAR ∉ [73, 100, 58] ++ keyword := by
    intro hmem
    rcases List.mem_append.mp hmem with hmem | hmem
    · exact absurd hmem (by decide)
    · exact hdollar hmem
  obtain ⟨after, rfl⟩ := first_dollar hclean hbefore hsplit
  exact hkey keyword after ⟨rfl, hdollar, hline⟩

/-- `ident_to_git` undoes `ident_to_worktree`. -/
theorem ident_to_git_worktree (sha1 : Sha1) {src : Bytes} (h : Clean src) :
    ident_to_git_loop (ident_to_worktree_loop sha1 src) = src := by
  induction h with
  | plain src hplain => rw [ident_to_worktree_plain sha1 hplain, ident_to_git_plain hplain]
  | ident before rest hbefore _ ih =>
    rw [ident_to_worktree_ident sha1 rest hbefore, ident_to_git_dollar _ hbefore,
      git_rest_keyword (expansion_keyword sha1 _), ih]
  | other before after hbefore hid hkey hafter ih =>
    rw [ident_to_worktree_other sha1 hbefore hid hkey, ident_to_git_dollar _ hbefore,
      git_rest_other (worktree_keyword hafter hkey), ih]

/-! ## Counting keywords -/

theorem count_ident_rest_congr {f g : Bytes → Nat} {src : Bytes}
    (h : ∀ s : Bytes, s.length ≤ src.length → f s = g s) :
    count_ident_rest f src = count_ident_rest g src := by
  have hskip : ∀ s : Bytes, (skip_keyword s).2.length ≤ s.length := by
    intro s
    induction s with
    | nil => exact le_refl _
    | cons c s ih =>
      unfold skip_keyword
      split_ifs
      · simp
      · simp
      · simp only [List.length_cons]
        omega
  unfold count_ident_rest
  congr 1
  split
  · rename_i ch rest
    have hrest : rest.length ≤ (73 :: 100 :: ch :: rest).length := by
      simp
      omega
    rw [h _ hrest, h _ ((hskip rest).trans hrest)]
  · exact h src (le_refl _)

theorem count_ident_fuel (fuel : Nat) : ∀ (more : Nat) (src : Bytes), src.length ≤ fuel →
    count_ident_loop (fuel + more) src = count_ident_loop fuel src := by
  induction fuel with
  | zero =>
    intro more src hsrc
    obtain rfl := List.length_eq_zero_iff.mp (Nat.le_zero.mp hsrc)
    cases more with
    | zero => rfl
    | succ more => rfl
  | succ fuel ih =>
    intro more src hsrc
    rw [Nat.succ_add]
    cases src with
    | nil => rfl
    | cons c src =>
      have hlen : src.length ≤ fuel := Nat.le_of_succ_le_succ hsrc
      unfold count_ident_loop
      rw [ih more src hlen, count_ident_rest_congr fun s hs => ih more s (hs.trans hlen)]

theorem count_ident_cons (c : UInt8) (src : Bytes) :
    count_ident (c :: src) =
      if c ≠ DOLLAR then count_ident src else count_ident_rest count_ident src := by
  unfold count_ident
  rw [List.length_cons, count_ident_loop]
  congr 1
  apply count_ident_rest_congr
  intro s hs
  have hfuel : src.length = s.length + (src.length - s.length) := by omega
  rw [hfuel, count_ident_fuel _ _ _ (le_refl _)]

theorem count_ident_append {before : Bytes} (h : DOLLAR ∉ before) (src : Bytes) :
    count_ident (before ++ src) = count_ident src := by
  induction before with
  | nil => rfl
  | cons c before ih =>
    obtain ⟨hc, hbefore⟩ := List.ne_and_not_mem_of_not_mem_cons h
    rw [List.cons_append, count_ident_cons, if_pos (Ne.symm hc), ih hbefore]

theorem count_ident_plain {src : Bytes} (h : DOLLAR ∉ src) : count_ident src = 0 := by
  have hcount := count_ident_append h []
  rwa [List.append_nil] at hcount

theorem count_ident_dollar {before : Bytes} (after : Bytes) (h : DOLLAR ∉ before) :
    count_ident (before ++ DOLLAR :: after) = count_ident_rest count_ident after := by
  rw [count_ident_append h, count_ident_cons, if_neg (not_not.mpr rfl)]

theorem skip_keyword_spec (src : Bytes) :
    match skip_keyword src with
    | (true, rest) => ∃ keyword, src = keyword ++ DOLLAR :: rest ∧ DOLLAR ∉ keyword ∧ LF ∉ keyword
    | (false, rest) => ∃ line, src = line ++ rest ∧ DOLLAR ∉ line ∧ (rest = [] ∨ LF ∈ line) := by
  induction src with
  | nil => exact ⟨[], rfl, List.not_mem_nil, Or.inl rfl⟩
  | cons c src ih =>
    unfold skip_keyword
    by_cases hdollar : c = DOLLAR
    · rw [if_pos hdollar, hdollar]
      exact ⟨[], rfl, List.not_mem_nil, List.not_mem_nil⟩
    rw [if_neg hdollar]
    by_cases hline : c = LF
    · rw [if_pos hline]
      exact ⟨[c], rfl, by simpa using Ne.symm hdollar, Or.inr (by simp [hline])⟩
    rw [if_neg hline]
    rcases hskip : skip_keyword src with ⟨closed, rest⟩
    rw [hskip] at ih
    cases closed with
    | true =>
      obtain ⟨keyword, rfl, hkeyword, hlines⟩ := ih
      exact ⟨c :: keyword, rfl, List.not_mem_cons_of_ne_of_not_mem (Ne.symm hdollar) hkeyword,
        List.not_mem_cons_of_ne_of_not_mem (Ne.symm hline) hlines⟩
    | false =>
      obtain ⟨line, rfl, hnot, hend⟩ := ih
      refine ⟨c :: line, rfl, List.not_mem_cons_of_ne_of_not_mem (Ne.symm hdollar) hnot, ?_⟩
      rcases hend with hnil | hmem
      · exact Or.inl hnil
      · exact Or.inr (List.mem_cons_of_mem c hmem)

theorem count_ident_short {src : Bytes} (h : src.length < 3) : count_ident src = 0 := by
  induction src with
  | nil => rfl
  | cons c src ih =>
    rw [List.length_cons] at h
    have hsrc : src.length < 3 := by omega
    rw [count_ident_cons]
    split_ifs
    · exact ih hsrc
    · exact if_pos hsrc

/-- Without a keyword the rest counts as a text of its own. -/
theorem count_ident_rest_other {src : Bytes} (hid : ∀ rest, src ≠ [73, 100] ++ DOLLAR :: rest)
    (hkey : ∀ keyword rest, ¬ Keyword src keyword rest) :
    count_ident_rest count_ident src = count_ident src := by
  by_cases hshort : src.length < 3
  · rw [count_ident_short hshort]
    exact if_pos hshort
  unfold count_ident_rest
  rw [if_neg hshort]
  split
  · rename_i ch rest
    have hch : ch ≠ DOLLAR := fun h => hid rest (by rw [h]; rfl)
    have hsrc : count_ident (73 :: 100 :: ch :: rest) = count_ident rest := by
      have hbefore : DOLLAR ∉ [73, 100, ch] := by simp [DOLLAR, Ne.symm hch]
      exact count_ident_append hbefore rest
    rw [if_neg hch, hsrc]
    by_cases hcolon : ch = 58
    · rw [if_neg (not_not.mpr hcolon)]
      have hskip := skip_keyword_spec rest
      rcases hresult : skip_keyword rest with ⟨closed, after⟩
      rw [hresult] at hskip
      cases closed with
      | true =>
        obtain ⟨keyword, rfl, hdollar, hline⟩ := hskip
        exact absurd ⟨by rw [hcolon]; rfl, hdollar, hline⟩ (hkey keyword after)
      | false =>
        obtain ⟨line, rfl, hnot, -⟩ := hskip
        simp only
        rw [count_ident_append hnot]
        rfl
    · rw [if_pos hcolon]
  · rfl

theorem count_ident_ident {before : Bytes} (rest : Bytes) (h : DOLLAR ∉ before) :
    count_ident (before ++ DOLLAR :: ([73, 100] ++ DOLLAR :: rest)) = count_ident rest + 1 := by
  rw [count_ident_dollar _ h]
  rfl

/-- Where nothing counts, a check-in has nothing to do. -/
theorem settled_of_count {src : Bytes} (h : count_ident src = 0) : ident_to_git_loop src = src := by
  induction src using dollar_induction with
  | plain src hplain => exact ident_to_git_plain hplain
  | dollar before after hbefore ih =>
    rw [count_ident_dollar after hbefore] at h
    have hkey : ∀ keyword rest, ¬ Keyword after keyword rest := by
      rintro keyword rest ⟨rfl, hdollar, hline⟩
      have hskip : skip_keyword (keyword ++ DOLLAR :: rest) = (true, rest) := by
        clear h ih
        induction keyword with
        | nil => exact if_pos rfl
        | cons c keyword ih =>
          obtain ⟨hc, hkeyword⟩ := List.ne_and_not_mem_of_not_mem_cons hdollar
          obtain ⟨hcl, hlines⟩ := List.ne_and_not_mem_of_not_mem_cons hline
          rw [List.cons_append, skip_keyword, if_neg (Ne.symm hc), if_neg (Ne.symm hcl)]
          exact ih hkeyword hlines
      unfold count_ident_rest at h
      rw [if_neg (by simp)] at h
      simp only [List.cons_append, List.nil_append] at h
      rw [if_neg (by decide), if_neg (by decide), hskip] at h
      simp at h
    have hid : ∀ rest, after ≠ [73, 100] ++ DOLLAR :: rest := by
      rintro rest rfl
      unfold count_ident_rest at h
      rw [if_neg (by simp)] at h
      simp at h
    rw [count_ident_rest_other hid hkey] at h
    rw [ident_to_git_dollar after hbefore, git_rest_other hkey, ih after (le_refl _) h]

/-- What the bytes of a text amount to after a checkout. -/
theorem countP_worktree (P : UInt8 → Bool) (sha1 : Sha1) {src : Bytes} (h : Clean src) :
    (ident_to_worktree_loop sha1 src).countP P + count_ident src * [73, 100].countP P =
      src.countP P + count_ident src * ([73, 100, 58] ++ expansion sha1).countP P := by
  induction h with
  | plain src hplain => rw [ident_to_worktree_plain sha1 hplain, count_ident_plain hplain]; simp
  | ident before rest hbefore _ ih =>
    rw [ident_to_worktree_ident sha1 rest hbefore, count_ident_ident rest hbefore,
      (expansion_keyword sha1 _).1]
    simp only [List.countP_append, List.countP_cons, Nat.add_mul, Nat.one_mul] at ih ⊢
    omega
  | other before after hbefore hid hkey _ ih =>
    rw [ident_to_worktree_other sha1 hbefore hid hkey, count_ident_dollar after hbefore,
      count_ident_rest_other hid hkey]
    simp only [List.countP_append, List.countP_cons] at ih ⊢
    omega

theorem countP_expansion (P : UInt8 → Bool) (sha1 : Sha1)
    (h : ∀ n < 16, P (hexdigit n) = P 32) :
    (expansion sha1).countP P = if P 32 = true then 42 else 0 := by
  have hbytes : ∀ c ∈ expansion sha1, P c = P 32 := by
    intro c hc
    unfold expansion at hc
    simp only [List.mem_append, List.mem_singleton] at hc
    rcases hc with (rfl | hc) | rfl
    · rfl
    · exact hex_bytes sha1 (P := fun c => P c = P 32) h c hc
    · rfl
  have hlen : (expansion sha1).length = 42 := by
    unfold expansion sha1_to_hex
    simp
  split_ifs with hspace
  · rw [List.countP_eq_length.mpr fun c hc => (hbytes c hc).trans hspace, hlen]
  · exact List.countP_eq_zero.mpr fun c hc => by rw [hbytes c hc]; exact hspace

end git.convert
