-- The words `sq_dequote_to_argv` reads: what is quoted comes back, and where a line is
-- accepted that is no list of quoted words.
import Git.SqQuote

namespace git.sq_quote

open git.header_name (isspace c_str)

/-! ## The grammar -/

/-- Single-quoted segments, with an escape between two of them. -/
structure sq_word where
  first : Bytes
  more : List (UInt8 × Bytes)
  plain_first : SQ ∉ first
  plain_more : ∀ p ∈ more, need_bs_quote p.1 ∧ SQ ∉ p.2

/-- The word as it stands in the line. -/
def sq_word.text (w : sq_word) : Bytes :=
  SQ :: w.first ++ [SQ] ++ w.more.flatMap fun p => BACKSLASH :: p.1 :: SQ :: p.2 ++ [SQ]

def sq_word.value (w : sq_word) : Bytes :=
  w.first ++ w.more.flatMap fun p => p.1 :: p.2

/-- Quote removal of a POSIX shell, for single quotes and backslashes; `none` where a quote
stays open or nothing follows a backslash. -/
def quote_removal (quoted : Bool) : Bytes → Option Bytes
  | [] => if quoted then none else some []
  | c :: t =>
    if quoted then
      if c = SQ then quote_removal false t else (quote_removal true t).map (c :: ·)
    else if c = SQ then quote_removal true t
    else if c = BACKSLASH then
      match t with
      | [] => none
      | d :: t => if d = 10 then quote_removal false t else (quote_removal false t).map (d :: ·)
    else (quote_removal false t).map (c :: ·)

theorem removal_quoted {c : UInt8} (hc : c ≠ SQ) (t : Bytes) :
    quote_removal true (c :: t) = (quote_removal true t).map (c :: ·) := by
  rw [quote_removal.eq_def]
  exact if_neg hc

theorem removal_quote (quoted : Bool) (t : Bytes) :
    quote_removal quoted (SQ :: t) = quote_removal (!quoted) t := by
  cases quoted <;> (rw [quote_removal.eq_def]; rfl)

theorem removal_escape {c : UInt8} (hc : c ≠ 10) (t : Bytes) :
    quote_removal false (BACKSLASH :: c :: t) = (quote_removal false t).map (c :: ·) := by
  rw [quote_removal.eq_def]
  exact if_neg hc

/-- One or more bytes of white space. -/
def Gap (gap : Bytes) : Prop := gap ≠ [] ∧ ∀ c ∈ gap, isspace c

/-- A line of words with white space between two of them. -/
inductive WordList : Bytes → List sq_word → Prop
  | last (w : sq_word) : WordList w.text [w]
  | more (w : sq_word) {gap s : Bytes} {ws : List sq_word} (hgap : Gap gap)
    (hs : WordList s ws) : WordList (w.text ++ gap ++ s) (w :: ws)

/-- What is dropped behind a word when an escape is tried and fails. -/
def Slip (slip : Bytes) : Prop :=
  slip = [] ∨ slip = [BACKSLASH] ∨ ∃ c, need_bs_quote c ∧ slip = [BACKSLASH, c]

/-- The lines the code reads: each word with what is dropped behind it. -/
inductive Reads : Bytes → List (sq_word × Bytes) → Prop
  | last (w : sq_word) : Reads w.text [(w, [])]
  | more (w : sq_word) {slip gap s : Bytes} {ws : List (sq_word × Bytes)} (hslip : Slip slip)
    (hgap : Gap gap) (hs : Reads s ws) : Reads (w.text ++ slip ++ gap ++ s) ((w, slip) :: ws)

/-- Some word of the line has a backslash between it and the white space, alone or with a
byte it would escape. -/
def Slipped (s : Bytes) : Prop := ∃ ws, Reads s ws ∧ ∃ p ∈ ws, p.2 ≠ []

/-- The line is taken when it is a list of words, and then each string is what a shell makes
of its word. -/
def AcceptsGrammar (s : Bytes) : Prop :=
  ((sq_dequote_to_argv s).isSome ↔ ∃ ws, WordList s ws) ∧
    ∀ argv ws, sq_dequote_to_argv s = some argv → WordList s ws →
      List.Forall₂ (fun w arg => quote_removal false w.text = some arg) ws argv

/-! ## A word as the scan sees it -/

/-- A word with one more byte in front of its first segment. -/
def sq_word.cons (c : UInt8) (hc : c ≠ SQ) (w : sq_word) : sq_word where
  first := c :: w.first
  more := w.more
  plain_first := fun h => by
    rcases List.mem_cons.mp h with h | h
    · exact hc h.symm
    · exact w.plain_first h
  plain_more := w.plain_more

/-- A word with an escape in front of its first segment, and no bytes before it. -/
def sq_word.escape (c : UInt8) (hc : need_bs_quote c) (w : sq_word) : sq_word where
  first := []
  more := (c, w.first) :: w.more
  plain_first := List.not_mem_nil
  plain_more := fun p h => by
    rcases List.mem_cons.mp h with rfl | h
    · exact ⟨hc, w.plain_first⟩
    · exact w.plain_more p h

/-- The word of no bytes. -/
def sq_word.empty : sq_word := ⟨[], [], List.not_mem_nil, fun _ h => absurd h List.not_mem_nil⟩

@[simp] theorem text_cons (c : UInt8) (hc : c ≠ SQ) (w : sq_word) :
    (w.cons c hc).text = SQ :: c :: w.text.tail := rfl

@[simp] theorem value_cons (c : UInt8) (hc : c ≠ SQ) (w : sq_word) :
    (w.cons c hc).value = c :: w.value := rfl

@[simp] theorem text_escape (c : UInt8) (hc : need_bs_quote c) (w : sq_word) :
    (w.escape c hc).text = SQ :: SQ :: BACKSLASH :: c :: SQ :: w.text.tail := by
  simp [sq_word.text, sq_word.escape]

@[simp] theorem value_escape (c : UInt8) (hc : need_bs_quote c) (w : sq_word) :
    (w.escape c hc).value = c :: w.value := by
  simp [sq_word.value, sq_word.escape]

theorem text_head (w : sq_word) : w.text = SQ :: w.text.tail := rfl

/-- Every word is built from its front. -/
@[elab_as_elim]
theorem word_induction {P : sq_word → Prop} (hempty : P sq_word.empty)
    (hcons : ∀ c hc w, P w → P (sq_word.cons c hc w))
    (hescape : ∀ c hc w, P w → P (sq_word.escape c hc w)) (w : sq_word) : P w := by
  obtain ⟨first, more, hfirst, hmore⟩ := w
  induction more generalizing first with
  | nil =>
    induction first with
    | nil => exact hempty
    | cons c first ih =>
      have hc : c ≠ SQ := fun h => hfirst (h ▸ List.mem_cons_self)
      exact hcons c hc _ (ih fun h => hfirst (List.mem_cons_of_mem c h))
  | cons p more ihm =>
    induction first with
    | nil =>
      have hp := hmore p List.mem_cons_self
      exact hescape p.1 hp.1 _
        (ihm p.2 hp.2 fun q hq => hmore q (List.mem_cons_of_mem p hq))
    | cons c first ih =>
      have hc : c ≠ SQ := fun h => hfirst (h ▸ List.mem_cons_self)
      exact hcons c hc _ (ih fun h => hfirst (List.mem_cons_of_mem c h))

/-- A shell makes of a word its value. -/
theorem quote_removal_text (w : sq_word) : quote_removal false w.text = some w.value := by
  have hin : quote_removal true w.text.tail = some w.value := by
    induction w using word_induction with
    | hempty => decide
    | hcons c hc w ih =>
      rw [text_cons, value_cons, List.tail_cons, removal_quoted hc, ih]
      rfl
    | hescape c hc w ih =>
      have hlf : c ≠ 10 := by rintro rfl; exact absurd hc (by decide)
      rw [text_escape, value_escape, List.tail_cons, removal_quote, Bool.not_true,
        removal_escape hlf, removal_quote, Bool.not_false, ih]
      rfl
  rw [text_head, removal_quote]
  exact hin

theorem scan_text (w : sq_word) (after : Bytes) :
    scan (w.text.tail ++ after) = (scan (SQ :: after)).map fun p => (w.value ++ p.1, p.2) := by
  induction w using word_induction with
  | hempty => simp [sq_word.text, sq_word.empty, sq_word.value]
  | hcons c hc w ih =>
    rw [text_cons, value_cons, List.tail_cons, List.cons_append, scan_plain hc, ih,
      Option.map_map]
    rfl
  | hescape c hc w ih =>
    rw [text_escape, value_escape, List.tail_cons]
    simp only [List.cons_append]
    rw [scan_escape hc, ih, Option.map_map]
    rfl

/-- The last word. -/
theorem scan_last (w : sq_word) : scan w.text.tail = some (w.value, .finish) := by
  have h := scan_text w []
  rw [List.append_nil] at h
  simpa [scan_close] using h

theorem gap_then_gap {gap s : Bytes} (slip : Bytes) (hgap : Gap gap)
    (hs : ∀ c, s.head? = some c → ¬ isspace c) :
    gap_then slip (gap ++ s) = some (.more slip s) := by
  obtain ⟨g, gap, rfl⟩ := List.exists_cons_of_ne_nil hgap.1
  have hrest : (gap ++ s).dropWhile isspace = s := by
    rw [List.dropWhile_append_of_pos fun c hc => hgap.2 c (List.mem_cons_of_mem g hc)]
    cases s with
    | nil => rfl
    | cons c s => exact List.dropWhile_cons_of_neg (hs c rfl)
  rw [List.cons_append, gap_then, if_pos (hgap.2 g List.mem_cons_self), hrest]

/-- A word with white space behind it, and what is dropped between the two. -/
theorem scan_more (w : sq_word) {slip gap s : Bytes} (hslip : Slip slip) (hgap : Gap gap)
    (hs : ∀ c, s.head? = some c → ¬ isspace c) :
    scan (w.text.tail ++ (slip ++ gap ++ s)) = some (w.value, .more slip s) := by
  have hthen := fun slip => gap_then_gap slip hgap hs
  obtain ⟨g, gap, rfl⟩ := List.exists_cons_of_ne_nil hgap.1
  have hg := hgap.2 g List.mem_cons_self
  have hscan : scan (SQ :: (slip ++ g :: gap ++ s)) = some ([], .more slip s) := by
    have hb : g ≠ BACKSLASH := by rintro rfl; exact absurd hg (by decide)
    have hq : g ≠ SQ := by rintro rfl; exact absurd hg (by decide)
    have hn : ¬ need_bs_quote g := by
      intro h
      simp only [need_bs_quote, Bool.or_eq_true, beq_iff_eq] at h
      rcases h with rfl | rfl <;> exact absurd hg (by decide)
    rcases hslip with rfl | rfl | ⟨c, hc, rfl⟩
    · exact (scan_other hb _).trans (congrArg _ (hthen _))
    · exact (scan_slip hn _).trans (congrArg _ (hthen _))
    · exact (scan_slip_escape hc hq _).trans (congrArg _ (hthen _))
  rw [scan_text, hscan]
  simp

/-! ## What the scan reads is a word -/

theorem gap_then_some {slip t rest dropped : Bytes}
    (h : gap_then slip t = some (.more dropped rest)) :
    dropped = slip ∧ ∃ gap, Gap gap ∧ t = gap ++ rest := by
  cases t with
  | nil => cases h
  | cons c t =>
    simp only [gap_then] at h
    split at h
    · next hc =>
      cases h
      refine ⟨rfl, c :: t.takeWhile isspace, ⟨List.cons_ne_nil _ _, ?_⟩, ?_⟩
      · intro d hd
        rcases List.mem_cons.mp hd with rfl | hd
        · exact hc
        · exact List.mem_takeWhile_imp hd
      · rw [List.cons_append, List.takeWhile_append_dropWhile]
    · cases h

theorem gap_then_more {slip t : Bytes} {b : Behind} (h : gap_then slip t = some b) :
    ∃ rest, b = .more slip rest ∧ ∃ gap, Gap gap ∧ t = gap ++ rest := by
  cases b with
  | finish =>
    cases t with
    | nil => cases h
    | cons c t =>
      simp only [gap_then] at h
      split at h <;> cases h
  | more dropped rest =>
    obtain ⟨rfl, hgap⟩ := gap_then_some h
    exact ⟨rest, rfl, hgap⟩

/-- How the text behind an opening quote goes on, when a word with value `v` is read. -/
def Shows (t v : Bytes) (b : Behind) : Prop :=
  ∃ w : sq_word, w.value = v ∧
    match b with
    | .finish => t = w.text.tail
    | .more slip rest =>
      Slip slip ∧ ∃ gap, Gap gap ∧ t = w.text.tail ++ (slip ++ gap ++ rest)

theorem Shows.cons {c : UInt8} {t v : Bytes} {b : Behind} (hc : c ≠ SQ) (h : Shows t v b) :
    Shows (c :: t) (c :: v) b := by
  obtain ⟨w, rfl, h⟩ := h
  refine ⟨w.cons c hc, value_cons c hc w, ?_⟩
  cases b with
  | finish => rw [text_cons, List.tail_cons, ← h]
  | more slip rest =>
    obtain ⟨hslip, gap, hgap, rfl⟩ := h
    exact ⟨hslip, gap, hgap, by simp⟩

theorem Shows.escape {c : UInt8} {t v : Bytes} {b : Behind} (hc : need_bs_quote c)
    (h : Shows t v b) : Shows (SQ :: BACKSLASH :: c :: SQ :: t) (c :: v) b := by
  obtain ⟨w, rfl, h⟩ := h
  refine ⟨w.escape c hc, value_escape c hc w, ?_⟩
  cases b with
  | finish => rw [text_escape, List.tail_cons, ← h]
  | more slip rest =>
    obtain ⟨hslip, gap, hgap, rfl⟩ := h
    exact ⟨hslip, gap, hgap, by simp⟩

theorem Shows.gap {slip t : Bytes} {b : Behind} (hslip : Slip slip)
    (h : gap_then slip t = some b) : Shows (SQ :: (slip ++ t)) [] b := by
  obtain ⟨rest, rfl, gap, hgap, rfl⟩ := gap_then_more h
  refine ⟨sq_word.empty, rfl, hslip, gap, hgap, ?_⟩
  simp [sq_word.text, sq_word.empty]

theorem map_cons_some {x : Option (Bytes × Behind)} {c : UInt8} {v : Bytes} {b : Behind}
    (h : (x.map fun p => (c :: p.1, p.2)) = some (v, b)) :
    ∃ v', v = c :: v' ∧ x = some (v', b) := by
  rcases x with _ | ⟨v', b'⟩
  · cases h
  · cases h
    exact ⟨v', rfl, rfl⟩

theorem map_nil_some {x : Option Behind} {v : Bytes} {b : Behind}
    (h : (x.map fun b => (([] : Bytes), b)) = some (v, b)) : v = [] ∧ x = some b := by
  rcases x with _ | b'
  · cases h
  · cases h
    exact ⟨rfl, rfl⟩

theorem scan_shows {t v : Bytes} {b : Behind} (h : scan t = some (v, b)) : Shows t v b := by
  induction t using scan.induct generalizing v with
  | case1 => cases h
  | case2 c t hc ih =>
    rw [scan_plain hc] at h
    obtain ⟨v', rfl, hv⟩ := map_cons_some h
    exact (ih hv).cons hc
  | case3 c hc =>
    obtain rfl := not_not.mp hc
    cases h
    exact ⟨sq_word.empty, rfl, rfl⟩
  | case4 c hc =>
    obtain rfl := not_not.mp hc
    cases h
  | case5 c hc e he =>
    obtain rfl := not_not.mp hc
    rw [scan_escape_open he] at h
    cases h
  | case6 c hc e he t ih =>
    obtain rfl := not_not.mp hc
    rw [scan_escape he] at h
    obtain ⟨v', rfl, hv⟩ := map_cons_some h
    exact (ih hv).escape he
  | case7 c hc e he f t hf =>
    obtain rfl := not_not.mp hc
    rw [scan_slip_escape he hf] at h
    obtain ⟨rfl, hb⟩ := map_nil_some h
    exact Shows.gap (.inr (.inr ⟨e, he, rfl⟩)) hb
  | case8 c hc e t he =>
    obtain rfl := not_not.mp hc
    rw [scan_slip he] at h
    obtain ⟨rfl, hb⟩ := map_nil_some h
    exact Shows.gap (.inr (.inl rfl)) hb
  | case9 c hc d t hd =>
    obtain rfl := not_not.mp hc
    rw [scan_other hd] at h
    obtain ⟨rfl, hb⟩ := map_nil_some h
    exact Shows.gap (.inl rfl) hb

/-! ## The lines the code takes -/

theorem Reads.head {s : Bytes} {ws : List (sq_word × Bytes)} (h : Reads s ws) :
    ∃ t, s = SQ :: t := by
  cases h with
  | last w => exact ⟨_, text_head w⟩
  | more w hslip hgap hs =>
    rw [text_head w]
    exact ⟨_, rfl⟩

theorem Reads.head_not_space {s : Bytes} {ws : List (sq_word × Bytes)} (h : Reads s ws) :
    ∀ c, s.head? = some c → ¬ isspace c := by
  obtain ⟨t, rfl⟩ := h.head
  rintro c ⟨⟩
  decide

theorem Reads.length {s : Bytes} {ws : List (sq_word × Bytes)} (h : Reads s ws) :
    ws.length ≤ s.length := by
  induction h with
  | last w =>
    rw [text_head, List.length_cons, List.length_cons, List.length_nil]
    omega
  | more w hslip hgap hs ih =>
    rw [text_head]
    simp only [List.length_cons, List.length_append]
    omega

theorem WordList.reads {s : Bytes} {ws : List sq_word} (h : WordList s ws) :
    Reads s (ws.map fun w => (w, [])) := by
  induction h with
  | last w => exact .last w
  | more w hgap hs ih =>
    have h := Reads.more w (.inl rfl) hgap ih
    rw [List.append_nil] at h
    exact h

theorem Reads.wordList {s : Bytes} {ws : List (sq_word × Bytes)} (h : Reads s ws)
    (hno : ∀ p ∈ ws, p.2 = []) : WordList s (ws.map Prod.fst) := by
  induction h with
  | last w => exact .last w
  | @more w slip gap s ws hslip hgap hs ih =>
    obtain rfl : slip = [] := hno (w, slip) List.mem_cons_self
    rw [List.append_nil]
    exact .more w hgap (ih fun p hp => hno p (List.mem_cons_of_mem _ hp))

/-- The front of a line that is read. -/
theorem Reads.front {s : Bytes} {ws : List (sq_word × Bytes)} (h : Reads s ws) :
    ∃ t w slip more, s = SQ :: t ∧ ws = (w, slip) :: more ∧
      (scan t = some (w.value, .finish) ∧ slip = [] ∧ more = [] ∨
        ∃ rest, scan t = some (w.value, .more slip rest) ∧ Reads rest more) := by
  cases h with
  | last w => exact ⟨w.text.tail, w, [], [], text_head w, rfl, .inl ⟨scan_last w, rfl, rfl⟩⟩
  | @more w slip gap s more hslip hgap hs =>
    refine ⟨w.text.tail ++ (slip ++ gap ++ s), w, slip, more, ?_, rfl,
      .inr ⟨s, scan_more w hslip hgap hs.head_not_space, hs⟩⟩
    rw [← List.cons_append, ← text_head]
    simp only [List.append_assoc]

/-- What is dropped is told by the line. -/
theorem Reads.slips_unique {s : Bytes} {ws ws' : List (sq_word × Bytes)} (h : Reads s ws)
    (h' : Reads s ws') : ws.map Prod.snd = ws'.map Prod.snd := by
  induction ws generalizing s ws' with
  | nil => obtain ⟨t, w, slip, more, _, ⟨⟩, _⟩ := h.front
  | cons p ws ih =>
    obtain ⟨t, w, slip, more, rfl, ⟨⟩, hw⟩ := h.front
    obtain ⟨t', w', slip', more', ⟨⟩, rfl, hw'⟩ := h'.front
    rcases hw with ⟨hscan, rfl, rfl⟩ | ⟨rest, hscan, hrest⟩
    · rcases hw' with ⟨_, rfl, rfl⟩ | ⟨rest', hscan', _⟩
      · rfl
      · have hb := congrArg (Option.map Prod.snd) (hscan.symm.trans hscan')
        cases hb
    · rcases hw' with ⟨hscan', _, _⟩ | ⟨rest', hscan', hrest'⟩
      · have hb := congrArg (Option.map Prod.snd) (hscan.symm.trans hscan')
        cases hb
      · have hb := congrArg (Option.map Prod.snd) (hscan.symm.trans hscan')
        cases hb
        rw [List.map_cons, List.map_cons, ih hrest hrest']

/-- The call at the start of a word. -/
theorem step_leaves (pre t : Bytes) (h0 : (0 : UInt8) ∉ t) :
    Leaves true pre (scan t) (sq_dequote_step true (pre ++ SQ :: t ++ [0]) pre.length) := by
  have hat : byte_at (pre ++ SQ :: t ++ [0]) pre.length = SQ := by
    rw [List.append_assoc]
    exact byte_at_append pre (SQ :: t ++ [0]) 0
  have h := loop_leaves true (pre ++ SQ :: t ++ [0]).length pre [SQ] t (List.cons_ne_nil _ _)
    (by simp only [List.length_append, List.length_cons]; omega) h0
  rw [sq_dequote_step, hat, if_neg (not_not.mpr rfl)]
  simpa using h

/-- A string that ends in front of the rest of the buffer. -/
theorem string_at_append (pre : Bytes) {v after : Bytes} (h0 : (0 : UInt8) ∉ v) :
    string_at (pre ++ v ++ 0 :: after) pre.length = v := by
  have hv : ∀ c ∈ v, decide (c ≠ 0) = true := by
    intro c hc
    refine decide_eq_true ?_
    rintro rfl
    exact h0 hc
  rw [string_at, List.append_assoc, List.drop_left, c_str, List.takeWhile_append_of_pos hv]
  simp

theorem value_mem_text (w : sq_word) {c : UInt8} (hc : c ∈ w.value) : c ∈ w.text := by
  simp only [sq_word.value, sq_word.text, List.mem_append, List.mem_flatMap, List.mem_cons]
    at hc ⊢
  rcases hc with hc | ⟨p, hp, hc | hc⟩
  · exact .inl (.inl (.inr hc))
  · exact .inr ⟨p, hp, .inl (.inr (.inl hc))⟩
  · exact .inr ⟨p, hp, .inl (.inr (.inr (.inr hc)))⟩

/-- The strings of the words, with the bytes in front of them as they were. -/
theorem Reads.argv {s : Bytes} {ws : List (sq_word × Bytes)} (h : Reads s ws)
    (h0 : (0 : UInt8) ∉ s) (fuel : Nat) (pre : Bytes) (argv : List Nat)
    (hf : ws.length ≤ fuel) :
    ∃ after places, to_argv_loop fuel (pre ++ s ++ [0]) pre.length argv =
        some (pre ++ after, argv ++ places) ∧
      places.map (string_at (pre ++ after)) = ws.map fun p => p.1.value := by
  induction h generalizing fuel pre argv with
  | last w =>
    obtain ⟨fuel, rfl⟩ : ∃ n, fuel = n + 1 := Nat.exists_eq_add_of_le' hf
    have hv : (0 : UInt8) ∉ w.value := fun h => h0 (value_mem_text w h)
    rw [text_head, List.mem_cons, not_or] at h0
    have hstep := step_leaves pre w.text.tail h0.2
    rw [scan_last, ← text_head] at hstep
    obtain ⟨junk, hstep⟩ := hstep
    refine ⟨w.value ++ 0 :: junk, [pre.length], ?_, ?_⟩
    · rw [to_argv_loop, hstep, ← List.append_assoc]
    · rw [← List.append_assoc, List.map_singleton, string_at_append _ hv, List.map_singleton]
  | @more w slip gap s ws hslip hgap hs ih =>
    obtain ⟨fuel, rfl⟩ := Nat.exists_eq_add_of_le' (Nat.le_trans (Nat.le_add_left 1 _) hf)
    have hv : (0 : UInt8) ∉ w.value := fun h => h0 (by
      simp only [List.mem_append]
      exact .inl (.inl (.inl (value_mem_text w h))))
    have hs0 : (0 : UInt8) ∉ s := fun h => h0 (List.mem_append_right _ h)
    have htext : w.text ++ slip ++ gap ++ s = SQ :: (w.text.tail ++ (slip ++ gap ++ s)) := by
      rw [← List.cons_append, ← text_head]
      simp only [List.append_assoc]
    rw [htext] at h0 ⊢
    have hstep := step_leaves pre _ fun h => h0 (List.mem_cons_of_mem _ h)
    rw [scan_more w hslip hgap hs.head_not_space] at hstep
    obtain ⟨junk, hstep⟩ := hstep
    obtain ⟨after, places, hloop, hplaces⟩ := ih hs0 fuel (pre ++ w.value ++ 0 :: junk)
      (argv ++ [pre.length]) (Nat.le_of_succ_le_succ hf)
    have hbuf : pre ++ (w.value ++ 0 :: junk ++ after) =
        pre ++ w.value ++ 0 :: junk ++ after := by simp only [List.append_assoc]
    refine ⟨w.value ++ 0 :: junk ++ after, pre.length :: places, ?_, ?_⟩
    · simp only [to_argv_loop, hstep]
      rw [hloop, hbuf]
      simp
    · rw [hbuf, List.map_cons, hplaces, List.append_assoc _ (0 :: junk), List.cons_append,
        string_at_append _ hv]
      rfl

/-- Where the loop comes to an end, it has read a line of words. -/
theorem argv_reads {s : Bytes} (h0 : (0 : UInt8) ∉ s) {fuel : Nat} (pre : Bytes)
    {argv : List Nat} {r : Bytes × List Nat}
    (h : to_argv_loop fuel (pre ++ s ++ [0]) pre.length argv = some r) : ∃ ws, Reads s ws := by
  induction fuel generalizing s pre argv with
  | zero => cases h
  | succ fuel ih =>
    have hat : byte_at (pre ++ s ++ [0]) pre.length = byte_at (s ++ [0]) 0 := by
      rw [List.append_assoc]
      exact byte_at_append pre (s ++ [0]) 0
    by_cases hq : byte_at (s ++ [0]) 0 = SQ
    · obtain ⟨t, rfl⟩ : ∃ t, s = SQ :: t := by
        cases s with
        | nil => cases hq
        | cons c t => exact ⟨t, congrArg (· :: t) hq⟩
      have ht : (0 : UInt8) ∉ t := fun h => h0 (List.mem_cons_of_mem _ h)
      have hstep := step_leaves pre t ht
      cases hscan : scan t with
      | none =>
        rw [hscan] at hstep
        rw [to_argv_loop, show sq_dequote_step true _ _ = none from hstep] at h
        cases h
      | some p =>
        obtain ⟨v, b⟩ := p
        rw [hscan] at hstep
        obtain ⟨w, _, hw⟩ := scan_shows hscan
        cases b with
        | finish =>
          obtain rfl : t = w.text.tail := hw
          rw [← text_head]
          exact ⟨_, .last w⟩
        | more slip rest =>
          obtain ⟨hslip, gap, hgap, rfl⟩ := hw
          obtain ⟨junk, hstep⟩ := hstep
          rw [to_argv_loop, hstep] at h
          obtain ⟨ws, hws⟩ := ih (fun h => ht (by simp [h])) _ h
          have hr := Reads.more w hslip hgap hws
          rw [text_head w] at hr
          exact ⟨_, by simpa only [List.cons_append, List.append_assoc] using hr⟩
    · rw [to_argv_loop, sq_dequote_step, hat, if_pos hq] at h
      cases h

/-- What the code accepts, and with which strings. -/
theorem sq_dequote_to_argv_reads {s : Bytes} (hs : s ≠ []) (h0 : (0 : UInt8) ∉ s)
    (argv : List Bytes) :
    sq_dequote_to_argv s = some argv ↔
      ∃ ws, Reads s ws ∧ argv = ws.map fun p => p.1.value := by
  have hat : ¬ byte_at (s ++ [0]) 0 = 0 := by
    obtain ⟨c, t, rfl⟩ := List.exists_cons_of_ne_nil hs
    intro h
    obtain rfl : c = 0 := h
    exact h0 List.mem_cons_self
  have hgives : ∀ ws, Reads s ws →
      sq_dequote_to_argv s = some (ws.map fun p => p.1.value) := by
    intro ws hws
    obtain ⟨after, places, hloop, hplaces⟩ := hws.argv h0 (s ++ [0]).length [] []
      (le_trans hws.length (by simp))
    rw [List.nil_append] at hloop hplaces
    rw [← hplaces, sq_dequote_to_argv]
    dsimp only
    rw [if_neg hat, show to_argv_loop _ _ 0 [] = _ from hloop]
    rfl
  constructor
  · intro h
    have hsome := h
    simp only [sq_dequote_to_argv] at hsome
    rw [if_neg hat, Option.map_eq_some_iff] at hsome
    obtain ⟨r, hr, _⟩ := hsome
    obtain ⟨ws, hws⟩ := argv_reads h0 [] hr
    exact ⟨ws, hws, Option.some.inj (h.symm.trans (hgives ws hws))⟩
  · rintro ⟨ws, hws, rfl⟩
    exact hgives ws hws

/-! ## The results -/

/-- A line where bytes are dropped is taken, and is no list of words. -/
theorem Slipped.taken {s : Bytes} (h : Slipped s) (h0 : (0 : UInt8) ∉ s) :
    ¬ AcceptsGrammar s := by
  obtain ⟨ws, hws, p, hp, hne⟩ := h
  have hs : s ≠ [] := by
    obtain ⟨t, rfl⟩ := hws.head
    exact List.cons_ne_nil SQ t
  rintro ⟨htaken, _⟩
  obtain ⟨ws', hlist⟩ := htaken.mp (Option.isSome_iff_exists.mpr
    ⟨_, (sq_dequote_to_argv_reads hs h0 _).mpr ⟨ws, hws, rfl⟩⟩)
  have hslip : p.2 ∈ (ws'.map fun w => (w, ([] : Bytes))).map Prod.snd :=
    hws.slips_unique hlist.reads ▸ List.mem_map_of_mem hp
  simp only [List.map_map, List.mem_map, Function.comp_apply] at hslip
  obtain ⟨_, _, h⟩ := hslip
  exact hne h.symm

/-- Whether a line is taken as its grammar says: not where a backslash was dropped. -/
theorem accepts_grammar_iff (s : Bytes) (hs : s ≠ []) (h0 : (0 : UInt8) ∉ s) :
    AcceptsGrammar s ↔ ¬ Slipped s := by
  have hargv := sq_dequote_to_argv_reads hs h0
  constructor
  · exact fun h hslip => hslip.taken h0 h
  · intro hno
    refine ⟨⟨fun h => ?_, ?_⟩, ?_⟩
    · obtain ⟨argv, h⟩ := Option.isSome_iff_exists.mp h
      obtain ⟨ws, hws, _⟩ := (hargv argv).mp h
      refine ⟨_, hws.wordList fun p hp => ?_⟩
      by_contra hne
      exact hno ⟨ws, hws, p, hp, hne⟩
    · rintro ⟨ws, hlist⟩
      exact Option.isSome_iff_exists.mpr ⟨_, (hargv _).mpr ⟨_, hlist.reads, rfl⟩⟩
    · intro argv ws h hlist
      have hvalues := (hargv _).mpr ⟨_, hlist.reads, rfl⟩
      obtain rfl := Option.some.inj (h.symm.trans hvalues)
      rw [List.map_map, List.forall₂_map_right_iff, List.forall₂_same]
      exact fun w _ => quote_removal_text w

/-- What `sq_quote_print` writes, byte by byte. -/
def sq_quote_print (src : Bytes) : Bytes :=
  SQ :: src.flatMap (fun c => if need_bs_quote c then bs_quoted c else [c]) ++ [SQ]

/-- The word of a text. -/
def quoted : Bytes → sq_word
  | [] => .empty
  | c :: src =>
    if hc : need_bs_quote c then .escape c hc (quoted src)
    else .cons c (fun h => hc (h ▸ rfl)) (quoted src)

theorem quoted_value (src : Bytes) : (quoted src).value = src := by
  induction src with
  | nil => rfl
  | cons c src ih =>
    rw [quoted]
    split
    · rw [value_escape, ih]
    · rw [value_cons, ih]

theorem quoted_text (src : Bytes) : (quoted src).text = sq_quote_print src := by
  induction src with
  | nil => rfl
  | cons c src ih =>
    rw [quoted]
    split
    · next hc =>
      rw [text_escape, ih]
      simp [sq_quote_print, hc, bs_quoted]
    · next hc =>
      rw [text_cons, ih]
      simp [sq_quote_print, hc]

/-- Both functions write the same. -/
theorem sq_quote_runs_eq (src : Bytes) {fuel : Nat} (hf : src.length < fuel) :
    sq_quote_runs fuel src =
      src.flatMap fun c => if need_bs_quote c then bs_quoted c else [c] := by
  induction fuel generalizing src with
  | zero => exact absurd hf (Nat.not_lt_zero _)
  | succ fuel ih =>
    rw [sq_quote_runs]
    split
    · next hnil => rw [hnil, List.flatMap_nil]
    next hne =>
    let plain := src.takeWhile fun c => !need_bs_quote c
    let rest := src.dropWhile fun c => !need_bs_quote c
    have hsrc : src = plain ++ (rest.takeWhile need_bs_quote ++ rest.dropWhile need_bs_quote) := by
      rw [List.takeWhile_append_dropWhile, List.takeWhile_append_dropWhile]
    -- the first byte is in one of the two runs
    have hshort : (rest.dropWhile need_bs_quote).length < src.length := by
      obtain ⟨c, src, rfl⟩ := List.exists_cons_of_ne_nil hne
      rw [List.length_cons, Nat.lt_succ_iff]
      by_cases hc : need_bs_quote c
      · have hrest : rest = c :: src := List.dropWhile_cons_of_neg (by simpa using hc)
        rw [hrest, List.dropWhile_cons_of_pos hc]
        exact (List.dropWhile_suffix _).length_le
      · have hrest : rest = src.dropWhile fun c => !need_bs_quote c :=
          List.dropWhile_cons_of_pos (by simpa using hc)
        rw [hrest]
        exact ((List.dropWhile_suffix _).trans (List.dropWhile_suffix _)).length_le
    have hplain : (plain.flatMap fun c => if need_bs_quote c then bs_quoted c else [c]) =
        plain := by
      rw [List.flatMap_congr (g := fun c => [c]), List.flatMap_singleton']
      intro c hc
      have hn := List.mem_takeWhile_imp hc
      exact if_neg (by simpa using hn)
    have hescape : ((rest.takeWhile need_bs_quote).flatMap
        fun c => if need_bs_quote c then bs_quoted c else [c]) =
          (rest.takeWhile need_bs_quote).flatMap bs_quoted :=
      List.flatMap_congr fun c hc => if_pos (List.mem_takeWhile_imp hc)
    conv_rhs => rw [hsrc]
    rw [List.flatMap_append, List.flatMap_append, hplain, hescape,
      ← ih (rest.dropWhile need_bs_quote) (by omega), List.append_assoc]

theorem sq_quote_buf_eq (dst src : Bytes) : sq_quote_buf dst src = dst ++ sq_quote_print src := by
  rw [sq_quote_buf, sq_quote_runs_eq src (Nat.lt_succ_self _), sq_quote_print]
  simp

/-- The texts joined are the list of their words. -/
theorem joined_words {args : List Bytes} (hne : args ≠ []) :
    WordList (sq_quote_joined args) (args.map quoted) := by
  induction args with
  | nil => exact absurd rfl hne
  | cons a args ih =>
    have ha : sq_quote_buf [] a = (quoted a).text := by
      rw [sq_quote_buf_eq, List.nil_append, quoted_text]
    cases args with
    | nil =>
      rw [sq_quote_joined, ha]
      exact .last (quoted a)
    | cons b args =>
      have hgap : Gap [SPACE] := ⟨List.cons_ne_nil _ _, by simp [isspace]⟩
      have h := WordList.more (quoted a) hgap (ih (List.cons_ne_nil b args))
      rw [sq_quote_joined, ha]
      · simpa using h
      · simp

theorem quoted_nul_free {a : Bytes} (ha : (0 : UInt8) ∉ a) : (0 : UInt8) ∉ (quoted a).text := by
  intro h
  simp only [quoted_text, sq_quote_print, List.mem_append, List.mem_cons, List.mem_flatMap,
    List.not_mem_nil, or_false] at h
  rcases h with (h | ⟨c, hc, h⟩) | h
  · exact absurd h (by decide)
  · split at h
    · simp only [bs_quoted, List.mem_cons, List.not_mem_nil, or_false] at h
      rcases h with h | h | rfl | h
      · exact absurd h (by decide)
      · exact absurd h (by decide)
      · exact ha hc
      · exact absurd h (by decide)
    · rw [List.mem_singleton] at h
      exact ha (h ▸ hc)
  · exact absurd h (by decide)

theorem joined_nul_free {args : List Bytes} (hargs : ∀ a ∈ args, (0 : UInt8) ∉ a) :
    (0 : UInt8) ∉ sq_quote_joined args := by
  induction args with
  | nil => exact List.not_mem_nil
  | cons a args ih =>
    have ha : (0 : UInt8) ∉ sq_quote_buf [] a := by
      rw [sq_quote_buf_eq, List.nil_append, ← quoted_text]
      exact quoted_nul_free (hargs a List.mem_cons_self)
    cases args with
    | nil => exact ha
    | cons b args =>
      have hmore := ih fun x hx => hargs x (List.mem_cons_of_mem a hx)
      rw [sq_quote_joined, List.mem_append, List.mem_cons, not_or, not_or]
      · exact ⟨ha, by decide, hmore⟩
      · simp

/-- What is quoted is read back: a list of texts, and a text alone. -/
theorem sq_dequote_quoted :
    (∀ args : List Bytes, (∀ a ∈ args, (0 : UInt8) ∉ a) →
      sq_dequote_to_argv (sq_quote_joined args) = some args) ∧
    ∀ a : Bytes, (0 : UInt8) ∉ a → sq_dequote (sq_quote_buf [] a) = some a := by
  constructor
  · intro args hargs
    by_cases hne : args = []
    · subst hne
      rfl
    · have hlist := joined_words hne
      have hs : sq_quote_joined args ≠ [] := by
        obtain ⟨t, ht⟩ := hlist.reads.head
        rw [ht]
        exact List.cons_ne_nil _ _
      refine (sq_dequote_to_argv_reads hs (joined_nul_free hargs) args).mpr
        ⟨_, hlist.reads, ?_⟩
      simp [Function.comp_def, quoted_value]
  · intro a ha
    have htext : sq_quote_buf [] a = SQ :: (quoted a).text.tail := by
      rw [sq_quote_buf_eq, List.nil_append, ← quoted_text, ← text_head]
    have h0 := quoted_nul_free ha
    rw [text_head, List.mem_cons, not_or] at h0
    have h := loop_leaves false (sq_quote_buf [] a ++ [0]).length [] [SQ] (quoted a).text.tail
      (List.cons_ne_nil _ _) (by rw [htext]; simp) h0.2
    rw [scan_last, quoted_value] at h
    obtain ⟨junk, h⟩ := h
    have hstep : sq_dequote_step false (sq_quote_buf [] a ++ [0]) 0 =
        some ([] ++ a ++ 0 :: junk, none) := by
      rw [sq_dequote_step, if_neg (by rw [htext]; exact not_not.mpr rfl), ← h, htext]
      rfl
    rw [sq_dequote, hstep, Option.map_some]
    exact congrArg some (string_at_append [] ha)

theorem sq_dequote_quoted_some :
    sq_dequote_to_argv (sq_quote_joined [[97, 32, 39], [], [92, 33]]) =
      some [[97, 32, 39], [], [92, 33]] ∧
    sq_dequote (sq_quote_buf [] [39, 33]) = some [39, 33] :=
  ⟨sq_dequote_quoted.1 _ (by decide), sq_dequote_quoted.2 _ (by decide)⟩

theorem accepts_grammar_one : AcceptsGrammar [SQ, 97, SQ] ↔ ¬ Slipped [SQ, 97, SQ] :=
  accepts_grammar_iff _ (by decide) (by decide)

/-- The line `'a'\ 'b'` is taken with its backslash dropped. -/
theorem not_accepts_grammar :
    sq_dequote_to_argv [39, 97, 39, 92, 32, 39, 98, 39] = some [[97], [98]] ∧
      ¬ ∀ s : Bytes, s ≠ [] → (0 : UInt8) ∉ s → AcceptsGrammar s := by
  refine ⟨by decide, fun h => ?_⟩
  have hgap : Gap [SPACE] := ⟨List.cons_ne_nil _ _, by simp [isspace]⟩
  have hreads := Reads.more (quoted [97]) (.inr (.inl rfl)) hgap (.last (quoted [98]))
  refine Slipped.taken ⟨_, hreads, _, List.mem_cons_self, ?_⟩ (by decide)
    (h _ (by decide) (by decide))
  exact List.cons_ne_nil _ _

end git.sq_quote
