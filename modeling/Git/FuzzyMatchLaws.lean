-- When the comparison of two lines is right: what it says of the lines as their text is
-- without changes of white space, and what it has to read for it.
import Git.FuzzyMatch

namespace git.fuzzy_match

open git.quote git.header_name git.ws

/-! ## The text of a line -/

/-- Each run of white space is one space. -/
def squeeze : Bytes → Bytes
  | [] => []
  | c :: l =>
    if isspace c then if l.head?.any isspace then squeeze l else SPACE :: squeeze l
    else c :: squeeze l

/-- A text without the white space at its end, and with a space for each run. -/
def tight (x : Bytes) : Bytes := squeeze (strip_trailing x)

/-- The line without its terminator and the white space around it, runs being one space. -/
def normal (l : Bytes) : Bytes := tight (l.dropWhile isspace)

theorem strip_trailing_cons (a : UInt8) (l : Bytes) :
    strip_trailing (a :: l) =
      if strip_trailing l = [] then if isspace a then [] else [a] else a :: strip_trailing l := by
  unfold strip_trailing List.rdropWhile
  rw [List.reverse_cons, List.dropWhile_append]
  by_cases h : l.reverse.dropWhile isspace = []
  · rw [h, List.isEmpty_nil, if_pos rfl, List.reverse_nil, if_pos rfl, List.dropWhile_cons]
    split_ifs <;> rfl
  · have hempty : ¬ (l.reverse.dropWhile isspace).isEmpty = true := fun hnil =>
      h (List.isEmpty_iff.mp hnil)
    rw [if_neg hempty, if_neg fun hnil => h (List.reverse_eq_nil_iff.mp hnil), List.reverse_append]
    rfl

theorem strip_trailing_eq_nil {l : Bytes} : strip_trailing l = [] ↔ l.dropWhile isspace = [] := by
  rw [strip_trailing, List.rdropWhile_eq_nil_iff, List.dropWhile_eq_nil_iff]

theorem strip_dropWhile (l : Bytes) :
    strip_trailing (l.dropWhile isspace) = (strip_trailing l).dropWhile isspace := by
  induction l with
  | nil => rfl
  | cons a l ih =>
    rw [strip_trailing_cons, List.dropWhile_cons]
    by_cases ha : isspace a = true
    · rw [if_pos ha, if_pos ha, ih]
      split_ifs with h
      · rw [h]
      · rw [List.dropWhile_cons, if_pos ha]
    · rw [if_neg ha, if_neg ha, strip_trailing_cons, if_neg ha]
      split_ifs with h
      · rw [List.dropWhile_cons, if_neg ha]
      · rw [List.dropWhile_cons, if_neg ha]

theorem strip_trailing_append {x e : Bytes} (he : ∀ c ∈ e, isspace c = true) :
    strip_trailing (x ++ e) = strip_trailing x := by
  unfold strip_trailing List.rdropWhile
  rw [List.reverse_append, List.dropWhile_append]
  have hnil : e.reverse.dropWhile isspace = [] :=
    List.dropWhile_eq_nil_iff.mpr fun c hc => he c (List.mem_reverse.mp hc)
  rw [hnil, List.isEmpty_nil, if_pos rfl]

theorem squeeze_space {a : UInt8} (ha : isspace a = true) (l : Bytes) :
    squeeze (a :: l) = SPACE :: squeeze (l.dropWhile isspace) := by
  induction l generalizing a with
  | nil => rw [squeeze, if_pos ha]; rfl
  | cons b l ih =>
    rw [squeeze, if_pos ha, List.head?_cons, Option.any_some, List.dropWhile_cons]
    by_cases hb : isspace b = true
    · rw [if_pos hb, if_pos hb, ih hb]
    · rw [if_neg hb, if_neg hb]

theorem tight_cons {a : UInt8} (ha : isspace a = false) (x : Bytes) :
    tight (a :: x) = a :: tight x := by
  have hne : ¬ isspace a = true := by
    rw [ha]
    exact Bool.false_ne_true
  unfold tight
  rw [strip_trailing_cons, if_neg hne]
  by_cases h : strip_trailing x = []
  · simp only [h, if_true, squeeze, if_neg hne]
  · rw [if_neg h, squeeze, if_neg hne]

theorem tight_blank {x : Bytes} (h : x.dropWhile isspace = []) : tight x = [] := by
  rw [tight, strip_trailing_eq_nil.mpr h]
  rfl

theorem tight_space {a : UInt8} (ha : isspace a = true) {x : Bytes}
    (h : x.dropWhile isspace ≠ []) : tight (a :: x) = SPACE :: tight (x.dropWhile isspace) := by
  unfold tight
  rw [strip_trailing_cons, if_neg fun hnil => h (strip_trailing_eq_nil.mp hnil),
    squeeze_space ha, strip_dropWhile]

/-! ## The comparison of two texts -/

/-- A text goes on with white space, or is at its end. -/
def starts_space (x : Bytes) : Bool := x.head?.all isspace

/-- White space on both sides is passed over together. -/
def skipped (x y : Bytes) : Bytes × Bytes :=
  if starts_space x && starts_space y then (x.dropWhile isspace, y.dropWhile isspace) else (x, y)

theorem skipped_length (x y : Bytes) : (skipped x y).1.length ≤ x.length := by
  unfold skipped
  split_ifs
  · exact List.length_dropWhile_le isspace x
  · exact le_refl _

/-- What two texts have behind their first difference, or where one of them ends. -/
def left_over : Bytes → Bytes → Bytes × Bytes
  | a :: x, b :: y =>
    if a = b ∧ (skipped x y).1 ≠ [] ∧ (skipped x y).2 ≠ [] then
      left_over (skipped x y).1 (skipped x y).2
    else skipped x y
  | x, y => (x, y)
  termination_by x => x.length
  decreasing_by exact Nat.lt_succ_of_le (skipped_length x y)

theorem skipped_swap (x y : Bytes) : skipped y x = (skipped x y).swap := by
  unfold skipped
  rw [Bool.and_comm]
  split_ifs <;> rfl

theorem left_over_swap (x y : Bytes) : left_over y x = (left_over x y).swap := by
  induction x, y using left_over.induct with
  | case1 a x b y h ih =>
    rw [left_over, left_over, if_pos h, if_pos ?_, ← ih, skipped_swap]
    · rfl
    · rw [skipped_swap]
      exact ⟨h.1.symm, h.2.2, h.2.1⟩
  | case2 a x b y h =>
    rw [left_over, left_over, if_neg h, if_neg ?_, skipped_swap]
    rw [skipped_swap]
    exact fun h' => h ⟨h'.1.symm, h'.2.2, h'.2.1⟩
  | case3 x y h =>
    rcases x with - | ⟨a, x⟩
    · simp only [left_over, Prod.swap]
    · rcases y with - | ⟨b, y⟩
      · simp only [left_over, Prod.swap]
      · exact absurd rfl (h a x b y rfl)

/-- Two texts are not both about to go on with white space. -/
def Apart (x y : Bytes) : Prop := ¬ (starts_space x = true ∧ starts_space y = true)

theorem starts_space_dropWhile {x : Bytes} (h : x.dropWhile isspace ≠ []) :
    starts_space (x.dropWhile isspace) = false := by
  have hc := List.head_dropWhile_not isspace h
  rw [starts_space, List.head?_eq_some_head h, Option.all_some]
  exact hc

theorem skipped_apart {x y : Bytes} (h : (skipped x y).1 ≠ []) :
    Apart (skipped x y).1 (skipped x y).2 := by
  unfold skipped at h ⊢
  split_ifs at h ⊢ with hboth
  · rintro ⟨hx, -⟩
    rw [starts_space_dropWhile h] at hx
    cases hx
  · rw [Bool.and_eq_true] at hboth
    exact hboth

theorem tight_ne_nil {y : Bytes} (h : starts_space y = false) : tight y ≠ [] := by
  rcases y with - | ⟨c, y⟩
  · cases h
  · rw [tight_cons h]
    exact List.cons_ne_nil c _

/-- White space comes down to one space, or to nothing at the end. -/
theorem tight_starts_space {x : Bytes} (h : starts_space x = true) :
    tight x = if x.dropWhile isspace = [] then [] else SPACE :: tight (x.dropWhile isspace) := by
  split_ifs with hblank
  · exact tight_blank hblank
  · rcases x with - | ⟨c, x⟩
    · exact absurd rfl hblank
    · have hc : isspace c = true := h
      rw [List.dropWhile_cons, if_pos hc] at hblank ⊢
      exact tight_space hc hblank

/-- The texts are the same if they are behind the white space. -/
theorem tight_skipped (x y : Bytes) :
    tight x = tight y ↔ tight (skipped x y).1 = tight (skipped x y).2 := by
  unfold skipped
  split_ifs with hboth
  · rw [Bool.and_eq_true] at hboth
    rw [tight_starts_space hboth.1, tight_starts_space hboth.2]
    by_cases hx : x.dropWhile isspace = []
    · by_cases hy : y.dropWhile isspace = []
      · rw [if_pos hx, if_pos hy, hx, hy]
        exact ⟨fun _ => rfl, fun _ => rfl⟩
      · rw [if_pos hx, if_neg hy, hx]
        constructor
        · intro h
          cases h
        · intro h
          exact absurd h.symm (tight_ne_nil (starts_space_dropWhile hy))
    · by_cases hy : y.dropWhile isspace = []
      · rw [if_neg hx, if_pos hy, hy]
        constructor
        · intro h
          cases h
        · intro h
          exact absurd h (tight_ne_nil (starts_space_dropWhile hx))
      · rw [if_neg hx, if_neg hy, List.cons_inj_right]
  · exact Iff.rfl

/-- The end on one side only. -/
theorem skipped_one_end {x y : Bytes} (hx : (skipped x y).1 = []) (hy : (skipped x y).2 ≠ []) :
    tight x ≠ tight y := by
  rw [Ne, tight_skipped, hx]
  have hstart : starts_space (skipped x y).2 = false := by
    unfold skipped at hx hy ⊢
    split_ifs at hx hy ⊢ with hboth
    · exact starts_space_dropWhile hy
    · subst hx
      rw [Bool.and_eq_true, not_and] at hboth
      exact Bool.eq_false_iff.mpr (hboth rfl)
  exact fun h => tight_ne_nil hstart h.symm

/-! ## Reading -/

/-- A buffer that holds the line alone. -/
def alone (l : Bytes) : memory := ⟨l, none⟩

theorem read_alone (l : Bytes) (p : Nat) : (alone l).read p = (l.drop p).head? := by
  rw [memory.read, List.head?_drop]
  split_ifs with h
  · rfl
  · refine (List.getElem?_eq_none ?_).symm
    have hlen : ¬ (p : Int) < l.length := fun hlt => h ⟨Int.natCast_nonneg p, hlt⟩
    omega

/-- What is left of the line at `s`: the text `x` up to `last`, and the terminator `e`. -/
def Rest (l e : Bytes) (last : Int) (x : Bytes) (s : Int) : Prop :=
  ∃ p : Nat, s = p ∧ l.drop p = x ++ e ∧ last + 1 = p + x.length

namespace Rest

variable {l e x : Bytes} {last s : Int}

theorem read (h : Rest l e last x s) : (alone l).read s = (x ++ e).head? := by
  obtain ⟨p, rfl, hdrop, -⟩ := h
  rw [read_alone, hdrop]

theorem le_iff (h : Rest l e last x s) : s ≤ last ↔ x ≠ [] := by
  obtain ⟨p, rfl, -, hlast⟩ := h
  rw [← List.length_pos_iff]
  omega

theorem tail {a : UInt8} (h : Rest l e last (a :: x) s) : Rest l e last x (s + 1) := by
  obtain ⟨p, rfl, hdrop, hlast⟩ := h
  refine ⟨p + 1, by omega, ?_, ?_⟩
  · rw [← List.drop_drop, hdrop]
    rfl
  · rw [List.length_cons] at hlast
    omega

theorem skip_space (h : Rest l e last x s) :
    (x.dropWhile isspace = [] → e ≠ []) →
      ∃ t, skip_space (alone l) last s = some t ∧ Rest l e last (x.dropWhile isspace) t := by
  induction x generalizing s with
  | nil =>
    intro he
    obtain ⟨c, e', hc⟩ := List.exists_cons_of_ne_nil (he rfl)
    refine ⟨s, ?_, h⟩
    rw [fuzzy_match.skip_space, h.read, hc]
    exact if_neg fun hle => h.le_iff.mp hle.2 rfl
  | cons a x ih =>
    intro he
    rw [fuzzy_match.skip_space, h.read]
    by_cases ha : isspace a = true
    · rw [List.dropWhile_cons, if_pos ha] at he ⊢
      obtain ⟨t, ht, hrest⟩ := ih h.tail he
      refine ⟨t, ?_, hrest⟩
      rw [← ht]
      exact if_pos ⟨ha, h.le_iff.mpr (List.cons_ne_nil a x)⟩
    · rw [List.dropWhile_cons, if_neg ha]
      exact ⟨s, if_neg fun hsp => ha hsp.1, h⟩

theorem skip_space_out (h : Rest l e last x s) (hx : x.dropWhile isspace = []) (he : e = []) :
    fuzzy_match.skip_space (alone l) last s = none := by
  induction x generalizing s with
  | nil =>
    rw [fuzzy_match.skip_space, h.read, he]
    rfl
  | cons a x ih =>
    have ha : isspace a = true := List.dropWhile_eq_nil_iff.mp hx a List.mem_cons_self
    rw [List.dropWhile_cons, if_pos ha] at hx
    rw [fuzzy_match.skip_space, h.read]
    refine (if_pos ⟨ha, h.le_iff.mpr (List.cons_ne_nil a x)⟩).trans ?_
    exact ih h.tail hx

end Rest

/-- All bytes of a terminator are white space. -/
def Ends (e : Bytes) : Prop := ∀ c ∈ e, c = CR ∨ c = LF

theorem Ends.space {e : Bytes} (h : Ends e) : ∀ c ∈ e, isspace c = true := by
  intro c hc
  rcases h c hc with rfl | rfl
  · rfl
  · rfl

section two

variable {l1 l2 e1 e2 x y : Bytes} {last1 last2 s1 s2 : Int}

/-- What comes next is white space of the text or of its terminator. -/
theorem Rest.head (h1 : Rest l1 e1 last1 x s1) (he : Ends e1) (hx : x = [] → e1 ≠ []) :
    ∃ c, (alone l1).read s1 = some c ∧ isspace c = starts_space x := by
  rw [h1.read]
  rcases x with - | ⟨a, x⟩
  · obtain ⟨c, e', hc⟩ := List.exists_cons_of_ne_nil (hx rfl)
    refine ⟨c, by rw [hc]; rfl, he.space c ?_⟩
    rw [hc]
    exact List.mem_cons_self
  · exact ⟨a, rfl, rfl⟩

theorem skip_inside_rest (h1 : Rest l1 e1 last1 x s1) (h2 : Rest l2 e2 last2 y s2)
    (he1 : Ends e1) (he2 : Ends e2)
    (hx : (skipped x y).1 = [] → e1 ≠ []) (hy : (skipped x y).2 = [] → e2 ≠ []) :
    ∃ t1 t2, skip_inside (alone l1) (alone l2) last1 last2 s1 s2 = some (t1, t2) ∧
      Rest l1 e1 last1 (skipped x y).1 t1 ∧ Rest l2 e2 last2 (skipped x y).2 t2 := by
  have hnil : ∀ {z w : Bytes}, z = [] → (skipped z w).1 = [] := by
    rintro z w rfl
    unfold skipped
    split_ifs <;> rfl
  obtain ⟨c1, hread1, hc1⟩ := h1.head he1 fun h => hx (hnil h)
  obtain ⟨c2, hread2, hc2⟩ := h2.head he2 fun h => hy (by
    have := hnil (w := x) h
    rw [skipped_swap] at this
    exact this)
  unfold skip_inside
  rw [hread1]
  simp only [Option.bind_eq_bind, Option.bind_some, hread2, hc1, hc2]
  unfold skipped at hx hy ⊢
  by_cases hs1 : starts_space x = true
  · by_cases hs2 : starts_space y = true
    · rw [hs1, hs2, Bool.and_self, if_pos rfl] at hx hy
      obtain ⟨t1, ht1, hr1⟩ := h1.skip_space hx
      obtain ⟨t2, ht2, hr2⟩ := h2.skip_space hy
      refine ⟨t1, t2, ?_, ?_, ?_⟩
      · rw [if_pos hs1, if_pos hs2, ht1, ht2]
        rfl
      · rw [hs1, hs2]
        exact hr1
      · rw [hs1, hs2]
        exact hr2
    · rw [if_pos hs1, if_neg hs2, Bool.eq_false_iff.mpr hs2, Bool.and_false]
      exact ⟨s1, s2, rfl, h1, h2⟩
  · rw [if_neg hs1, Bool.eq_false_iff.mpr hs1, Bool.false_and]
    exact ⟨s1, s2, rfl, h1, h2⟩

/-- The first line must not end without a terminator. -/
theorem skip_inside_out (h1 : Rest l1 e1 last1 x s1) (h2 : Rest l2 e2 last2 y s2)
    (he2 : Ends e2) (hx : (skipped x y).1 = []) (he : e1 = []) :
    skip_inside (alone l1) (alone l2) last1 last2 s1 s2 = none := by
  unfold skip_inside
  rcases x with - | ⟨a, x⟩
  · rw [h1.read, he]
    rfl
  · unfold skipped at hx
    split_ifs at hx with hboth
    rw [Bool.and_eq_true] at hboth
    have ha : isspace a = true := hboth.1
    have hread1 : (alone l1).read s1 = some a := h1.read
    rw [hread1]
    simp only [Option.bind_eq_bind, Option.bind_some, if_pos ha]
    rcases Option.eq_none_or_eq_some ((alone l2).read s2) with hnone | ⟨c2, hread2⟩
    · rw [hnone]
      rfl
    · have hc2 : isspace c2 = true := by
        rw [h2.read] at hread2
        rcases y with - | ⟨b, y⟩
        · exact he2.space c2 (List.mem_of_mem_head? hread2)
        · cases hread2
          exact hboth.2
      rw [hread2]
      simp only [Option.bind_some, if_pos hc2, h1.skip_space_out hx he]
      rfl

/-! ## The loop -/

theorem match_loop_step {m1 m2 : memory} {c1 c2 : UInt8} {t1 t2 : Int}
    (hread1 : m1.read s1 = some c1) (hread2 : m2.read s2 = some c2)
    (hskip : skip_inside m1 m2 last1 last2 (s1 + 1) (s2 + 1) = some (t1, t2)) :
    match_loop m1 m2 last1 last2 s1 s2 =
      if last2 < t2 ∧ t1 ≤ last1 ∨ last1 < t1 ∧ t2 ≤ last2 then some false
      else if last1 < t1 ∧ last2 < t2 then some (c1 = c2)
      else if c1 = c2 then match_loop m1 m2 last1 last2 t1 t2
      else some false := by
  rw [match_loop, hread1, hread2]
  simp only
  split
  · rename_i hnone
    rw [hskip] at hnone
    cases hnone
  · rename_i u1 u2 hsome
    rw [hskip] at hsome
    cases hsome
    simp only [dite_eq_ite]

theorem match_loop_out {m1 m2 : memory}
    (hskip : skip_inside m1 m2 last1 last2 (s1 + 1) (s2 + 1) = none) :
    match_loop m1 m2 last1 last2 s1 s2 = none := by
  rw [match_loop]
  split
  · split
    · rfl
    · rename_i hsome
      rw [hskip] at hsome
      cases hsome
  · rfl

/-- The first bytes decide, where not both are white space. -/
theorem tight_heads {a b : UInt8} (h : Apart (a :: x) (b :: y)) :
    tight (a :: x) = tight (b :: y) ↔ a = b ∧ tight x = tight y := by
  have hspace : ∀ {c d : UInt8} {z : Bytes}, isspace c = false → isspace d = true →
      ∀ w, tight (d :: z) ≠ c :: w := by
    intro c d z hc hd w heq
    rw [tight_starts_space (x := d :: z) hd] at heq
    split_ifs at heq
    have hcs := (List.cons.inj heq).1
    rw [← hcs] at hc
    cases hc
  cases ha : isspace a with
  | false =>
    rw [tight_cons ha]
    cases hb : isspace b with
    | false => rw [tight_cons hb, List.cons.injEq]
    | true =>
      constructor
      · exact fun heq => absurd heq.symm (hspace ha hb _)
      · rintro ⟨rfl, -⟩
        rw [ha] at hb
        cases hb
  | true =>
    cases hb : isspace b with
    | false =>
      rw [tight_cons hb]
      constructor
      · exact fun heq => absurd heq (hspace hb ha _)
      · rintro ⟨rfl, -⟩
        rw [ha] at hb
        cases hb
    | true => exact absurd ⟨ha, hb⟩ h

/-- Where each line whose end is reached has a terminator, the loop compares the texts. -/
theorem match_loop_right (he1 : Ends e1) (he2 : Ends e2) (h1 : Rest l1 e1 last1 x s1)
    (h2 : Rest l2 e2 last2 y s2) (hx : x ≠ []) (hy : y ≠ []) (hapart : Apart x y)
    (hend1 : (left_over x y).1 = [] → e1 ≠ []) (hend2 : (left_over x y).2 = [] → e2 ≠ []) :
    match_loop (alone l1) (alone l2) last1 last2 s1 s2 = some (decide (tight x = tight y)) := by
  induction x, y using left_over.induct generalizing s1 s2 with
  | case1 a x b y h ih =>
    rw [left_over, if_pos h] at hend1 hend2
    obtain ⟨hab, hx', hy'⟩ := h
    obtain ⟨t1, t2, hskip, hr1, hr2⟩ := skip_inside_rest h1.tail h2.tail he1 he2
      (fun h => absurd h hx') (fun h => absurd h hy')
    have ht1 := hr1.le_iff.mpr hx'
    have ht2 := hr2.le_iff.mpr hy'
    rw [match_loop_step h1.read h2.read hskip, if_neg (by omega), if_neg (by omega), if_pos hab,
      ih hr1 hr2 hx' hy' (skipped_apart hx') hend1 hend2]
    congr 2
    rw [tight_heads hapart, ← tight_skipped]
    exact propext ⟨fun h => ⟨hab, h⟩, fun h => h.2⟩
  | case2 a x b y h =>
    rw [left_over, if_neg h] at hend1 hend2
    obtain ⟨t1, t2, hskip, hr1, hr2⟩ := skip_inside_rest h1.tail h2.tail he1 he2 hend1 hend2
    rw [match_loop_step h1.read h2.read hskip]
    have hle1 := hr1.le_iff
    have hle2 := hr2.le_iff
    by_cases hx' : (skipped x y).1 = []
    · have ht1 : ¬ t1 ≤ last1 := fun hle => hle1.mp hle hx'
      by_cases hy' : (skipped x y).2 = []
      · have ht2 : ¬ t2 ≤ last2 := fun hle => hle2.mp hle hy'
        rw [if_neg (by omega), if_pos (by omega)]
        congr 2
        rw [tight_heads hapart, tight_skipped, hx', hy']
        exact propext ⟨fun h => ⟨h, rfl⟩, fun h => h.1⟩
      · have ht2 := hle2.mpr hy'
        rw [if_pos (by omega), decide_eq_false]
        rw [tight_heads hapart]
        exact fun h => skipped_one_end hx' hy' h.2
    · have ht1 := hle1.mpr hx'
      by_cases hy' : (skipped x y).2 = []
      · have ht2 : ¬ t2 ≤ last2 := fun hle => hle2.mp hle hy'
        rw [if_pos (by omega), decide_eq_false]
        rw [tight_heads hapart]
        intro h
        refine skipped_one_end (x := y) (y := x) ?_ ?_ h.2.symm
        · rw [skipped_swap]
          exact hy'
        · rw [skipped_swap]
          exact hx'
      · have ht2 := hle2.mpr hy'
        have hab : a ≠ b := fun hab => h ⟨hab, hx', hy'⟩
        rw [if_neg (by omega), if_neg (by omega), if_neg hab, decide_eq_false]
        rw [tight_heads hapart]
        exact fun h => hab h.1
  | case3 x y h =>
    obtain ⟨a, x, rfl⟩ := List.exists_cons_of_ne_nil hx
    obtain ⟨b, y, rfl⟩ := List.exists_cons_of_ne_nil hy
    exact absurd rfl (h a x b y rfl)

/-- The first line is not read to its end if that end is the end of the buffer. -/
theorem match_loop_inside (he1 : Ends e1) (he2 : Ends e2) (h1 : Rest l1 e1 last1 x s1)
    (h2 : Rest l2 e2 last2 y s2) (hx : x ≠ []) (hy : y ≠ [])
    (hin : match_loop (alone l1) (alone l2) last1 last2 s1 s2 ≠ none) :
    (left_over x y).1 = [] → e1 ≠ [] := by
  induction x, y using left_over.induct generalizing s1 s2 with
  | case1 a x b y h ih =>
    rw [left_over, if_pos h]
    obtain ⟨hab, hx', hy'⟩ := h
    obtain ⟨t1, t2, hskip, hr1, hr2⟩ := skip_inside_rest h1.tail h2.tail he1 he2
      (fun h => absurd h hx') (fun h => absurd h hy')
    have ht1 := hr1.le_iff.mpr hx'
    have ht2 := hr2.le_iff.mpr hy'
    rw [match_loop_step h1.read h2.read hskip, if_neg (by omega), if_neg (by omega),
      if_pos hab] at hin
    exact ih hr1 hr2 hx' hy' hin
  | case2 a x b y h =>
    rw [left_over, if_neg h]
    intro hx' he
    exact hin (match_loop_out (skip_inside_out h1.tail h2.tail he2 hx' he))
  | case3 x y h =>
    obtain ⟨a, x, rfl⟩ := List.exists_cons_of_ne_nil hx
    obtain ⟨b, y, rfl⟩ := List.exists_cons_of_ne_nil hy
    exact absurd rfl (h a x b y rfl)

/-! ## A blank line beside another -/

theorem skip_space_past {m : memory} {last s : Int} {c : UInt8} (hread : m.read s = some c)
    (hpast : last < s) : skip_space m last s = some s := by
  rw [skip_space, hread]
  exact if_neg fun hle => absurd hle.2 (not_le.mpr hpast)

/-- Behind the end the terminator is read. -/
theorem Rest.read_past (h : Rest l1 e1 last1 [] s1) :
    (alone l1).read (s1 + 1) = e1.tail.head? := by
  obtain ⟨p, rfl, hdrop, -⟩ := h
  have hcast : (p : Int) + 1 = (p + 1 : Nat) := rfl
  rw [hcast, read_alone, ← List.drop_drop, hdrop, List.drop_one]
  rfl

/-- The first two bytes of a terminator that has them. -/
theorem Rest.two (h : Rest l1 e1 last1 [] s1) (he : Ends e1) (hlen : 2 ≤ e1.length) :
    ∃ c d, (alone l1).read s1 = some c ∧ isspace c = true ∧
      (alone l1).read (s1 + 1) = some d ∧ isspace d = true ∧ last1 < s1 := by
  have hpast : last1 < s1 := not_le.mp fun hle => h.le_iff.mp hle rfl
  rw [h.read, h.read_past]
  rcases e1 with - | ⟨c, - | ⟨d, e1⟩⟩
  · exact absurd hlen (by decide)
  · exact absurd hlen (by simp)
  · exact ⟨c, d, rfl, he.space c List.mem_cons_self, rfl,
      he.space d (List.mem_cons_of_mem c List.mem_cons_self), hpast⟩

theorem ne_of_isspace {c d : UInt8} (hc : isspace c = true) (hd : isspace d = false) : c ≠ d := by
  rintro rfl
  rw [hc] at hd
  cases hd

theorem blank_beside (he1 : Ends e1) (he2 : Ends e2) (h1 : Rest l1 e1 last1 [] s1) {b : UInt8}
    (h2 : Rest l2 e2 last2 (b :: y) s2) (hb : isspace b = false) (hlen : 2 ≤ e1.length)
    (hy : y.dropWhile isspace = [] → e2 ≠ []) :
    match_loop (alone l1) (alone l2) last1 last2 s1 s2 = some false := by
  obtain ⟨c, d, hc, hcs, hd, hds, hpast⟩ := h1.two he1 hlen
  have hread2 : (alone l2).read s2 = some b := h2.read
  obtain ⟨c2, hc2, hstart⟩ := h2.tail.head he2 fun h => hy (by rw [h]; rfl)
  have hskip : ∃ t2, skip_inside (alone l1) (alone l2) last1 last2 (s1 + 1) (s2 + 1) =
      some (s1 + 1, t2) := by
    unfold skip_inside
    rw [hd, hc2]
    simp only [Option.bind_eq_bind, Option.bind_some, if_pos hds]
    by_cases hsp : isspace c2 = true
    · obtain ⟨t2, ht2, -⟩ := h2.tail.skip_space hy
      exact ⟨t2, by rw [if_pos hsp, skip_space_past hd (by omega), ht2]; rfl⟩
    · exact ⟨s2 + 1, by rw [if_neg hsp]; rfl⟩
  obtain ⟨t2, ht2⟩ := hskip
  rw [match_loop_step hc hread2 ht2]
  by_cases hle : t2 ≤ last2
  · rw [if_pos (by omega)]
  · rw [if_neg (by omega), if_pos (by omega), decide_eq_false (ne_of_isspace hcs hb)]

theorem beside_blank (he1 : Ends e1) (he2 : Ends e2) {a : UInt8}
    (h1 : Rest l1 e1 last1 (a :: x) s1) (ha : isspace a = false) (h2 : Rest l2 e2 last2 [] s2)
    (hlen : 2 ≤ e2.length) (hx : x.dropWhile isspace = [] → e1 ≠ []) :
    match_loop (alone l1) (alone l2) last1 last2 s1 s2 = some false := by
  obtain ⟨c, d, hc, hcs, hd, hds, hpast⟩ := h2.two he2 hlen
  have hread1 : (alone l1).read s1 = some a := h1.read
  obtain ⟨c1, hc1, hstart⟩ := h1.tail.head he1 fun h => hx (by rw [h]; rfl)
  have hskip : ∃ t1, skip_inside (alone l1) (alone l2) last1 last2 (s1 + 1) (s2 + 1) =
      some (t1, s2 + 1) := by
    unfold skip_inside
    rw [hc1, hd]
    simp only [Option.bind_eq_bind, Option.bind_some]
    by_cases hsp : isspace c1 = true
    · obtain ⟨t1, ht1, -⟩ := h1.tail.skip_space hx
      exact ⟨t1, by rw [if_pos hsp, if_pos hds, ht1, skip_space_past hd (by omega)]; rfl⟩
    · exact ⟨s1 + 1, by rw [if_neg hsp]; rfl⟩
  obtain ⟨t1, ht1⟩ := hskip
  rw [match_loop_step hread1 hc ht1]
  by_cases hle : t1 ≤ last1
  · rw [if_pos (by omega)]
  · rw [if_neg (by omega), if_pos (by omega), decide_eq_false (ne_of_isspace hcs ha).symm]

/-- What the comparison with a blank line reads: two bytes of the terminator, and the end of
the other line where only white space is left of it. -/
theorem blank_beside_inside (he1 : Ends e1) (h1 : Rest l1 e1 last1 [] s1) {b : UInt8}
    (h2 : Rest l2 e2 last2 (b :: y) s2)
    (hin : match_loop (alone l1) (alone l2) last1 last2 s1 s2 ≠ none) :
    2 ≤ e1.length ∧ (y.dropWhile isspace = [] → e2 ≠ []) := by
  have hlen : 2 ≤ e1.length := by
    by_contra hshort
    apply hin
    apply match_loop_out
    unfold skip_inside
    rw [h1.read_past]
    rcases e1 with - | ⟨c, - | ⟨d, e1⟩⟩
    · rfl
    · rfl
    · exact absurd (Nat.le_add_left 2 e1.length) hshort
  refine ⟨hlen, ?_⟩
  rintro hy rfl
  obtain ⟨c, d, hc, hcs, hd, hds, hpast⟩ := h1.two he1 hlen
  apply hin
  apply match_loop_out
  unfold skip_inside
  rw [hd]
  simp only [Option.bind_eq_bind, Option.bind_some, if_pos hds]
  rcases y with - | ⟨b', y⟩
  · rw [h2.tail.read]
    rfl
  · have hb' : isspace b' = true := List.dropWhile_eq_nil_iff.mp hy b' List.mem_cons_self
    have hread : (alone l2).read (s2 + 1) = some b' := h2.tail.read
    rw [hread]
    simp only [Option.bind_some, if_pos hb', skip_space_past hd (by omega : last1 < s1 + 1),
      h2.tail.skip_space_out hy rfl]
    rfl

end two

/-! ## The two lines -/

def line_ending (c : UInt8) : Bool := c = CR ∨ c = LF

/-- The line up to its last byte other than CR and LF. -/
def body (l : Bytes) : Bytes := l.rdropWhile line_ending

def terminator (l : Bytes) : Bytes := l.rtakeWhile line_ending

/-- The line from its first byte that is not white space. -/
def text (l : Bytes) : Bytes := (body l).dropWhile isspace

theorem body_terminator (l : Bytes) : body l ++ terminator l = l :=
  List.rdropWhile_append_rtakeWhile

theorem terminator_ends (l : Bytes) : Ends (terminator l) := by
  intro c hc
  have := List.mem_rtakeWhile_imp hc
  exact of_decide_eq_true this

theorem skip_line_ending_body (b e : Bytes) :
    skip_line_ending (alone (b ++ e)) ((b.length : Int) - 1) =
      if body b = [] then none else some (((body b).length : Int) - 1) := by
  induction b using List.reverseRecOn generalizing e with
  | nil =>
    rw [skip_line_ending]
    rfl
  | append_singleton b c ih =>
    have hread : (alone (b ++ [c] ++ e)).read (((b ++ [c]).length : Int) - 1) = some c := by
      have hcast : ((b ++ [c]).length : Int) - 1 = (b.length : Nat) := by
        rw [List.length_append, List.length_singleton]
        omega
      rw [hcast, read_alone, List.append_assoc, List.drop_left]
      rfl
    rw [skip_line_ending]
    split
    · rename_i hnone
      rw [hread] at hnone
      cases hnone
    · rename_i c' hsome
      rw [hread] at hsome
      cases hsome
      unfold body
      rw [List.rdropWhile_concat]
      by_cases hc : c = CR ∨ c = LF
      · have hend : line_ending c = true := decide_eq_true hc
        rw [dif_pos hc, if_pos hend, List.append_assoc]
        have hlast : ((b ++ [c]).length : Int) - 1 - 1 = (b.length : Int) - 1 := by
          rw [List.length_append, List.length_singleton]
          omega
        rw [hlast]
        exact ih ([c] ++ e)
      · have hend : ¬ line_ending c = true := fun h => hc (of_decide_eq_true h)
        rw [dif_neg hc, if_neg hend,
          if_neg (List.append_ne_nil_of_right_ne_nil b (List.cons_ne_nil c []))]

/-- The comparison of two lines, each in a buffer of its own. -/
def compare (l1 l2 : Bytes) : Option Bool :=
  fuzzy_matchlines (alone l1) 0 l1.length (alone l2) 0 l2.length

theorem normal_text (l : Bytes) : normal l = tight (text l) := by
  have hsp := (terminator_ends l).space
  unfold normal text
  conv_lhs => rw [← body_terminator l]
  rw [List.dropWhile_append]
  split_ifs with h
  · rw [List.isEmpty_iff] at h
    rw [h, List.dropWhile_eq_nil_iff.mpr hsp]
  · unfold tight
    rw [strip_trailing_append hsp]

theorem Rest.of_line (l : Bytes) :
    Rest l (terminator l) (((body l).length : Int) - 1) (body l) 0 := by
  refine ⟨0, rfl, ?_, by omega⟩
  rw [List.drop_zero, body_terminator]

theorem skip_line_ending_line (l : Bytes) :
    skip_line_ending (alone l) (((0 : Nat) : Int) + l.length - 1) =
      if body l = [] then none else some (((body l).length : Int) - 1) := by
  have h := skip_line_ending_body l []
  rw [List.append_nil] at h
  rw [← h, Nat.cast_zero, zero_add]

/-- What happens after the two ends are known. -/
def compare_from (l1 l2 : Bytes) (last1 last2 s1 s2 : Int) : Option Bool :=
  if last1 < s1 ∧ last2 < s2 then some true
  else match_loop (alone l1) (alone l2) last1 last2 s1 s2

theorem compare_none {l1 l2 : Bytes} (h : body l1 = [] ∨ body l2 = []) : compare l1 l2 = none := by
  unfold compare fuzzy_matchlines
  rw [skip_line_ending_line, skip_line_ending_line]
  by_cases h1 : body l1 = []
  · rw [if_pos h1]
    rfl
  · rw [if_neg h1, if_pos (h.resolve_left h1)]
    rfl

theorem compare_eq {l1 l2 : Bytes} (h1 : body l1 ≠ []) (h2 : body l2 ≠ []) :
    compare l1 l2 =
      (skip_space (alone l1) (((body l1).length : Int) - 1) 0).bind fun s1 =>
        (skip_space (alone l2) (((body l2).length : Int) - 1) 0).bind fun s2 =>
          compare_from l1 l2 (((body l1).length : Int) - 1) (((body l2).length : Int) - 1)
            s1 s2 := by
  unfold compare fuzzy_matchlines
  rw [skip_line_ending_line, skip_line_ending_line, if_neg h1, if_neg h2]
  rfl

/-- What the comparison needs: a byte other than CR and LF in each line, a terminator where
the end of a line is reached, and one of two bytes where only that line is blank. -/
def Readable (l1 l2 : Bytes) : Prop :=
  body l1 ≠ [] ∧ body l2 ≠ [] ∧
  match text l1, text l2 with
  | [], [] => terminator l1 ≠ [] ∧ terminator l2 ≠ []
  | [], _ :: y => 2 ≤ (terminator l1).length ∧ (y.dropWhile isspace = [] → terminator l2 ≠ [])
  | _ :: x, [] => 2 ≤ (terminator l2).length ∧ (x.dropWhile isspace = [] → terminator l1 ≠ [])
  | a :: x, b :: y =>
    ((left_over (a :: x) (b :: y)).1 = [] → terminator l1 ≠ []) ∧
      ((left_over (a :: x) (b :: y)).2 = [] → terminator l2 ≠ [])

theorem Readable.swap {l1 l2 : Bytes} (h : Readable l1 l2) : Readable l2 l1 := by
  obtain ⟨h1, h2, h⟩ := h
  refine ⟨h2, h1, ?_⟩
  rcases hx : text l1 with - | ⟨a, x⟩
  · rcases hy : text l2 with - | ⟨b, y⟩
    · rw [hx, hy] at h
      exact h.symm
    · rw [hx, hy] at h
      exact h
  · rcases hy : text l2 with - | ⟨b, y⟩
    · rw [hx, hy] at h
      exact h
    · rw [hx, hy] at h
      simp only
      rw [left_over_swap]
      exact h.symm

theorem text_head {l x : Bytes} {a : UInt8} (h : text l = a :: x) : isspace a = false := by
  have hne : (body l).dropWhile isspace ≠ [] := by
    rw [← text, h]
    exact List.cons_ne_nil a x
  have hstart := starts_space_dropWhile hne
  rw [← text, h] at hstart
  exact hstart

/-- Where the loop begins. -/
theorem skip_space_text {l : Bytes} (h : text l = [] → terminator l ≠ []) :
    ∃ s, skip_space (alone l) (((body l).length : Int) - 1) 0 = some s ∧
      Rest l (terminator l) (((body l).length : Int) - 1) (text l) s :=
  (Rest.of_line l).skip_space h

theorem compare_readable {l1 l2 : Bytes} (h : Readable l1 l2) :
    compare l1 l2 = some (decide (normal l1 = normal l2)) := by
  obtain ⟨h1, h2, h⟩ := h
  have he1 := terminator_ends l1
  have he2 := terminator_ends l2
  have hnil : ∀ {e : Bytes}, 2 ≤ e.length → e ≠ [] := by
    rintro e hlen rfl
    exact absurd hlen (by decide)
  rw [compare_eq h1 h2, normal_text, normal_text]
  rcases hx : text l1 with - | ⟨a, x⟩
  · rcases hy : text l2 with - | ⟨b, y⟩
    · rw [hx, hy] at h
      obtain ⟨s1, hs1, hr1⟩ := skip_space_text fun _ => h.1
      obtain ⟨s2, hs2, hr2⟩ := skip_space_text fun _ => h.2
      have hp1 : ¬ s1 ≤ _ := fun hle => hr1.le_iff.mp hle hx
      have hp2 : ¬ s2 ≤ _ := fun hle => hr2.le_iff.mp hle hy
      rw [hs1, hs2, Option.bind_some, Option.bind_some, compare_from, if_pos (by omega),
        decide_eq_true rfl]
    · rw [hx, hy] at h
      obtain ⟨s1, hs1, hr1⟩ := skip_space_text fun _ => hnil h.1
      obtain ⟨s2, hs2, hr2⟩ := skip_space_text fun hnone =>
        absurd (hy.symm.trans hnone) (List.cons_ne_nil b y)
      have hp2 := hr2.le_iff.mpr (by rw [hy]; exact List.cons_ne_nil b y)
      rw [hx] at hr1
      rw [hy] at hr2
      have hb := text_head hy
      rw [hs1, hs2, Option.bind_some, Option.bind_some, compare_from, if_neg (by omega),
        blank_beside he1 he2 hr1 hr2 hb h.1 h.2, tight_cons hb, decide_eq_false]
      exact (List.cons_ne_nil b _).symm
  · rcases hy : text l2 with - | ⟨b, y⟩
    · rw [hx, hy] at h
      obtain ⟨s1, hs1, hr1⟩ := skip_space_text fun hnone =>
        absurd (hx.symm.trans hnone) (List.cons_ne_nil a x)
      obtain ⟨s2, hs2, hr2⟩ := skip_space_text fun _ => hnil h.1
      have hp1 := hr1.le_iff.mpr (by rw [hx]; exact List.cons_ne_nil a x)
      rw [hx] at hr1
      rw [hy] at hr2
      have ha := text_head hx
      rw [hs1, hs2, Option.bind_some, Option.bind_some, compare_from, if_neg (by omega),
        beside_blank he1 he2 hr1 ha hr2 h.1 h.2, tight_cons ha, decide_eq_false]
      exact List.cons_ne_nil a _
    · rw [hx, hy] at h
      obtain ⟨s1, hs1, hr1⟩ := skip_space_text fun hnone =>
        absurd (hx.symm.trans hnone) (List.cons_ne_nil a x)
      obtain ⟨s2, hs2, hr2⟩ := skip_space_text fun hnone =>
        absurd (hy.symm.trans hnone) (List.cons_ne_nil b y)
      have hp1 := hr1.le_iff.mpr (by rw [hx]; exact List.cons_ne_nil a x)
      rw [hx] at hr1
      rw [hy] at hr2
      rw [hs1, hs2, Option.bind_some, Option.bind_some, compare_from, if_neg (by omega)]
      refine match_loop_right he1 he2 hr1 hr2 (List.cons_ne_nil a x) (List.cons_ne_nil b y) ?_
        h.1 h.2
      rintro ⟨hstart, -⟩
      rw [starts_space, List.head?_cons, Option.all_some, text_head hx] at hstart
      cases hstart

/-- What the comparison shows by not reading outside, for the first line. -/
theorem compare_inside {l1 l2 : Bytes} (h : compare l1 l2 ≠ none) :
    body l1 ≠ [] ∧ body l2 ≠ [] ∧ (text l1 = [] → terminator l1 ≠ []) ∧
      (text l2 = [] → terminator l2 ≠ []) ∧
      (∀ b y, text l1 = [] → text l2 = b :: y →
        2 ≤ (terminator l1).length ∧ (y.dropWhile isspace = [] → terminator l2 ≠ [])) ∧
      (text l1 ≠ [] → text l2 ≠ [] →
        (left_over (text l1) (text l2)).1 = [] → terminator l1 ≠ []) := by
  have h1 : body l1 ≠ [] := fun hnil => h (compare_none (Or.inl hnil))
  have h2 : body l2 ≠ [] := fun hnil => h (compare_none (Or.inr hnil))
  rw [compare_eq h1 h2] at h
  have hend1 : text l1 = [] → terminator l1 ≠ [] := by
    intro hx he
    rw [(Rest.of_line l1).skip_space_out hx he] at h
    exact h rfl
  obtain ⟨s1, hs1, hr1⟩ := skip_space_text hend1
  rw [hs1, Option.bind_some] at h
  have hend2 : text l2 = [] → terminator l2 ≠ [] := by
    intro hy he
    rw [(Rest.of_line l2).skip_space_out hy he] at h
    exact h rfl
  obtain ⟨s2, hs2, hr2⟩ := skip_space_text hend2
  rw [hs2, Option.bind_some, compare_from] at h
  refine ⟨h1, h2, hend1, hend2, ?_, ?_⟩
  · intro b y hx hy
    have hp2 := hr2.le_iff.mpr (by rw [hy]; exact List.cons_ne_nil b y)
    rw [if_neg (by omega)] at h
    rw [hx] at hr1
    rw [hy] at hr2
    exact blank_beside_inside (terminator_ends l1) hr1 hr2 h
  · intro hx hy
    have hp1 := hr1.le_iff.mpr hx
    rw [if_neg (by omega)] at h
    exact match_loop_inside (terminator_ends l1) (terminator_ends l2) hr1 hr2 hx hy h

/-- The comparison reads no byte outside the two lines, in either order, exactly where the
lines are readable; and then it says whether they are the same but for white space. -/
theorem matchlines_ignores_space_change (l1 l2 : Bytes) :
    (compare l1 l2 = some (decide (normal l1 = normal l2)) ∧ compare l2 l1 = compare l1 l2) ↔
      Readable l1 l2 := by
  constructor
  · rintro ⟨hright, hswap⟩
    have hin : compare l1 l2 ≠ none := by
      rw [hright]
      exact Option.some_ne_none _
    obtain ⟨h1, h2, hend1, hend2, hblank, hloop⟩ := compare_inside hin
    obtain ⟨-, -, -, -, hblank', hloop'⟩ := compare_inside (hswap ▸ hin)
    refine ⟨h1, h2, ?_⟩
    rcases hx : text l1 with - | ⟨a, x⟩
    · rcases hy : text l2 with - | ⟨b, y⟩
      · exact ⟨hend1 hx, hend2 hy⟩
      · exact hblank b y hx hy
    · rcases hy : text l2 with - | ⟨b, y⟩
      · exact hblank' a x hy hx
      · rw [hx, hy] at hloop hloop'
        refine ⟨hloop (List.cons_ne_nil a x) (List.cons_ne_nil b y), fun hnil => ?_⟩
        refine hloop' (List.cons_ne_nil b y) (List.cons_ne_nil a x) ?_
        rw [left_over_swap]
        exact hnil
  · intro h
    have hright := compare_readable h
    refine ⟨hright, ?_⟩
    rw [hright, compare_readable h.swap]
    exact congrArg some (decide_eq_decide.mpr eq_comm)

/-- Of a blank line the byte before it is read, and of an incomplete one the byte behind it:
with a NUL there, the line differs from one that has a space more. -/
theorem blank_and_incomplete_lines_are_left :
    compare [LF] [LF] = none ∧ compare [97] [97, SPACE, LF] = none ∧
    normal [97] = normal [97, SPACE, LF] ∧
    fuzzy_matchlines ⟨[97], some ()⟩ 0 1 ⟨[97, SPACE, LF], some ()⟩ 0 3 = some false := by
  refine ⟨compare_none (Or.inl rfl), ?_⟩
  decide +kernel

end git.fuzzy_match
