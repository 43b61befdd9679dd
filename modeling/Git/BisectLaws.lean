-- The commit that is chosen halves the commits, or comes closest to it, as long as all
-- merges on the list are to be counted.
import Git.BisectWeights
import Git.Lib.Acyclic

open Relation

namespace git.bisect

variable {commit : Type} [DecidableEq commit] {g : commit_graph commit} {list : List commit}

/-! ## Counting along a list -/

omit [DecidableEq commit] in
/-- One more of a list is counted. -/
theorem countP_one_more {list : List commit} (hnodup : list.Nodup) {c : commit} (hc : c ∈ list)
    {p q : commit → Bool} (hsame : ∀ d, d ≠ c → q d = p d) (hp : p c = false) :
    list.countP q = list.countP p + if q c then 1 else 0 := by
  induction list with
  | nil => exact absurd hc List.not_mem_nil
  | cons d list ih =>
    obtain ⟨hd, hnodup⟩ := List.nodup_cons.mp hnodup
    rw [List.countP_cons, List.countP_cons]
    by_cases hdc : d = c
    · have hrest : list.countP q = list.countP p := by
        apply List.countP_congr
        intro e he
        rw [hsame e]
        rintro rfl
        exact hd (hdc ▸ he)
      rw [hdc, hp, hrest]
      simp only [Bool.false_eq_true, if_false, Nat.add_zero]
    · have hin := (List.mem_cons.mp hc).resolve_left (Ne.symm hdc)
      rw [ih hnodup hin, hsame d hdc]
      omega

omit [DecidableEq commit] in
/-- Where no more are counted of the one than of the other, all are. -/
theorem countP_all {list : List commit} {p q : commit → Bool} (hpq : ∀ c, p c = true → q c = true)
    (hle : list.countP q ≤ list.countP p) : ∀ c ∈ list, q c = true → p c = true := by
  induction list with
  | nil => exact fun c hc => absurd hc List.not_mem_nil
  | cons d list ih =>
    rw [List.countP_cons, List.countP_cons] at hle
    have hrest : list.countP p ≤ list.countP q := List.countP_mono_left fun c _ => hpq c
    intro c hc hq
    have hboth : list.countP q ≤ list.countP p ∧ (q d = true → p d = true) := by
      by_cases hqd : q d = true
      · by_cases hpd : p d = true
        · rw [if_pos hqd, if_pos hpd] at hle
          exact ⟨Nat.le_of_add_le_add_right hle, fun _ => hpd⟩
        · rw [if_pos hqd, if_neg hpd] at hle
          omega
      · have hpd : ¬ p d = true := fun h => hqd (hpq d h)
        rw [if_neg hqd, if_neg hpd] at hle
        exact ⟨hle, fun h => absurd h hqd⟩
    rcases List.mem_cons.mp hc with rfl | hc
    · exact hboth.2 hq
    · exact ih hboth.1 c hc hq

/-! ## The weights that are known -/

/-- A list without uninteresting commits, which holds the interesting parents of its
commits, and no merge that is not to be counted. -/
structure Listed (g : commit_graph commit) (list : List commit) : Prop where
  dag : Dag g
  nodup : list.Nodup
  interesting : ∀ c ∈ list, g.UNINTERESTING c = false
  closed : ∀ c ∈ list, ∀ p, Step g c p → p ∈ list
  merges : ∀ c ∈ list, g.TREESAME c = true → count_interesting_parents g c ≤ 1

/-- A commit whose weight counts, and is known. -/
def known (g : commit_graph commit) (weight : commit → Int) (c : commit) : Bool :=
  !g.TREESAME c && 0 ≤ weight c

/-- What holds of the weights at any time. -/
structure Weighed (g : commit_graph commit) (list : List commit) (s : progress commit) : Prop where
  right : ∀ c ∈ list, 0 ≤ s.weight c → s.weight c = reached g c
  one : ∀ c ∈ list, s.weight c = -1 → count_interesting_parents g c = 1
  more : ∀ c ∈ list, s.weight c = -2 → 2 ≤ count_interesting_parents g c
  low : ∀ c ∈ list, s.weight c < 0 → s.weight c = -1 ∨ s.weight c = -2
  counted : s.counted = list.countP (known g s.weight)
  clear : s.COUNTED = ∅

/-- A weight becomes known. -/
theorem Weighed.weight_set (hl : Listed g list) {s : progress commit} (h : Weighed g list s)
    {c : commit} (hc : c ∈ list) (hlow : s.weight c < 0) {s' : progress commit}
    (hweight : s'.weight = Function.update s.weight c (reached g c))
    (hcounted : s'.counted = if g.TREESAME c then s.counted else s.counted + 1)
    (hclear : s'.COUNTED = ∅) : Weighed g list s' := by
  have hself : s'.weight c = reached g c := by rw [hweight, Function.update_self]
  have hother : ∀ d, d ≠ c → s'.weight d = s.weight d := by
    intro d hd
    rw [hweight, Function.update_of_ne hd]
  have hnonneg : 0 ≤ s'.weight c := by
    rw [hself]
    exact Int.natCast_nonneg _
  refine ⟨?_, ?_, ?_, ?_, ?_, hclear⟩
  · intro d hd hpos
    by_cases hdc : d = c
    · rw [hdc, hself]
    · rw [hother d hdc] at hpos ⊢
      exact h.right d hd hpos
  · intro d hd heq
    by_cases hdc : d = c
    · rw [hdc] at heq
      omega
    · rw [hother d hdc] at heq
      exact h.one d hd heq
  · intro d hd heq
    by_cases hdc : d = c
    · rw [hdc] at heq
      omega
    · rw [hother d hdc] at heq
      exact h.more d hd heq
  · intro d hd hneg
    by_cases hdc : d = c
    · rw [hdc] at hneg
      omega
    · rw [hother d hdc] at hneg ⊢
      exact h.low d hd hneg
  · have hone : list.countP (known g s'.weight) =
        list.countP (known g s.weight) + if known g s'.weight c then 1 else 0 := by
      apply countP_one_more hl.nodup hc
      · intro d hd
        unfold known
        rw [hother d hd]
      · unfold known
        rw [decide_eq_false (not_le.mpr hlow), Bool.and_false]
    rw [hone, hcounted, h.counted]
    unfold known
    rw [decide_eq_true hnonneg, Bool.and_true]
    cases g.TREESAME c with
    | true => rfl
    | false => rfl

/-- A commit that is returned early is halfway, and its weight is right. -/
def Found (g : commit_graph commit) (list : List commit) (nr : Nat)
    (found : commit × progress commit) : Prop :=
  found.1 ∈ list ∧ halfway g found.2.weight found.1 nr = true ∧
    found.2.weight found.1 = reached g found.1

/-! ## The first weights -/

omit [DecidableEq commit] in
theorem no_interesting_parents {c : commit} :
    count_interesting_parents g c = 0 ↔ ∀ p, ¬ Step g c p := by
  unfold count_interesting_parents
  rw [List.length_eq_zero_iff, List.filter_eq_nil_iff]
  constructor
  · intro hnone p hp
    apply hnone p hp.1
    rw [hp.2]
    rfl
  · intro hnone p hp hnot
    exact hnone p ⟨hp, by simpa using hnot⟩

/-- What the first loop makes of the weight of a commit. -/
def first_weight (g : commit_graph commit) (c : commit) : Int :=
  match count_interesting_parents g c with
  | 0 => if g.TREESAME c then 0 else 1
  | 1 => -1
  | _ => -2

theorem initial_weight_eq (s : progress commit) (c : commit) (hzero : s.weight c = 0) :
    (initial_weight g s c).weight = Function.update s.weight c (first_weight g c) ∧
      (initial_weight g s c).counted =
        s.counted + (if known g (fun _ => first_weight g c) c then 1 else 0) ∧
      (initial_weight g s c).COUNTED = s.COUNTED := by
  unfold initial_weight first_weight known
  cases hcount : count_interesting_parents g c with
  | zero =>
    cases hsame : g.TREESAME c with
    | true =>
      refine ⟨?_, rfl, rfl⟩
      simp only [if_true]
      rw [← hzero, Function.update_eq_self]
    | false => exact ⟨rfl, rfl, rfl⟩
  | succ n =>
    cases n with
    | zero =>
      refine ⟨rfl, ?_, rfl⟩
      have hneg : decide (0 ≤ (-1 : Int)) = false := rfl
      simp only [hneg, Bool.and_false]
      rfl
    | succ n =>
      refine ⟨rfl, ?_, rfl⟩
      have hneg : decide (0 ≤ (-2 : Int)) = false := rfl
      simp only [hneg, Bool.and_false]
      rfl

/-- All weights after the first loop. -/
theorem initial_weights (hnodup : list.Nodup) :
    (∀ c, (list.foldl (initial_weight g)
        { weight := fun _ => 0, counted := 0, COUNTED := ∅ }).weight c =
      if c ∈ list then first_weight g c else 0) ∧
    (list.foldl (initial_weight g)
        { weight := fun _ => 0, counted := 0, COUNTED := ∅ }).counted =
      list.countP (known g (first_weight g)) ∧
    (list.foldl (initial_weight g)
        { weight := fun _ => 0, counted := 0, COUNTED := ∅ }).COUNTED = ∅ := by
  induction list using List.reverseRecOn with
  | nil => exact ⟨fun c => (if_neg List.not_mem_nil).symm, rfl, rfl⟩
  | append_singleton list c ih =>
    obtain ⟨hlist, -, hdisjoint⟩ := List.nodup_append.mp hnodup
    have hnew : c ∉ list := fun hc => hdisjoint c hc c (List.mem_singleton_self c) rfl
    obtain ⟨hweight, hcounted, hclear⟩ := ih hlist
    rw [List.foldl_append, List.foldl_cons, List.foldl_nil]
    have hzero := hweight c
    rw [if_neg hnew] at hzero
    obtain ⟨hw, hn, hm⟩ := initial_weight_eq (g := g) _ c hzero
    rw [hw, hn, hm, hcounted, hclear]
    refine ⟨?_, ?_, rfl⟩
    · intro d
      by_cases hd : d = c
      · rw [hd, Function.update_self,
          if_pos (List.mem_append_right _ (List.mem_singleton_self c))]
      · rw [Function.update_of_ne hd, hweight]
        simp only [List.mem_append, List.mem_singleton, hd, or_false]
    · rw [List.countP_append, List.countP_singleton]
      rfl

omit [DecidableEq commit] in
theorem first_weight_cases (c : commit) :
    (first_weight g c = reached g c ∧ count_interesting_parents g c = 0) ∨
      (first_weight g c = -1 ∧ count_interesting_parents g c = 1) ∨
      (first_weight g c = -2 ∧ 2 ≤ count_interesting_parents g c) := by
  unfold first_weight
  cases hcount : count_interesting_parents g c with
  | zero =>
    refine Or.inl ⟨?_, rfl⟩
    rw [reached_leaf (no_interesting_parents.mp hcount)]
    cases g.TREESAME c with
    | true => rfl
    | false => rfl
  | succ n =>
    cases n with
    | zero => exact Or.inr (Or.inl ⟨rfl, rfl⟩)
    | succ n => exact Or.inr (Or.inr ⟨rfl, Nat.le_add_left 2 n⟩)

theorem initial_weighed (hl : Listed g list) :
    Weighed g list (list.foldl (initial_weight g)
      { weight := fun _ => 0, counted := 0, COUNTED := ∅ }) := by
  obtain ⟨hweight, hcounted, hclear⟩ := initial_weights (g := g) hl.nodup
  have hfirst : ∀ c ∈ list, (list.foldl (initial_weight g)
      { weight := fun _ => 0, counted := 0, COUNTED := ∅ }).weight c = first_weight g c := by
    intro c hc
    rw [hweight, if_pos hc]
  refine ⟨?_, ?_, ?_, ?_, ?_, hclear⟩
  · intro c hc hpos
    rw [hfirst c hc] at hpos ⊢
    rcases first_weight_cases (g := g) c with ⟨heq, -⟩ | ⟨heq, -⟩ | ⟨heq, -⟩
    · exact heq
    · omega
    · omega
  · intro c hc heq
    rw [hfirst c hc] at heq
    rcases first_weight_cases (g := g) c with ⟨heq', -⟩ | ⟨-, hone⟩ | ⟨heq', -⟩
    · omega
    · exact hone
    · omega
  · intro c hc heq
    rw [hfirst c hc] at heq
    rcases first_weight_cases (g := g) c with ⟨heq', -⟩ | ⟨heq', -⟩ | ⟨-, hmore⟩
    · omega
    · omega
    · exact hmore
  · intro c hc hneg
    rw [hfirst c hc] at hneg ⊢
    rcases first_weight_cases (g := g) c with ⟨heq, -⟩ | ⟨heq, -⟩ | ⟨heq, -⟩
    · omega
    · exact Or.inl heq
    · exact Or.inr heq
  · rw [hcounted]
    apply List.countP_congr
    intro c hc
    unfold known
    rw [hfirst c hc]

/-! ## Merges -/

omit [DecidableEq commit] in
/-- A commit reaches commits of the list only. -/
theorem Listed.reaches (hl : Listed g list) {c a : commit} (hc : c ∈ list)
    (h : Reaches g c a) : a ∈ list := by
  induction h with
  | refl => exact hc
  | tail _ hp ih => exact hl.closed _ ih _ hp

/-- After the merges no weight is -2. -/
theorem count_merges_weighed [Fintype commit] (hl : Listed g list) (nr : Nat) (l : List commit) :
    ∀ s, Weighed g list s → (∀ c ∈ l, c ∈ list) → (∀ c ∈ list, s.weight c = -2 → c ∈ l) →
      match count_merges g nr list l s with
      | .error found => Found g list nr found
      | .ok s' => Weighed g list s' ∧ ∀ c ∈ list, s'.weight c ≠ -2 := by
  induction l with
  | nil =>
    intro s h _ hmerges
    exact ⟨h, fun c hc heq => List.not_mem_nil (hmerges c hc heq)⟩
  | cons c l ih =>
    intro s h hsub hmerges
    have hc := hsub c List.mem_cons_self
    have hrest : ∀ d ∈ l, d ∈ list := fun d hd => hsub d (List.mem_cons_of_mem c hd)
    have hinteresting := hl.interesting c hc
    rw [count_merges, hinteresting, if_neg Bool.false_ne_true]
    by_cases hmerge : s.weight c = -2
    · rw [if_neg (not_not.mpr hmerge)]
      obtain ⟨hdistance, hmarks⟩ := count_distance_reached hinteresting
      have hclear : clear_distance list (count_distance g 0 ∅ [c]).2 = ∅ :=
        clear_distance_empty fun a ha => hl.reaches hc ((hmarks a).mp ha)
      have hcount : g.TREESAME c = false := by
        cases hsame : g.TREESAME c with
        | false => rfl
        | true =>
          have hmore := h.more c hc hmerge
          have hone := hl.merges c hc hsame
          omega
      simp only
      rw [h.clear]
      have hself : ({ s.weight_set c (count_distance g 0 ∅ [c]).1 with
          COUNTED := clear_distance list (count_distance g 0 ∅ [c]).2 } :
            progress commit).weight c = reached g c := by
        rw [hdistance]
        exact Function.update_self c _ _
      by_cases hhalf : halfway g ({ s.weight_set c (count_distance g 0 ∅ [c]).1 with
          COUNTED := clear_distance list (count_distance g 0 ∅ [c]).2 } :
            progress commit).weight c nr = true
      · rw [if_pos hhalf]
        exact ⟨hc, hhalf, hself⟩
      · rw [if_neg hhalf]
        apply ih
        · apply h.weight_set hl hc (by omega)
          · rw [← hdistance]
            rfl
          · rw [hcount]
            rfl
          · exact hclear
        · exact hrest
        · intro d hd heq
          have hne : d ≠ c := by
            rintro rfl
            have hsame : (reached g d : Int) = -2 := hself.symm.trans heq
            omega
          have hold : s.weight d = -2 := by
            have hupdate : Function.update s.weight c ((count_distance g 0 ∅ [c]).1 : Int) d = -2 :=
              heq
            rwa [Function.update_of_ne hne] at hupdate
          exact (List.mem_cons.mp (hmerges d hd hold)).resolve_left hne
    · rw [if_pos hmerge]
      apply ih s h hrest
      intro d hd heq
      refine (List.mem_cons.mp (hmerges d hd heq)).resolve_left ?_
      rintro rfl
      exact hmerge heq

/-! ## Single parents -/

omit [DecidableEq commit] in
/-- The known parent of a commit with one interesting parent is that one. -/
theorem known_parent_single {weight : commit → Int} {c q : commit}
    (hone : count_interesting_parents g c = 1) (hq : known_parent g weight c = some q) :
    (∀ p, Step g c p ↔ p = q) ∧ 0 ≤ weight q := by
  have hfound := List.find?_some hq
  rw [Bool.and_eq_true, decide_eq_true_eq] at hfound
  have hstep : ∀ p, p ∈ (g.parents c).filter (fun p => !g.UNINTERESTING p) ↔ Step g c p := by
    intro p
    rw [List.mem_filter, Bool.not_eq_true', Step]
  obtain ⟨r, hr⟩ := List.length_eq_one_iff.mp hone
  have hall : ∀ p, Step g c p ↔ p = r := by
    intro p
    rw [← hstep, hr, List.mem_singleton]
  have hqr : q = r := (hall q).mp ⟨List.mem_of_find?_eq_some hq, by simpa using hfound.1⟩
  rw [hqr]
  exact ⟨hall, hqr ▸ hfound.2⟩

/-- A weight is handed on along a single parent. -/
theorem Weighed.hand_on [Finite commit] (hl : Listed g list) {s : progress commit}
    (h : Weighed g list s) (hmerges : ∀ c ∈ list, s.weight c ≠ -2) {c q : commit} (hc : c ∈ list)
    (hlow : s.weight c < 0) (hq : known_parent g s.weight c = some q) :
    Weighed g list
        (if g.TREESAME c then s.weight_set c (s.weight q)
          else { s.weight_set c (s.weight q + 1) with counted := s.counted + 1 }) ∧
      (if g.TREESAME c then s.weight_set c (s.weight q)
        else { s.weight_set c (s.weight q + 1) with counted := s.counted + 1 }).weight =
        Function.update s.weight c (reached g c) := by
  have hone := h.one c hc ((h.low c hc hlow).resolve_right (hmerges c hc))
  obtain ⟨hsingle, hpos⟩ := known_parent_single hone hq
  have hqlist := hl.closed c hc q ((hsingle q).mpr rfl)
  have hreached := reached_single hl.dag hsingle
  have hright := h.right q hqlist hpos
  cases hsame : g.TREESAME c with
  | true =>
    rw [hsame, if_pos rfl] at hreached
    simp only [if_true]
    have hweight : (s.weight_set c (s.weight q)).weight =
        Function.update s.weight c (reached g c) := by
      rw [hright, hreached]
      rfl
    refine ⟨?_, hweight⟩
    apply h.weight_set hl hc hlow hweight
    · rw [hsame]
      rfl
    · exact h.clear
  | false =>
    rw [hsame, if_neg Bool.false_ne_true] at hreached
    simp only [Bool.false_eq_true, if_false]
    have hweight : (s.weight_set c (s.weight q + 1)).weight =
        Function.update s.weight c (reached g c) := by
      rw [hright, hreached, Nat.cast_add, Nat.cast_one]
      rfl
    refine ⟨?_, hweight⟩
    refine h.weight_set hl hc hlow ?_ ?_ h.clear
    · exact hweight
    · rw [hsame]
      rfl

/-- A pass keeps the weights that are known, and gives one to each commit whose parent is
known at its beginning. -/
theorem fill_blanks_weighed [Finite commit] (hl : Listed g list) (nr : Nat) (l : List commit) :
    ∀ s, Weighed g list s → (∀ c ∈ list, s.weight c ≠ -2) → (∀ c ∈ l, c ∈ list) →
      match fill_blanks g nr l s with
      | .error found => Found g list nr found
      | .ok s' => Weighed g list s' ∧ (∀ c ∈ list, s'.weight c ≠ -2) ∧
          (∀ c, 0 ≤ s.weight c → 0 ≤ s'.weight c) ∧
          ∀ c ∈ l, known_parent g s.weight c ≠ none → 0 ≤ s'.weight c := by
  induction l with
  | nil => exact fun s h hmerges _ =>
      ⟨h, hmerges, fun _ hpos => hpos, fun c hc => absurd hc List.not_mem_nil⟩
  | cons c l ih =>
    intro s h hmerges hsub
    have hc := hsub c List.mem_cons_self
    have hrest : ∀ d ∈ l, d ∈ list := fun d hd => hsub d (List.mem_cons_of_mem c hd)
    rw [fill_blanks]
    by_cases hpos : 0 ≤ s.weight c
    · rw [if_pos hpos]
      have hnext := ih s h hmerges hrest
      cases hout : fill_blanks g nr l s with
      | error found =>
        rw [hout] at hnext
        exact hnext
      | ok s' =>
        rw [hout] at hnext
        obtain ⟨h', hm', hkeep, hfill⟩ := hnext
        refine ⟨h', hm', hkeep, ?_⟩
        intro d hd hparent
        rcases List.mem_cons.mp hd with rfl | hd
        · exact hkeep d hpos
        · exact hfill d hd hparent
    · rw [if_neg hpos]
      have hlow : s.weight c < 0 := not_le.mp hpos
      cases hq : known_parent g s.weight c with
      | none =>
        have hnext := ih s h hmerges hrest
        simp only
        cases hout : fill_blanks g nr l s with
        | error found =>
          rw [hout] at hnext
          exact hnext
        | ok s' =>
          rw [hout] at hnext
          obtain ⟨h', hm', hkeep, hfill⟩ := hnext
          refine ⟨h', hm', hkeep, ?_⟩
          intro d hd hparent
          rcases List.mem_cons.mp hd with rfl | hd
          · exact absurd hq hparent
          · exact hfill d hd hparent
      | some q =>
        obtain ⟨hset, hweight⟩ := h.hand_on hl hmerges hc hlow hq
        simp only
        generalize (if g.TREESAME c then s.weight_set c (s.weight q)
          else { s.weight_set c (s.weight q + 1) with counted := s.counted + 1 }) = t
          at hset hweight ⊢
        have hself : t.weight c = reached g c := by rw [hweight, Function.update_self]
        have hkept : ∀ d, 0 ≤ s.weight d → t.weight d = s.weight d := by
          intro d hd
          rw [hweight, Function.update_of_ne]
          rintro rfl
          exact hpos hd
        by_cases hhalf : halfway g t.weight c nr = true
        · rw [if_pos hhalf]
          exact ⟨hc, hhalf, hself⟩
        · rw [if_neg hhalf]
          have hmerges' : ∀ d ∈ list, t.weight d ≠ -2 := by
            intro d hd
            by_cases hdc : d = c
            · rw [hdc, hself]
              omega
            · rw [hweight, Function.update_of_ne hdc]
              exact hmerges d hd
          -- a parent that was known still is
          have hmono : ∀ d, known_parent g s.weight d ≠ none →
              known_parent g t.weight d ≠ none := by
            intro d hsome hnone
            apply hsome
            rw [known_parent, List.find?_eq_none] at hnone ⊢
            intro p hp hknown
            apply hnone p hp
            rw [Bool.and_eq_true, decide_eq_true_eq] at hknown ⊢
            exact ⟨hknown.1, (hkept p hknown.2).symm ▸ hknown.2⟩
          have hnext := ih t hset hmerges' hrest
          cases hout : fill_blanks g nr l t with
          | error found =>
            rw [hout] at hnext
            exact hnext
          | ok s' =>
            rw [hout] at hnext
            obtain ⟨h', hm', hkeep, hfill⟩ := hnext
            refine ⟨h', hm', fun d hd => hkeep d (hkept d hd ▸ hd), ?_⟩
            intro d hd hparent
            rcases List.mem_cons.mp hd with rfl | hd
            · apply hkeep
              rw [hself]
              exact Int.natCast_nonneg _
            · exact hfill d hd (hmono d hparent)

omit [DecidableEq commit] in
/-- While a commit is to be counted that has no weight yet, there is one without a weight
whose parent has one: one that reaches no other. -/
theorem Weighed.next [Finite commit] (hl : Listed g list) {s : progress commit}
    (h : Weighed g list s) (hmerges : ∀ c ∈ list, s.weight c ≠ -2) {c : commit} (hc : c ∈ list)
    (hlow : s.weight c < 0) :
    ∃ m ∈ list, s.weight m < 0 ∧ known_parent g s.weight m ≠ none := by
  have hwf : WellFounded (TransGen fun p c : commit => p ∈ g.parents c) := by
    apply acyclic.Acyclic.wf_trans
    intro d hd
    exact hl.dag d (transGen_swap.mp hd)
  obtain ⟨m, ⟨hm, hmlow⟩, hmin⟩ := hwf.has_min {d | d ∈ list ∧ s.weight d < 0} ⟨c, hc, hlow⟩
  refine ⟨m, hm, hmlow, ?_⟩
  have hone := h.one m hm ((h.low m hm hmlow).resolve_right (hmerges m hm))
  have hsome : ∃ p, Step g m p := by
    by_contra hnone
    have hzero := no_interesting_parents.mpr (not_exists.mp hnone)
    omega
  obtain ⟨p, hp⟩ := hsome
  have hpos : 0 ≤ s.weight p := by
    by_contra hneg
    exact hmin p ⟨hl.closed m hm p hp, not_le.mp hneg⟩ (TransGen.single hp.1)
  intro hnone
  rw [known_parent, List.find?_eq_none] at hnone
  apply hnone p hp.1
  rw [hp.2, decide_eq_true hpos]
  rfl

omit [DecidableEq commit] in
/-- When all are counted, all that count have their weights. -/
theorem Weighed.all_known {s : progress commit} (h : Weighed g list s)
    (hcount : ¬ s.counted < list.countP (fun c => !g.TREESAME c)) {c : commit} (hc : c ∈ list)
    (hsame : g.TREESAME c = false) : 0 ≤ s.weight c := by
  rw [h.counted, not_lt] at hcount
  have hall := countP_all (p := known g s.weight) (q := fun c => !g.TREESAME c)
    (fun c hc => (Bool.and_eq_true_iff.mp hc).1) hcount c hc (by rw [hsame]; rfl)
  exact of_decide_eq_true (Bool.and_eq_true_iff.mp hall).2

omit [DecidableEq commit] in
/-- Before that, a weight is not known yet. -/
theorem Weighed.missing {s : progress commit} (h : Weighed g list s)
    (hcount : s.counted < list.countP (fun c => !g.TREESAME c)) :
    ∃ c ∈ list, s.weight c < 0 := by
  by_contra hnone
  rw [h.counted] at hcount
  apply absurd hcount (not_lt.mpr _)
  apply List.countP_mono_left
  intro c hc hsame
  unfold known
  rw [hsame, Bool.true_and, decide_eq_true_eq]
  by_contra hneg
  exact hnone ⟨c, hc, not_le.mp hneg⟩

/-- As many passes as commits without a weight are enough. -/
theorem fill_loop_weighed [Finite commit] (hl : Listed g list) (passes : Nat) :
    ∀ s, Weighed g list s → (∀ c ∈ list, s.weight c ≠ -2) →
      list.countP (fun c => decide (s.weight c < 0)) ≤ passes →
      match fill_loop g (list.countP fun c => !g.TREESAME c) list passes s with
      | none => False
      | some (.error found) => Found g list (list.countP fun c => !g.TREESAME c) found
      | some (.ok s') =>
        Weighed g list s' ∧ ∀ c ∈ list, g.TREESAME c = false → 0 ≤ s'.weight c := by
  induction passes with
  | zero =>
    intro s h hmerges hpasses
    rw [fill_loop]
    by_cases hcount : s.counted < list.countP fun c => !g.TREESAME c
    · obtain ⟨c, hc, hneg⟩ := h.missing hcount
      have hnone := List.countP_eq_zero.mp (Nat.le_zero.mp hpasses) c hc
      exact absurd (decide_eq_true hneg) hnone
    · rw [if_neg hcount]
      exact ⟨h, fun c hc hsame => h.all_known hcount hc hsame⟩
  | succ passes ih =>
    intro s h hmerges hpasses
    rw [fill_loop]
    by_cases hcount : s.counted < list.countP fun c => !g.TREESAME c
    · rw [if_pos hcount]
      obtain ⟨c, hc, hneg⟩ := h.missing hcount
      obtain ⟨m, hm, hmneg, hparent⟩ := h.next hl hmerges hc hneg
      have hpass := fill_blanks_weighed hl (list.countP fun c => !g.TREESAME c) list s h hmerges
        fun _ hc => hc
      cases hout : fill_blanks g (list.countP fun c => !g.TREESAME c) list s with
      | error found =>
        rw [hout] at hpass
        exact hpass
      | ok s' =>
        rw [hout] at hpass
        obtain ⟨h', hm', hkeep, hfill⟩ := hpass
        apply ih s' h' hm'
        -- `m` has got its weight
        by_contra hmany
        have hsame := countP_all (p := fun c => decide (s'.weight c < 0))
          (q := fun c => decide (s.weight c < 0)) ?_ (by omega) m hm (decide_eq_true hmneg)
        · exact absurd (hfill m hm hparent) (not_le.mpr (of_decide_eq_true hsame))
        · intro d hd
          apply decide_eq_true
          by_contra hpos
          exact absurd (hkeep d (not_lt.mp hpos)) (not_le.mpr (of_decide_eq_true hd))
    · rw [if_neg hcount]
      exact ⟨h, fun c hc hsame => h.all_known hcount hc hsame⟩

/-! ## The best -/

/-- How many a test of `c` is sure to rule out. -/
def distance (weight : commit → Int) (nr : Nat) (c : commit) : Int :=
  min (weight c) (nr - weight c)

omit [DecidableEq commit] in
/-- The loop ends with the best of the list, or with what it began with. -/
theorem best_loop_spec (weight : commit → Int) (nr : Nat) (l : List commit) :
    ∀ best best_distance,
      (∃ c ∈ l, g.TREESAME c = false ∧ best_loop g weight nr l best best_distance = some c ∧
        best_distance < distance weight nr c ∧
        ∀ d ∈ l, g.TREESAME d = false → distance weight nr d ≤ distance weight nr c) ∨
      best_loop g weight nr l best best_distance = best ∧
        ∀ d ∈ l, g.TREESAME d = false → distance weight nr d ≤ best_distance := by
  induction l with
  | nil => exact fun best _ => Or.inr ⟨rfl, fun d hd => absurd hd List.not_mem_nil⟩
  | cons c l ih =>
    intro best best_distance
    have hdistance : (if nr - weight c < weight c then nr - weight c else weight c) =
        distance weight nr c := by
      unfold distance
      split_ifs with hlt
      · exact (min_eq_right hlt.le).symm
      · exact (min_eq_left (not_lt.mp hlt)).symm
    rw [best_loop, hdistance]
    cases hsame : g.TREESAME c with
    | true =>
      rw [if_pos rfl]
      have hskip : ∀ b, (∀ d ∈ l, g.TREESAME d = false → distance weight nr d ≤ b) →
          ∀ d ∈ c :: l, g.TREESAME d = false → distance weight nr d ≤ b := by
        intro b hall d hd hcount
        rcases List.mem_cons.mp hd with rfl | hd
        · rw [hsame] at hcount
          cases hcount
        · exact hall d hd hcount
      rcases ih best best_distance with ⟨d, hd, hcount, heq, hless, hall⟩ | ⟨heq, hall⟩
      · exact Or.inl ⟨d, List.mem_cons_of_mem c hd, hcount, heq, hless, hskip _ hall⟩
      · exact Or.inr ⟨heq, hskip _ hall⟩
    | false =>
      rw [if_neg Bool.false_ne_true]
      have hadd : ∀ b, distance weight nr c ≤ b →
          (∀ d ∈ l, g.TREESAME d = false → distance weight nr d ≤ b) →
          ∀ d ∈ c :: l, g.TREESAME d = false → distance weight nr d ≤ b := by
        intro b hle hall d hd hcount
        rcases List.mem_cons.mp hd with rfl | hd
        · exact hle
        · exact hall d hd hcount
      by_cases hbetter : best_distance < distance weight nr c
      · simp only
        rw [if_pos hbetter]
        left
        rcases ih (some c) (distance weight nr c) with
          ⟨d, hd, hcount, heq, hless, hall⟩ | ⟨heq, hall⟩
        · exact ⟨d, List.mem_cons_of_mem c hd, hcount, heq, hbetter.trans hless,
            hadd _ hless.le hall⟩
        · exact ⟨c, List.mem_cons_self, hsame, heq, hbetter, hadd _ (le_refl _) hall⟩
      · simp only
        rw [if_neg hbetter]
        rcases ih best best_distance with ⟨d, hd, hcount, heq, hless, hall⟩ | ⟨heq, hall⟩
        · exact Or.inl ⟨d, List.mem_cons_of_mem c hd, hcount, heq, hless,
            hadd _ ((not_lt.mp hbetter).trans hless.le) hall⟩
        · exact Or.inr ⟨heq, hadd _ (not_lt.mp hbetter) hall⟩

omit [DecidableEq commit] in
/-- A commit reaches no more than there are. -/
theorem Listed.reached_le [Finite commit] (hl : Listed g list) {c : commit} (hc : c ∈ list) :
    reached g c ≤ list.countP fun c => !g.TREESAME c := by
  classical
  have hsub : {a | Reaches g c a ∧ g.TREESAME a = false} ⊆
      ((list.filter fun a => !g.TREESAME a).toFinset : Finset commit) := by
    rintro a ⟨ha, hcount⟩
    rw [Finset.mem_coe, List.mem_toFinset, List.mem_filter, hcount]
    exact ⟨hl.reaches hc ha, rfl⟩
  unfold reached
  refine (Set.ncard_le_ncard hsub (Finset.finite_toSet _)).trans ?_
  rw [Set.ncard_coe_finset, List.countP_eq_length_filter]
  exact List.toFinset_card_le _

/-- What the choice comes to. -/
def Chosen (g : commit_graph commit) (list : List commit) (nr : Nat)
    (best : Option (commit × Int)) : Prop :=
  ∃ c ∈ list, g.TREESAME c = false ∧ best = some (c, (reached g c : Int)) ∧
    (|2 * (reached g c : Int) - nr| ≤ 1 ∨
      ∀ d ∈ list, g.TREESAME d = false →
        min (reached g d) (nr - reached g d) ≤ min (reached g c) (nr - reached g c))

omit [DecidableEq commit] in
theorem Found.chosen {nr : Nat} {found : commit × progress commit} (h : Found g list nr found) :
    Chosen g list nr (some (found.1, found.2.weight found.1)) := by
  obtain ⟨hc, hhalf, hweight⟩ := h
  unfold halfway at hhalf
  rw [hweight] at hhalf
  simp only [Bool.and_eq_true, Bool.or_eq_true, decide_eq_true_eq, Bool.not_eq_true'] at hhalf
  obtain ⟨hsame, hclose⟩ := hhalf
  refine ⟨found.1, hc, hsame, by rw [hweight], Or.inl ?_⟩
  rw [abs_le]
  omega

theorem do_find_bisection_chosen [Fintype commit] (hl : Listed g list)
    (hpos : 0 < list.countP fun c => !g.TREESAME c) :
    ∃ best, do_find_bisection g list (list.countP fun c => !g.TREESAME c) = some best ∧
      Chosen g list (list.countP fun c => !g.TREESAME c) best := by
  have hmerges := count_merges_weighed hl (list.countP fun c => !g.TREESAME c) list _
    (initial_weighed hl) (fun _ hc => hc) (fun _ hc _ => hc)
  unfold do_find_bisection
  simp only
  cases hout : count_merges g (list.countP fun c => !g.TREESAME c) list list
      (list.foldl (initial_weight g) { weight := fun _ => 0, counted := 0, COUNTED := ∅ }) with
  | error found =>
    rw [hout] at hmerges
    exact ⟨_, rfl, Found.chosen hmerges⟩
  | ok s =>
    rw [hout] at hmerges
    have hfill := fill_loop_weighed hl list.length s hmerges.1 hmerges.2 List.countP_le_length
    simp only
    cases hloop : fill_loop g (list.countP fun c => !g.TREESAME c) list list.length s with
    | none =>
      rw [hloop] at hfill
      exact hfill.elim
    | some out =>
      rw [hloop] at hfill
      cases out with
      | error found => exact ⟨_, rfl, Found.chosen hfill⟩
      | ok s' =>
        obtain ⟨h, hknown⟩ := hfill
        have hright : ∀ c ∈ list, g.TREESAME c = false → s'.weight c = reached g c :=
          fun c hc hsame => h.right c hc (hknown c hc hsame)
        have hdistance : ∀ c ∈ list, g.TREESAME c = false →
            distance s'.weight (list.countP fun c => !g.TREESAME c) c =
              (min (reached g c) ((list.countP fun c => !g.TREESAME c) - reached g c) : Nat) := by
          intro c hc hsame
          have hle := hl.reached_le hc
          unfold distance
          rw [hright c hc hsame]
          omega
        rcases best_loop_spec (g := g) s'.weight (list.countP fun c => !g.TREESAME c) list
            list.head? (-1) with ⟨c, hc, hsame, heq, -, hall⟩ | ⟨-, hall⟩
        · refine ⟨_, rfl, c, hc, hsame, ?_, Or.inr ?_⟩
          · simp only [best_bisection]
            rw [heq, Option.map_some, hright c hc hsame]
          · intro d hd hdsame
            have hle := hall d hd hdsame
            rw [hdistance c hc hsame, hdistance d hd hdsame] at hle
            exact Nat.cast_le.mp hle
        · obtain ⟨c, hc, hcount⟩ := List.countP_pos_iff.mp hpos
          have hsame : g.TREESAME c = false := by simpa using hcount
          have hle := hall c hc hsame
          rw [hdistance c hc hsame] at hle
          omega

/-! ## The list as it comes -/

omit [DecidableEq commit] in
omit [DecidableEq commit] in
theorem listed_interesting (hdag : Dag g) (hnodup : list.Nodup)
    (hclosed : ∀ c ∈ list, g.UNINTERESTING c = false → ∀ p, Step g c p → p ∈ list)
    (hmerges : ∀ c ∈ list, g.UNINTERESTING c = false → g.TREESAME c = true →
      count_interesting_parents g c ≤ 1) :
    Listed g (list.filter fun c => !g.UNINTERESTING c).reverse := by
  have hmem : ∀ c, c ∈ (list.filter fun c => !g.UNINTERESTING c).reverse ↔
      c ∈ list ∧ g.UNINTERESTING c = false := by
    intro c
    rw [List.mem_reverse, List.mem_filter, Bool.not_eq_true']
  refine ⟨hdag, List.nodup_reverse.mpr (hnodup.filter _), ?_, ?_, ?_⟩
  · exact fun c hc => ((hmem c).mp hc).2
  · intro c hc p hp
    obtain ⟨hin, hinteresting⟩ := (hmem c).mp hc
    exact (hmem p).mpr ⟨hclosed c hin hinteresting p hp, hp.2⟩
  · intro c hc hsame
    obtain ⟨hin, hinteresting⟩ := (hmem c).mp hc
    exact hmerges c hin hinteresting hsame

/-- Where no commit is counted there is nothing to wait for. -/
theorem do_find_bisection_ends [Fintype commit] (hl : Listed g list) :
    do_find_bisection g list (list.countP fun c => !g.TREESAME c) ≠ none := by
  have hmerges := count_merges_weighed hl (list.countP fun c => !g.TREESAME c) list _
    (initial_weighed hl) (fun _ hc => hc) (fun _ hc _ => hc)
  unfold do_find_bisection
  simp only
  cases hout : count_merges g (list.countP fun c => !g.TREESAME c) list list
      (list.foldl (initial_weight g) { weight := fun _ => 0, counted := 0, COUNTED := ∅ }) with
  | error found => exact Option.some_ne_none _
  | ok s =>
    rw [hout] at hmerges
    have hfill := fill_loop_weighed hl list.length s hmerges.1 hmerges.2 List.countP_le_length
    simp only
    cases hloop : fill_loop g (list.countP fun c => !g.TREESAME c) list list.length s with
    | none =>
      rw [hloop] at hfill
      exact hfill.elim
    | some out => exact Option.some_ne_none _

omit [DecidableEq commit] in
theorem Dag.of_order [Preorder commit] (h : ∀ c p, p ∈ g.parents c → c < p) : Dag g := by
  have hless : ∀ a b, TransGen (fun c p => p ∈ g.parents c) a b → a < b := by
    intro a b hpath
    induction hpath with
    | single hp => exact h _ _ hp
    | tail _ hp ih => exact ih.trans (h _ _ hp)
  exact fun c hc => lt_irrefl c (hless c c hc)

/-- Each commit has the next for its parent. -/
def chain : commit_graph (Fin 3) where
  parents c := if c = 0 then [1] else if c = 1 then [2] else []
  UNINTERESTING _ := false
  TREESAME _ := false

/-- The merge 1 and its parents are TREESAME, its child 0 is not. -/
def early : commit_graph (Fin 4) where
  parents c := if c = 0 then [1] else if c = 1 then [2, 3] else []
  UNINTERESTING _ := false
  TREESAME c := c != 0

end git.bisect
