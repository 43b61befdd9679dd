-- Binary search over a list. The search of a key in a list whose keys
-- strictly ascend finds the element with the key, or the place where it goes.
import Mathlib

namespace bsearch

/-- What a search gives. C code returns `pos` for `found pos`, and
`-pos-1` for `absent pos`: the place where the element would go. -/
inductive Pos where
  | found (pos : Nat)
  | absent (pos : Nat)
  deriving DecidableEq, Repr

/-- The place, found or not. -/
def Pos.val : Pos → Nat
  | .found p => p
  | .absent p => p

/-- The loop between `lo` and `hi`. `test i` compares the key that is
sought with element `i`. Each turn makes `hi - lo` smaller, so `hi - lo`
turns are enough. -/
def loop (test : Nat → Ordering) : Nat → Nat → Nat → Pos
  | 0, lo, _ => .absent lo
  | turns + 1, lo, hi =>
    if lo < hi then
      let mi := (lo + hi) / 2
      match test mi with
      | .eq => .found mi
      | .lt => loop test turns lo mi
      | .gt => loop test turns (mi + 1) hi
    else .absent lo

variable {α κ : Type*}

/-- The search in a list, from its two ends. -/
def search (test : α → Ordering) (l : List α) : Pos :=
  loop (fun i => (l[i]?.map test).getD .eq) l.length 0 l.length

/-- Every place before `lo` is `.gt`, and every place from `hi` is `.lt`. -/
def Bracket (test : Nat → Ordering) (n lo hi : Nat) : Prop :=
  (∀ i < lo, test i = .gt) ∧ ∀ i, hi ≤ i → i < n → test i = .lt

theorem loop_spec (test : Nat → Ordering) (n turns lo hi : Nat) (hn : hi ≤ n) (hlo : lo ≤ hi)
    (hlt : ∀ i j, i < j → j < n → test i = .lt → test j = .lt)
    (hgt : ∀ i j, i < j → j < n → test j = .gt → test i = .gt)
    (ht : hi - lo ≤ turns) (h : Bracket test n lo hi) :
    (∃ p < n, loop test turns lo hi = .found p ∧ test p = .eq) ∨
      ∃ p ≤ n, loop test turns lo hi = .absent p ∧ Bracket test n p p := by
  induction turns generalizing lo hi with
  | zero =>
    have : lo = hi := by omega
    subst this
    exact Or.inr ⟨lo, hn, rfl, h⟩
  | succ turns ih =>
    unfold loop
    by_cases hb : lo < hi
    · rw [if_pos hb]
      have hmi : (lo + hi) / 2 < hi := by omega
      simp only
      rcases hc : test ((lo + hi) / 2)
      · refine ih lo ((lo + hi) / 2) (by omega) (by omega) (by omega) ⟨h.1, ?_⟩
        intro i hi1 hi2
        rcases Nat.eq_or_lt_of_le hi1 with rfl | hlt'
        · exact hc
        · exact hlt _ i hlt' hi2 hc
      · exact Or.inl ⟨_, by omega, rfl, hc⟩
      · refine ih ((lo + hi) / 2 + 1) hi hn (by omega) (by omega) ⟨?_, h.2⟩
        intro i hi1
        rcases Nat.eq_or_lt_of_le (Nat.le_of_lt_succ hi1) with rfl | hlt'
        · exact hc
        · exact hgt i _ hlt' (by omega) hc
    · have : lo = hi := by omega
      subst this
      rw [if_neg hb]
      exact Or.inr ⟨lo, hn, rfl, h⟩

/-- The place is never past the end, whatever the list. -/
theorem loop_le (test : Nat → Ordering) (turns lo hi : Nat) (h : lo ≤ hi) :
    (loop test turns lo hi).val ≤ hi := by
  induction turns generalizing lo hi with
  | zero => exact h
  | succ turns ih =>
    unfold loop
    split
    · simp only
      split
      · simp only [Pos.val]
        omega
      · exact (ih lo _ (by omega)).trans (by omega)
      · exact ih _ hi (by omega)
    · exact h

theorem loop_found_lt (test : Nat → Ordering) (turns lo hi p : Nat)
    (h : loop test turns lo hi = .found p) : p < hi := by
  induction turns generalizing lo hi with
  | zero => simp [loop] at h
  | succ turns ih =>
    unfold loop at h
    split at h
    · simp only at h
      split at h
      · simp only [Pos.found.injEq] at h
        omega
      · exact (ih lo _ h).trans_le (by omega)
      · exact ih _ hi h
    · cases h

theorem search_found_lt {test : α → Ordering} {l : List α} {p : Nat}
    (h : search test l = .found p) : p < l.length := loop_found_lt _ _ _ _ _ h

theorem search_absent_le {test : α → Ordering} {l : List α} {p : Nat}
    (h : search test l = .absent p) : p ≤ l.length := by
  have := loop_le (fun i => (l[i]?.map test).getD .eq) l.length 0 l.length (Nat.zero_le _)
  unfold search at h
  rwa [h] at this

/-- The place in a list of one element, by the answer about that. -/
def single : Ordering → Pos
  | .eq => .found 0
  | .lt => .absent 0
  | .gt => .absent 1

theorem search_singleton (test : α → Ordering) (x : α) : search test [x] = single (test x) := by
  unfold search
  cases h : test x <;> simp [loop, single, h]

variable [LinearOrder κ]

/-- A list whose keys strictly ascend. -/
def Ascends (key : α → κ) (l : List α) : Prop := l.Pairwise (fun a b => key a < key b)

theorem Ascends.lt {key : α → κ} {l : List α} (h : Ascends key l) {i j : Nat} (hij : i < j)
    (hi : i < l.length) (hj : j < l.length) : key l[i] < key l[j] :=
  List.pairwise_iff_getElem.mp h i j hi hj hij

theorem Ascends.sublist {key : α → κ} {l l' : List α} (h : Ascends key l) (hs : l'.Sublist l) :
    Ascends key l' := List.Pairwise.sublist hs h

/-- Elements with one key are one element. -/
theorem Ascends.eq_of_key {key : α → κ} {l : List α} (h : Ascends key l) {x y : α} (hx : x ∈ l)
    (hy : y ∈ l) (hk : key x = key y) : x = y := by
  obtain ⟨i, hi, rfl⟩ := List.getElem_of_mem hx
  obtain ⟨j, hj, rfl⟩ := List.getElem_of_mem hy
  rcases Nat.lt_trichotomy i j with hij | rfl | hij
  · exact absurd hk (h.lt hij hi hj).ne
  · rfl
  · exact absurd hk (h.lt hij hj hi).ne'

/-- The search of key `k` splits the list at `k`. -/
theorem search_spec {key : α → κ} {k : κ} {test : α → Ordering} {l : List α} (hs : Ascends key l)
    (hc : ∀ x ∈ l, (test x).Compares k (key x)) :
    (∃ pre x post, l = pre ++ x :: post ∧ search test l = .found pre.length ∧ key x = k) ∨
      ∃ pre post, l = pre ++ post ∧ search test l = .absent pre.length ∧
        (∀ a ∈ pre, key a < k) ∧ ∀ b ∈ post, k < key b := by
  have htest : ∀ i (hi : i < l.length),
      Ordering.Compares ((l[i]?.map test).getD .eq) k (key l[i]) := by
    intro i hi
    rw [List.getElem?_eq_getElem hi]
    exact hc _ (List.getElem_mem hi)
  have hspec := loop_spec (fun i => (l[i]?.map test).getD .eq) l.length l.length 0 l.length
    (Nat.le_refl _) (Nat.zero_le _) ?_ ?_ (by omega) ⟨fun i hi => absurd hi (by omega),
      fun i h1 h2 => absurd h1 (by omega)⟩
  · rcases hspec with ⟨p, hp, hfound, heq⟩ | ⟨p, hp, habs, hgt, hlt⟩
    · left
      refine ⟨l.take p, l[p], l.drop (p + 1), ?_, ?_, ((htest p hp).eq_eq.mp heq).symm⟩
      · rw [← List.drop_eq_getElem_cons hp, List.take_append_drop]
      · rw [List.length_take, Nat.min_eq_left hp.le]
        exact hfound
    · right
      refine ⟨l.take p, l.drop p, (List.take_append_drop p l).symm, ?_, ?_, ?_⟩
      · rw [List.length_take, Nat.min_eq_left hp]
        exact habs
      · intro a ha
        obtain ⟨i, hi, rfl⟩ := List.getElem_of_mem ha
        rw [List.length_take] at hi
        rw [List.getElem_take]
        exact (htest i (by omega)).eq_gt.mp (hgt i (by omega))
      · intro b hb
        obtain ⟨i, hi, rfl⟩ := List.getElem_of_mem hb
        rw [List.length_drop] at hi
        rw [List.getElem_drop]
        exact (htest (p + i) (by omega)).eq_lt.mp (hlt _ (by omega) (by omega))
  · intro i j hij hj hi
    have h1 := (htest i (by omega)).eq_lt.mp hi
    exact (htest j hj).eq_lt.mpr (h1.trans (hs.lt hij (by omega) hj))
  · intro i j hij hj hi
    have h1 := (htest j hj).eq_gt.mp hi
    exact (htest i (by omega)).eq_gt.mpr ((hs.lt hij (by omega) hj).trans h1)

/-! ## Where a key belongs -/

section Placed
variable {key : α → κ} {k : κ} {l : List α}

/-- `pos` is where the element with key `k` stands, or where it would go. -/
def Placed (key : α → κ) (k : κ) (l : List α) : Pos → Prop
  | .found p => ∃ x, l[p]? = some x ∧ key x = k
  | .absent p => p ≤ l.length ∧ (∀ a ∈ l.take p, key a < k) ∧ ∀ b ∈ l.drop p, k < key b

/-- A key belongs in one place only. -/
theorem Placed.unique (hs : Ascends key l) {pos pos' : Pos} (h : Placed key k l pos)
    (h' : Placed key k l pos') : pos = pos' := by
  -- An element with the key stands before or after a place for the key.
  have apart : ∀ {p q : Nat} {x : α}, l[p]? = some x → key x = k →
      ¬Placed key k l (.absent q) := by
    rintro p q x hp rfl ⟨-, hpre, hpost⟩
    by_cases hpq : p < q
    · refine absurd (hpre x (List.mem_of_getElem? (i := p) ?_)) (lt_irrefl _)
      rwa [List.getElem?_take_of_lt hpq]
    · refine absurd (hpost x (List.mem_of_getElem? (i := p - q) ?_)) (lt_irrefl _)
      rwa [List.getElem?_drop, Nat.add_sub_cancel' (Nat.le_of_not_lt hpq)]
  cases pos with
  | found p =>
    obtain ⟨x, hx, hk⟩ := h
    cases pos' with
    | found q =>
      obtain ⟨y, hy, hk'⟩ := h'
      obtain ⟨hp, rfl⟩ := List.getElem?_eq_some_iff.mp hx
      obtain ⟨hq, rfl⟩ := List.getElem?_eq_some_iff.mp hy
      rcases Nat.lt_trichotomy p q with hpq | rfl | hpq
      · exact absurd (hk.trans hk'.symm) (hs.lt hpq hp hq).ne
      · rfl
      · exact absurd (hk.trans hk'.symm) (hs.lt hpq hq hp).ne'
    | absent q => exact absurd h' (apart hx hk)
  | absent p =>
    cases pos' with
    | found q =>
      obtain ⟨y, hy, hk⟩ := h'
      exact absurd h (apart hy hk)
    | absent q =>
      obtain ⟨hp, hpre, hpost⟩ := h
      obtain ⟨hq, hpre', hpost'⟩ := h'
      -- What stands between the two places is on both sides of the key.
      have between : ∀ {i j : Nat}, i < j → j ≤ l.length → (∀ b ∈ l.drop i, k < key b) →
          (∀ a ∈ l.take j, key a < k) → False := by
        intro i j hij hj hafter hbefore
        have hi : i < l.length := by omega
        have h1 := hafter l[i] (List.mem_drop_iff_getElem.mpr ⟨0, by simpa using hi, by simp⟩)
        have h2 := hbefore l[i] (List.mem_take_iff_getElem.mpr ⟨i, by omega, rfl⟩)
        exact absurd (h1.trans h2) (lt_irrefl _)
      rcases Nat.lt_trichotomy p q with hpq | rfl | hpq
      · exact (between hpq hq hpost hpre').elim
      · rfl
      · exact (between hpq hp hpost' hpre).elim

theorem search_placed (hs : Ascends key l) {test : α → Ordering}
    (hc : ∀ x ∈ l, (test x).Compares k (key x)) : Placed key k l (search test l) := by
  rcases search_spec hs hc with ⟨pre, x, post, rfl, hf, hk⟩ | ⟨pre, post, rfl, ha, hpre, hpost⟩
  · rw [hf]
    exact ⟨x, by simp, hk⟩
  · rw [ha]
    exact ⟨by simp, by simpa using hpre, by simpa using hpost⟩

theorem search_eq_found (hs : Ascends key l) {test : α → Ordering}
    (hc : ∀ x ∈ l, (test x).Compares k (key x)) {pre post : List α} {x : α}
    (hl : l = pre ++ x :: post) (hk : key x = k) : search test l = .found pre.length := by
  refine Placed.unique hs (search_placed hs hc) ⟨x, ?_, hk⟩
  rw [hl, List.getElem?_append_right le_rfl, Nat.sub_self, List.getElem?_cons_zero]

theorem search_eq_absent (hs : Ascends key l) {test : α → Ordering}
    (hc : ∀ x ∈ l, (test x).Compares k (key x)) {pre post : List α} (hl : l = pre ++ post)
    (hpre : ∀ a ∈ pre, key a < k) (hpost : ∀ b ∈ post, k < key b) :
    search test l = .absent pre.length := by
  refine Placed.unique hs (search_placed hs hc) ⟨?_, ?_, ?_⟩
  · rw [hl, List.length_append]
    exact Nat.le_add_right _ _
  · rwa [hl, List.take_left]
  · rwa [hl, List.drop_left]

end Placed

/-! ## Searches with another comparison -/

/-- The places that the search asks about, in turn. -/
def asked (test : Nat → Ordering) : Nat → Nat → Nat → List Nat
  | 0, _, _ => []
  | turns + 1, lo, hi =>
    if lo < hi then
      let mi := (lo + hi) / 2
      mi :: match test mi with
        | .eq => []
        | .lt => asked test turns lo mi
        | .gt => asked test turns (mi + 1) hi
    else []

theorem asked_lt {test : Nat → Ordering} {turns lo hi i : Nat} (h : i ∈ asked test turns lo hi) :
    i < hi := by
  induction turns generalizing lo hi with
  | zero => cases h
  | succ turns ih =>
    unfold asked at h
    by_cases hb : lo < hi
    · rw [if_pos hb] at h
      rcases List.mem_cons.mp h with rfl | h
      · omega
      · cases hc : test ((lo + hi) / 2) with
        | lt =>
          simp only [hc] at h
          have := ih h
          omega
        | eq =>
          simp only [hc] at h
          cases h
        | gt =>
          simp only [hc] at h
          exact ih h
    · rw [if_neg hb] at h
      cases h

/-- The place is never before the start. -/
theorem le_loop (test : Nat → Ordering) (turns lo hi : Nat) :
    lo ≤ (loop test turns lo hi).val := by
  induction turns generalizing lo hi with
  | zero => exact Nat.le_refl _
  | succ turns ih =>
    unfold loop
    split
    · simp only
      split
      · simp only [Pos.val]
        omega
      · exact ih lo _
      · exact (ih _ hi).trans' (by omega)
    · exact Nat.le_refl _

/-- Two answers at one place send the search to two sides of it. -/
theorem loop_apart (test test' : Nat → Ordering) (turns turns' lo mi hi : Nat) (h : lo ≤ mi) :
    loop test turns lo mi ≠ .found mi ∧ loop test' turns' (mi + 1) hi ≠ .found mi ∧
      loop test turns lo mi ≠ loop test' turns' (mi + 1) hi := by
  have hl := loop_le test turns lo mi h
  have hr := le_loop test' turns' (mi + 1) hi
  refine ⟨fun heq => ?_, fun heq => ?_, fun heq => ?_⟩
  · exact absurd (loop_found_lt _ _ _ _ _ heq) (lt_irrefl _)
  · rw [heq] at hr
    exact absurd hr (Nat.not_succ_le_self mi)
  · rw [heq] at hl
    omega

/-- Another comparison gives the same place just when it answers as the first
one at each place that the search asks about. -/
theorem loop_eq_iff (test test' : Nat → Ordering) (turns lo hi : Nat) :
    loop test' turns lo hi = loop test turns lo hi ↔
      ∀ i ∈ asked test turns lo hi, test' i = test i := by
  induction turns generalizing lo hi with
  | zero => simp [loop, asked]
  | succ turns ih =>
    unfold loop asked
    by_cases hb : lo < hi
    · have hmi : lo ≤ (lo + hi) / 2 := by omega
      have hap := loop_apart test' test turns turns lo ((lo + hi) / 2) hi hmi
      have hap' := loop_apart test test' turns turns lo ((lo + hi) / 2) hi hmi
      simp only [if_pos hb, List.forall_mem_cons]
      cases hc : test ((lo + hi) / 2) <;> cases hc' : test' ((lo + hi) / 2)
      · simpa using ih lo _
      · simpa using hap'.1.symm
      · simpa using hap'.2.2.symm
      · simpa using hap.1
      · simp
      · simpa using hap'.2.1
      · simpa using hap.2.2
      · simpa using hap.2.1.symm
      · simpa using ih _ hi
    · simp [hb]

/-- The loop with a comparison that may fail. -/
def try_loop (test : Nat → Option Ordering) : Nat → Nat → Nat → Option Pos
  | 0, lo, _ => some (.absent lo)
  | turns + 1, lo, hi =>
    if lo < hi then
      let mi := (lo + hi) / 2
      match test mi with
      | none => none
      | some .eq => some (.found mi)
      | some .lt => try_loop test turns lo mi
      | some .gt => try_loop test turns (mi + 1) hi
    else some (.absent lo)

theorem loop_of_try_loop {test : Nat → Option Ordering} {turns lo hi : Nat} {pos : Pos}
    (h : try_loop test turns lo hi = some pos) :
    loop (fun i => (test i).getD .eq) turns lo hi = pos := by
  induction turns generalizing lo hi with
  | zero => exact Option.some.inj h
  | succ turns ih =>
    unfold try_loop at h
    unfold loop
    by_cases hb : lo < hi
    · simp only [if_pos hb] at h ⊢
      cases hc : test ((lo + hi) / 2) with
      | none => simp [hc] at h
      | some o =>
        cases o with
        | lt =>
          simp only [hc] at h
          exact ih h
        | eq => simpa [hc] using h
        | gt =>
          simp only [hc] at h
          exact ih h
    · simpa [hb] using h

/-- A comparison that may fail gives the place that a sure one gives just when
it answers, and answers alike, at each place that the sure one is asked about. -/
theorem try_loop_eq_iff (test : Nat → Ordering) (test' : Nat → Option Ordering)
    (turns lo hi : Nat) :
    try_loop test' turns lo hi = some (loop test turns lo hi) ↔
      ∀ i ∈ asked test turns lo hi, test' i = some (test i) := by
  induction turns generalizing lo hi with
  | zero => simp [loop, try_loop, asked]
  | succ turns ih =>
    unfold loop asked try_loop
    by_cases hb : lo < hi
    · have hmi : lo ≤ (lo + hi) / 2 := by omega
      have hap := loop_apart (fun i => (test' i).getD .eq) test turns turns lo ((lo + hi) / 2) hi
        hmi
      have hap' := loop_apart test (fun i => (test' i).getD .eq) turns turns lo ((lo + hi) / 2) hi
        hmi
      simp only [if_pos hb, List.forall_mem_cons]
      cases hc : test ((lo + hi) / 2) <;> rcases hc' : test' ((lo + hi) / 2) with _ | _ | _ | _
      · simp
      · simpa using ih lo _
      · simpa using hap'.1.symm
      · simpa using fun h => hap'.2.2 (loop_of_try_loop h).symm
      · simp
      · simpa using fun h => hap.1 (loop_of_try_loop h)
      · simp
      · simpa using fun h => hap'.2.1 (loop_of_try_loop h)
      · simp
      · simpa using fun h => hap.2.2 (loop_of_try_loop h)
      · simpa using hap.2.1.symm
      · simpa using ih _ hi
    · simp [hb]

/-- The elements that the search in a list asks about. -/
def search_asked {α : Type*} (test : α → Ordering) (l : List α) : List α :=
  (asked (fun i => (l[i]?.map test).getD .eq) l.length 0 l.length).filterMap (fun i => l[i]?)

theorem search_asked_subset {α : Type*} (test : α → Ordering) (l : List α) :
    search_asked test l ⊆ l := by
  intro x hx
  obtain ⟨i, -, hget⟩ := List.mem_filterMap.mp hx
  exact List.mem_of_getElem? hget

theorem search_eq_iff {α : Type*} (test test' : α → Ordering) (l : List α) :
    search test' l = search test l ↔ ∀ x ∈ search_asked test l, test' x = test x := by
  unfold search search_asked
  rw [loop_eq_iff]
  constructor
  · intro h x hx
    obtain ⟨i, hi, hget⟩ := List.mem_filterMap.mp hx
    have := h i hi
    simpa [hget] using this
  · intro h i hi
    cases hget : l[i]? with
    | none => rfl
    | some x => simpa using h x (List.mem_filterMap.mpr ⟨i, hi, hget⟩)

/-- A search with another comparison finds the place of the key just when the
comparison is right about each element that a search for the key asks about. -/
theorem search_placed_iff {key : α → κ} {k : κ} {test test' : α → Ordering} {l : List α}
    (hs : Ascends key l) (hc : ∀ x ∈ l, (test x).Compares k (key x)) :
    Placed key k l (search test' l) ↔ ∀ x ∈ search_asked test l, test' x = test x := by
  rw [← search_eq_iff]
  constructor
  · exact fun h => h.unique hs (search_placed hs hc)
  · exact fun h => h ▸ search_placed hs hc

/-- The search for a place among `n` places finds it. -/
theorem loop_place {p n : Nat} (hp : p < n) : loop (fun i => cmp p i) n 0 n = .found p := by
  rcases loop_spec (fun i => cmp p i) n n 0 n (Nat.le_refl _) (Nat.zero_le _)
      (fun i j hij _ hi => (cmp_eq_lt_iff _ _).mpr (((cmp_eq_lt_iff _ _).mp hi).trans hij))
      (fun i j hij _ hj => (cmp_eq_gt_iff _ _).mpr (hij.trans ((cmp_eq_gt_iff _ _).mp hj)))
      (Nat.le_refl _)
      ⟨fun i hi => absurd hi (Nat.not_lt_zero _),
        fun i hi hlt => absurd hlt (Nat.not_lt.mpr hi)⟩
    with ⟨q, -, hfound, heq⟩ | ⟨q, -, -, hgt, hlt⟩
  · rw [hfound, (cmp_eq_eq_iff _ _).mp heq]
  · rcases Nat.lt_or_ge p q with hpq | hpq
    · exact absurd (hgt p hpq) (by simp [cmp_self_eq_eq])
    · exact absurd (hlt p hpq hp) (by simp [cmp_self_eq_eq])

/-! ## Keys that may repeat -/

/-- A sort by `cmp`, whatever it does with elements that are alike. -/
structure Sorter {α : Type*} (cmp : α → α → Ordering) where
  sort : List α → List α
  perm : ∀ l, (sort l).Perm l
  sorted : ∀ l, (sort l).Pairwise (fun a b => cmp a b ≠ .gt)

/-- An insertion sort, where what `cmp` does not turn around is a total order. -/
def Sorter.insertion {α : Type*} {cmp : α → α → Ordering}
    (trans : ∀ a b c, cmp a b ≠ .gt → cmp b c ≠ .gt → cmp a c ≠ .gt)
    (total : ∀ a b, cmp a b ≠ .gt ∨ cmp b a ≠ .gt) : Sorter cmp where
  sort l := l.insertionSort (fun a b => cmp a b ≠ .gt)
  perm l := List.perm_insertionSort _ l
  sorted l := by
    have : IsTrans α fun a b => cmp a b ≠ .gt := ⟨trans⟩
    have : Std.Total fun a b : α => cmp a b ≠ .gt := ⟨total⟩
    exact List.pairwise_insertionSort _ l

/-- Where what comes later has `P` only if what comes before does, the count of
`P` tells the places that have it. -/
theorem getElem_iff_lt_countP {α : Type*} {P : α → Prop} [DecidablePred P] {l : List α}
    (h : l.Pairwise (fun a b => P b → P a)) {i : Nat} (hi : i < l.length) :
    P l[i] ↔ i < l.countP (fun a => P a) := by
  induction l generalizing i with
  | nil => exact absurd hi (Nat.not_lt_zero _)
  | cons a l ih =>
    rw [List.pairwise_cons] at h
    by_cases ha : P a
    · rw [List.countP_cons_of_pos (by simpa using ha)]
      cases i with
      | zero => simpa using ha
      | succ i =>
        rw [List.getElem_cons_succ, ih h.2 (by simpa using hi)]
        omega
    · have hnone : ∀ b ∈ l, ¬P b := fun b hb hPb => ha (h.1 b hb hPb)
      have hzero : l.countP (fun a => P a) = 0 :=
        List.countP_eq_zero.mpr fun b hb => by simpa using hnone b hb
      rw [List.countP_cons_of_neg (by simpa using ha), hzero]
      refine iff_of_false ?_ (Nat.not_lt_zero _)
      cases i with
      | zero => simpa using ha
      | succ i => exact hnone _ (List.getElem_mem _)

/-! ## Edits at the place that a search gives -/

section Edits
variable {α : Type*} (pre post : List α) (old x : α)

theorem insertIdx_append : (pre ++ post).insertIdx pre.length x = pre ++ x :: post := by
  induction pre with
  | nil => simp
  | cons a pre ih => simpa using ih

theorem set_append : (pre ++ old :: post).set pre.length x = pre ++ x :: post := by
  rw [List.set_append_right _ _ (Nat.le_refl _), Nat.sub_self, List.set_cons_zero]

theorem eraseIdx_append : (pre ++ old :: post).eraseIdx pre.length = pre ++ post := by
  rw [List.eraseIdx_append_of_length_le (Nat.le_refl _)]
  simp

end Edits

theorem Ascends.replace {key : α → κ} {pre post : List α} {old x : α}
    (h : Ascends key (pre ++ old :: post)) (hk : key x = key old) :
    Ascends key (pre ++ x :: post) := by
  unfold Ascends at h ⊢
  rw [List.pairwise_append, List.pairwise_cons] at h ⊢
  obtain ⟨h1, ⟨h2, h3⟩, h4⟩ := h
  refine ⟨h1, ⟨fun b hb => hk ▸ h2 b hb, h3⟩, ?_⟩
  intro a ha b hb
  rcases List.mem_cons.mp hb with rfl | hb
  · exact hk ▸ h4 a ha old List.mem_cons_self
  · exact h4 a ha b (List.mem_cons_of_mem _ hb)

theorem Ascends.insert {key : α → κ} {pre post : List α} {x : α} (h : Ascends key (pre ++ post))
    (hpre : ∀ a ∈ pre, key a < key x) (hpost : ∀ b ∈ post, key x < key b) :
    Ascends key (pre ++ x :: post) := by
  unfold Ascends at h ⊢
  rw [List.pairwise_append, List.pairwise_cons] at *
  obtain ⟨h1, h2, h3⟩ := h
  refine ⟨h1, ⟨hpost, h2⟩, ?_⟩
  intro a ha b hb
  rcases List.mem_cons.mp hb with rfl | hb
  · exact hpre a ha
  · exact h3 a ha b hb

/-- All the other elements have other keys. -/
theorem Ascends.mem_others {key : α → κ} {pre post : List α} {x : α}
    (h : Ascends key (pre ++ x :: post)) (y : α) :
    y ∈ pre ++ post ↔ y ∈ pre ++ x :: post ∧ key y ≠ key x := by
  unfold Ascends at h
  rw [List.pairwise_append, List.pairwise_cons] at h
  rw [List.mem_append, List.mem_append, List.mem_cons]
  constructor
  · rintro (hy | hy)
    · exact ⟨Or.inl hy, (h.2.2 y hy x List.mem_cons_self).ne⟩
    · exact ⟨Or.inr (Or.inr hy), (h.2.1.1 y hy).ne'⟩
  · rintro ⟨hy | rfl | hy, hne⟩
    · exact Or.inl hy
    · exact absurd rfl hne
    · exact Or.inr hy

/-- The elements up to a key come first. -/
theorem Ascends.split_le {key : α → κ} {l : List α} (h : Ascends key l) (k : κ) :
    l = l.filter (fun x => decide (key x ≤ k)) ++ l.filter fun x => !decide (key x ≤ k) := by
  induction l with
  | nil => rfl
  | cons x l ih =>
    obtain ⟨hx, hl⟩ := List.pairwise_cons.mp h
    by_cases hk : key x ≤ k
    · rw [List.filter_cons_of_pos (by simpa using hk), List.filter_cons_of_neg (by simpa using hk),
        List.cons_append, ← ih hl]
    · have hbehind : ∀ y ∈ x :: l, ¬ key y ≤ k := by
        intro y hy
        rcases List.mem_cons.mp hy with rfl | hy
        · exact hk
        · exact fun hle => hk ((hx y hy).le.trans hle)
      rw [List.filter_eq_nil_iff.mpr fun y hy => by simpa using hbehind y hy,
        List.filter_eq_self.mpr fun y hy => by simpa using hbehind y hy, List.nil_append]

theorem Ascends.nodup {key : α → κ} {l : List α} (h : Ascends key l) : l.Nodup :=
  List.Pairwise.imp (fun hlt heq => absurd (congrArg key heq) hlt.ne) h

end bsearch
