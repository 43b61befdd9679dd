-- `verify_cache` of `cache-tree.c` looks at neighbours only: when it sees that the
-- index has a path and a file under it.
import Git.CacheTreeUpdate
import Git.AddIndexEntry

namespace git.verify_cache

open git

/-- A sorted array of unique names. -/
def NamesAscend (cache : List cache_entry) : Prop := cache.Pairwise fun a b => a.name < b.name

/-- The array is accepted when it is merged, and no path is a file and a directory. -/
def AcceptsTrees (cache : List cache_entry) : Prop :=
  verify_cache cache = true ↔
    (∀ e ∈ cache, ce_stage e = 0) ∧ ∀ a ∈ cache, ∀ b ∈ cache, ¬ Under a.name b.name

/-- `n` goes on behind `path` with a byte below `'/'`, so that it is sorted in front of the
files under `path`. -/
def SortsBefore (path n : Bytes) : Prop := ∃ c r, n = path ++ c :: r ∧ c < SLASH

/-- The array is merged and has files under a path that is a file, and for each such path an
entry stands between the two. -/
def AllApart (cache : List cache_entry) : Prop :=
  (∀ e ∈ cache, ce_stage e = 0) ∧ (∃ a ∈ cache, ∃ b ∈ cache, Under a.name b.name) ∧
    ∀ a ∈ cache, ∀ b ∈ cache, Under a.name b.name → ∃ c ∈ cache, SortsBefore a.name c.name

/-! ## Neighbours -/

theorem both_file_and_dir_iff (a b : Bytes) : both_file_and_dir a b = true ↔ Under a b := by
  unfold both_file_and_dir
  rw [Bool.and_eq_true, Bool.and_eq_true, decide_eq_true_eq, beq_iff_eq, beq_iff_eq]
  constructor
  · rintro ⟨⟨_, ht⟩, hs⟩
    exact (under_iff a b).mpr ⟨ht, hs⟩
  · intro h
    obtain ⟨ht, hs⟩ := (under_iff a b).mp h
    exact ⟨⟨h.length_lt, ht⟩, hs⟩

theorem next_to_each_other_iff (cache : List cache_entry) :
    next_to_each_other cache = true ↔
      ∃ pre a b post, cache = pre ++ a :: b :: post ∧ Under a.name b.name := by
  induction cache with
  | nil =>
    constructor
    · intro h
      cases h
    · rintro ⟨pre, a, b, post, h, _⟩
      cases pre <;> cases h
  | cons x cache ih =>
    cases cache with
    | nil =>
      constructor
      · intro h
        cases h
      · rintro ⟨pre, a, b, post, h, _⟩
        have hlen := congrArg List.length h
        simp only [List.length_append, List.length_cons, List.length_nil] at hlen
        omega
    | cons y cache =>
      rw [next_to_each_other, Bool.or_eq_true, both_file_and_dir_iff, ih]
      constructor
      · rintro (h | ⟨pre, a, b, post, h, hu⟩)
        · exact ⟨[], x, y, cache, rfl, h⟩
        · exact ⟨x :: pre, a, b, post, by rw [h, List.cons_append], hu⟩
      · rintro ⟨pre, a, b, post, h, hu⟩
        cases pre with
        | nil =>
          cases h
          exact .inl hu
        | cons z pre => exact .inr ⟨pre, a, b, post, (List.cons.inj h).2, hu⟩

/-- What stands between a path and a file under it goes on behind the path with a byte up to
`'/'`. -/
theorem between_under {a n b : Bytes} (h1 : a < n) (h2 : n ≤ b) (hu : Under a b) :
    Under a n ∨ SortsBefore a n := by
  obtain ⟨r, rfl⟩ := hu
  obtain ⟨t, rfl⟩ := list_order.prefix_of_between h1.le h2 (List.prefix_append a _)
  cases t with
  | nil => exact absurd h1 (by simp)
  | cons c t =>
    rw [list_order.append_le_append_iff, ← not_lt, List.cons_lt_cons_iff] at h2
    push Not at h2
    rcases h2.1.lt_or_eq with h | rfl
    · exact .inr ⟨c, t, rfl, h⟩
    · exact .inl ⟨t, rfl⟩

theorem under_not_before {a b c : Bytes} (hb : Under a b) (hc : SortsBefore a c) : c < b := by
  obtain ⟨r, rfl⟩ := hb
  obtain ⟨x, t, rfl, hx⟩ := hc
  rw [list_order.append_lt_append_iff]
  exact List.cons_lt_cons_iff.mpr (.inl hx)

/-- Neighbours are in conflict when some path has a file under it and nothing between. -/
theorem neighbours_iff {cache : List cache_entry} (h : NamesAscend cache) :
    (∃ pre a b post, cache = pre ++ a :: b :: post ∧ Under a.name b.name) ↔
      ∃ a ∈ cache, (∃ b ∈ cache, Under a.name b.name) ∧
        ∀ c ∈ cache, ¬ SortsBefore a.name c.name := by
  constructor
  · rintro ⟨pre, a, b, post, rfl, hu⟩
    refine ⟨a, by simp, ⟨b, by simp, hu⟩, ?_⟩
    intro c hc hbefore
    have hcb := under_not_before hu hbefore
    have hac : a.name < c.name := by
      obtain ⟨x, t, ht, _⟩ := hbefore
      rw [ht]
      exact list_order.lt_append_cons _ x t
    obtain ⟨_, hpost, hpre⟩ := List.pairwise_append.mp h
    obtain ⟨ha, hpost⟩ := List.pairwise_cons.mp hpost
    rw [List.mem_append, List.mem_cons, List.mem_cons] at hc
    rcases hc with hc | rfl | rfl | hc
    · exact lt_asymm hac (hpre c hc a List.mem_cons_self)
    · exact lt_irrefl _ hac
    · exact lt_irrefl _ hcb
    · exact lt_asymm hcb (List.rel_of_pairwise_cons hpost hc)
  · rintro ⟨a, ha, ⟨b, hb, hu⟩, hno⟩
    obtain ⟨pre, post, rfl⟩ := List.append_of_mem ha
    obtain ⟨_, hpost, hpre⟩ := List.pairwise_append.mp h
    have hab : a.name < b.name := by
      obtain ⟨r, hr⟩ := hu
      rw [hr]
      exact list_order.lt_append_cons _ _ r
    -- `b` stands behind `a`, and what is next to `a` is not past it
    rw [List.mem_append, List.mem_cons] at hb
    have hbpost : b ∈ post := by
      rcases hb with hb | rfl | hb
      · exact absurd (hpre b hb a List.mem_cons_self) (lt_asymm hab)
      · exact absurd hab (lt_irrefl _)
      · exact hb
    cases post with
    | nil => exact absurd hbpost List.not_mem_nil
    | cons n post =>
      have hn : n.name ≤ b.name := by
        rcases List.mem_cons.mp hbpost with rfl | hb
        · exact le_refl _
        · exact (List.rel_of_pairwise_cons hpost.of_cons hb).le
      refine ⟨pre, a, n, post, rfl, ?_⟩
      rcases between_under (List.rel_of_pairwise_cons hpost List.mem_cons_self) hn hu with h | h
      · exact h
      · exact absurd h (hno n (by simp))

/-- When the check of neighbours is enough. -/
theorem accepts_trees_iff (cache : List cache_entry) (h : NamesAscend cache) :
    AcceptsTrees cache ↔ ¬ AllApart cache := by
  have hcheck : verify_cache cache = true ↔ (∀ e ∈ cache, ce_stage e = 0) ∧
      ¬ ∃ a ∈ cache, (∃ b ∈ cache, Under a.name b.name) ∧
        ∀ c ∈ cache, ¬ SortsBefore a.name c.name := by
    rw [← neighbours_iff h, ← next_to_each_other_iff]
    simp [verify_cache]
  unfold AcceptsTrees AllApart
  rw [hcheck]
  constructor
  · rintro h ⟨hmerged, ⟨a, ha, b, hb, hu⟩, hapart⟩
    refine (h.mp ⟨hmerged, ?_⟩).2 a ha b hb hu
    rintro ⟨a, ha, ⟨b, hb, hu⟩, hno⟩
    obtain ⟨c, hc, hbefore⟩ := hapart a ha b hb hu
    exact hno c hc hbefore
  · intro h
    refine and_congr_right fun hmerged => ?_
    constructor
    · intro hnext a ha b hb hu
      refine h ⟨hmerged, ⟨a, ha, b, hb, hu⟩, fun a ha b hb hu => ?_⟩
      by_contra hno
      push Not at hno
      exact hnext ⟨a, ha, ⟨b, hb, hu⟩, hno⟩
    · rintro hno ⟨a, ha, ⟨b, hb, hu⟩, _⟩
      exact hno a ha b hb hu

/-! ## A path, its file, and a name between the two -/

/-- A merged entry. -/
def merged (name : Bytes) : cache_entry := new_entry 0o100644 (Vector.replicate 20 0) name 0

/-- `a`, `a-b` and `a/c` -/
def a_apart : List cache_entry := [merged [97], merged [97, 45, 98], merged [97, 47, 99]]

theorem a_apart_ascends : NamesAscend a_apart := by
  unfold NamesAscend
  rw [← List.pairwise_map (R := (· < ·))]
  show List.Pairwise (· < ·) [([97] : Bytes), [97, 45, 98], [97, 47, 99]]
  decide

theorem accepts_trees_a_apart : AcceptsTrees a_apart ↔ ¬ AllApart a_apart :=
  accepts_trees_iff a_apart a_apart_ascends

/-- A file and a directory of one name are accepted where `a-b` stands between them. -/
theorem not_accepts_trees :
    verify_cache a_apart = true ∧ ¬ ∀ cache, NamesAscend cache → AcceptsTrees cache := by
  have hv : verify_cache a_apart = true := by decide
  refine ⟨hv, fun h => ?_⟩
  have hno := ((h a_apart a_apart_ascends).mp hv).2
  exact hno (merged [97]) (by simp [a_apart]) (merged [97, 47, 99]) (by simp [a_apart]) ⟨[99], rfl⟩

end git.verify_cache
