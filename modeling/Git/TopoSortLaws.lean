-- What the topological sort emits: each commit of the list once, no commit after one
-- of its parents, and by date the newest of those that may come next.
import Git.TopoSort

open Relation

namespace git.topo_sort

open git.merge_bases

variable {commit : Type} [DecidableEq commit] {g : commit_graph commit} {lifo : Bool}
variable {list : List commit}

/-! ## The indegrees -/

/-- The indegrees are one more than the number of edges to those that are still listed. -/
def Counted (list done edges : List commit) (indegree : indegree_map commit) : Prop :=
  ∀ c, indegree c = if c ∈ list ∧ c ∉ done then 1 + edges.count c else 0

/-- The edges from the commits that are not emitted. -/
def edges (g : commit_graph commit) (list done : List commit) : List commit :=
  (list.filter fun c => c ∉ done).flatMap g.parents

theorem mem_edges {done : List commit} {c : commit} :
    c ∈ edges g list done ↔ ∃ d ∈ list, d ∉ done ∧ c ∈ g.parents d := by
  unfold edges
  simp only [List.mem_flatMap, List.mem_filter, decide_eq_true_eq, and_assoc]

theorem mark_listed_eq (list : List commit) (indegree : indegree_map commit) (c : commit) :
    mark_listed list indegree c = if c ∈ list then 1 else indegree c := by
  unfold mark_listed
  induction list using List.reverseRecOn with
  | nil => rfl
  | append_singleton list d ih =>
    rw [List.foldl_append, List.foldl_cons, List.foldl_nil]
    by_cases hc : c = d
    · rw [hc, Function.update_self, if_pos (List.mem_append_right _ (List.mem_singleton_self d))]
    · rw [Function.update_of_ne hc, ih]
      simp only [List.mem_append, List.mem_singleton, hc, or_false]

theorem count_child_counted {edges : List commit} {indegree : indegree_map commit}
    (h : Counted list [] edges indegree) (p : commit) :
    Counted list [] (edges ++ [p]) (count_child indegree p) := by
  intro c
  have hp := h p
  have hc := h c
  unfold count_child
  rw [List.count_append]
  by_cases hlisted : p ∈ list ∧ p ∉ ([] : List commit)
  · rw [if_pos hlisted] at hp
    rw [if_pos (by omega)]
    by_cases hcp : c = p
    · rw [hcp, Function.update_self, if_pos hlisted, hp, List.count_singleton_self]
      omega
    · rw [Function.update_of_ne hcp, hc, List.count_singleton, beq_false_of_ne (Ne.symm hcp)]
      rfl
  · rw [if_neg hlisted] at hp
    rw [if_neg (by omega), hc]
    by_cases hcp : c = p
    · rw [hcp, if_neg hlisted, if_neg hlisted]
    · rw [List.count_singleton, beq_false_of_ne (Ne.symm hcp)]
      rfl

/-- Each edge of the list is counted. -/
theorem count_children_counted {indegree : indegree_map commit} (hzero : ∀ c, indegree c = 0) :
    Counted list [] (edges g list []) (count_children g list (mark_listed list indegree)) := by
  have hfold : ∀ l : List commit,
      Counted list [] l (l.foldl count_child (mark_listed list indegree)) := by
    intro l
    induction l using List.reverseRecOn with
    | nil =>
      intro c
      rw [List.foldl_nil, mark_listed_eq, hzero, List.count_nil]
      simp only [List.not_mem_nil, not_false_eq_true, and_true]
    | append_singleton l p ih =>
      rw [List.foldl_append]
      exact count_child_counted ih p
  have hall : list.filter (fun c => c ∉ ([] : List commit)) = list := by simp
  have hnested : count_children g list (mark_listed list indegree) =
      (edges g list []).foldl count_child (mark_listed list indegree) := by
    unfold edges count_children
    rw [hall, List.foldl_flatMap]
  rw [hnested]
  exact hfold (edges g list [])

/-- Emitting `c` takes its edges away. -/
theorem edges_emit {done : List commit} {c : commit} (hnodup : list.Nodup) (hc : c ∈ list)
    (hnew : c ∉ done) :
    (edges g list done).Perm (g.parents c ++ edges g list (done ++ [c])) := by
  have hperm : (list.filter fun d => d ∉ done).Perm
      (c :: list.filter fun d => d ∉ done ++ [c]) := by
    rw [List.perm_ext_iff_of_nodup (hnodup.filter _)]
    · intro d
      simp only [List.mem_filter, List.mem_cons, decide_eq_true_eq, List.mem_append,
        List.mem_nil_iff, or_false, not_or]
      constructor
      · rintro ⟨hd, hnot⟩
        by_cases hdc : d = c
        · exact Or.inl hdc
        · exact Or.inr ⟨hd, hnot, hdc⟩
      · rintro (rfl | ⟨hd, hnot, -⟩)
        · exact ⟨hc, hnew⟩
        · exact ⟨hd, hnot⟩
    · refine List.nodup_cons.mpr ⟨?_, hnodup.filter _⟩
      simp only [List.mem_filter, List.mem_append, List.mem_singleton, or_true, not_true_eq_false,
        decide_false, Bool.false_eq_true, and_false, not_false_eq_true]
  exact hperm.flatMap_right g.parents

/-! ## The work list -/

/-- The newest comes first. -/
def ByDate (g : commit_graph commit) (work : List commit) : Prop :=
  work.Pairwise fun a b => g.date b ≤ g.date a

omit [DecidableEq commit] in
theorem insert_by_date_sorted (p : commit) {work : List commit} (h : ByDate g work) :
    ByDate g (commit_list_insert_by_date g p work) := by
  induction work with
  | nil => exact List.pairwise_singleton _ p
  | cons d work ih =>
    obtain ⟨hd, hwork⟩ := List.pairwise_cons.mp h
    unfold commit_list_insert_by_date
    split_ifs with hlt
    · refine List.pairwise_cons.mpr ⟨?_, h⟩
      intro e he
      rcases List.mem_cons.mp he with rfl | he
      · exact hlt.le
      · exact (hd e he).trans hlt.le
    · refine List.pairwise_cons.mpr ⟨?_, ih hwork⟩
      intro e he
      rcases (mem_insert_by_date g p e work).mp he with rfl | he
      · exact not_lt.mp hlt
      · exact hd e he

omit [DecidableEq commit] in
theorem enqueue_perm (lifo : Bool) (p : commit) (work : List commit) :
    (enqueue g lifo p work).Perm (p :: work) := by
  unfold enqueue
  split_ifs
  · exact List.Perm.refl _
  · exact insert_by_date_perm g p work

/-- Between two parents of `c`, which was taken off the work list: `edges` are still to be
taken away. -/
structure Releasing (g : commit_graph commit) (lifo : Bool) (list done : List commit) (c : commit)
    (edges : List commit) (s : List commit × indegree_map commit) : Prop where
  counted : Counted list done edges s.2
  own : c ∉ edges
  nodup : s.1.Nodup
  work : ∀ d, d ∈ s.1 ↔ d ∈ list ∧ d ∉ done ∧ d ≠ c ∧ s.2 d = 1
  sorted : lifo = false → ByDate g s.1

/-- A parent is enqueued with the last of its edges. -/
theorem release_parents_releasing {done rest : List commit} {c : commit} (parents : List commit) :
    ∀ s, Releasing g lifo list done c (parents ++ rest) s →
      Releasing g lifo list done c rest (release_parents g lifo parents s) := by
  induction parents with
  | nil => exact fun s h => h
  | cons p parents ih =>
    rintro ⟨work, indegree⟩ h
    have hp := h.counted p
    have hown : c ≠ p ∧ c ∉ parents ++ rest := by
      have hnot := h.own
      rw [List.cons_append, List.mem_cons, not_or] at hnot
      exact hnot
    simp only at hp
    rw [List.cons_append, List.count_cons_self] at hp
    have hothers : ∀ d, d ≠ p → (p :: parents ++ rest).count d = (parents ++ rest).count d := by
      intro d hd
      rw [List.cons_append, List.count_cons_of_ne (Ne.symm hd)]
    rw [release_parents]
    by_cases hlisted : p ∈ list ∧ p ∉ done
    · rw [if_pos hlisted] at hp
      rw [if_neg (by omega)]
      -- the indegree of `p` goes down by one
      have hcounted : Counted list done (parents ++ rest)
          (Function.update indegree p (indegree p - 1)) := by
        intro d
        by_cases hd : d = p
        · rw [hd, Function.update_self, if_pos hlisted, hp]
          omega
        · rw [Function.update_of_ne hd, ← hothers d hd]
          exact h.counted d
      have hbusy : p ∉ work := by
        intro hmem
        have hone := ((h.work p).mp hmem).2.2.2
        simp only at hone
        omega
      apply ih
      by_cases hlast : indegree p - 1 = 1
      · rw [if_pos hlast]
        have hperm := enqueue_perm (g := g) lifo p work
        refine ⟨hcounted, hown.2, ?_, ?_, ?_⟩
        · exact hperm.nodup_iff.mpr (List.nodup_cons.mpr ⟨hbusy, h.nodup⟩)
        · intro d
          simp only
          rw [hperm.mem_iff, List.mem_cons]
          by_cases hd : d = p
          · rw [hd, Function.update_self]
            exact ⟨fun _ => ⟨hlisted.1, hlisted.2, Ne.symm hown.1, hlast⟩, fun _ => Or.inl rfl⟩
          · rw [Function.update_of_ne hd, or_iff_right hd]
            exact h.work d
        · intro hdate
          simp only
          unfold enqueue
          rw [hdate, if_neg Bool.false_ne_true]
          exact insert_by_date_sorted p (h.sorted hdate)
      · rw [if_neg hlast]
        refine ⟨hcounted, hown.2, h.nodup, ?_, h.sorted⟩
        intro d
        simp only
        by_cases hd : d = p
        · rw [hd, Function.update_self]
          exact ⟨fun hmem => absurd hmem hbusy, fun hmem => absurd hmem.2.2.2 hlast⟩
        · rw [Function.update_of_ne hd]
          exact h.work d
    · rw [if_neg hlisted] at hp
      rw [if_pos hp]
      apply ih
      refine ⟨?_, hown.2, h.nodup, h.work, h.sorted⟩
      intro d
      by_cases hd : d = p
      · rw [hd, if_neg hlisted]
        exact hp
      · rw [← hothers d hd]
        exact h.counted d

/-! ## The run -/

/-- What holds between two turns. -/
structure Emitted (g : commit_graph commit) (lifo : Bool) (list : List commit)
    (s : sorting commit) : Prop where
  nodup : s.list.Nodup
  listed : ∀ c ∈ s.list, c ∈ list
  counted : Counted list s.list (edges g list s.list) s.indegree
  work_nodup : s.work.Nodup
  work : ∀ c, c ∈ s.work ↔ c ∈ list ∧ c ∉ s.list ∧ s.indegree c = 1
  sorted : lifo = false → ByDate g s.work
  closed : ∀ c ∈ s.list, ∀ d ∈ list, c ∈ g.parents d → d ∈ s.list
  order : s.list.Pairwise fun a b => a ∉ g.parents b
  newest : lifo = false → ∀ l₁ c l₂, s.list = l₁ ++ c :: l₂ → ∀ d ∈ list, d ∉ l₁ →
    (∀ e ∈ list, d ∈ g.parents e → e ∈ l₁) → g.date d ≤ g.date c

/-- The work list holds those whose children have all been emitted. -/
theorem Emitted.ready {s : sorting commit} (h : Emitted g lifo list s) {d : commit} :
    d ∈ s.work ↔ d ∈ list ∧ d ∉ s.list ∧ ∀ e ∈ list, d ∈ g.parents e → e ∈ s.list := by
  rw [h.work]
  refine and_congr_right fun hlist => and_congr_right fun hnew => ?_
  have hcount := h.counted d
  rw [if_pos ⟨hlist, hnew⟩] at hcount
  rw [hcount, Nat.add_eq_left, List.count_eq_zero, mem_edges]
  constructor
  · intro hnone e he hparent
    by_contra hnot
    exact hnone ⟨e, he, hnot, hparent⟩
  · rintro hall ⟨e, he, hnot, hparent⟩
    exact hnot (hall e he hparent)

/-- Where a list with one more at its end is cut. -/
theorem snoc_split {α : Type} {l l₁ l₂ : List α} {a c : α} (h : l ++ [a] = l₁ ++ c :: l₂) :
    (l₁ = l ∧ c = a) ∨ ∃ l', l = l₁ ++ c :: l' := by
  rcases List.eq_nil_or_concat l₂ with rfl | ⟨l', b, rfl⟩
  · obtain ⟨hl, hlast⟩ := List.append_inj' h rfl
    exact Or.inl ⟨hl.symm, (List.cons.inj hlast).1.symm⟩
  · right
    refine ⟨l', ?_⟩
    have hsplit : l ++ [a] = (l₁ ++ c :: l') ++ [b] := by
      rw [h, List.concat_eq_append, List.append_assoc]
      rfl
    exact (List.append_inj' hsplit rfl).1

theorem emit_emitted (hnodup : list.Nodup) {s : sorting commit} {c : commit} {work : List commit}
    (h : Emitted g lifo list s) (hwork : s.work = c :: work) :
    Emitted g lifo list (emit g lifo s c work) := by
  have hmem : c ∈ s.work := by
    rw [hwork]
    exact List.mem_cons_self
  obtain ⟨hc, hnew, hchildren⟩ := h.ready.mp hmem
  have hone := ((h.work c).mp hmem).2.2
  have hsplit : (edges g list s.list).Perm (g.parents c ++ edges g list (s.list ++ [c])) :=
    edges_emit hnodup hc hnew
  have hcounted : Counted list s.list (g.parents c ++ edges g list (s.list ++ [c])) s.indegree := by
    intro d
    rw [← hsplit.count_eq]
    exact h.counted d
  have hown : c ∉ g.parents c ++ edges g list (s.list ++ [c]) := by
    have hcount := hcounted c
    rw [if_pos ⟨hc, hnew⟩, hone] at hcount
    exact List.count_eq_zero.mp (by omega)
  have hpopped := h.work_nodup
  rw [hwork] at hpopped
  obtain ⟨hgone, hpopped⟩ := List.nodup_cons.mp hpopped
  have hstart : Releasing g lifo list s.list c (g.parents c ++ edges g list (s.list ++ [c]))
      (work, s.indegree) := by
    refine ⟨hcounted, hown, hpopped, ?_, ?_⟩
    · intro d
      have hd := h.work d
      rw [hwork, List.mem_cons] at hd
      simp only
      constructor
      · intro hin
        obtain ⟨hl, hn, ho⟩ := hd.mp (Or.inr hin)
        refine ⟨hl, hn, ?_, ho⟩
        rintro rfl
        exact hgone hin
      · rintro ⟨hl, hn, hne, ho⟩
        exact (hd.mpr ⟨hl, hn, ho⟩).resolve_left hne
    · intro hdate
      have hsorted := h.sorted hdate
      rw [hwork] at hsorted
      exact (List.pairwise_cons.mp hsorted).2
  have hend := release_parents_releasing (g.parents c) _ hstart
  have hnewdone : ∀ d, d ∉ s.list ++ [c] ↔ d ∉ s.list ∧ d ≠ c := by
    intro d
    rw [List.mem_append, List.mem_singleton, not_or]
  unfold emit
  refine ⟨?_, ?_, ?_, hend.nodup, ?_, hend.sorted, ?_, ?_, ?_⟩
  · rw [List.nodup_append]
    refine ⟨h.nodup, List.nodup_singleton c, ?_⟩
    intro a ha b hb
    rw [List.mem_singleton.mp hb]
    rintro rfl
    exact hnew ha
  · intro d hd
    rcases List.mem_append.mp hd with hd | hd
    · exact h.listed d hd
    · rw [List.mem_singleton.mp hd]
      exact hc
  · intro d
    simp only
    by_cases hd : d = c
    · rw [hd, Function.update_self, if_neg]
      exact fun hcase => ((hnewdone c).mp hcase.2).2 rfl
    · rw [Function.update_of_ne hd, hend.counted d]
      simp only [hnewdone, hd, ne_eq, not_false_eq_true, and_true]
  · intro d
    simp only
    rw [hend.work d, hnewdone]
    by_cases hd : d = c
    · constructor
      · exact fun hcase => absurd hd hcase.2.2.1
      · exact fun hcase => absurd hd hcase.2.1.2
    · rw [Function.update_of_ne hd, and_assoc]
  · intro d hd e he hparent
    rcases List.mem_append.mp hd with hd | hd
    · exact List.mem_append_left _ (h.closed d hd e he hparent)
    · rw [List.mem_singleton.mp hd] at hparent
      exact List.mem_append_left _ (hchildren e he hparent)
  · rw [List.pairwise_append]
    refine ⟨h.order, List.pairwise_singleton _ _, ?_⟩
    intro a ha b hb hparent
    rw [List.mem_singleton.mp hb] at hparent
    exact hnew (h.closed a ha c hc hparent)
  · intro hdate l₁ d l₂ hcut e he hnot hall
    rcases snoc_split hcut with ⟨rfl, rfl⟩ | ⟨l', hl⟩
    · -- `e` could come next too, so it is on the work list
      have hready := h.ready.mpr ⟨he, hnot, hall⟩
      have hsorted := h.sorted hdate
      rw [hwork] at hready hsorted
      rcases List.mem_cons.mp hready with rfl | hin
      · exact le_refl _
      · exact (List.pairwise_cons.mp hsorted).1 e hin
    · exact h.newest hdate l₁ d l' hl e he hnot hall

theorem emit_loop_emitted [Fintype commit] (hnodup : list.Nodup) (s : sorting commit)
    (h : Emitted g lifo list s) :
    Emitted g lifo list (emit_loop g lifo s) ∧ (emit_loop g lifo s).work = [] := by
  induction s using emit_loop.induct g lifo with
  | case1 s hwork =>
    rw [emit_loop]
    split
    · exact ⟨h, hwork⟩
    · next c work hcons =>
      rw [hwork] at hcons
      cases hcons
  | case2 s c work hwork ih =>
    rw [emit_loop]
    split
    · next hnil =>
      rw [hwork] at hnil
      cases hnil
    · next c' work' hcons =>
      rw [hwork] at hcons
      obtain ⟨rfl, rfl⟩ := List.cons.inj hcons
      exact ih (emit_emitted hnodup h hwork)

/-- Where nothing is left to do, all is emitted: of what is not, some commit has no child. -/
theorem Emitted.all [Finite commit] (hdag : ∀ c, ¬ ProperAncestor g c c) {s : sorting commit}
    (h : Emitted g lifo list s) (hwork : s.work = []) : ∀ c ∈ list, c ∈ s.list := by
  by_contra hnot
  obtain ⟨c, hc⟩ := not_forall.mp hnot
  obtain ⟨hlist, hnew⟩ := Classical.not_imp.mp hc
  have hwf : WellFounded (ProperAncestor g) := acyclic.Acyclic.wf_trans hdag
  obtain ⟨m, ⟨hm, hmnew⟩, hmin⟩ := hwf.has_min {d | d ∈ list ∧ d ∉ s.list} ⟨c, hlist, hnew⟩
  have hready : m ∈ s.work := by
    apply h.ready.mpr
    refine ⟨hm, hmnew, ?_⟩
    intro e he hparent
    by_contra henew
    exact hmin e ⟨he, henew⟩ (TransGen.single hparent)
  rw [hwork] at hready
  exact List.not_mem_nil hready

variable (g lifo) in
theorem start_emitted (hnodup : list.Nodup) {indegree : indegree_map commit}
    (hzero : ∀ c, indegree c = 0) :
    Emitted g lifo list
      { work :=
          if lifo then list.filter fun c => count_children g list (mark_listed list indegree) c = 1
          else commit_list_sort_by_date g
            (list.filter fun c => count_children g list (mark_listed list indegree) c = 1)
        indegree := count_children g list (mark_listed list indegree)
        list := [] } := by
  have hcounted : Counted list [] (edges g list [])
      (count_children g list (mark_listed list indegree)) := count_children_counted hzero
  have hperm : ∀ l : List commit,
      (if lifo then l else commit_list_sort_by_date g l).Perm l := by
    intro l
    split_ifs
    · exact List.Perm.refl l
    · exact mergesort.llist_mergesort_perm _ l
  refine ⟨List.nodup_nil, fun c hc => absurd hc List.not_mem_nil, hcounted, ?_, ?_, ?_,
    fun c hc => absurd hc List.not_mem_nil, List.Pairwise.nil, ?_⟩
  · exact (hperm _).nodup_iff.mpr (hnodup.filter _)
  · intro c
    rw [(hperm _).mem_iff, List.mem_filter, decide_eq_true_eq]
    simp only [List.not_mem_nil, not_false_eq_true, true_and]
  · rintro rfl
    have hsorted : (commit_list_sort_by_date g
        (list.filter fun c => count_children g list (mark_listed list indegree) c = 1)).Pairwise
          fun a b => decide (g.date b ≤ g.date a) = true := by
      apply mergesort.llist_mergesort_sorted
      · intro a b c hab hbc
        exact decide_eq_true ((of_decide_eq_true hbc).trans (of_decide_eq_true hab))
      · intro a b
        rw [Bool.or_eq_true, decide_eq_true_eq, decide_eq_true_eq]
        exact le_total _ _
    exact hsorted.imp fun hab => of_decide_eq_true hab
  · intro _ l₁ c l₂ hcut
    exact absurd hcut (List.append_ne_nil_of_right_ne_nil l₁ (List.cons_ne_nil c l₂)).symm

variable (lifo) in
/-- **The topological sort is a permutation of the list**, in which no commit comes after
one of its parents; all indegrees are cleared; and by date, each commit is as new as any
other whose listed children have all come before. -/
theorem topological_order [Fintype commit] (hdag : ∀ c, ¬ ProperAncestor g c c)
    (hnodup : list.Nodup) {indegree : indegree_map commit} (hzero : ∀ c, indegree c = 0) :
    (sort_in_topological_order g lifo indegree list).1.Perm list ∧
      ((sort_in_topological_order g lifo indegree list).1.Pairwise fun a b => a ∉ g.parents b) ∧
      (∀ c, (sort_in_topological_order g lifo indegree list).2 c = 0) ∧
      (lifo = false → ∀ l₁ c l₂,
        (sort_in_topological_order g lifo indegree list).1 = l₁ ++ c :: l₂ →
        ∀ d ∈ list, d ∉ l₁ → (∀ e ∈ list, d ∈ g.parents e → e ∈ l₁) → g.date d ≤ g.date c) := by
  have hstart := start_emitted g lifo hnodup hzero
  obtain ⟨h, hdone⟩ := emit_loop_emitted hnodup _ hstart
  have hall := h.all hdag hdone
  refine ⟨?_, h.order, ?_, h.newest⟩
  · exact (List.perm_ext_iff_of_nodup h.nodup hnodup).mpr fun c => ⟨h.listed c, hall c⟩
  · intro c
    refine (h.counted c).trans (if_neg ?_)
    exact fun hcase => hcase.2 (hall c hcase.1)

-- for the literals
local instance four : NeZero 4 := ⟨by decide⟩

/-- A merge of two lines, one of which it names twice, dated the wrong way round. -/
def merge_of_two_lines : commit_graph (Fin 4) where
  parents
    | 0 => [1, 2, 1]
    | 1 => [3]
    | 2 => [3]
    | 3 => []
  date c := c.val
  parse_commit _ := true

theorem above_merge {c a : Fin 4} (h : ProperAncestor merge_of_two_lines c a) : c < a := by
  have hparents : ∀ c, ∀ p ∈ merge_of_two_lines.parents c, c < p := by decide
  induction h with
  | single hp => exact hparents _ _ hp
  | tail _ hp ih => exact ih.trans (hparents _ _ hp)

theorem a_merge_comes_first :
    (sort_in_topological_order merge_of_two_lines false (fun _ => 0) [3, 1, 0, 2]).1.Perm
        [3, 1, 0, 2] ∧
      (sort_in_topological_order merge_of_two_lines false (fun _ => 0) [3, 1, 0, 2]).1.Pairwise
        (fun a b => a ∉ merge_of_two_lines.parents b) := by
  have hdag : ∀ c, ¬ ProperAncestor merge_of_two_lines c c := fun c h => (above_merge h).false
  have hzero : ∀ c : Fin 4, (fun _ => 0 : indegree_map (Fin 4)) c = 0 := fun _ => rfl
  have hnodup : ([3, 1, 0, 2] : List (Fin 4)).Nodup := by decide
  have h := topological_order false hdag hnodup hzero
  exact ⟨h.1, h.2.1⟩

end git.topo_sort
