-- What a turn of the walk does to the list: commits that were not seen come in,
-- by date, and the flags only grow.
import Git.RevisionMarks

open Relation

namespace git.revision

set_option linter.unusedSectionVars false

variable {commit tree blob tag : Type} [DecidableEq commit] [DecidableEq tree] [DecidableEq blob]
  [DecidableEq tag] {g : object_graph commit tree blob tag}

/-! ## The list -/

/-- Newest first. -/
def ByDate (g : object_graph commit tree blob tag) (list : List commit) : Prop :=
  list.Pairwise fun a b => date_of g b ≤ date_of g a

theorem insert_by_date_perm (item : commit) (list : List commit) :
    (commit_list_insert_by_date g item list).Perm (item :: list) := by
  induction list with
  | nil => exact List.Perm.refl _
  | cons p list ih =>
    unfold commit_list_insert_by_date
    split_ifs
    · exact List.Perm.refl _
    · exact (List.Perm.cons p ih).trans (List.Perm.swap item p list)

theorem insert_by_date_sorted (item : commit) {list : List commit} (h : ByDate g list) :
    ByDate g (commit_list_insert_by_date g item list) := by
  induction list with
  | nil => exact List.pairwise_singleton _ _
  | cons p list ih =>
    obtain ⟨hp, hlist⟩ := List.pairwise_cons.mp h
    unfold commit_list_insert_by_date
    split_ifs with hdate
    · refine List.pairwise_cons.mpr ⟨?_, h⟩
      intro a ha
      rcases List.mem_cons.mp ha with rfl | ha
      · exact hdate.le
      · exact (hp a ha).trans hdate.le
    · refine List.pairwise_cons.mpr ⟨?_, ih hlist⟩
      intro a ha
      rcases List.mem_cons.mp ((insert_by_date_perm item list).mem_iff.mp ha) with rfl | ha
      · exact not_lt.mp hdate
      · exact hp a ha

theorem sort_by_date_perm (list : List commit) :
    (commit_list_sort_by_date g list).Perm list :=
  List.mergeSort_perm list _

theorem sort_by_date_sorted (list : List commit) : ByDate g (commit_list_sort_by_date g list) := by
  have hsorted := @List.pairwise_mergeSort _ (fun a b => decide (date_of g b ≤ date_of g a))
    (by
      intro a b c hab hbc
      rw [decide_eq_true_eq] at hab hbc ⊢
      exact hbc.trans hab)
    (by
      intro a b
      rw [Bool.or_eq_true, decide_eq_true_eq, decide_eq_true_eq]
      exact le_total _ _) list
  exact hsorted.imp fun h => of_decide_eq_true h

/-! ## Coming into the list -/

/-- `t` comes from `s` by commits coming into the list. -/
structure Queued (s t : rev_info commit tree blob tag × List commit) : Prop where
  pending : t.1.pending = s.1.pending
  commits : t.1.commits = s.1.commits
  limited : t.1.limited = s.1.limited
  added : t.1.ADDED = s.1.ADDED
  shown : t.1.SHOWN = s.1.SHOWN
  flags : s.1.UNINTERESTING ⊆ t.1.UNINTERESTING
  parsed : s.1.parsed ⊆ t.1.parsed
  seen : s.1.SEEN ⊆ t.1.SEEN
  only : ∀ o ∈ t.1.SEEN, o ∈ s.1.SEEN ∨ ∃ c, o = .commit c
  mem : ∀ c, c ∈ t.2 ↔ c ∈ s.2 ∨ (.commit c ∈ t.1.SEEN ∧ .commit c ∉ s.1.SEEN)
  nodup : s.2.Nodup → (∀ c ∈ s.2, .commit c ∈ s.1.SEEN) → t.2.Nodup

theorem Queued.refl (s : rev_info commit tree blob tag × List commit) : Queued s s where
  pending := rfl
  commits := rfl
  limited := rfl
  added := rfl
  shown := rfl
  flags := subset_rfl
  parsed := subset_rfl
  seen := subset_rfl
  only := fun _ h => Or.inl h
  mem := fun _ => (or_iff_left fun h => h.2 h.1).symm
  nodup := fun h _ => h

theorem Queued.seen_of_mem {s t : rev_info commit tree blob tag × List commit} (h : Queued s t)
    (hs : ∀ c ∈ s.2, .commit c ∈ s.1.SEEN) : ∀ c ∈ t.2, .commit c ∈ t.1.SEEN := by
  intro c hc
  rcases (h.mem c).mp hc with hc | hc
  · exact h.seen (hs c hc)
  · exact hc.1

theorem Queued.trans {s t u : rev_info commit tree blob tag × List commit} (h : Queued s t)
    (h' : Queued t u) : Queued s u where
  pending := h'.pending.trans h.pending
  commits := h'.commits.trans h.commits
  limited := h'.limited.trans h.limited
  added := h'.added.trans h.added
  shown := h'.shown.trans h.shown
  flags := h.flags.trans h'.flags
  parsed := h.parsed.trans h'.parsed
  seen := h.seen.trans h'.seen
  only := by
    intro o ho
    rcases h'.only o ho with ho | ho
    · exact h.only o ho
    · exact Or.inr ho
  mem := by
    intro c
    rw [h'.mem c, h.mem c]
    constructor
    · rintro ((hc | ⟨hc, hno⟩) | ⟨hc, hno⟩)
      · exact Or.inl hc
      · exact Or.inr ⟨h'.seen hc, hno⟩
      · exact Or.inr ⟨hc, fun hs => hno (h.seen hs)⟩
    · rintro (hc | ⟨hc, hno⟩)
      · exact Or.inl (Or.inl hc)
      · by_cases ht : .commit c ∈ t.1.SEEN
        · exact Or.inl (Or.inr ⟨ht, hno⟩)
        · exact Or.inr ⟨hc, ht⟩
  nodup := by
    intro hnodup hseen
    exact h'.nodup (h.nodup hnodup hseen) (h.seen_of_mem hseen)

theorem Queued.of_marked {s t : rev_info commit tree blob tag} (h : Marked g s t)
    (list : List commit) : Queued (s, list) (t, list) where
  pending := h.pending
  commits := h.commits
  limited := h.limited
  added := h.added
  shown := h.shown
  flags := h.flags
  parsed := h.parsed
  seen := by rw [h.seen]
  only := by
    intro o ho
    rw [h.seen] at ho
    exact Or.inl ho
  mem := by
    intro c
    rw [h.seen]
    exact (or_iff_left fun h => h.2 h.1).symm
  nodup := fun h _ => h

theorem Queued.of_parse {s t : rev_info commit tree blob tag} {c : commit}
    (h : parse_commit g c s = some t) (list : List commit) : Queued (s, list) (t, list) := by
  unfold parse_commit at h
  split_ifs at h with hparsed hhas
  · rw [← Option.some.inj h]
    exact Queued.refl _
  · rw [← Option.some.inj h]
    exact ⟨rfl, rfl, rfl, rfl, rfl, subset_rfl, Finset.subset_insert _ _, subset_rfl,
      fun _ h => Or.inl h, fun c => (or_iff_left fun h => h.2 h.1).symm, fun h _ => h⟩

theorem parse_commit_parsed {s t : rev_info commit tree blob tag} {c : commit}
    (h : parse_commit g c s = some t) : c ∈ t.parsed := by
  unfold parse_commit at h
  split_ifs at h with hparsed hhas
  · rw [← Option.some.inj h]
    exact hparsed
  · rw [← Option.some.inj h]
    exact Finset.mem_insert_self _ _

theorem parse_commit_flags {s t : rev_info commit tree blob tag} {c : commit}
    (h : parse_commit g c s = some t) : t.UNINTERESTING = s.UNINTERESTING := by
  unfold parse_commit at h
  split_ifs at h with hparsed hhas
  · rw [← Option.some.inj h]
  · rw [← Option.some.inj h]

theorem parse_commit_present {s : rev_info commit tree blob tag} {c : commit}
    (h : g.has_sha1_file (.commit c) = true) : ∃ t, parse_commit g c s = some t := by
  unfold parse_commit
  split_ifs
  · exact ⟨_, rfl⟩
  · exact ⟨_, rfl⟩

theorem Queued.add_unseen (p : commit) (s : rev_info commit tree blob tag × List commit) :
    Queued s (add_unseen g p s) := by
  unfold revision.add_unseen
  split_ifs with hseen
  · exact Queued.refl s
  · have hperm := insert_by_date_perm (g := g) p s.2
    refine ⟨rfl, rfl, rfl, rfl, rfl, subset_rfl, subset_rfl, Finset.subset_insert _ _, ?_, ?_, ?_⟩
    · intro o ho
      rcases Finset.mem_insert.mp ho with rfl | ho
      · exact Or.inr ⟨p, rfl⟩
      · exact Or.inl ho
    · intro c
      rw [hperm.mem_iff, List.mem_cons, Finset.mem_insert, object.commit.injEq]
      constructor
      · rintro (rfl | hc)
        · exact Or.inr ⟨Or.inl rfl, hseen⟩
        · exact Or.inl hc
      · rintro (hc | ⟨rfl | hc, hno⟩)
        · exact Or.inr hc
        · exact Or.inl rfl
        · exact absurd hc hno
    · intro hnodup hall
      rw [hperm.nodup_iff, List.nodup_cons]
      exact ⟨fun hp => hseen (hall p hp), hnodup⟩

theorem add_unseen_seen (p : commit) (s : rev_info commit tree blob tag × List commit) :
    .commit p ∈ (add_unseen g p s).1.SEEN := by
  unfold add_unseen
  split_ifs with hseen
  · exact hseen
  · exact Finset.mem_insert_self _ _

@[simp] theorem add_unseen_flags (p : commit) (s : rev_info commit tree blob tag × List commit) :
    (add_unseen g p s).1.UNINTERESTING = s.1.UNINTERESTING := by
  unfold add_unseen
  split_ifs <;> rfl

@[simp] theorem add_unseen_parsed (p : commit) (s : rev_info commit tree blob tag × List commit) :
    (add_unseen g p s).1.parsed = s.1.parsed := by
  unfold add_unseen
  split_ifs <;> rfl

theorem add_unseen_sorted (p : commit) {s : rev_info commit tree blob tag × List commit}
    (h : ByDate g s.2) : ByDate g (add_unseen g p s).2 := by
  unfold add_unseen
  split_ifs
  · exact h
  · exact insert_by_date_sorted p h

/-- What comes in by one commit. -/
theorem add_unseen_only (p : commit) (s : rev_info commit tree blob tag × List commit) :
    ∀ o ∈ (add_unseen g p s).1.SEEN, o ∈ s.1.SEEN ∨ o = .commit p := by
  intro o ho
  unfold add_unseen at ho
  split_ifs at ho
  · exact Or.inl ho
  · rcases Finset.mem_insert.mp ho with rfl | ho
    · exact Or.inr rfl
    · exact Or.inl ho

/-! ## The parents of an interesting commit -/

theorem add_interesting_parents_spec (parents : List commit) :
    ∀ s : rev_info commit tree blob tag × List commit,
      (∀ p ∈ parents, g.has_sha1_file (.commit p) = true) →
      ∃ t, add_interesting_parents g parents s = some t ∧ Queued s t ∧
        t.1.UNINTERESTING = s.1.UNINTERESTING ∧
        (∀ p ∈ parents, .commit p ∈ t.1.SEEN ∧ p ∈ t.1.parsed) ∧
        (∀ o ∈ t.1.SEEN, o ∈ s.1.SEEN ∨ ∃ p ∈ parents, o = .commit p) ∧
        (ByDate g s.2 → ByDate g t.2) := by
  induction parents with
  | nil =>
    intro s _
    exact ⟨s, rfl, Queued.refl s, rfl, fun p hp => absurd hp List.not_mem_nil,
      fun _ h => Or.inl h, id⟩
  | cons p parents ih =>
    rintro ⟨revs, list⟩ hpresent
    obtain ⟨revs', hparse⟩ := parse_commit_present (s := revs) (hpresent p List.mem_cons_self)
    obtain ⟨t, ht, hqueued, hflags, hall, honly, hsorted⟩ := ih (add_unseen g p (revs', list))
      fun q hq => hpresent q (List.mem_cons_of_mem p hq)
    have hfirst := (Queued.of_parse hparse list).trans (Queued.add_unseen (g := g) p (revs', list))
    refine ⟨t, ?_, hfirst.trans hqueued, ?_, ?_, ?_, ?_⟩
    · rw [add_interesting_parents, hparse, Option.bind_some, ht]
    · rw [hflags, add_unseen_flags, parse_commit_flags hparse]
    · intro q hq
      rcases List.mem_cons.mp hq with rfl | hq
      · refine ⟨hqueued.seen (add_unseen_seen _ _), hqueued.parsed ?_⟩
        rw [add_unseen_parsed]
        exact parse_commit_parsed hparse
      · exact hall q hq
    · intro o ho
      rcases honly o ho with ho | ⟨q, hq, rfl⟩
      · rcases add_unseen_only p _ o ho with ho | rfl
        · have hseen : revs'.SEEN = revs.SEEN := by
            unfold parse_commit at hparse
            split_ifs at hparse with h1 h2
            · rw [← Option.some.inj hparse]
            · rw [← Option.some.inj hparse]
          rw [hseen] at ho
          exact Or.inl ho
        · exact Or.inr ⟨p, List.mem_cons_self, rfl⟩
      · exact Or.inr ⟨q, List.mem_cons_of_mem p hq, rfl⟩
    · exact fun h => hsorted (add_unseen_sorted p h)

/-! ## The parents of an uninteresting commit -/

section

variable [Fintype commit]

/-- What happens to one parent that can be read, but for coming into the list. -/
def visit (g : object_graph commit tree blob tag) (p : commit)
    (revs : rev_info commit tree blob tag) : rev_info commit tree blob tag :=
  if parents_of g revs p ≠ [] then mark_parents_uninteresting g p revs else revs

theorem visit_eq (p : commit) (revs : rev_info commit tree blob tag) :
    Marked g revs (visit g p revs) ∧
      (visit g p revs).UNINTERESTING = (mark_parents_uninteresting g p revs).UNINTERESTING := by
  unfold visit
  by_cases h : parents_of g revs p ≠ []
  · rw [if_pos h]
    exact ⟨mark_parents_marked p revs, rfl⟩
  · rw [if_neg h]
    refine ⟨Marked.refl revs, (mark_parents_idle ?_).symm⟩
    intro q hq
    rw [not_not.mp h] at hq
    cases hq

theorem add_uninteresting_parents_cons (p : commit) (parents : List commit)
    (revs : rev_info commit tree blob tag) (list : List commit) :
    add_uninteresting_parents g (p :: parents) (revs, list) =
      match parse_commit g p (flag_uninteresting (.commit p) revs) with
      | none => add_uninteresting_parents g parents (flag_uninteresting (.commit p) revs, list)
      | some revs => add_uninteresting_parents g parents (add_unseen g p (visit g p revs, list)) :=
  rfl

theorem add_uninteresting_parents_spec (parents : List commit) :
    ∀ s : rev_info commit tree blob tag × List commit,
      Queued s (add_uninteresting_parents g parents s) ∧
      (∀ p ∈ parents, .commit p ∈ (add_uninteresting_parents g parents s).1.UNINTERESTING) ∧
      (∀ o ∈ (add_uninteresting_parents g parents s).1.UNINTERESTING, o ∈ s.1.UNINTERESTING ∨
        ∃ p ∈ parents, ∃ d, o = .commit d ∧ Ancestor g p d) ∧
      (∀ o ∈ (add_uninteresting_parents g parents s).1.SEEN, o ∈ s.1.SEEN ∨
        ∃ p ∈ parents, o = .commit p ∧ p ∈ (add_uninteresting_parents g parents s).1.parsed) ∧
      (ByDate g s.2 → ByDate g (add_uninteresting_parents g parents s).2) := by
  induction parents with
  | nil =>
    intro s
    exact ⟨Queued.refl s, fun p hp => absurd hp List.not_mem_nil, fun _ h => Or.inl h,
      fun _ h => Or.inl h, id⟩
  | cons p parents ih =>
    rintro ⟨revs, list⟩
    have hflag := Queued.of_marked (Marked.flag (g := g) revs (.commit p)) list
    have hself : .commit p ∈ (flag_uninteresting (.commit p) revs).UNINTERESTING :=
      Finset.mem_insert_self _ _
    rw [add_uninteresting_parents_cons]
    cases hparse : parse_commit g p (flag_uninteresting (.commit p) revs) with
    | none =>
      obtain ⟨hqueued, hall, hsound, honly, hsorted⟩ :=
        ih (flag_uninteresting (.commit p) revs, list)
      refine ⟨hflag.trans hqueued, ?_, ?_, ?_, hsorted⟩
      · intro q hq
        rcases List.mem_cons.mp hq with rfl | hq
        · exact hqueued.flags hself
        · exact hall q hq
      · intro o ho
        rcases hsound o ho with ho | ⟨q, hq, d, rfl, hd⟩
        · rcases Finset.mem_insert.mp ho with rfl | ho
          · exact Or.inr ⟨p, List.mem_cons_self, p, rfl, ReflTransGen.refl⟩
          · exact Or.inl ho
        · exact Or.inr ⟨q, List.mem_cons_of_mem p hq, d, rfl, hd⟩
      · intro o ho
        rcases honly o ho with ho | ⟨q, hq, rfl, hparsed⟩
        · exact Or.inl ho
        · exact Or.inr ⟨q, List.mem_cons_of_mem p hq, rfl, hparsed⟩
    | some revs' =>
      obtain ⟨hmarked, hflags⟩ := visit_eq (g := g) p revs'
      obtain ⟨hqueued, hall, hsound, honly, hsorted⟩ :=
        ih (add_unseen g p (visit g p revs', list))
      have hfirst := (hflag.trans (Queued.of_parse hparse list)).trans
        ((Queued.of_marked hmarked list).trans (Queued.add_unseen (g := g) p (visit g p revs', list)))
      refine ⟨hfirst.trans hqueued, ?_, ?_, ?_, fun h => hsorted (add_unseen_sorted p h)⟩
      · intro q hq
        rcases List.mem_cons.mp hq with rfl | hq
        · apply hqueued.flags
          rw [add_unseen_flags]
          apply hmarked.flags
          rw [parse_commit_flags hparse]
          exact hself
        · exact hall q hq
      · intro o ho
        rcases hsound o ho with ho | ⟨q, hq, d, rfl, hd⟩
        · rw [add_unseen_flags, hflags] at ho
          rcases mark_parents_sound ho with ho | ⟨d, rfl, hd⟩
          · rw [parse_commit_flags hparse] at ho
            rcases Finset.mem_insert.mp ho with rfl | ho
            · exact Or.inr ⟨p, List.mem_cons_self, p, rfl, ReflTransGen.refl⟩
            · exact Or.inl ho
          · exact Or.inr ⟨p, List.mem_cons_self, d, rfl, hd⟩
        · exact Or.inr ⟨q, List.mem_cons_of_mem p hq, d, rfl, hd⟩
      · intro o ho
        rcases honly o ho with ho | ⟨q, hq, rfl, hparsed⟩
        · rcases add_unseen_only p _ o ho with ho | rfl
          · have hseen : (visit g p revs').SEEN = revs.SEEN := by
              rw [hmarked.seen]
              unfold parse_commit at hparse
              split_ifs at hparse with h1 h2
              · rw [← Option.some.inj hparse]
                rfl
              · rw [← Option.some.inj hparse]
                rfl
            rw [hseen] at ho
            exact Or.inl ho
          · refine Or.inr ⟨p, List.mem_cons_self, rfl, hqueued.parsed ?_⟩
            rw [add_unseen_parsed]
            exact hmarked.parsed (parse_commit_parsed hparse)
        · exact Or.inr ⟨q, List.mem_cons_of_mem p hq, rfl, hparsed⟩

end

end git.revision
