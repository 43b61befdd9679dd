-- Where all commits can be read and none is older than a parent: the list of
-- `limit_list` goes down in time, and the commits that the countdown drops have
-- the date of the commit listed last.
import Git.RevisionSettled

open Relation

namespace git.revision

set_option linter.unusedSectionVars false

variable {commit tree blob tag : Type} [DecidableEq commit] [DecidableEq tree] [DecidableEq blob]
  [DecidableEq tag] [Fintype commit] {g : object_graph commit tree blob tag}

/-- All commits can be read, none leads to itself, and none is older than a parent. -/
structure Dates (g : object_graph commit tree blob tag) : Prop where
  has : ∀ c, g.has_sha1_file (.commit c) = true
  acyclic : acyclic.Acyclic (Parent g)
  parents : ∀ c p, Parent g c p → g.date p ≤ g.date c

theorem Dates.date_of (h : Dates g) (c : commit) : date_of g c = g.date c :=
  if_pos (h.has c)

theorem Dates.parent (h : Dates g) {c p : commit} (hp : Parent g c p) :
    revision.date_of g p ≤ revision.date_of g c := by
  rw [h.date_of, h.date_of]
  exact h.parents c p hp

theorem Dates.ancestor (h : Dates g) {c a : commit} (ha : Ancestor g c a) :
    revision.date_of g a ≤ revision.date_of g c := by
  induction ha with
  | refl => exact le_refl _
  | tail _ hp ih => exact (h.parent hp).trans ih

/-- How the list, what was taken from it and the countdown stand in time. -/
structure Dated (g : object_graph commit tree blob tag) (s : limiting commit tree blob tag) :
    Prop where
  sorted : ByDate g s.list
  older : ∀ a ∈ s.revs.ADDED, ∀ b ∈ s.list, date_of g b ≤ date_of g a
  ahead : ∀ b ∈ s.list, date_of g b ≤ s.date
  after : ∀ l ∈ s.newlist, s.date ≤ date_of g l
  closing : s.slop < SLOP → AllUninteresting s
  countdown : ∃ K : Finset commit, SLOP ≤ s.slop + K.card ∧ ∀ k ∈ K,
    k ∈ s.revs.ADDED ∧ .commit k ∈ s.revs.UNINTERESTING ∧ date_of g k ≤ s.date

/-! ## The list of a turn -/

variable {P N : object commit tree blob tag → Prop}

/-- What a turn leaves in the list is no newer than the commit taken. -/
theorem Dated.next (hdates : Dates g) {s : limiting commit tree blob tag} (h : Dated g s)
    {c : commit} {list : List commit} (hlist : s.list = c :: list)
    {t : rev_info commit tree blob tag × List commit} (hq : Queued (take c s.revs, list) t)
    (honly : ∀ o ∈ t.1.SEEN, o ∈ s.revs.SEEN ∨ ∃ p, Parent g c p ∧ o = .commit p) :
    ∀ b ∈ t.2, date_of g b ≤ date_of g c := by
  intro b hb
  have hsorted := h.sorted
  rw [hlist] at hsorted
  rcases (hq.mem b).mp hb with hb | ⟨hb, hnew⟩
  · exact (List.pairwise_cons.mp hsorted).1 b hb
  · rcases honly _ hb with hold | ⟨p, hp, heq⟩
    · exact absurd hold hnew
    · rw [object.commit.inj heq]
      exact hdates.parent hp

theorem Dated.older_next {s : limiting commit tree blob tag} (h : Dated g s) {c : commit}
    {list : List commit} (hlist : s.list = c :: list) {b : commit}
    (hb : date_of g b ≤ date_of g c) : ∀ a ∈ insert c s.revs.ADDED, date_of g b ≤ date_of g a := by
  intro a ha
  rcases Finset.mem_insert.mp ha with rfl | ha
  · exact hb
  · apply hb.trans
    apply h.older a ha
    rw [hlist]
    exact List.mem_cons_self

theorem Dated.keep (hdates : Dates g) {s : limiting commit tree blob tag} (h : Dated g s)
    (hw : Walk g P N s) {c : commit} {list : List commit} (hlist : s.list = c :: list)
    (hflag : .commit c ∉ s.revs.UNINTERESTING) {t : rev_info commit tree blob tag × List commit}
    (ht : add_interesting_parents g (g.parents c) (take c s.revs, list) = some t) :
    Dated g (keep_step g s c t) := by
  obtain ⟨t', ht', hqueued, hflags, -, honly, hsorted⟩ := add_interesting_parents_spec (g := g)
    (g.parents c) (take c s.revs, list) fun p _ => hdates.has p
  rw [ht] at ht'
  obtain rfl := Option.some.inj ht'
  have hc : c ∈ s.list := by
    rw [hlist]
    exact List.mem_cons_self
  have hadded : t.1.ADDED = insert c s.revs.ADDED := hqueued.added
  have hnext := h.next hdates hlist hqueued honly
  -- an unflagged commit in the list: the countdown has not begun
  have hslop : SLOP ≤ s.slop := by
    by_contra hless
    exact hflag (h.closing (not_le.mp hless) c hc)
  constructor
  · apply hsorted
    have hs := h.sorted
    rw [hlist] at hs
    exact (List.pairwise_cons.mp hs).2
  · intro a ha b hb
    have ha : a ∈ t.1.ADDED := ha
    rw [hadded] at ha
    exact h.older_next hlist (hnext b hb) a ha
  · exact hnext
  · intro l hl
    rcases List.mem_append.mp hl with hl | hl
    · exact h.older l (hw.listed l hl).1 c hc
    · rw [List.mem_singleton.mp hl]
      exact le_refl _
  · exact fun hless => absurd hless (not_lt.mpr hslop)
  · exact ⟨∅, hslop.trans (Nat.le_add_right _ _), fun k hk => absurd hk (Finset.notMem_empty k)⟩

/-- The values of `still_interesting` in a list that is not ahead of the date. -/
theorem still_interesting_cases {revs : rev_info commit tree blob tag} {src : List commit}
    {date slop : Nat} (h : ∀ b ∈ src, date_of g b ≤ date) :
    src = [] ∨ still_interesting g revs src date slop = SLOP ∨
      still_interesting g revs src date slop = slop - 1 ∧
        ∀ c ∈ src, .commit c ∈ revs.UNINTERESTING := by
  cases src with
  | nil => exact Or.inl rfl
  | cons c src =>
    right
    unfold still_interesting
    simp only
    rw [if_neg (not_lt.mpr (h c List.mem_cons_self))]
    by_cases hall : everybody_uninteresting revs (c :: src) = true
    · rw [hall, Bool.not_true, if_neg Bool.false_ne_true]
      refine Or.inr ⟨rfl, ?_⟩
      intro d hd
      exact of_decide_eq_true (List.all_eq_true.mp hall d hd)
    · rw [Bool.eq_false_iff.mpr hall]
      exact Or.inl rfl

theorem Dated.drop (hdates : Dates g) {s : limiting commit tree blob tag} (h : Dated g s)
    (hw : Walk g P N s) {c : commit} {list : List commit} (hlist : s.list = c :: list)
    (hflag : .commit c ∈ s.revs.UNINTERESTING) :
    (drop_step g s c list).list = [] ∨ Dated g (drop_step g s c list) := by
  obtain ⟨hqueued, -, -, honly, hsorted⟩ := add_uninteresting_parents_spec (g := g)
    (parents_of g (take c s.revs) c) (take c s.revs, list)
  have hmarked := mark_parents_marked (g := g) c (add_uninteresting_parents g
    (parents_of g (take c s.revs) c) (take c s.revs, list)).1
  have hadded := drop_step_added (g := g) s c list
  have hgrow : s.revs.UNINTERESTING ⊆ (drop_step g s c list).revs.UNINTERESTING :=
    hqueued.flags.trans hmarked.flags
  have hc : c ∈ s.list := by
    rw [hlist]
    exact List.mem_cons_self
  have hnext : ∀ b ∈ (drop_step g s c list).list, date_of g b ≤ date_of g c := by
    apply h.next hdates hlist hqueued
    intro o ho
    rcases honly o ho with ho | ⟨p, hp, heq, -⟩
    · exact Or.inl ho
    · exact Or.inr ⟨p, mem_parents_of hp, heq⟩
  have hahead : ∀ b ∈ (drop_step g s c list).list, date_of g b ≤ s.date :=
    fun b hb => (hnext b hb).trans (h.ahead c hc)
  have hcases : (drop_step g s c list).list = [] ∨ (drop_step g s c list).slop = SLOP ∨
      (drop_step g s c list).slop = s.slop - 1 ∧ AllUninteresting (drop_step g s c list) :=
    still_interesting_cases hahead
  refine hcases.imp_right fun hslop => ⟨?_, ?_, hahead, h.after, ?_, ?_⟩
  · apply hsorted
    have hs := h.sorted
    rw [hlist] at hs
    exact (List.pairwise_cons.mp hs).2
  · intro a ha b hb
    rw [hadded] at ha
    exact h.older_next hlist (hnext b hb) a ha
  · rcases hslop with hslop | ⟨-, hall⟩
    · rw [hslop]
      exact fun hless => absurd hless (lt_irrefl _)
    · exact fun _ => hall
  · rcases hslop with hslop | ⟨hslop, -⟩
    · rw [hslop]
      exact ⟨∅, Nat.le_add_right _ _, fun k hk => absurd hk (Finset.notMem_empty k)⟩
    · obtain ⟨K, hcard, hK⟩ := h.countdown
      have hnew : c ∉ K := fun hin => hw.apart c hc (hK c hin).1
      refine ⟨insert c K, ?_, ?_⟩
      · rw [hslop, Finset.card_insert_of_notMem hnew]
        omega
      · intro k hk
        rw [hadded]
        rcases Finset.mem_insert.mp hk with rfl | hk
        · exact ⟨Finset.mem_insert_self _ _, hgrow hflag, h.ahead k hc⟩
        · obtain ⟨hin, hu, hdate⟩ := hK k hk
          exact ⟨Finset.mem_insert_of_mem hin, hgrow hu, hdate⟩

end git.revision
