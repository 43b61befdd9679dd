-- The loop of `limit_list`, on any history: it takes every commit of the list
-- once, flags only what a negative tip reaches, and does not stop before what
-- is left is uninteresting.
import Git.RevisionQueue

open Relation

namespace git.revision

set_option linter.unusedSectionVars false

variable {commit tree blob tag : Type} [DecidableEq commit] [DecidableEq tree] [DecidableEq blob]
  [DecidableEq tag] [Fintype commit] {g : object_graph commit tree blob tag}

/-! ## A turn -/

/-- The commit has been taken from the list. -/
def take (c : commit) (revs : rev_info commit tree blob tag) : rev_info commit tree blob tag :=
  { revs with ADDED := insert c revs.ADDED }

/-- What an uninteresting commit leaves. -/
def drop_step (g : object_graph commit tree blob tag) (s : limiting commit tree blob tag)
    (c : commit) (list : List commit) : limiting commit tree blob tag :=
  let t := add_uninteresting_parents g (parents_of g (take c s.revs) c) (take c s.revs, list)
  let revs := mark_parents_uninteresting g c t.1
  { s with revs := revs, list := t.2, slop := still_interesting g revs t.2 s.date s.slop }

theorem limit_step_flagged {s : limiting commit tree blob tag} {c : commit} {list : List commit}
    (hlist : s.list = c :: list) (hnew : c ∉ s.revs.ADDED)
    (hflag : .commit c ∈ s.revs.UNINTERESTING) :
    limit_step g s = some (drop_step g s c list, decide ((drop_step g s c list).slop ≠ 0)) := by
  have hadd : add_parents_to_list g c s.revs list =
      some (add_uninteresting_parents g (parents_of g (take c s.revs) c)
        (take c s.revs, list)) := by
    unfold add_parents_to_list
    rw [if_neg hnew]
    exact if_pos hflag
  have hkept : .commit c ∈ (add_uninteresting_parents g (parents_of g (take c s.revs) c)
      (take c s.revs, list)).1.UNINTERESTING :=
    (add_uninteresting_parents_spec _ _).1.flags hflag
  unfold limit_step
  rw [hlist]
  simp only
  rw [hadd, Option.map_some]
  rw [if_pos hkept]
  rfl

/-- What an interesting commit leaves, with what its parents make of the list. -/
def keep_step (g : object_graph commit tree blob tag) (s : limiting commit tree blob tag)
    (c : commit) (t : rev_info commit tree blob tag × List commit) :
    limiting commit tree blob tag :=
  { s with revs := t.1, list := t.2, newlist := s.newlist ++ [c], date := date_of g c }

theorem limit_step_unflagged {s : limiting commit tree blob tag} {c : commit} {list : List commit}
    (hlist : s.list = c :: list) (hnew : c ∉ s.revs.ADDED)
    (hflag : .commit c ∉ s.revs.UNINTERESTING) {t : rev_info commit tree blob tag × List commit}
    (ht : add_interesting_parents g (parents_of g (take c s.revs) c) (take c s.revs, list) = some t)
    (hflags : t.1.UNINTERESTING = s.revs.UNINTERESTING) :
    limit_step g s = some (keep_step g s c t, true) := by
  have hadd : add_parents_to_list g c s.revs list = some t := by
    unfold add_parents_to_list
    rw [if_neg hnew, ← ht]
    exact if_neg hflag
  unfold limit_step
  rw [hlist]
  simp only
  rw [hadd, Option.map_some]
  rw [hflags, if_neg hflag]
  rfl

/-- How often the loop can still go on. -/
def limiting.room (s : limiting commit tree blob tag) : Nat := (s.revs.ADDEDᶜ).card

/-- An invariant of turns that each take a new commit holds up to the last one. -/
theorem limit_loop_run {Inv Done : limiting commit tree blob tag → Prop}
    (step : ∀ s, Inv s → ∃ t b, limit_step g s = some (t, b) ∧
      (b = true → Inv t ∧ t.room < s.room) ∧ (b = false → Done t)) (fuel : Nat) :
    ∀ s, Inv s → s.room < fuel → ∃ t, limit_loop g fuel s = some t ∧ Done t := by
  induction fuel with
  | zero => exact fun _ _ h => absurd h (Nat.not_lt_zero _)
  | succ fuel ih =>
    intro s hinv hroom
    obtain ⟨t, b, hstep, hmore, hdone⟩ := step s hinv
    unfold limit_loop
    rw [hstep, Option.bind_some]
    cases b with
    | true =>
      obtain ⟨ht, hless⟩ := hmore rfl
      exact ih t ht (by omega)
    | false => exact ⟨t, rfl, hdone rfl⟩

theorem room_insert {s t : limiting commit tree blob tag} {c : commit}
    (h : t.revs.ADDED = insert c s.revs.ADDED) (hnew : c ∉ s.revs.ADDED) : t.room < s.room := by
  unfold limiting.room
  rw [h]
  apply Finset.card_lt_card
  rw [Finset.compl_insert]
  exact Finset.erase_ssubset (Finset.mem_compl.mpr hnew)

/-! ## What stays -/

theorem add_interesting_parents_queued (parents : List commit) :
    ∀ s t : rev_info commit tree blob tag × List commit,
      add_interesting_parents g parents s = some t → Queued s t := by
  induction parents with
  | nil =>
    intro s t h
    rw [← Option.some.inj h]
    exact Queued.refl s
  | cons p parents ih =>
    rintro ⟨revs, list⟩ t h
    rw [add_interesting_parents] at h
    obtain ⟨revs', hparse, hrest⟩ := Option.bind_eq_some_iff.mp h
    exact ((Queued.of_parse hparse list).trans (Queued.add_unseen p _)).trans (ih _ t hrest)

/-- `t` comes from `s` by walking. -/
structure Carried (s t : rev_info commit tree blob tag) : Prop where
  pending : t.pending = s.pending
  shown : t.SHOWN = s.SHOWN
  limited : t.limited = s.limited
  seen : s.SEEN ⊆ t.SEEN
  only : ∀ o ∈ t.SEEN, o ∈ s.SEEN ∨ ∃ c, o = .commit c
  flags : s.UNINTERESTING ⊆ t.UNINTERESTING

theorem Carried.refl (s : rev_info commit tree blob tag) : Carried s s :=
  ⟨rfl, rfl, rfl, subset_rfl, fun _ h => Or.inl h, subset_rfl⟩

theorem Carried.trans {s t u : rev_info commit tree blob tag} (h : Carried s t)
    (h' : Carried t u) : Carried s u where
  pending := h'.pending.trans h.pending
  shown := h'.shown.trans h.shown
  limited := h'.limited.trans h.limited
  seen := h.seen.trans h'.seen
  only := by
    intro o ho
    rcases h'.only o ho with ho | ho
    · exact h.only o ho
    · exact Or.inr ho
  flags := h.flags.trans h'.flags

theorem Marked.carried {s t : rev_info commit tree blob tag} (h : Marked g s t) : Carried s t where
  pending := h.pending
  shown := h.shown
  limited := h.limited
  seen := by rw [h.seen]
  only := by
    rw [h.seen]
    exact fun _ ho => Or.inl ho
  flags := h.flags

theorem Queued.carried {s t : rev_info commit tree blob tag × List commit} (h : Queued s t) :
    Carried s.1 t.1 :=
  ⟨h.pending, h.shown, h.limited, h.seen, h.only, h.flags⟩

theorem add_parents_to_list_carried {c : commit} {s t : rev_info commit tree blob tag}
    {list list' : List commit} (h : add_parents_to_list g c s list = some (t, list')) :
    Carried s t := by
  unfold add_parents_to_list at h
  by_cases hin : c ∈ s.ADDED
  · rw [if_pos hin] at h
    rw [← (Prod.mk.inj (Option.some.inj h)).1]
    exact Carried.refl s
  · rw [if_neg hin] at h
    have htake : (if .commit c ∈ (take c s).UNINTERESTING then
        some (add_uninteresting_parents g (parents_of g (take c s) c) (take c s, list))
      else add_interesting_parents g (parents_of g (take c s) c) (take c s, list)) =
        some (t, list') := h
    have hq : Queued (take c s, list) (t, list') := by
      split_ifs at htake
      · rw [← Option.some.inj htake]
        exact (add_uninteresting_parents_spec _ _).1
      · exact add_interesting_parents_queued _ _ _ htake
    have hc := hq.carried
    exact ⟨hc.pending, hc.shown, hc.limited, hc.seen, hc.only, hc.flags⟩

theorem limit_step_carried {s t : limiting commit tree blob tag} {b : Bool}
    (h : limit_step g s = some (t, b)) : Carried s.revs t.revs := by
  unfold limit_step at h
  split at h
  · obtain ⟨rfl, -⟩ := Prod.mk.inj (Option.some.inj h)
    exact Carried.refl _
  · obtain ⟨⟨revs, list'⟩, hadd, hturn⟩ := Option.map_eq_some_iff.mp h
    have hcarried := add_parents_to_list_carried hadd
    simp only at hturn
    split_ifs at hturn
    · obtain ⟨rfl, -⟩ := Prod.mk.inj hturn
      exact hcarried.trans (mark_parents_marked (g := g) _ revs).carried
    · obtain ⟨rfl, -⟩ := Prod.mk.inj hturn
      exact hcarried

theorem limit_loop_carried (fuel : Nat) :
    ∀ s t : limiting commit tree blob tag, limit_loop g fuel s = some t →
      Carried s.revs t.revs := by
  induction fuel with
  | zero =>
    intro s t h
    rw [← Option.some.inj h]
    exact Carried.refl _
  | succ fuel ih =>
    intro s t h
    rw [limit_loop] at h
    obtain ⟨⟨s', b⟩, hstep, hrest⟩ := Option.bind_eq_some_iff.mp h
    have hcarried := limit_step_carried hstep
    simp only at hrest
    split_ifs at hrest
    · exact hcarried.trans (ih s' t hrest)
    · rw [← Option.some.inj hrest]
      exact hcarried

/-! ## The invariant -/

/-- `P` is what the positive tips reach, and `N` what the negative ones do. -/
structure Reaches (g : object_graph commit tree blob tag) (P N : object commit tree blob tag → Prop) :
    Prop where
  positive : ∀ {c p}, P (.commit c) → Parent g c p → P (.commit p)
  tagged : ∀ {t}, P (.tag t) → P (g.tagged t)
  negative : ∀ {o x}, N o → Names g o x → N x
  present : ∀ {o}, P o → g.has_sha1_file o = true

structure Walk (g : object_graph commit tree blob tag) (P N : object commit tree blob tag → Prop)
    (s : limiting commit tree blob tag) : Prop where
  sound : ∀ o ∈ s.revs.UNINTERESTING, N o
  seen : ∀ c, .commit c ∈ s.revs.SEEN ↔ c ∈ s.list ∨ c ∈ s.revs.ADDED
  apart : ∀ c ∈ s.list, c ∉ s.revs.ADDED
  nodup : s.list.Nodup
  parsed : ∀ c, .commit c ∈ s.revs.SEEN → c ∈ s.revs.parsed
  reached : ∀ c, .commit c ∈ s.revs.SEEN → P (.commit c) ∨ .commit c ∈ s.revs.UNINTERESTING
  taken : ∀ c ∈ s.revs.ADDED, c ∈ s.newlist ∨ .commit c ∈ s.revs.UNINTERESTING
  listed : ∀ c ∈ s.newlist, c ∈ s.revs.ADDED ∧ P (.commit c) ∧
    ∀ p ∈ g.parents c, .commit p ∈ s.revs.SEEN
  newlist_nodup : s.newlist.Nodup

variable {P N : object commit tree blob tag → Prop}

theorem Reaches.ancestor (h : Reaches g P N) {c a : commit} (hc : N (.commit c))
    (ha : Ancestor g c a) : N (.commit a) := by
  induction ha with
  | refl => exact hc
  | tail _ hparent ih => exact h.negative ih (.parent hparent)

/-- More flags and more parsed commits. -/
theorem Walk.grow {s t : limiting commit tree blob tag} (h : Walk g P N s)
    (hseen : t.revs.SEEN = s.revs.SEEN) (hadded : t.revs.ADDED = s.revs.ADDED)
    (hlist : t.list = s.list) (hnewlist : t.newlist = s.newlist)
    (hflags : s.revs.UNINTERESTING ⊆ t.revs.UNINTERESTING)
    (hsound : ∀ o ∈ t.revs.UNINTERESTING, N o) (hparsed : s.revs.parsed ⊆ t.revs.parsed) :
    Walk g P N t := by
  refine ⟨hsound, ?_, ?_, ?_, ?_, ?_, ?_, ?_, ?_⟩
  · rw [hseen, hadded, hlist]
    exact h.seen
  · rw [hadded, hlist]
    exact h.apart
  · rw [hlist]
    exact h.nodup
  · rw [hseen]
    exact fun c hc => hparsed (h.parsed c hc)
  · rw [hseen]
    exact fun c hc => (h.reached c hc).imp_right fun hu => hflags hu
  · rw [hadded, hnewlist]
    exact fun c hc => (h.taken c hc).imp_right fun hu => hflags hu
  · rw [hadded, hseen, hnewlist]
    exact h.listed
  · rw [hnewlist]
    exact h.newlist_nodup

/-- The list of a turn, with the commit taken from it. -/
theorem Walk.taken_seen {s : limiting commit tree blob tag} (h : Walk g P N s) {c : commit}
    {list : List commit} (hlist : s.list = c :: list) :
    c ∉ s.revs.ADDED ∧ .commit c ∈ s.revs.SEEN ∧ c ∉ list ∧ list.Nodup ∧
      ∀ d ∈ list, .commit d ∈ s.revs.SEEN := by
  have hmem : c ∈ s.list := by
    rw [hlist]
    exact List.mem_cons_self
  have hnodup := h.nodup
  rw [hlist, List.nodup_cons] at hnodup
  refine ⟨h.apart c hmem, (h.seen c).mpr (Or.inl hmem), hnodup.1, hnodup.2, ?_⟩
  intro d hd
  apply (h.seen d).mpr
  rw [hlist]
  exact Or.inl (List.mem_cons_of_mem c hd)

/-- What a turn leaves of the list and the flags of having been there. -/
theorem Walk.queued {s : limiting commit tree blob tag} (h : Walk g P N s) {c : commit}
    {list : List commit} (hlist : s.list = c :: list)
    {t : rev_info commit tree blob tag × List commit} (hq : Queued (take c s.revs, list) t) :
    (∀ d, .commit d ∈ t.1.SEEN ↔ d ∈ t.2 ∨ d ∈ t.1.ADDED) ∧ (∀ d ∈ t.2, d ∉ t.1.ADDED) ∧
      t.2.Nodup := by
  obtain ⟨hnew, hseen, hnot, hnodup, hall⟩ := h.taken_seen hlist
  have hadded : t.1.ADDED = insert c s.revs.ADDED := hq.added
  refine ⟨?_, ?_, hq.nodup hnodup hall⟩
  · intro d
    rw [hadded, Finset.mem_insert]
    constructor
    · intro hd
      by_cases hold : .commit d ∈ s.revs.SEEN
      · rcases (h.seen d).mp hold with hd | hd
        · rw [hlist] at hd
          rcases List.mem_cons.mp hd with rfl | hd
          · exact Or.inr (Or.inl rfl)
          · exact Or.inl ((hq.mem d).mpr (Or.inl hd))
        · exact Or.inr (Or.inr hd)
      · exact Or.inl ((hq.mem d).mpr (Or.inr ⟨hd, hold⟩))
    · rintro (hd | rfl | hd)
      · exact hq.seen_of_mem hall d hd
      · exact hq.seen hseen
      · exact hq.seen ((h.seen d).mpr (Or.inr hd))
  · intro d hd
    rw [hadded, Finset.mem_insert, not_or]
    rcases (hq.mem d).mp hd with hd | ⟨-, hno⟩
    · refine ⟨?_, h.apart d (by rw [hlist]; exact List.mem_cons_of_mem c hd)⟩
      rintro rfl
      exact hnot hd
    · refine ⟨?_, fun hin => hno ((h.seen d).mpr (Or.inr hin))⟩
      rintro rfl
      exact hno hseen

theorem Walk.drop {s : limiting commit tree blob tag} (h : Walk g P N s) (hr : Reaches g P N)
    {c : commit} {list : List commit} (hlist : s.list = c :: list)
    (hflag : .commit c ∈ s.revs.UNINTERESTING) : Walk g P N (drop_step g s c list) := by
  obtain ⟨hqueued, -, hsound, honly, -⟩ := add_uninteresting_parents_spec (g := g)
    (parents_of g (take c s.revs) c) (take c s.revs, list)
  obtain ⟨hseen, hapart, hnodup⟩ := h.queued hlist hqueued
  have hmarked := mark_parents_marked (g := g) c (add_uninteresting_parents g
    (parents_of g (take c s.revs) c) (take c s.revs, list)).1
  have hN := h.sound _ hflag
  have hgrow : s.revs.UNINTERESTING ⊆ (drop_step g s c list).revs.UNINTERESTING :=
    hqueued.flags.trans hmarked.flags
  have hseengrow : ∀ o ∈ s.revs.SEEN, o ∈ (drop_step g s c list).revs.SEEN := by
    intro o ho
    unfold drop_step
    simp only
    rw [hmarked.seen]
    exact hqueued.seen ho
  have hadded : (drop_step g s c list).revs.ADDED = insert c s.revs.ADDED := by
    unfold drop_step
    simp only
    rw [hmarked.added]
    exact hqueued.added
  constructor
  · intro o ho
    rcases mark_parents_sound ho with ho | ⟨d, rfl, hd⟩
    · rcases hsound o ho with ho | ⟨p, hp, d, rfl, hd⟩
      · exact h.sound o ho
      · exact hr.ancestor hN (hd.head (mem_parents_of hp))
    · exact hr.ancestor hN hd
  · intro d
    unfold drop_step
    simp only
    rw [hmarked.seen, hmarked.added]
    exact hseen d
  · intro d hd
    unfold drop_step at hd ⊢
    simp only
    rw [hmarked.added]
    exact hapart d hd
  · exact hnodup
  · intro d hd
    unfold drop_step at hd ⊢
    simp only at hd ⊢
    rw [hmarked.seen] at hd
    apply hmarked.parsed
    rcases honly _ hd with hd | ⟨p, hp, heq, hparsed⟩
    · exact hqueued.parsed (h.parsed d hd)
    · rw [object.commit.inj heq]
      exact hparsed
  · intro d hd
    unfold drop_step at hd
    simp only at hd
    rw [hmarked.seen] at hd
    rcases honly _ hd with hd | ⟨p, hp, heq, -⟩
    · exact (h.reached d hd).imp_right fun hu => hgrow hu
    · have hall := (add_uninteresting_parents_spec (g := g) (parents_of g (take c s.revs) c)
        (take c s.revs, list)).2.1 p hp
      rw [← heq] at hall
      exact Or.inr (hmarked.flags hall)
  · intro d hd
    rw [hadded, Finset.mem_insert] at hd
    rcases hd with rfl | hd
    · exact Or.inr (hgrow hflag)
    · exact (h.taken d hd).imp_right fun hu => hgrow hu
  · intro d hd
    obtain ⟨hin, hP, hparents⟩ := h.listed d hd
    refine ⟨?_, hP, fun p hp => hseengrow _ (hparents p hp)⟩
    rw [hadded]
    exact Finset.mem_insert_of_mem hin
  · exact h.newlist_nodup

/-- The parents of an interesting commit can be read. -/
theorem Walk.keep_parents {s : limiting commit tree blob tag} (h : Walk g P N s)
    (hr : Reaches g P N) {c : commit} {list : List commit} (hlist : s.list = c :: list)
    (hflag : .commit c ∉ s.revs.UNINTERESTING) :
    parents_of g (take c s.revs) c = g.parents c ∧ P (.commit c) ∧
      ∀ p ∈ g.parents c, g.has_sha1_file (.commit p) = true := by
  obtain ⟨-, hseen, -⟩ := h.taken_seen hlist
  have hP : P (.commit c) := (h.reached c hseen).resolve_right hflag
  refine ⟨?_, hP, fun p hp => hr.present (hr.positive hP hp)⟩
  unfold parents_of
  exact if_pos ⟨h.parsed c hseen, hr.present hP⟩

theorem Walk.keep {s : limiting commit tree blob tag} (h : Walk g P N s) (hr : Reaches g P N)
    {c : commit} {list : List commit} (hlist : s.list = c :: list)
    (hflag : .commit c ∉ s.revs.UNINTERESTING) {t : rev_info commit tree blob tag × List commit}
    (hqueued : Queued (take c s.revs, list) t)
    (hflags : t.1.UNINTERESTING = s.revs.UNINTERESTING)
    (hall : ∀ p ∈ g.parents c, .commit p ∈ t.1.SEEN ∧ p ∈ t.1.parsed)
    (honly : ∀ o ∈ t.1.SEEN, o ∈ s.revs.SEEN ∨ ∃ p ∈ g.parents c, o = .commit p) :
    Walk g P N (keep_step g s c t) := by
  obtain ⟨hnew, hseenc, -⟩ := h.taken_seen hlist
  obtain ⟨-, hP, -⟩ := h.keep_parents hr hlist hflag
  obtain ⟨hseen, hapart, hnodup⟩ := h.queued hlist hqueued
  have hadded : t.1.ADDED = insert c s.revs.ADDED := hqueued.added
  constructor
  · intro o ho
    have ho : o ∈ t.1.UNINTERESTING := ho
    rw [hflags] at ho
    exact h.sound o ho
  · exact hseen
  · exact hapart
  · exact hnodup
  · intro d hd
    rcases honly _ hd with hd | ⟨p, hp, heq⟩
    · exact hqueued.parsed (h.parsed d hd)
    · rw [object.commit.inj heq]
      exact (hall p hp).2
  · intro d hd
    have hgoal : P (.commit d) ∨ .commit d ∈ t.1.UNINTERESTING := by
      rw [hflags]
      rcases honly _ hd with hd | ⟨p, hp, heq⟩
      · exact h.reached d hd
      · rw [heq]
        exact Or.inl (hr.positive hP hp)
    exact hgoal
  · intro d hd
    have hd : d ∈ t.1.ADDED := hd
    have hgoal : d ∈ s.newlist ++ [c] ∨ .commit d ∈ t.1.UNINTERESTING := by
      rw [hflags]
      rw [hadded, Finset.mem_insert] at hd
      rcases hd with rfl | hd
      · exact Or.inl (List.mem_append_right _ (List.mem_singleton_self _))
      · exact (h.taken d hd).imp_left fun hd => List.mem_append_left _ hd
    exact hgoal
  · intro d hd
    have hgoal : d ∈ t.1.ADDED ∧ P (.commit d) ∧ ∀ p ∈ g.parents d, .commit p ∈ t.1.SEEN := by
      rw [hadded]
      rcases List.mem_append.mp hd with hd | hd
      · obtain ⟨hin, hPd, hparents⟩ := h.listed d hd
        exact ⟨Finset.mem_insert_of_mem hin, hPd, fun p hp => hqueued.seen (hparents p hp)⟩
      · rw [List.mem_singleton.mp hd]
        exact ⟨Finset.mem_insert_self _ _, hP, fun p hp => (hall p hp).1⟩
    exact hgoal
  · have hgoal : (s.newlist ++ [c]).Nodup := by
      rw [List.nodup_append]
      refine ⟨h.newlist_nodup, List.nodup_singleton c, ?_⟩
      intro a ha b hb
      rw [List.mem_singleton.mp hb]
      rintro rfl
      exact hnew (h.listed a ha).1
    exact hgoal

/-! ## A turn keeps the invariant -/

/-- All that is left is uninteresting. -/
def AllUninteresting (s : limiting commit tree blob tag) : Prop :=
  ∀ c ∈ s.list, .commit c ∈ s.revs.UNINTERESTING

theorem still_interesting_zero {revs : rev_info commit tree blob tag} {src : List commit}
    {date slop : Nat} (h : still_interesting g revs src date slop = 0) :
    (∀ c ∈ src, .commit c ∈ revs.UNINTERESTING) ∧
      (src = [] ∨ slop ≤ 1 ∧ ∀ c ∈ src.head?, date_of g c ≤ date) := by
  unfold still_interesting at h
  cases src with
  | nil => exact ⟨fun c hc => absurd hc List.not_mem_nil, Or.inl rfl⟩
  | cons d src =>
    simp only at h
    split_ifs at h with hdate hevery
    refine ⟨?_, Or.inr ⟨by omega, ?_⟩⟩
    · intro c hc
      have hall : everybody_uninteresting revs (d :: src) = true := by
        simpa using hevery
      exact of_decide_eq_true (List.all_eq_true.mp hall c hc)
    · intro c hc
      rw [List.head?_cons, Option.mem_some_iff] at hc
      rw [← hc]
      exact not_lt.mp hdate

theorem drop_step_added (s : limiting commit tree blob tag) (c : commit) (list : List commit) :
    (drop_step g s c list).revs.ADDED = insert c s.revs.ADDED := by
  have hmarked := mark_parents_marked (g := g) c (add_uninteresting_parents g
    (parents_of g (take c s.revs) c) (take c s.revs, list)).1
  unfold drop_step
  simp only
  rw [hmarked.added]
  exact (add_uninteresting_parents_spec _ _).1.added

/-- A turn that takes a commit from the list. -/
theorem Walk.turn {s : limiting commit tree blob tag} (h : Walk g P N s) (hr : Reaches g P N)
    {c : commit} {list : List commit} (hlist : s.list = c :: list) :
    (.commit c ∈ s.revs.UNINTERESTING ∧
      limit_step g s = some (drop_step g s c list, decide ((drop_step g s c list).slop ≠ 0)) ∧
      Walk g P N (drop_step g s c list)) ∨
    (.commit c ∉ s.revs.UNINTERESTING ∧ ∃ t,
      add_interesting_parents g (g.parents c) (take c s.revs, list) = some t ∧
      limit_step g s = some (keep_step g s c t, true) ∧ Walk g P N (keep_step g s c t)) := by
  obtain ⟨hnew, hseen, -⟩ := h.taken_seen hlist
  by_cases hflag : .commit c ∈ s.revs.UNINTERESTING
  · exact Or.inl ⟨hflag, limit_step_flagged hlist hnew hflag, h.drop hr hlist hflag⟩
  · right
    obtain ⟨hparents, -, hpresent⟩ := h.keep_parents hr hlist hflag
    obtain ⟨t, ht, hqueued, hflags, hall, honly, -⟩ :=
      add_interesting_parents_spec (g := g) (g.parents c) (take c s.revs, list) hpresent
    have hadd := ht
    rw [← hparents] at hadd
    exact ⟨hflag, t, ht, limit_step_unflagged hlist hnew hflag hadd hflags,
      h.keep hr hlist hflag hqueued hflags hall honly⟩

theorem keep_step_added {s : limiting commit tree blob tag} {c : commit} {list : List commit}
    {t : rev_info commit tree blob tag × List commit}
    (ht : add_interesting_parents g (g.parents c) (take c s.revs, list) = some t)
    (hpresent : ∀ p ∈ g.parents c, g.has_sha1_file (.commit p) = true) :
    (keep_step g s c t).revs.ADDED = insert c s.revs.ADDED := by
  obtain ⟨t', ht', hqueued, -⟩ :=
    add_interesting_parents_spec (g := g) (g.parents c) (take c s.revs, list) hpresent
  rw [ht] at ht'
  rw [Option.some.inj ht']
  exact hqueued.added

theorem Walk.step {s : limiting commit tree blob tag} (h : Walk g P N s) (hr : Reaches g P N) :
    ∃ t b, limit_step g s = some (t, b) ∧ (b = true → Walk g P N t ∧ t.room < s.room) ∧
      (b = false → Walk g P N t ∧ AllUninteresting t) := by
  cases hlist : s.list with
  | nil =>
    refine ⟨s, false, ?_, fun hb => absurd hb (by decide), fun _ => ⟨h, ?_⟩⟩
    · unfold limit_step
      rw [hlist]
    · intro c hc
      rw [hlist] at hc
      cases hc
  | cons c list =>
    have hnew := (h.taken_seen hlist).1
    rcases h.turn hr hlist with ⟨-, hstep, hwalk⟩ | ⟨hflag, t, ht, hstep, hwalk⟩
    · refine ⟨_, _, hstep, fun _ => ⟨hwalk, room_insert (drop_step_added s c list) hnew⟩, ?_⟩
      intro hstop
      refine ⟨hwalk, fun d hd => ?_⟩
      have hzero : (drop_step g s c list).slop = 0 := by simpa using hstop
      exact (still_interesting_zero hzero).1 d hd
    · refine ⟨_, _, hstep, fun _ => ⟨hwalk, ?_⟩, fun hb => absurd hb (by decide)⟩
      exact room_insert (keep_step_added ht (h.keep_parents hr hlist hflag).2.2) hnew

/-- The loop comes to its end. -/
theorem Walk.run {s : limiting commit tree blob tag} (h : Walk g P N s) (hr : Reaches g P N)
    {fuel : Nat} (hfuel : Fintype.card commit < fuel) :
    ∃ t, limit_loop g fuel s = some t ∧ Walk g P N t ∧ AllUninteresting t := by
  apply limit_loop_run (fun s hs => Walk.step hs hr) fuel s h
  apply lt_of_le_of_lt _ hfuel
  exact Finset.card_le_univ _

/-- In the end what was seen is listed, and so are the parents of what is listed, but for what
a negative tip reaches. -/
theorem Walk.covers {s : limiting commit tree blob tag} (h : Walk g P N s)
    (hdone : AllUninteresting s) :
    (∀ c, .commit c ∈ s.revs.SEEN → ¬ N (.commit c) → c ∈ s.newlist) ∧
      ∀ c ∈ s.newlist, ∀ p, Parent g c p → ¬ N (.commit p) → p ∈ s.newlist := by
  have hseen : ∀ c, .commit c ∈ s.revs.SEEN → ¬ N (.commit c) → c ∈ s.newlist := by
    intro c hc hno
    have hnot : .commit c ∉ s.revs.UNINTERESTING := fun hu => hno (h.sound _ hu)
    rcases (h.seen c).mp hc with hc | hc
    · exact absurd (hdone c hc) hnot
    · exact (h.taken c hc).resolve_right hnot
  refine ⟨hseen, ?_⟩
  intro c hc p hp hno
  exact hseen p ((h.listed c hc).2.2 p hp) hno

/-- So all is listed that a commit leads to that was seen. -/
theorem Walk.complete {s : limiting commit tree blob tag} (h : Walk g P N s)
    (hdone : AllUninteresting s) {a c : commit} (ha : .commit a ∈ s.revs.SEEN)
    (hac : Ancestor g a c) (hr : Reaches g P N) (hc : ¬ N (.commit c)) : c ∈ s.newlist := by
  obtain ⟨hseen, hclosed⟩ := h.covers hdone
  induction hac with
  | refl => exact hseen a ha hc
  | tail hab hparent ih =>
    have hb : ¬ N (.commit _) := fun hb => hc (hr.negative hb (.parent hparent))
    exact hclosed _ (ih hb) _ hparent hc

end git.revision
