-- The limited walk leaves what it should, unless it stops at a commit with the
-- date of the one listed last and eight commits on the negative side share it.
import Git.RevisionDated

open Relation

namespace git.revision

set_option linter.unusedSectionVars false

variable {commit tree blob tag : Type} [DecidableEq commit] [DecidableEq tree] [DecidableEq blob]
  [DecidableEq tag] [Fintype commit] {g : object_graph commit tree blob tag}

/-! ## The end of the loop -/

/-- Turns after which the loop goes on. -/
def Turns (g : object_graph commit tree blob tag) (s t : limiting commit tree blob tag) : Prop :=
  ReflTransGen (fun s t => limit_step g s = some (t, true)) s t

theorem Turns.grow {s t : limiting commit tree blob tag} (h : Turns g s t) :
    s.revs.SEEN ⊆ t.revs.SEEN ∧ s.revs.UNINTERESTING ⊆ t.revs.UNINTERESTING := by
  induction h with
  | refl => exact ⟨subset_rfl, subset_rfl⟩
  | tail _ hstep ih =>
    have hcarried := limit_step_carried hstep
    exact ⟨ih.1.trans hcarried.seen, ih.2.trans hcarried.flags⟩

/-- The loop stops although the next commit has the date of the one listed last. -/
def StopsAtATie (g : object_graph commit tree blob tag) (s : limiting commit tree blob tag) :
    Prop :=
  ∃ s' t, Turns g s s' ∧ limit_step g s' = some (t, false) ∧
    ∃ c ∈ t.list.head?, date_of g c = t.date

variable {P N : object commit tree blob tag → Prop}

/-- The loop that began with `s₀` is at `s`. -/
structure Limiting (g : object_graph commit tree blob tag)
    (P N : object commit tree blob tag → Prop) (s₀ s : limiting commit tree blob tag) : Prop where
  walk : Walk g P N s
  settled : Settled g s.revs Nothing Nothing
  dated : Dated g s
  turns : Turns g s₀ s

/-- It came to its end at `t`. -/
structure Stopped (g : object_graph commit tree blob tag)
    (P N : object commit tree blob tag → Prop) (s₀ t : limiting commit tree blob tag) : Prop where
  walk : Walk g P N t
  settled : Settled g t.revs Nothing Nothing
  done : AllUninteresting t
  rest : t.list ≠ [] → Dated g t ∧ t.slop = 0
  last : ∃ s, Turns g s₀ s ∧ limit_step g s = some (t, false)

theorem Limiting.step (hdates : Dates g) (hr : Reaches g P N)
    {s₀ s : limiting commit tree blob tag} (h : Limiting g P N s₀ s) :
    ∃ t b, limit_step g s = some (t, b) ∧
      (b = true → Limiting g P N s₀ t ∧ t.room < s.room) ∧ (b = false → Stopped g P N s₀ t) := by
  cases hlist : s.list with
  | nil =>
    have hstep : limit_step g s = some (s, false) := by
      unfold limit_step
      rw [hlist]
    refine ⟨s, false, hstep, fun hb => absurd hb Bool.false_ne_true, fun _ =>
      ⟨h.walk, h.settled, ?_, fun hne => absurd hlist hne, s, h.turns, hstep⟩⟩
    intro c hc
    rw [hlist] at hc
    cases hc
  | cons c list =>
    obtain ⟨hnew, hseen, -⟩ := h.walk.taken_seen hlist
    rcases h.walk.turn hr hlist with ⟨hflag, hstep, hwalk⟩ | ⟨hflag, t, ht, hstep, hwalk⟩
    · have hsettled := h.settled.drop hdates.has c list hseen
      have hdated := h.dated.drop hdates h.walk hlist hflag
      refine ⟨_, _, hstep, ?_, ?_⟩
      · intro hon
        have hslop : (drop_step g s c list).slop ≠ 0 := of_decide_eq_true hon
        rw [hon] at hstep
        refine ⟨⟨hwalk, hsettled, ?_, h.turns.tail hstep⟩,
          room_insert (drop_step_added s c list) hnew⟩
        apply hdated.resolve_left
        intro hnil
        apply hslop
        unfold drop_step at hnil ⊢
        simp only at hnil ⊢
        rw [hnil]
        rfl
      · intro hstop
        have hzero : (drop_step g s c list).slop = 0 := not_not.mp (of_decide_eq_false hstop)
        rw [hstop] at hstep
        exact ⟨hwalk, hsettled, fun d hd => (still_interesting_zero hzero).1 d hd,
          fun hne => ⟨hdated.resolve_left hne, hzero⟩, s, h.turns, hstep⟩
    · refine ⟨_, _, hstep, fun _ => ⟨⟨hwalk, h.settled.keep hseen hflag ht,
        h.dated.keep hdates h.walk hlist hflag ht, h.turns.tail hstep⟩, ?_⟩,
        fun hb => absurd hb.symm Bool.false_ne_true⟩
      exact room_insert (keep_step_added ht (h.walk.keep_parents hr hlist hflag).2.2) hnew

theorem Limiting.run (hdates : Dates g) (hr : Reaches g P N)
    {s₀ s : limiting commit tree blob tag} (h : Limiting g P N s₀ s) {fuel : Nat}
    (hfuel : Fintype.card commit < fuel) :
    ∃ t, limit_loop g fuel s = some t ∧ Stopped g P N s₀ t := by
  apply limit_loop_run (fun s hs => Limiting.step hdates hr hs) fuel s h
  apply lt_of_le_of_lt _ hfuel
  exact Finset.card_le_univ _

theorem Stopped.grow {s₀ t : limiting commit tree blob tag} (h : Stopped g P N s₀ t) :
    s₀.revs.SEEN ⊆ t.revs.SEEN ∧ s₀.revs.UNINTERESTING ⊆ t.revs.UNINTERESTING := by
  obtain ⟨s, hturns, hstep⟩ := h.last
  have hcarried := limit_step_carried hstep
  exact ⟨hturns.grow.1.trans hcarried.seen, hturns.grow.2.trans hcarried.flags⟩

/-! ## What the end may have missed -/

/-- A path out of the flagged commits leaves them somewhere. -/
theorem leaves_flags {flags : Finset (object commit tree blob tag)} {y x : commit}
    (h : Ancestor g y x) (hy : .commit y ∈ flags) (hx : .commit x ∉ flags) :
    ∃ w w', Ancestor g y w ∧ .commit w ∈ flags ∧ Parent g w w' ∧ .commit w' ∉ flags ∧
      Ancestor g w' x := by
  induction h using ReflTransGen.head_induction_on with
  | refl => exact absurd hy hx
  | @head a b hparent hrest ih =>
    by_cases hb : .commit b ∈ flags
    · obtain ⟨w, w', hw, hleave⟩ := ih hb
      exact ⟨w, w', hw.head hparent, hleave⟩
    · exact ⟨a, b, ReflTransGen.refl, hy, hparent, hb, hrest⟩

/-- Down from a flagged commit that was seen, one is still in the list. -/
theorem Stopped.frontier {s₀ t : limiting commit tree blob tag} (h : Stopped g P N s₀ t)
    {n x : commit} (hnx : Ancestor g n x) (hseen : .commit n ∈ t.revs.SEEN)
    (hn : .commit n ∈ t.revs.UNINTERESTING) (hx : .commit x ∉ t.revs.UNINTERESTING) :
    ∃ y ∈ t.list, Ancestor g y x := by
  induction hnx using ReflTransGen.head_induction_on with
  | refl => exact absurd hn hx
  | @head a b hparent hrest ih =>
    rcases (h.walk.seen a).mp hseen with hin | hin
    · exact ⟨a, hin, hrest.head hparent⟩
    · apply ih
      · exact (h.settled.parents_seen a hin b hparent).resolve_right id
      · exact (h.settled.parents_flagged a hin hn b hparent).resolve_right id

/-- A third commit that is neither dropped nor listed. -/
theorem Stopped.another (hdates : Dates g) {s₀ t : limiting commit tree blob tag}
    (h : Stopped g P N s₀ t) {y x : commit} (hy : y ∈ t.list) (hyx : Ancestor g y x)
    (hx : .commit x ∉ t.revs.UNINTERESTING) :
    ∃ r, .commit r ∈ t.revs.UNINTERESTING ∧ r ∉ t.revs.ADDED ∧ r ≠ y ∧ Ancestor g r x := by
  obtain ⟨w, w', hyw, hw, hparent, hw', hrest⟩ := leaves_flags hyx (h.done y hy) hx
  have hwa : w ∉ t.revs.ADDED := by
    intro hin
    exact hw' ((h.settled.parents_flagged w hin hw w' hparent).resolve_right id)
  by_cases hwy : w = y
  · subst hwy
    rcases h.settled.source w hw hwa with hdeep | ⟨r, hr, hra, hrw⟩ | hnone
    · exact absurd (hdeep.2 w' hparent) hw'
    · refine ⟨r, hr, hra, ?_, hyx.head hrw⟩
      rintro rfl
      exact hdates.acyclic r (TransGen.single hrw)
    · exact hnone.elim
  · exact ⟨w, hw, hwa, hwy, hrest.head hparent⟩

/-- A listed commit that should not be: the loop stopped at a tie, and eight commits on the
negative side have that date. -/
theorem Stopped.missed (hdates : Dates g) (hr : Reaches g P N)
    {s₀ t : limiting commit tree blob tag} (h : Stopped g P N s₀ t) {n x : commit}
    (hnx : Ancestor g n x) (hseen : .commit n ∈ t.revs.SEEN)
    (hn : .commit n ∈ t.revs.UNINTERESTING) (hlisted : x ∈ t.newlist)
    (hx : .commit x ∉ t.revs.UNINTERESTING) :
    StopsAtATie g s₀ ∧ 8 ≤ {d | N (.commit d) ∧ g.date d = g.date x}.ncard := by
  obtain ⟨y, hy, hyx⟩ := h.frontier hnx hseen hn hx
  obtain ⟨r, hru, hra, hry, hrx⟩ := h.another hdates hy hyx hx
  obtain ⟨hdated, hslop⟩ := h.rest (List.ne_nil_of_mem hy)
  obtain ⟨K, hcard, hK⟩ := hdated.countdown
  rw [hslop, Nat.zero_add] at hcard
  -- all of these dates are the one of the commit listed last
  have hlast : date_of g x = t.date :=
    le_antisymm ((hdates.ancestor hyx).trans (hdated.ahead y hy)) (hdated.after x hlisted)
  have hydate : date_of g y = date_of g x := by
    apply le_antisymm _ (hdates.ancestor hyx)
    rw [hlast]
    exact hdated.ahead y hy
  have hrdate : date_of g r = date_of g x := by
    apply le_antisymm _ (hdates.ancestor hrx)
    obtain ⟨b, hb, hbr⟩ := h.settled.below hdates.acyclic
      (fun c hc hca => ((h.walk.seen c).mp hc).resolve_right hca) hru hra
    rw [hlast]
    exact (hdates.ancestor hbr).trans (hdated.ahead b hb)
  have hKdate : ∀ k ∈ K, date_of g k = date_of g x := by
    intro k hk
    apply le_antisymm
    · rw [hlast]
      exact (hK k hk).2.2
    · rw [← hydate]
      exact hdated.older k (hK k hk).1 y hy
  refine ⟨?_, ?_⟩
  · obtain ⟨s, hturns, hstop⟩ := h.last
    cases hlist : t.list with
    | nil => exact absurd (hlist ▸ hy) List.not_mem_nil
    | cons b list =>
      refine ⟨s, t, hturns, hstop, b, by rw [hlist]; rfl, ?_⟩
      apply le_antisymm (hdated.ahead b (by rw [hlist]; exact List.mem_cons_self))
      rw [← hlast, ← hydate]
      have hsorted := hdated.sorted
      rw [hlist] at hsorted hy
      rcases List.mem_cons.mp hy with rfl | hy
      · exact le_refl _
      · exact (List.pairwise_cons.mp hsorted).1 y hy
  · have hya : y ∉ t.revs.ADDED := h.walk.apart y hy
    have hxK : x ∉ K := fun hin => hx (hK x hin).2.1
    have hyK : y ∉ insert x K := by
      rw [Finset.mem_insert, not_or]
      exact ⟨fun heq => hx (heq ▸ h.done y hy), fun hin => hya (hK y hin).1⟩
    have hrK : r ∉ insert y (insert x K) := by
      rw [Finset.mem_insert, Finset.mem_insert, not_or, not_or]
      exact ⟨hry, fun heq => hx (heq ▸ hru), fun hin => hra (hK r hin).1⟩
    have hNn : N (.commit n) := h.walk.sound _ hn
    have hsub : (↑(insert r (insert y (insert x K))) : Set commit) ⊆
        {d | N (.commit d) ∧ g.date d = g.date x} := by
      intro d hd
      rw [Finset.mem_coe, Finset.mem_insert, Finset.mem_insert, Finset.mem_insert] at hd
      rw [Set.mem_ofPred_eq, ← hdates.date_of, ← hdates.date_of]
      rcases hd with rfl | rfl | rfl | hd
      · exact ⟨h.walk.sound _ hru, hrdate⟩
      · exact ⟨h.walk.sound _ (h.done d hy), hydate⟩
      · exact ⟨hr.ancestor hNn hnx, rfl⟩
      · exact ⟨h.walk.sound _ (hK d hd).2.1, hKdate d hd⟩
    calc 8 = SLOP + 3 := rfl
      _ ≤ K.card + 3 := Nat.add_le_add_right hcard 3
      _ = (insert r (insert y (insert x K))).card := by
        rw [Finset.card_insert_of_notMem hrK, Finset.card_insert_of_notMem hyK,
          Finset.card_insert_of_notMem hxK]
      _ = (↑(insert r (insert y (insert x K))) : Set commit).ncard :=
        (Set.ncard_coe_finset _).symm
      _ ≤ _ := Set.ncard_le_ncard hsub (Set.toFinite _)

end git.revision
