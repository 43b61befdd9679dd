-- The weight of a commit is the number of commits that it reaches: what is counted out
-- for merges, and what is handed on along single parents.
import Git.Bisect

open Relation

namespace git.bisect

variable {commit : Type} {g : commit_graph commit}

/-! ## What a commit reaches -/

/-- `p` is an interesting parent of `c`. -/
def Step (g : commit_graph commit) (c p : commit) : Prop :=
  p ∈ g.parents c ∧ g.UNINTERESTING p = false

/-- `c` reaches `a` over interesting commits. -/
def Reaches (g : commit_graph commit) (c a : commit) : Prop := ReflTransGen (Step g) c a

/-- No commit is its own ancestor. -/
def Dag (g : commit_graph commit) : Prop := ∀ c, ¬ TransGen (fun c p => p ∈ g.parents c) c c

/-- The number of commits that `c` reaches and that are to be counted. -/
noncomputable def reached (g : commit_graph commit) (c : commit) : Nat :=
  {a | Reaches g c a ∧ g.TREESAME a = false}.ncard

theorem Dag.no_return (h : Dag g) {c q : commit} (hstep : Step g c q) : ¬ Reaches g q c := by
  intro hback
  have hpath : TransGen (Step g) c c := TransGen.head' hstep hback
  exact h c (hpath.lift id fun _ _ hab => hab.1)

/-- A commit without interesting parents reaches itself. -/
theorem reached_leaf {c : commit} (h : ∀ p, ¬ Step g c p) :
    reached g c = if g.TREESAME c then 0 else 1 := by
  have honly : ∀ a, Reaches g c a ↔ a = c := by
    intro a
    constructor
    · intro hreach
      rcases hreach.cases_head with heq | ⟨p, hp, -⟩
      · exact heq.symm
      · exact absurd hp (h p)
    · rintro rfl
      exact ReflTransGen.refl
  unfold reached
  simp only [honly]
  cases hsame : g.TREESAME c with
  | true =>
    have hempty : {a | a = c ∧ g.TREESAME a = false} = ∅ := by
      apply Set.eq_empty_iff_forall_notMem.mpr
      rintro a ⟨rfl, ha⟩
      rw [hsame] at ha
      cases ha
    rw [hempty, Set.ncard_empty]
    rfl
  | false =>
    have hsingle : {a | a = c ∧ g.TREESAME a = false} = {c} := by
      ext a
      rw [Set.mem_ofPred_eq, Set.mem_singleton_iff]
      refine ⟨fun ha => ha.1, ?_⟩
      rintro rfl
      exact ⟨rfl, hsame⟩
    rw [hsingle, Set.ncard_singleton]
    rfl

/-- A commit with one interesting parent reaches one more than that, if it counts itself. -/
theorem reached_single [Finite commit] (hdag : Dag g) {c q : commit}
    (h : ∀ p, Step g c p ↔ p = q) :
    reached g c = if g.TREESAME c then reached g q else reached g q + 1 := by
  have hstep : Step g c q := (h q).mpr rfl
  have hsplit : ∀ a, Reaches g c a ↔ a = c ∨ Reaches g q a := by
    intro a
    constructor
    · intro hreach
      rcases hreach.cases_head with heq | ⟨p, hp, hrest⟩
      · exact Or.inl heq.symm
      · rw [(h p).mp hp] at hrest
        exact Or.inr hrest
    · rintro (rfl | hreach)
      · exact ReflTransGen.refl
      · exact ReflTransGen.head hstep hreach
  unfold reached
  cases hsame : g.TREESAME c with
  | true =>
    have hset : {a | Reaches g c a ∧ g.TREESAME a = false} =
        {a | Reaches g q a ∧ g.TREESAME a = false} := by
      ext a
      rw [Set.mem_ofPred_eq, Set.mem_ofPred_eq, hsplit]
      constructor
      · rintro ⟨rfl | ha, hcount⟩
        · rw [hsame] at hcount
          cases hcount
        · exact ⟨ha, hcount⟩
      · exact fun ha => ⟨Or.inr ha.1, ha.2⟩
    rw [hset]
    rfl
  | false =>
    have hset : {a | Reaches g c a ∧ g.TREESAME a = false} =
        insert c {a | Reaches g q a ∧ g.TREESAME a = false} := by
      ext a
      rw [Set.mem_insert_iff, Set.mem_ofPred_eq, Set.mem_ofPred_eq, hsplit]
      constructor
      · rintro ⟨ha | ha, hcount⟩
        · exact Or.inl ha
        · exact Or.inr ⟨ha, hcount⟩
      · rintro (rfl | ha)
        · exact ⟨Or.inl rfl, hsame⟩
        · exact ⟨Or.inr ha.1, ha.2⟩
    have hnew : c ∉ {a | Reaches g q a ∧ g.TREESAME a = false} :=
      fun ha => hdag.no_return hstep ha.1
    rw [hset, Set.ncard_insert_of_notMem hnew]
    rfl

/-! ## Counting out -/

variable [DecidableEq commit]

/-- What holds between two turns of the count that began at `start`. -/
structure Counting (g : commit_graph commit) (start : commit) (nr : Nat)
    (COUNTED : Finset commit) (entries : List commit) : Prop where
  marked : ∀ c ∈ COUNTED, Reaches g start c
  left : ∀ c ∈ entries, g.UNINTERESTING c = false → Reaches g start c
  closed : ∀ c ∈ COUNTED, ∀ p, Step g c p → p ∈ COUNTED ∨ p ∈ entries
  begun : g.UNINTERESTING start = false → start ∈ COUNTED ∨ start ∈ entries
  count : nr = (COUNTED.filter fun c => g.TREESAME c = false).card

omit [DecidableEq commit] in
/-- An entry that is not to be counted falls off. -/
theorem Counting.skip {start c : commit} {nr : Nat} {COUNTED : Finset commit}
    {entries : List commit} (h : Counting g start nr COUNTED (c :: entries))
    (hseen : g.UNINTERESTING c = true ∨ c ∈ COUNTED) : Counting g start nr COUNTED entries := by
  have hother : ∀ p, g.UNINTERESTING p = false → p ∈ COUNTED ∨ p ∈ c :: entries →
      p ∈ COUNTED ∨ p ∈ entries := by
    rintro p hp (hin | hin)
    · exact Or.inl hin
    · rcases List.mem_cons.mp hin with rfl | hin
      · refine Or.inl (hseen.resolve_left ?_)
        rw [hp]
        exact Bool.false_ne_true
      · exact Or.inr hin
  refine ⟨h.marked, fun d hd => h.left d (List.mem_cons_of_mem c hd), ?_, ?_, h.count⟩
  · intro d hd p hp
    exact hother p hp.2 (h.closed d hd p hp)
  · intro hstart
    exact hother start hstart (h.begun hstart)

/-- An entry is marked, and its parents are to be counted too. -/
theorem Counting.mark {start c : commit} {nr : Nat} {COUNTED : Finset commit}
    {entries entries' : List commit} (h : Counting g start nr COUNTED (c :: entries))
    (hseen : ¬ (g.UNINTERESTING c = true ∨ c ∈ COUNTED))
    (hmem : ∀ p, p ∈ entries' ↔ p ∈ g.parents c ∨ p ∈ entries) :
    Counting g start (if g.TREESAME c then nr else nr + 1) (insert c COUNTED) entries' := by
  obtain ⟨hinteresting, hnew⟩ := not_or.mp hseen
  have hreach := h.left c List.mem_cons_self (Bool.eq_false_iff.mpr hinteresting)
  have hother : ∀ p, p ∈ COUNTED ∨ p ∈ c :: entries → p ∈ insert c COUNTED ∨ p ∈ entries' := by
    rintro p (hin | hin)
    · exact Or.inl (Finset.mem_insert_of_mem hin)
    · rcases List.mem_cons.mp hin with rfl | hin
      · exact Or.inl (Finset.mem_insert_self p COUNTED)
      · exact Or.inr ((hmem p).mpr (Or.inr hin))
  refine ⟨?_, ?_, ?_, fun hstart => hother start (h.begun hstart), ?_⟩
  · intro d hd
    rcases Finset.mem_insert.mp hd with rfl | hd
    · exact hreach
    · exact h.marked d hd
  · intro d hd hdi
    rcases (hmem d).mp hd with hd | hd
    · exact hreach.tail ⟨hd, hdi⟩
    · exact h.left d (List.mem_cons_of_mem c hd) hdi
  · intro d hd p hp
    rcases Finset.mem_insert.mp hd with rfl | hd
    · exact Or.inr ((hmem p).mpr (Or.inl hp.1))
    · exact hother p (h.closed d hd p hp)
  · rw [Finset.filter_insert]
    cases hsame : g.TREESAME c with
    | true =>
      rw [if_pos rfl, if_neg (by decide : ¬ true = false)]
      exact h.count
    | false =>
      rw [if_neg Bool.false_ne_true, if_pos rfl, Finset.card_insert_of_notMem, h.count]
      exact fun hin => hnew (Finset.mem_filter.mp hin).1

theorem count_distance_counting [Fintype commit] (start : commit) (nr : Nat)
    (COUNTED : Finset commit) (entries : List commit) (h : Counting g start nr COUNTED entries) :
    Counting g start (count_distance g nr COUNTED entries).1
      (count_distance g nr COUNTED entries).2 [] := by
  induction nr, COUNTED, entries using count_distance.induct g with
  | case1 nr COUNTED =>
    rw [count_distance]
    exact h
  | case2 nr COUNTED c entries hseen ih =>
    rw [count_distance, dif_pos hseen]
    exact ih (h.skip hseen)
  | case3 nr COUNTED c entries hseen _ hparents ih =>
    rw [count_distance, dif_neg hseen]
    simp only [hparents]
    apply ih
    apply h.mark hseen
    intro p
    rw [hparents]
    simp only [List.not_mem_nil, false_or]
  | case4 nr COUNTED c entries hseen _ p parents hparents ih =>
    rw [count_distance, dif_neg hseen]
    simp only [hparents]
    apply ih
    apply h.mark hseen
    intro q
    rw [hparents]
    simp only [List.mem_append, List.mem_cons]
    tauto

/-- From clear marks the count is what the commit reaches, and all that is marked. -/
theorem count_distance_reached [Fintype commit] {c : commit} (hc : g.UNINTERESTING c = false) :
    (count_distance g 0 ∅ [c]).1 = reached g c ∧
      ∀ a, a ∈ (count_distance g 0 ∅ [c]).2 ↔ Reaches g c a := by
  have hstart : Counting g c 0 ∅ [c] := by
    refine ⟨fun a ha => absurd ha (Finset.notMem_empty a), ?_,
      fun a ha => absurd ha (Finset.notMem_empty a), fun _ => Or.inr (List.mem_singleton_self c),
      by rw [Finset.filter_empty, Finset.card_empty]⟩
    intro a ha _
    rw [List.mem_singleton.mp ha]
    exact ReflTransGen.refl
  have h := count_distance_counting c 0 ∅ [c] hstart
  have hmarks : ∀ a, a ∈ (count_distance g 0 ∅ [c]).2 ↔ Reaches g c a := by
    intro a
    refine ⟨h.marked a, ?_⟩
    intro hreach
    induction hreach with
    | refl => exact (h.begun hc).resolve_right List.not_mem_nil
    | tail _ hp ih => exact (h.closed _ ih _ hp).resolve_right List.not_mem_nil
  refine ⟨?_, hmarks⟩
  have hset : {a | Reaches g c a ∧ g.TREESAME a = false} =
      ((count_distance g 0 ∅ [c]).2.filter fun a => g.TREESAME a = false : Finset commit) := by
    ext a
    rw [Set.mem_ofPred_eq, Finset.mem_coe, Finset.mem_filter, hmarks]
  unfold reached
  rw [hset, Set.ncard_coe_finset]
  exact h.count

omit g in
/-- The marks are on commits of the list, and so they are all cleared. -/
theorem clear_distance_empty {list : List commit} {COUNTED : Finset commit}
    (h : ∀ c ∈ COUNTED, c ∈ list) : clear_distance list COUNTED = ∅ := by
  unfold clear_distance
  induction list generalizing COUNTED with
  | nil => exact Finset.eq_empty_of_forall_notMem fun c hc => List.not_mem_nil (h c hc)
  | cons d list ih =>
    rw [List.foldl_cons]
    apply ih
    intro c hc
    obtain ⟨hne, hin⟩ := Finset.mem_erase.mp hc
    exact (List.mem_cons.mp (h c hin)).resolve_left hne

end git.bisect
