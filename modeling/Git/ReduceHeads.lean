-- The heads that no other head reaches: each is compared with all others at once.
import Git.MergeBasesPairs

open Relation

namespace git.merge_bases

variable {commit : Type} [DecidableEq commit] [Fintype commit]

/-- One turn of the loop over `heads`. -/
def reduce_head (g : commit_graph commit) (heads : List commit)
    (s : List commit × flag_map commit) (p : commit) : List commit × flag_map commit :=
  -- Do we already have this in the result?
  if p ∈ s.1 then s
  else
    let other := heads.filter fun q => q ≠ p
    let (base, flags) := if other = [] then ([], s.2) else get_merge_bases_many g s.2 p other true
    (if base.head? ≠ some p then s.1 ++ [p] else s.1, flags)

def reduce_heads (g : commit_graph commit) (flags : flag_map commit) (heads : List commit) :
    List commit × flag_map commit :=
  heads.foldl (reduce_head g heads) ([], flags)

variable {g : commit_graph commit} {flags : flag_map commit}

/-- Another head reaches `p`. -/
def Redundant (g : commit_graph commit) (heads : List commit) (p : commit) : Prop :=
  ∃ q ∈ heads, q ≠ p ∧ Ancestor g q p

omit [DecidableEq commit] [Fintype commit] in
/-- A commit that one of the others reaches is the only best one. -/
theorem best_of_reached (hdag : ∀ c, ¬ ProperAncestor g c c) {p : commit} {other : List commit}
    (h : ∃ q ∈ other, Ancestor g q p) (b : commit) : Best g p other b ↔ b = p := by
  have hp : Common g p other p := ⟨ReflTransGen.refl, h⟩
  constructor
  · rintro ⟨⟨hb, -⟩, habove⟩
    rcases reflTransGen_iff_eq_or_transGen.mp hb with heq | htrans
    · exact heq
    · exact absurd htrans (habove p hp)
  · rintro rfl
    refine ⟨hp, ?_⟩
    rintro c ⟨hc, -⟩ hcb
    exact hdag b (TransGen.trans_right hc hcb)

/-- The first of the merge bases with the others tells whether they reach it. -/
theorem head_of_bases (hdag : ∀ c, ¬ ProperAncestor g c c)
    (hparse : ∀ c, g.parse_commit c = true) (hclear : ∀ c, flags c = ∅) (p : commit)
    (other : List commit) :
    (get_merge_bases_many g flags p other true).1.head? = some p ↔ ∃ q ∈ other, Ancestor g q p := by
  obtain ⟨hbest, hnodup, -⟩ := get_merge_bases_many_spec p other hdag hparse hclear
  constructor
  · intro hhead
    have hmem := (hbest p).mp (List.mem_of_mem_head? hhead)
    exact hmem.1.2
  · intro h
    -- all of the result is `p`
    have hall : ∀ b, b ∈ (get_merge_bases_many g flags p other true).1 ↔ b = p :=
      fun b => (hbest b).trans (best_of_reached hdag h b)
    cases hresult : (get_merge_bases_many g flags p other true).1 with
    | nil =>
      have hp := (hall p).mpr rfl
      rw [hresult] at hp
      exact absurd hp List.not_mem_nil
    | cons b rest =>
      rw [List.head?_cons]
      congr 1
      apply (hall b).mp
      rw [hresult]
      exact List.mem_cons_self

/-- A turn keeps `p`, if it is new and no other head reaches it. -/
theorem reduce_head_spec (hdag : ∀ c, ¬ ProperAncestor g c c)
    (hparse : ∀ c, g.parse_commit c = true) (heads : List commit)
    {s : List commit × flag_map commit} (hclear : ∀ c, s.2 c = ∅) (p : commit) :
    ((p ∈ s.1 ∨ Redundant g heads p) → (reduce_head g heads s p).1 = s.1) ∧
      (p ∉ s.1 → ¬ Redundant g heads p → (reduce_head g heads s p).1 = s.1 ++ [p]) ∧
      ∀ c, (reduce_head g heads s p).2 c = ∅ := by
  unfold reduce_head
  by_cases hin : p ∈ s.1
  · rw [if_pos hin]
    exact ⟨fun _ => rfl, fun hnot => absurd hin hnot, hclear⟩
  rw [if_neg hin]
  have hother : ∀ q, q ∈ heads.filter (fun q => q ≠ p) ↔ q ∈ heads ∧ q ≠ p := by
    intro q
    rw [List.mem_filter, decide_eq_true_eq]
  by_cases hnone : heads.filter (fun q => q ≠ p) = []
  · have halone : ¬ Redundant g heads p := by
      rintro ⟨q, hq, hne, -⟩
      have hmem := (hother q).mpr ⟨hq, hne⟩
      rw [hnone] at hmem
      exact List.not_mem_nil hmem
    simp only
    rw [if_pos hnone]
    exact ⟨fun hcase => absurd hcase (not_or.mpr ⟨hin, halone⟩), fun _ _ => rfl, hclear⟩
  · have hhead := head_of_bases hdag hparse hclear p (heads.filter fun q => q ≠ p)
    have hflags := (get_merge_bases_many_spec p (heads.filter fun q => q ≠ p) hdag hparse hclear).2.2
    have hreach : (∃ q ∈ heads.filter (fun q => q ≠ p), Ancestor g q p) ↔ Redundant g heads p := by
      unfold Redundant
      simp only [hother, and_assoc]
    rw [hreach] at hhead
    simp only
    rw [if_neg hnone]
    refine ⟨?_, ?_, hflags⟩
    · intro hcase
      have hredundant := hcase.resolve_left hin
      exact if_neg (not_not.mpr (hhead.mpr hredundant))
    · intro _ hnot
      exact if_pos fun heq => hnot (hhead.mp heq)

/-- What the loop has after the heads `done`. -/
structure Reduced (g : commit_graph commit) (heads done : List commit)
    (s : List commit × flag_map commit) : Prop where
  flags : ∀ c, s.2 c = ∅
  mem : ∀ c, c ∈ s.1 ↔ c ∈ done ∧ ¬ Redundant g heads c
  order : s.1.Pairwise fun a b => heads.idxOf a < heads.idxOf b

theorem reduce_head_reduced (hdag : ∀ c, ¬ ProperAncestor g c c)
    (hparse : ∀ c, g.parse_commit c = true) {heads done rest : List commit} {p : commit}
    (hheads : heads = done ++ p :: rest) {s : List commit × flag_map commit}
    (h : Reduced g heads done s) :
    Reduced g heads (done ++ [p]) (reduce_head g heads s p) := by
  obtain ⟨hkeep, hnew, hflags⟩ := reduce_head_spec hdag hparse heads h.flags p
  by_cases hcase : p ∈ s.1 ∨ Redundant g heads p
  · refine ⟨hflags, ?_, ?_⟩
    · intro c
      rw [hkeep hcase, h.mem, List.mem_append, List.mem_singleton]
      constructor
      · exact fun hc => ⟨Or.inl hc.1, hc.2⟩
      · rintro ⟨hc | rfl, hnot⟩
        · exact ⟨hc, hnot⟩
        · exact (h.mem c).mp (hcase.resolve_right hnot)
    · rw [hkeep hcase]
      exact h.order
  · obtain ⟨hin, hnot⟩ := not_or.mp hcase
    have hfresh : p ∉ done := fun hp => hin ((h.mem p).mpr ⟨hp, hnot⟩)
    refine ⟨hflags, ?_, ?_⟩
    · intro c
      rw [hnew hin hnot, List.mem_append, h.mem, List.mem_append, List.mem_singleton]
      constructor
      · rintro (hc | rfl)
        · exact ⟨Or.inl hc.1, hc.2⟩
        · exact ⟨Or.inr rfl, hnot⟩
      · rintro ⟨hc | rfl, hc'⟩
        · exact Or.inl ⟨hc, hc'⟩
        · exact Or.inr rfl
    · rw [hnew hin hnot, List.pairwise_append]
      refine ⟨h.order, List.pairwise_singleton _ _, ?_⟩
      intro a ha b hb
      have hdone := ((h.mem a).mp ha).1
      rw [List.mem_singleton.mp hb, hheads, List.idxOf_append_of_mem hdone,
        List.idxOf_append_of_notMem hfresh]
      exact (List.idxOf_lt_length_of_mem hdone).trans_le (Nat.le_add_right _ _)

theorem reduce_heads_reduced (hdag : ∀ c, ¬ ProperAncestor g c c)
    (hparse : ∀ c, g.parse_commit c = true) (heads : List commit) :
    ∀ (done rest : List commit) (s : List commit × flag_map commit), heads = done ++ rest →
      Reduced g heads done s → Reduced g heads heads (rest.foldl (reduce_head g heads) s) := by
  intro done rest
  induction rest generalizing done with
  | nil =>
    intro s hheads h
    rw [List.append_nil] at hheads
    rw [List.foldl_nil]
    exact hheads ▸ h
  | cons p rest ih =>
    intro s hheads h
    rw [List.foldl_cons]
    apply ih (done ++ [p])
    · rw [hheads, List.append_assoc]
      rfl
    · exact reduce_head_reduced hdag hparse hheads h

/-- **`reduce_heads` keeps the heads that no other head reaches**, each of them once, in
the order in which they came first. -/
theorem reduce_heads_keeps_the_independent_heads (hdag : ∀ c, ¬ ProperAncestor g c c)
    (hparse : ∀ c, g.parse_commit c = true) (hclear : ∀ c, flags c = ∅) (heads : List commit) :
    (∀ c, c ∈ (reduce_heads g flags heads).1 ↔
      c ∈ heads ∧ ¬ ∃ q ∈ heads, q ≠ c ∧ Ancestor g q c) ∧
      ((reduce_heads g flags heads).1.Pairwise fun a b => heads.idxOf a < heads.idxOf b) ∧
      ∀ c, (reduce_heads g flags heads).2 c = ∅ := by
  have hstart : Reduced g heads [] ([], flags) :=
    ⟨hclear, fun c => by simp, List.Pairwise.nil⟩
  have h := reduce_heads_reduced hdag hparse heads [] heads ([], flags) rfl hstart
  exact ⟨h.mem, h.order, h.flags⟩

-- for the literals
local instance four : NeZero 4 := ⟨by decide⟩

/-- A line of three, whose dates go the wrong way, and a commit of its own. -/
def line_and_loner : commit_graph (Fin 4) where
  parents
    | 0 => [1]
    | 1 => [2]
    | _ => []
  date c := c.val
  parse_commit _ := true

theorem above_line {c a : Fin 4} (h : ProperAncestor line_and_loner c a) : c < a := by
  have hparents : ∀ c, ∀ p ∈ line_and_loner.parents c, c < p := by decide
  induction h with
  | single hp => exact hparents _ _ hp
  | tail _ hp ih => exact ih.trans (hparents _ _ hp)

def some_heads : List (Fin 4) := [2, 3, 0, 3, 2]

theorem reached_heads_go :
    3 ∈ (reduce_heads line_and_loner (fun _ => ∅) some_heads).1 ∧
      2 ∉ (reduce_heads line_and_loner (fun _ => ∅) some_heads).1 := by
  have hdag : ∀ c, ¬ ProperAncestor line_and_loner c c := fun c h => (above_line h).false
  have hclear : ∀ c, (fun _ => ∅ : flag_map (Fin 4)) c = ∅ := fun _ => rfl
  obtain ⟨hmem, -, -⟩ := reduce_heads_keeps_the_independent_heads hdag (fun _ => rfl) hclear
    some_heads
  rw [hmem 3, hmem 2]
  refine ⟨⟨by decide, ?_⟩, ?_⟩
  · rintro ⟨q, -, hne, hanc⟩
    rcases reflTransGen_iff_eq_or_transGen.mp hanc with heq | htrans
    · exact hne heq.symm
    · -- nothing has it for a parent
      obtain ⟨d, -, hd⟩ := TransGen.tail'_iff.mp htrans
      have hparents : ∀ d, 3 ∉ line_and_loner.parents d := by decide
      exact hparents d hd
  · rintro ⟨-, hnot⟩
    apply hnot
    have hfirst : Parent line_and_loner 0 1 := List.mem_singleton_self 1
    have hsecond : Parent line_and_loner 1 2 := List.mem_singleton_self 2
    exact ⟨0, by decide, by decide, (ReflTransGen.single hfirst).tail hsecond⟩

end git.merge_bases
