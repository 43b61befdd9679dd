-- Merge bases of many commits: the octopus, which goes on with what is common to
-- the commits so far, and the heads that no other head reaches.
import Git.MergeBasesPairs

open Relation

namespace git.merge_bases

variable {commit : Type} [DecidableEq commit] [Fintype commit]

/-! ## The octopus -/

def get_merge_bases (g : commit_graph commit) (flags : flag_map commit) (one two : commit)
    (cleanup : Bool) : List commit × flag_map commit :=
  get_merge_bases_many g flags one [two] cleanup

/-- What `pptr` points to: `ret` itself, or the `next` of a node that was in it. -/
inductive tail_pointer
  | ret
  | next

structure octopus (commit : Type) where
  ret : List commit
  pptr : tail_pointer
  flags : flag_map commit

/-- The bases of `item` and each of `ret`. -/
def octopus_bases (g : commit_graph commit) (flags : flag_map commit) (item : commit)
    (ret : List commit) : List commit × flag_map commit :=
  ret.foldl
    (fun s j =>
      let (bases, flags) := get_merge_bases g s.2 item j true
      (s.1 ++ bases, flags)) ([], flags)

def octopus_step (g : commit_graph commit) (s : octopus commit) (item : commit) : octopus commit :=
  if s.ret = [] then
    match s.pptr with
    | .ret => { s with ret := [item], pptr := .next }
    -- it goes behind a node that `ret` has lost
    | .next => s
  else
    let (new, flags) := octopus_bases g s.flags item s.ret
    { s with ret := new, flags := flags }

def get_octopus_merge_bases (g : commit_graph commit) (flags : flag_map commit)
    (heads : List commit) : List commit × flag_map commit :=
  let s := heads.foldl (octopus_step g) ⟨[], .ret, flags⟩
  (s.ret, s.flags)

variable {g : commit_graph commit} {flags : flag_map commit}

omit [DecidableEq commit] [Fintype commit] in
/-- With one other commit, common is common to both. -/
theorem common_two {one two a : commit} :
    Common g one [two] a ↔ Ancestor g one a ∧ Ancestor g two a := by
  unfold Common
  constructor
  · rintro ⟨hone, two', htwo, hanc⟩
    rw [List.mem_singleton.mp htwo] at hanc
    exact ⟨hone, hanc⟩
  · rintro ⟨hone, htwo⟩
    exact ⟨hone, two, List.mem_singleton_self two, htwo⟩

/-- The bases are the best ones of each pair. -/
theorem octopus_bases_spec (hdag : ∀ c, ¬ ProperAncestor g c c)
    (hparse : ∀ c, g.parse_commit c = true) (hclear : ∀ c, flags c = ∅) (item : commit)
    (ret : List commit) :
    (∀ b, b ∈ (octopus_bases g flags item ret).1 ↔ ∃ j ∈ ret, Best g item [j] b) ∧
      ∀ c, (octopus_bases g flags item ret).2 c = ∅ := by
  induction ret using List.reverseRecOn with
  | nil =>
    refine ⟨fun b => ⟨fun hb => absurd hb List.not_mem_nil, ?_⟩, hclear⟩
    rintro ⟨j, hj, -⟩
    exact absurd hj List.not_mem_nil
  | append_singleton ret j ih =>
    obtain ⟨hmem, hflags⟩ := ih
    obtain ⟨hbest, -, hnone⟩ := get_merge_bases_many_spec item [j] hdag hparse hflags
    have hlast : octopus_bases g flags item (ret ++ [j]) =
        ((octopus_bases g flags item ret).1 ++
            (get_merge_bases_many g (octopus_bases g flags item ret).2 item [j] true).1,
          (get_merge_bases_many g (octopus_bases g flags item ret).2 item [j] true).2) := by
      unfold octopus_bases
      rw [List.foldl_append]
      rfl
    rw [hlast]
    refine ⟨?_, hnone⟩
    intro b
    rw [List.mem_append, hmem, hbest]
    constructor
    · rintro (⟨j', hj', hb⟩ | hb)
      · exact ⟨j', List.mem_append_left _ hj', hb⟩
      · exact ⟨j, List.mem_append_right _ (List.mem_singleton_self j), hb⟩
    · rintro ⟨j', hj', hb⟩
      rcases List.mem_append.mp hj' with hj' | hj'
      · exact Or.inl ⟨j', hj', hb⟩
      · rw [List.mem_singleton.mp hj'] at hb
        exact Or.inr hb

/-- What `ret` holds after some commits: what is common to them is above one of it. -/
structure Gathered (g : commit_graph commit) (done : List commit) (s : octopus commit) : Prop where
  flags : ∀ c, s.flags c = ∅
  pptr : s.pptr = .ret ↔ done = []
  start : done = [] → s.ret = []
  common : ∀ r ∈ s.ret, ∀ c ∈ done, Ancestor g c r
  above : done ≠ [] → ∀ a, (∀ c ∈ done, Ancestor g c a) → ∃ r ∈ s.ret, Ancestor g r a

/-- Where `ret` became empty the commits have nothing in common, and it stays empty. -/
theorem octopus_step_gathered (hdag : ∀ c, ¬ ProperAncestor g c c)
    (hparse : ∀ c, g.parse_commit c = true) {done : List commit} {s : octopus commit}
    (h : Gathered g done s) (item : commit) :
    Gathered g (done ++ [item]) (octopus_step g s item) := by
  have hne : done ++ [item] ≠ [] := List.append_ne_nil_of_right_ne_nil done (List.cons_ne_nil _ _)
  unfold octopus_step
  by_cases hret : s.ret = []
  · rw [if_pos hret]
    cases hptr : s.pptr with
    | ret =>
      have hdone := h.pptr.mp hptr
      refine ⟨h.flags, ⟨fun hcase => (by cases hcase), fun hnil => absurd hnil hne⟩,
        fun hnil => absurd hnil hne, ?_, ?_⟩
      · intro r hr c hc
        rw [List.mem_singleton.mp hr]
        rw [hdone, List.nil_append, List.mem_singleton] at hc
        rw [hc]
        exact ReflTransGen.refl
      · intro _ a ha
        exact ⟨item, List.mem_singleton_self item,
          ha item (List.mem_append_right _ (List.mem_singleton_self item))⟩
    | next =>
      have hdone : done ≠ [] := by
        intro hnil
        rw [h.pptr.mpr hnil] at hptr
        cases hptr
      refine ⟨h.flags, ⟨fun hcase => ?_, fun hnil => absurd hnil hne⟩,
        fun hnil => absurd hnil hne, ?_, ?_⟩
      · rw [hptr] at hcase
        cases hcase
      · intro r hr
        rw [hret] at hr
        exact absurd hr List.not_mem_nil
      · intro _ a ha
        exact h.above hdone a fun c hc => ha c (List.mem_append_left _ hc)
  · have hdone : done ≠ [] := fun hnil => hret (h.start hnil)
    obtain ⟨hmem, hflags⟩ := octopus_bases_spec hdag hparse h.flags item s.ret
    rw [if_neg hret]
    refine ⟨hflags, ⟨fun hcase => absurd (h.pptr.mp hcase) hdone, fun hnil => absurd hnil hne⟩,
      fun hnil => absurd hnil hne, ?_, ?_⟩
    · intro r hr c hc
      obtain ⟨j, hj, hbest⟩ := (hmem r).mp hr
      obtain ⟨hitem, hto⟩ := common_two.mp hbest.1
      rcases List.mem_append.mp hc with hc | hc
      · exact (h.common j hj c hc).trans hto
      · rw [List.mem_singleton.mp hc]
        exact hitem
    · intro _ a ha
      obtain ⟨j, hj, hja⟩ := h.above hdone a fun c hc => ha c (List.mem_append_left _ hc)
      have hitem := ha item (List.mem_append_right _ (List.mem_singleton_self item))
      obtain ⟨b, hb, hba⟩ := (common_two.mpr ⟨hitem, hja⟩).exists_best hdag
      exact ⟨b, (hmem b).mpr ⟨j, hj, hb⟩, hba⟩

theorem octopus_gathered (hdag : ∀ c, ¬ ProperAncestor g c c)
    (hparse : ∀ c, g.parse_commit c = true) (hclear : ∀ c, flags c = ∅) (heads : List commit) :
    Gathered g heads (heads.foldl (octopus_step g) ⟨[], .ret, flags⟩) := by
  induction heads using List.reverseRecOn with
  | nil =>
    exact ⟨hclear, ⟨fun _ => rfl, fun _ => rfl⟩, fun _ => rfl,
      fun r hr => absurd hr List.not_mem_nil, fun hnil => absurd rfl hnil⟩
  | append_singleton heads item ih =>
    rw [List.foldl_append]
    exact octopus_step_gathered hdag hparse ih item

/-- **The octopus is below all that the commits have in common**, and only at common
ancestors. -/
theorem the_octopus_is_below_all_common_ancestors (hdag : ∀ c, ¬ ProperAncestor g c c)
    (hparse : ∀ c, g.parse_commit c = true) (hclear : ∀ c, flags c = ∅) {heads : List commit}
    (hne : heads ≠ []) :
    (∀ r ∈ (get_octopus_merge_bases g flags heads).1, ∀ c ∈ heads, Ancestor g c r) ∧
      (∀ a, (∀ c ∈ heads, Ancestor g c a) →
        ∃ r ∈ (get_octopus_merge_bases g flags heads).1, Ancestor g r a) ∧
      ((¬ ∃ a, ∀ c ∈ heads, Ancestor g c a) → (get_octopus_merge_bases g flags heads).1 = []) ∧
      ∀ c, (get_octopus_merge_bases g flags heads).2 c = ∅ := by
  have h := octopus_gathered hdag hparse hclear heads
  refine ⟨h.common, h.above hne, ?_, h.flags⟩
  intro hnone
  apply List.eq_nil_iff_forall_not_mem.mpr
  intro r hr
  exact hnone ⟨r, h.common r hr⟩

/-- Three commits on one root, and one on another. -/
def two_roots : commit_graph (Fin 6) where
  parents
    | 0 => [4]
    | 1 => [4]
    | 2 => [5]
    | 3 => [4]
    | _ => []
  date _ := 1
  parse_commit _ := true

theorem above_two_roots {c a : Fin 6} (h : ProperAncestor two_roots c a) : c < a ∧ 4 ≤ a := by
  have hparents : ∀ c, ∀ p ∈ two_roots.parents c, c < p ∧ 4 ≤ p := by decide
  induction h with
  | single hp => exact hparents _ _ hp
  | tail _ hp ih => exact ⟨ih.1.trans (hparents _ _ hp).1, (hparents _ _ hp).2⟩

theorem an_octopus_of_three :
    (∃ r ∈ (get_octopus_merge_bases two_roots (fun _ => ∅) [0, 1, 3]).1, Ancestor two_roots r 4) ∧
      (∀ r ∈ (get_octopus_merge_bases two_roots (fun _ => ∅) [0, 1, 3]).1,
        Ancestor two_roots 0 r) := by
  have hdag : ∀ c, ¬ ProperAncestor two_roots c c := fun c h => (above_two_roots h).1.false
  have hclear : ∀ c, (fun _ => ∅ : flag_map (Fin 6)) c = ∅ := fun _ => rfl
  obtain ⟨hcommon, habove, -⟩ := the_octopus_is_below_all_common_ancestors hdag (fun _ => rfl)
    hclear (List.cons_ne_nil 0 [1, 3])
  refine ⟨habove 4 ?_, fun r hr => hcommon r hr 0 List.mem_cons_self⟩
  intro c hc
  have hparent : ∀ c ∈ ([0, 1, 3] : List (Fin 6)), 4 ∈ two_roots.parents c := by decide
  exact ReflTransGen.single (hparent c hc)

end git.merge_bases
