-- Which commit contains which: `is_descendant_of` of `commit.c`, and the search of `submodule.c`
-- for the first merges of two commits.
import Git.MergeBasesOctopus
import Git.ReduceHeads

open Relation

namespace git.merge_bases

variable {commit : Type} [DecidableEq commit] [Fintype commit]

/-! ## One commit in another -/

/-- `in_merge_bases` with one reference. -/
def in_merge_bases (g : commit_graph commit) (flags : flag_map commit) (c reference : commit) :
    Bool × flag_map commit :=
  let (bases, flags) := get_merge_bases g flags c reference true
  (bases.any fun b => b = c, flags)

/-- The loop of `is_descendant_of`. -/
def contains_one (g : commit_graph commit) (c : commit) :
    List commit → flag_map commit → Bool × flag_map commit
  | [], flags => (false, flags)
  | other :: with_commit, flags =>
    let (found, flags) := in_merge_bases g flags other c
    if found then (true, flags) else contains_one g c with_commit flags

def is_descendant_of (g : commit_graph commit) (flags : flag_map commit) (c : commit)
    (with_commit : List commit) : Bool × flag_map commit :=
  if with_commit = [] then (true, flags) else contains_one g c with_commit flags

/-! ## Merges that contain both sides -/

/-- The loop over the walk: what contains `b`. -/
def merges_with (g : commit_graph commit) (b : commit) :
    List commit → flag_map commit → List commit × flag_map commit
  | [], flags => ([], flags)
  | c :: walk, flags =>
    let (found, flags) := in_merge_bases g flags b c
    let (merges, flags) := merges_with g b walk flags
    (if found then c :: merges else merges, flags)

/-- The loop over `j`, from `j` on. -/
def contains_another (g : commit_graph commit) (i : Nat) (m1 : commit) :
    List commit → Nat → flag_map commit → Bool × flag_map commit
  | [], _, flags => (false, flags)
  | m2 :: merges, j, flags =>
    let (found, flags) := if i ≠ j then in_merge_bases g flags m2 m1 else (false, flags)
    if found then (true, flags) else contains_another g i m1 merges (j + 1) flags

/-- The loop over `i`, from `i` on. -/
def prune (g : commit_graph commit) (merges : List commit) :
    List commit → Nat → flag_map commit → List commit × flag_map commit
  | [], _, flags => ([], flags)
  | m1 :: rest, i, flags =>
    let (another, flags) := contains_another g i m1 merges 0 flags
    let (result, flags) := prune g merges rest (i + 1) flags
    (if another then result else m1 :: result, flags)

/-- `find_first_merges`. `walk` is what `rev-list --merges --ancestry-path --all ^a` gives. -/
def find_first_merges (g : commit_graph commit) (flags : flag_map commit) (walk : List commit)
    (b : commit) : List commit × flag_map commit :=
  let (merges, flags) := merges_with g b walk flags
  prune g merges merges 0 flags

/-! ## What the calls give -/

variable {g : commit_graph commit}

/-- No commit has a mark. -/
def clean : flag_map commit := fun _ => ∅

section

open Classical

variable (hdag : ∀ c, ¬ ProperAncestor g c c) (hparse : ∀ c, g.parse_commit c = true)
include hdag hparse

theorem in_merge_bases_eq (c r : commit) :
    in_merge_bases g clean c r = (decide (Ancestor g r c), clean) := by
  obtain ⟨hbest, -, hnone⟩ :=
    get_merge_bases_many_spec c [r] hdag hparse (fun _ => rfl : ∀ d, clean d = ∅)
  have hreached : c ∈ (get_merge_bases_many g clean c [r] true).1 ↔ Ancestor g r c := by
    rw [hbest]
    constructor
    · exact fun h => (common_two.mp h.1).2
    · exact fun h => (best_of_reached hdag ⟨r, List.mem_singleton_self r, h⟩ c).mpr rfl
  unfold in_merge_bases get_merge_bases
  refine Prod.ext ?_ (funext hnone)
  rw [Bool.eq_iff_iff, decide_eq_true_iff, ← hreached]
  simp

theorem contains_one_eq (c : commit) (with_commit : List commit) :
    contains_one g c with_commit clean = (decide (∃ o ∈ with_commit, Ancestor g c o), clean) := by
  induction with_commit with
  | nil => simp [contains_one]
  | cons o rest ih =>
    rw [contains_one, in_merge_bases_eq hdag hparse]
    by_cases h : Ancestor g c o <;> simp [h, ih]

theorem merges_with_eq (b : commit) (walk : List commit) :
    merges_with g b walk clean = (walk.filter fun c => Ancestor g c b, clean) := by
  induction walk with
  | nil => rfl
  | cons c walk ih =>
    rw [merges_with, in_merge_bases_eq hdag hparse]
    simp only [ih, List.filter_cons]

/-- The commit itself is at `i`. -/
theorem contains_another_eq {i : Nat} {m1 : commit} {merges : List commit} {j : Nat}
    (hi : ∀ k m2, merges[k]? = some m2 → (i = j + k ↔ m2 = m1)) :
    contains_another g i m1 merges j clean =
      (decide (∃ m2 ∈ merges, m2 ≠ m1 ∧ Ancestor g m1 m2), clean) := by
  induction merges generalizing j with
  | nil => simp [contains_another]
  | cons m2 merges ih =>
    have hhead := hi 0 m2 rfl
    rw [Nat.add_zero] at hhead
    have hrest := ih (j := j + 1) fun k m hk => by
      rw [Nat.add_assoc, Nat.add_comm 1]
      exact hi (k + 1) m hk
    rw [contains_another, in_merge_bases_eq hdag hparse]
    by_cases hm : m2 = m1
    · simp [hhead.mpr hm, hm, ← hrest]
    · by_cases h : Ancestor g m1 m2 <;> simp [mt hhead.mp hm, hm, h, hrest]

theorem prune_eq {merges : List commit} (hnodup : merges.Nodup) :
    ∀ (done rest : List commit), merges = done ++ rest → prune g merges rest done.length clean =
      (rest.filter fun m1 => ¬ ∃ m2 ∈ merges, m2 ≠ m1 ∧ Ancestor g m1 m2, clean) := by
  intro done rest
  induction rest generalizing done with
  | nil => exact fun _ => rfl
  | cons m1 rest ih =>
    intro hsplit
    have hat : merges[done.length]? = some m1 := by simp [hsplit]
    have hrest := ih (done ++ [m1]) (by simp [hsplit])
    rw [List.length_append, List.length_singleton] at hrest
    have hi : ∀ k m2, merges[k]? = some m2 → (done.length = 0 + k ↔ m2 = m1) := by
      intro k m2 hk
      rw [Nat.zero_add, ← List.getElem?_inj (List.getElem?_eq_some_iff.mp hat).1 hnodup, hat, hk,
        Option.some_inj, eq_comm]
    rw [prune, contains_another_eq hdag hparse hi]
    simp only [hrest, List.filter_cons]
    by_cases h : ∃ m2 ∈ merges, m2 ≠ m1 ∧ Ancestor g m1 m2 <;> simp [h]

theorem find_first_merges_eq {walk : List commit} (hnodup : walk.Nodup) (b : commit) :
    find_first_merges g clean walk b =
      ((walk.filter fun m => Ancestor g m b).filter fun m =>
        ¬ ∃ m2 ∈ walk.filter fun m => Ancestor g m b, m2 ≠ m ∧ Ancestor g m m2, clean) := by
  unfold find_first_merges
  rw [merges_with_eq hdag hparse]
  exact prune_eq hdag hparse (hnodup.filter _) [] _ rfl

variable {flags : flag_map commit} (hclear : ∀ c, flags c = ∅)
include hclear

/-- **A commit is a descendant of some** just where it reaches one of them, or there is none to
ask for; no mark stays behind. -/
theorem is_descendant_of_iff (c : commit) (with_commit : List commit) :
    ((is_descendant_of g flags c with_commit).1 = true ↔
        with_commit = [] ∨ ∃ other ∈ with_commit, Ancestor g c other) ∧
      ∀ d, (is_descendant_of g flags c with_commit).2 d = ∅ := by
  obtain rfl : flags = clean := funext hclear
  unfold is_descendant_of
  by_cases hnone : with_commit = []
  · rw [if_pos hnone]
    exact ⟨⟨fun _ => Or.inl hnone, fun _ => rfl⟩, fun _ => rfl⟩
  · rw [if_neg hnone, contains_one_eq hdag hparse]
    exact ⟨by simp [hnone], fun _ => rfl⟩

/-- **The merges shown are the first ones**: those of the walk that contain `b` and no other
such merge, in the order of the walk; each that contains `b` contains one of them. -/
theorem first_merges_contain_no_other {walk : List commit} (hnodup : walk.Nodup) (b : commit) :
    let r := find_first_merges g flags walk b
    (∀ m, m ∈ r.1 ↔ m ∈ walk ∧ Ancestor g m b ∧
        ∀ m2 ∈ walk, Ancestor g m2 b → Ancestor g m m2 → m2 = m) ∧
      r.1.Sublist walk ∧ (∀ m ∈ walk, Ancestor g m b → ∃ first ∈ r.1, Ancestor g m first) ∧
      ∀ d, r.2 d = ∅ := by
  obtain rfl : flags = clean := funext hclear
  have hmem : ∀ m, m ∈ (find_first_merges g clean walk b).1 ↔ m ∈ walk ∧ Ancestor g m b ∧
      ∀ m2 ∈ walk, Ancestor g m2 b → Ancestor g m m2 → m2 = m := by
    intro m
    rw [find_first_merges_eq hdag hparse hnodup]
    simp only [List.mem_filter, decide_eq_true_iff, not_exists, not_and, and_assoc]
    refine and_congr_right fun _ => and_congr_right fun _ => forall_congr' fun m2 => ?_
    exact ⟨fun h hin hb hanc => by_contra fun hne => h hin hb hne hanc,
      fun h hin hb hne hanc => hne (h hin hb hanc)⟩
  refine ⟨hmem, ?_, ?_, fun d => ?_⟩
  · rw [find_first_merges_eq hdag hparse hnodup]
    exact List.filter_sublist.trans List.filter_sublist
  · -- one that contains `b` and is above no other
    intro m hm hb
    have hwf := (acyclic.Acyclic.swap hdag).wf_trans
    obtain ⟨first, ⟨hin, hfirst, hanc⟩, hmin⟩ :=
      hwf.has_min {c | c ∈ walk ∧ Ancestor g c b ∧ Ancestor g m c} ⟨m, hm, hb, ReflTransGen.refl⟩
    refine ⟨first, (hmem first).mpr ⟨hin, hfirst, fun m2 hm2 hb2 h2 => ?_⟩, hanc⟩
    rcases reflTransGen_iff_eq_or_transGen.mp h2 with heq | hproper
    · exact heq
    · exact absurd (transGen_swap.mpr hproper) (hmin m2 ⟨hm2, hb2, hanc.trans h2⟩)
  · rw [find_first_merges_eq hdag hparse hnodup]
    rfl

/-- **The merge bases do not depend on the order** of the commits that they are asked for. -/
theorem merge_bases_are_symmetric (one two : commit) :
    (get_merge_bases g flags one two true).1.Perm (get_merge_bases g flags two one true).1 := by
  obtain ⟨hbest, hnodup, -⟩ := get_merge_bases_many_spec one [two] hdag hparse hclear
  obtain ⟨hbest', hnodup', -⟩ := get_merge_bases_many_spec two [one] hdag hparse hclear
  refine (List.perm_ext_iff_of_nodup hnodup hnodup').mpr fun c => ?_
  simp only [hbest, hbest', Best, common_two, and_comm (a := Ancestor g two _)]

/-- **A commit is the only merge base with another just where that one contains it**: the test
of `cmd_merge` for a fast-forward. -/
theorem only_base_iff_contained (one two : commit) :
    (get_merge_bases g flags one two true).1 = [one] ↔ Ancestor g two one := by
  obtain ⟨hbest, hnodup, -⟩ := get_merge_bases_many_spec one [two] hdag hparse hclear
  constructor
  · intro h
    have hmem : one ∈ (get_merge_bases g flags one two true).1 := by simp [h]
    exact (common_two.mp ((hbest one).mp hmem).1).2
  · intro hanc
    refine List.perm_singleton.mp ((List.perm_ext_iff_of_nodup hnodup
      (List.nodup_singleton one)).mpr fun c => (hbest c).trans ?_)
    rw [List.mem_singleton]
    exact best_of_reached hdag ⟨two, List.mem_singleton_self two, hanc⟩ c

/-- **Reducing the heads loses none of their history**: each head is contained in one that is
kept, and reducing again keeps them all. -/
theorem reduced_heads_contain_all (heads : List commit) :
    (∀ p ∈ heads, ∃ q ∈ (reduce_heads g flags heads).1, Ancestor g q p) ∧
      (reduce_heads g flags (reduce_heads g flags heads).1).1.Perm
        (reduce_heads g flags heads).1 := by
  have hreduced : ∀ heads, Reduced g heads heads (reduce_heads g flags heads) := fun heads =>
    reduce_heads_reduced hdag hparse heads [] heads ([], flags) rfl
      ⟨hclear, by simp, List.Pairwise.nil⟩
  have hnodup : ∀ heads, (reduce_heads g flags heads).1.Nodup := fun heads =>
    (hreduced heads).order.imp fun hlt heq => (heq ▸ hlt).false
  refine ⟨fun p hp => ?_, (List.perm_ext_iff_of_nodup (hnodup _) (hnodup heads)).mpr fun c => ?_⟩
  · -- of the heads that contain `p`, one that no other contains
    obtain ⟨q, ⟨hq, hqp⟩, hmin⟩ := (acyclic.Acyclic.wf_trans hdag).has_min
      {q | q ∈ heads ∧ Ancestor g q p} ⟨p, hp, ReflTransGen.refl⟩
    refine ⟨q, ((hreduced heads).mem q).mpr ⟨hq, fun ⟨c, hc, hne, hcq⟩ => ?_⟩, hqp⟩
    rcases reflTransGen_iff_eq_or_transGen.mp hcq with rfl | hproper
    · exact hne rfl
    · exact hmin c ⟨hc, hcq.trans hqp⟩ hproper
  · rw [(hreduced _).mem]
    refine and_iff_left_of_imp fun hc => fun ⟨q, hq, hne, hqc⟩ => ?_
    exact (((hreduced heads).mem c).mp hc).2 ⟨q, (((hreduced heads).mem q).mp hq).1, hne, hqc⟩

end

theorem criss_cross_acyclic (c : Fin 5) : ¬ ProperAncestor criss_cross c c :=
  fun h => (above_criss_cross h).1.false

theorem parent_of_the_first : Ancestor criss_cross 0 3 :=
  ReflTransGen.single (show (3 : Fin 5) ∈ [2, 3] by decide)

theorem the_first_descends_from_its_parent :
    (is_descendant_of criss_cross clean 0 [1, 3]).1 = true :=
  (is_descendant_of_iff criss_cross_acyclic (fun _ => rfl) (fun _ => rfl) 0 [1, 3]).1.mpr
    (Or.inr ⟨3, by decide, parent_of_the_first⟩)

theorem bases_from_the_other_side :
    (get_merge_bases criss_cross clean 0 1 true).1.Perm
      (get_merge_bases criss_cross clean 1 0 true).1 :=
  merge_bases_are_symmetric criss_cross_acyclic (fun _ => rfl) (fun _ => rfl) 0 1

theorem the_parent_is_the_base : (get_merge_bases criss_cross clean 3 0 true).1 = [3] :=
  (only_base_iff_contained criss_cross_acyclic (fun _ => rfl) (fun _ => rfl) 3 0).mpr
    parent_of_the_first

theorem a_reduced_head_contains_the_last :
    ∃ q ∈ (reduce_heads criss_cross clean [3, 0]).1, Ancestor criss_cross q 3 :=
  (reduced_heads_contain_all criss_cross_acyclic (fun _ => rfl) (fun _ => rfl) [3, 0]).1 3
    (by decide)

theorem a_merge_contains_a_first_one :
    ∃ first ∈ (find_first_merges criss_cross clean [0, 1] 3).1, Ancestor criss_cross 0 first :=
  (first_merges_contain_no_other criss_cross_acyclic (fun _ => rfl) (fun _ => rfl) (by decide)
    3).2.2.1 0 (by decide) parent_of_the_first

end git.merge_bases
