-- `find_all` of `bisect.c`: all commits that can be tested next, the best ones first,
-- written back into the nodes of the list that came in.
import Git.BisectLaws
import Git.PackIdxTables

namespace git.bisect

open pack_idx (hashcmp hashcmp_compares)

variable {commit : Type} [DecidableEq commit]

/-! ## The code -/

/-- `count_merges`, where no commit is returned early. -/
def count_merges_all [Fintype commit] (g : commit_graph commit) (all : List commit) :
    List commit → progress commit → progress commit
  | [], s => s
  | c :: list, s =>
    if g.UNINTERESTING c then count_merges_all g all list s
    else if s.weight c ≠ -2 then count_merges_all g all list s
    else
      let (distance, COUNTED) := count_distance g 0 s.COUNTED [c]
      let s := { s.weight_set c distance with COUNTED := clear_distance all COUNTED }
      count_merges_all g all list { s with counted := s.counted + 1 }

/-- `fill_blanks`, where no commit is returned early. -/
def fill_blanks_all (g : commit_graph commit) : List commit → progress commit → progress commit
  | [], s => s
  | c :: list, s =>
    if 0 ≤ s.weight c then fill_blanks_all g list s
    else
      match known_parent g s.weight c with
      | none => fill_blanks_all g list s
      | some q =>
        fill_blanks_all g list
          (if g.TREESAME c then s.weight_set c (s.weight q)
            else { s.weight_set c (s.weight q + 1) with counted := s.counted + 1 })

/-- `while (counted < nr)`; `none` where that many passes are not enough. -/
def fill_loop_all (g : commit_graph commit) (nr : Nat) (list : List commit) :
    Nat → progress commit → Option (progress commit)
  | 0, s => if s.counted < nr then none else some s
  | passes + 1, s =>
    if s.counted < nr then fill_loop_all g nr list passes (fill_blanks_all g list s) else some s

structure commit_dist (commit : Type) where
  commit : commit
  distance : Int
  deriving DecidableEq

/-- `sha1` gives the object names. -/
def compare_commit_dist (sha1 : commit → Sha1) (a b : commit_dist commit) : Ordering :=
  if a.distance ≠ b.distance then
    compare (b.distance - a.distance) 0 -- desc sort
  else hashcmp (sha1 a.commit) (sha1 b.commit)

/-- What `qsort` does with `compare_commit_dist`. -/
abbrev qsort (sha1 : commit → Sha1) := bsearch.Sorter (compare_commit_dist sha1)

/-- The array, before it is sorted. -/
def commit_dists (g : commit_graph commit) (weight : commit → Int) (nr : Nat) :
    List commit → List (commit_dist commit)
  | [] => []
  | c :: list =>
    if g.TREESAME c then commit_dists g weight nr list
    else
      ⟨c, if nr - weight c < weight c then nr - weight c else weight c⟩ ::
        commit_dists g weight nr list

/-- The items of the nodes after `p->item = array[i].commit; p = p->next;` and the cut
behind the node that `p` has come to. -/
def write_back : List commit → List (commit_dist commit) → List commit
  | [], _ => []
  | c :: _, [] => [c]
  | _ :: list, e :: array => e.commit :: write_back list array

/-- The list, and the decorations in the order in which they are added. -/
def best_bisection_sorted (g : commit_graph commit) {sha1 : commit → Sha1} (q : qsort sha1)
    (weight : commit → Int) (nr : Nat) (list : List commit) :
    List commit × List (commit × String) :=
  let array := q.sort (commit_dists g weight nr list)
  (write_back list array, array.map fun e => (e.commit, "dist=" ++ toString e.distance))

/-- The list, the weight of its first commit and the decorations. -/
def do_find_bisection_all [Fintype commit] (g : commit_graph commit) {sha1 : commit → Sha1}
    (q : qsort sha1) (passes : Nat) (list : List commit) (nr : Nat) :
    Option (List commit × Option Int × List (commit × String)) :=
  let s := list.foldl (initial_weight g) { weight := fun _ => 0, counted := 0, COUNTED := ∅ }
  (fill_loop_all g nr list passes (count_merges_all g list list s)).map fun s =>
    let (best, decorations) := best_bisection_sorted g q s.weight nr list
    (best, best.head?.map s.weight, decorations)

/-- What `find_bisection` leaves: `*all`, the list, `*reaches` and the decorations. -/
structure all_found (commit : Type) where
  all : Nat
  best : List commit
  reaches : Option Int
  name_decoration : List (commit × String)
  deriving DecidableEq

/-- `find_bisection` with `find_all`. `none`: it has not ended after that many passes. -/
def find_bisection_all [Fintype commit] (g : commit_graph commit) {sha1 : commit → Sha1}
    (q : qsort sha1) (passes : Nat) (list : List commit) : Option (all_found commit) :=
  -- drop the uninteresting ones, while reversing the list
  let list := (list.filter fun c => !g.UNINTERESTING c).reverse
  let nr := (list.filter fun c => !g.TREESAME c).length
  (do_find_bisection_all g q passes list nr).map fun (best, reaches, decorations) =>
    ⟨nr, best, reaches, decorations⟩

/-! ## What is asked of it -/

/-- The commits that can be tested. -/
def candidate (g : commit_graph commit) (c : commit) : Bool :=
  !g.UNINTERESTING c && !g.TREESAME c

/-- How many commits a test of `c` rules out at least. -/
noncomputable def ruled_out (g : commit_graph commit) (nr : Nat) (c : commit) : Nat :=
  min (reached g c) (nr - reached g c)

/-- The commits that can be tested, each once, those that rule out more before the others
and the smaller name before the larger. -/
def AllRight [Fintype commit] (g : commit_graph commit) {sha1 : commit → Sha1} (q : qsort sha1)
    (list : List commit) : Prop :=
  ∃ passes found, find_bisection_all g q passes list = some found ∧ found.best.Nodup ∧
    (∀ c, c ∈ found.best ↔ c ∈ list ∧ candidate g c = true) ∧
    found.best.Pairwise fun a b =>
      let nr := list.countP (candidate g)
      ruled_out g nr b < ruled_out g nr a ∨
        ruled_out g nr a = ruled_out g nr b ∧ (sha1 a).toList ≤ (sha1 b).toList

variable {g : commit_graph commit} {list : List commit} {sha1 : commit → Sha1} {q : qsort sha1}

/-! ## The weights -/

/-- So many that no commit is halfway. -/
def too_many (commit : Type) [Fintype commit] : Nat := 2 * Fintype.card commit + 2

omit [DecidableEq commit] in
theorem not_found [Fintype commit] (found : commit × progress commit) :
    ¬Found g list (too_many commit) found := by
  rintro ⟨-, hhalf, hright⟩
  have hle : reached g found.1 ≤ Fintype.card commit := by
    rw [← Nat.card_eq_fintype_card]
    exact Set.ncard_le_card _
  unfold halfway too_many at hhalf
  rw [hright] at hhalf
  simp only [Bool.and_eq_true, Bool.or_eq_true, decide_eq_true_eq] at hhalf
  omega

theorem count_merges_all_eq [Fintype commit] {nr : Nat} {all l : List commit}
    {s s' : progress commit} (h : count_merges g nr all l s = .ok s') :
    count_merges_all g all l s = s' := by
  induction l generalizing s with
  | nil => exact Except.ok.inj h
  | cons c l ih =>
    rw [count_merges] at h
    rw [count_merges_all]
    by_cases huninteresting : g.UNINTERESTING c = true
    · rw [if_pos huninteresting] at h ⊢
      exact ih h
    · rw [if_neg huninteresting] at h ⊢
      by_cases hmerge : s.weight c ≠ -2
      · rw [if_pos hmerge] at h ⊢
        exact ih h
      · rw [if_neg hmerge] at h ⊢
        dsimp only at h ⊢
        by_cases hhalf : halfway g
            (s.weight_set c (count_distance g 0 s.COUNTED [c]).1).weight c nr = true
        · rw [if_pos hhalf] at h
          cases h
        · rw [if_neg hhalf] at h
          exact ih h

theorem fill_blanks_all_eq {nr : Nat} {l : List commit} {s s' : progress commit}
    (h : fill_blanks g nr l s = .ok s') : fill_blanks_all g l s = s' := by
  induction l generalizing s with
  | nil => exact Except.ok.inj h
  | cons c l ih =>
    rw [fill_blanks] at h
    rw [fill_blanks_all]
    by_cases hpos : 0 ≤ s.weight c
    · rw [if_pos hpos] at h ⊢
      exact ih h
    · rw [if_neg hpos] at h ⊢
      cases hq : known_parent g s.weight c with
      | none =>
        rw [hq] at h
        exact ih h
      | some q =>
        rw [hq] at h
        dsimp only at h ⊢
        generalize (if g.TREESAME c then s.weight_set c (s.weight q)
          else { s.weight_set c (s.weight q + 1) with counted := s.counted + 1 }) = t at h ⊢
        by_cases hhalf : halfway g t.weight c nr = true
        · rw [if_pos hhalf] at h
          cases h
        · rw [if_neg hhalf] at h
          exact ih h

/-- After the merges no weight is -2. -/
theorem count_merges_all_weighed [Fintype commit] (hl : Listed g list) {s : progress commit}
    (h : Weighed g list s) :
    Weighed g list (count_merges_all g list list s) ∧
      ∀ c ∈ list, (count_merges_all g list list s).weight c ≠ -2 := by
  have hmerges := count_merges_weighed hl (too_many commit) list s h (fun _ hc => hc)
    (fun _ hc _ => hc)
  cases hout : count_merges g (too_many commit) list list s with
  | error found =>
    rw [hout] at hmerges
    exact absurd hmerges (not_found found)
  | ok s' =>
    rw [hout] at hmerges
    rw [count_merges_all_eq hout]
    exact hmerges

/-- A pass gives a weight to each commit whose parent has one. -/
theorem fill_blanks_all_weighed [Fintype commit] (hl : Listed g list) {s : progress commit}
    (h : Weighed g list s) (hmerges : ∀ c ∈ list, s.weight c ≠ -2) :
    Weighed g list (fill_blanks_all g list s) ∧
      (∀ c ∈ list, (fill_blanks_all g list s).weight c ≠ -2) ∧
      (∀ c, 0 ≤ s.weight c → 0 ≤ (fill_blanks_all g list s).weight c) ∧
      ∀ c ∈ list, known_parent g s.weight c ≠ none → 0 ≤ (fill_blanks_all g list s).weight c := by
  have hpass := fill_blanks_weighed hl (too_many commit) list s h hmerges fun _ hc => hc
  cases hout : fill_blanks g (too_many commit) list s with
  | error found =>
    rw [hout] at hpass
    exact absurd hpass (not_found found)
  | ok s' =>
    rw [hout] at hpass
    rw [fill_blanks_all_eq hout]
    exact hpass

/-- As many passes as commits without a weight are enough. -/
theorem fill_loop_all_weighed [Fintype commit] (hl : Listed g list) (passes : Nat) :
    ∀ s, Weighed g list s → (∀ c ∈ list, s.weight c ≠ -2) →
      list.countP (fun c => decide (s.weight c < 0)) ≤ passes →
      ∃ s', fill_loop_all g (list.countP fun c => !g.TREESAME c) list passes s = some s' ∧
        Weighed g list s' ∧ ∀ c ∈ list, g.TREESAME c = false → 0 ≤ s'.weight c := by
  induction passes with
  | zero =>
    intro s h hmerges hpasses
    rw [fill_loop_all]
    by_cases hcount : s.counted < list.countP fun c => !g.TREESAME c
    · obtain ⟨c, hc, hneg⟩ := h.missing hcount
      have hnone := List.countP_eq_zero.mp (Nat.le_zero.mp hpasses) c hc
      exact absurd (decide_eq_true hneg) hnone
    · rw [if_neg hcount]
      exact ⟨s, rfl, h, fun c hc hsame => h.all_known hcount hc hsame⟩
  | succ passes ih =>
    intro s h hmerges hpasses
    rw [fill_loop_all]
    by_cases hcount : s.counted < list.countP fun c => !g.TREESAME c
    · rw [if_pos hcount]
      obtain ⟨c, hc, hneg⟩ := h.missing hcount
      obtain ⟨m, hm, hmneg, hparent⟩ := h.next hl hmerges hc hneg
      obtain ⟨h', hm', hkeep, hfill⟩ := fill_blanks_all_weighed hl h hmerges
      apply ih _ h' hm'
      -- `m` has got its weight
      by_contra hmany
      have hsame := countP_all (p := fun c => decide ((fill_blanks_all g list s).weight c < 0))
        (q := fun c => decide (s.weight c < 0)) ?_ (by omega) m hm (decide_eq_true hmneg)
      · exact absurd (hfill m hm hparent) (not_le.mpr (of_decide_eq_true hsame))
      · intro d hd
        apply decide_eq_true
        by_contra hpos
        exact absurd (hkeep d (not_lt.mp hpos)) (not_le.mpr (of_decide_eq_true hd))
    · rw [if_neg hcount]
      exact ⟨s, rfl, h, fun c hc hsame => h.all_known hcount hc hsame⟩

/-! ## The list that is written back -/

omit [DecidableEq commit] in
/-- The node behind the last one that is written stays on the list. -/
theorem write_back_eq (list : List commit) (array : List (commit_dist commit))
    (h : array.length ≤ list.length) :
    write_back list array = array.map (·.commit) ++ (list.drop array.length).take 1 := by
  induction list generalizing array with
  | nil =>
    obtain rfl := List.eq_nil_of_length_eq_zero (Nat.le_zero.mp h)
    rfl
  | cons c list ih =>
    cases array with
    | nil => rfl
    | cons e array =>
      rw [write_back, ih array (Nat.le_of_succ_le_succ h)]
      rfl

omit [DecidableEq commit] in
theorem commit_dists_commits (weight : commit → Int) (nr : Nat) (list : List commit) :
    (commit_dists g weight nr list).map (·.commit) = list.filter fun c => !g.TREESAME c := by
  induction list with
  | nil => rfl
  | cons c list ih =>
    rw [commit_dists]
    cases hsame : g.TREESAME c with
    | true =>
      rw [if_pos rfl, ih, List.filter_cons_of_neg (by rw [hsame]; decide)]
    | false =>
      rw [if_neg Bool.false_ne_true, List.map_cons, ih,
        List.filter_cons_of_pos (by rw [hsame]; rfl)]

omit [DecidableEq commit] in
theorem commit_dists_distance {weight : commit → Int} {nr : Nat} {list : List commit}
    {e : commit_dist commit} (h : e ∈ commit_dists g weight nr list) :
    e.distance = distance weight nr e.commit := by
  induction list with
  | nil => exact absurd h List.not_mem_nil
  | cons c list ih =>
    rw [commit_dists] at h
    split at h
    · exact ih h
    · rcases List.mem_cons.mp h with rfl | h
      · unfold distance
        dsimp only
        split_ifs <;> omega
      · exact ih h

/-- The array when it is sorted. -/
def sorted_dists (g : commit_graph commit) {sha1 : commit → Sha1} (q : qsort sha1)
    (weight : commit → Int) (list : List commit) : List (commit_dist commit) :=
  q.sort (commit_dists g weight (list.filter fun c => !g.TREESAME c).length list)

omit [DecidableEq commit] in
theorem sorted_dists_perm (q : qsort sha1) (weight : commit → Int) (list : List commit) :
    ((sorted_dists g q weight list).map (·.commit)).Perm (list.filter fun c => !g.TREESAME c) := by
  rw [← commit_dists_commits (g := g) weight (list.filter fun c => !g.TREESAME c).length list]
  exact (q.perm _).map _

/-- The list is the commits that can be tested, and one of its nodes that is left over. -/
theorem find_bisection_all_best [Fintype commit] {passes : Nat} {found : all_found commit}
    (h : find_bisection_all g q passes list = some found) :
    ∃ weight : commit → Int,
      let nodes := (list.filter fun c => !g.UNINTERESTING c).reverse
      found.best = (sorted_dists g q weight nodes).map (·.commit) ++
        (nodes.drop (nodes.filter fun c => !g.TREESAME c).length).take 1 := by
  unfold find_bisection_all do_find_bisection_all at h
  dsimp only at h
  generalize (list.filter fun c => !g.UNINTERESTING c).reverse = nodes at h ⊢
  rw [Option.map_map, Option.map_eq_some_iff] at h
  obtain ⟨s, -, rfl⟩ := h
  refine ⟨s.weight, ?_⟩
  have hlen := (sorted_dists_perm (g := g) q s.weight nodes).length_eq
  rw [List.length_map] at hlen
  have hback := write_back_eq nodes (sorted_dists g q s.weight nodes)
    (hlen.le.trans (List.length_filter_le _ _))
  rw [hlen] at hback
  exact hback

/-! ## The order -/

omit [DecidableEq commit] in
theorem compare_commit_dist_ne_gt (sha1 : commit → Sha1) (a b : commit_dist commit) :
    compare_commit_dist sha1 a b ≠ .gt ↔ b.distance < a.distance ∨
      a.distance = b.distance ∧ (sha1 a.commit).toList ≤ (sha1 b.commit).toList := by
  unfold compare_commit_dist
  by_cases heq : a.distance = b.distance
  · rw [if_neg (not_not.mpr heq), (hashcmp_compares _ _).ne_gt]
    constructor
    · exact fun hle => Or.inr ⟨heq, hle⟩
    · rintro (hlt | ⟨-, hle⟩)
      · omega
      · exact hle
  · rw [if_pos heq, ne_eq, compare_gt_iff_gt]
    constructor
    · exact fun hle => Or.inl (by omega)
    · rintro (hlt | ⟨heq', -⟩)
      · omega
      · exact absurd heq' heq

/-- An insertion sort by distance and name. -/
def insert_by_dist (sha1 : commit → Sha1) : qsort sha1 :=
  bsearch.Sorter.insertion
    (by
      intro a b c hab hbc
      rw [compare_commit_dist_ne_gt] at *
      rcases hab with hab | ⟨hab, hle⟩ <;> rcases hbc with hbc | ⟨hbc, hle'⟩
      · exact Or.inl (by omega)
      · exact Or.inl (by omega)
      · exact Or.inl (by omega)
      · exact Or.inr ⟨hab.trans hbc, hle.trans hle'⟩)
    (by
      intro a b
      rw [compare_commit_dist_ne_gt, compare_commit_dist_ne_gt]
      rcases Int.lt_trichotomy a.distance b.distance with hlt | heq | hlt
      · exact Or.inr (Or.inl hlt)
      · rcases le_total (sha1 a.commit).toList (sha1 b.commit).toList with hle | hle
        · exact Or.inl (Or.inr ⟨heq, hle⟩)
        · exact Or.inr (Or.inr ⟨heq.symm, hle⟩)
      · exact Or.inl (Or.inl hlt))

/-! ## When all is right -/

omit [DecidableEq commit] in
theorem mem_nodes (g : commit_graph commit) (list : List commit) (c : commit) :
    c ∈ (list.filter fun c => !g.UNINTERESTING c).reverse ↔
      c ∈ list ∧ g.UNINTERESTING c = false := by
  rw [List.mem_reverse, List.mem_filter, Bool.not_eq_true']

/-- A TREESAME commit among the nodes leaves one over. -/
theorem no_treesame_of_right [Fintype commit] (h : AllRight g q list) :
    (list.filter fun c => !g.UNINTERESTING c).Nodup ∧
      ∀ c ∈ list, g.UNINTERESTING c = false → g.TREESAME c = false := by
  obtain ⟨passes, found, hfound, hnodup, hmem, -⟩ := h
  obtain ⟨weight, hbest⟩ := find_bisection_all_best hfound
  have hnodes := mem_nodes g list
  rw [← List.nodup_reverse]
  generalize (list.filter fun c => !g.UNINTERESTING c).reverse = nodes at hbest hnodes ⊢
  have hperm := sorted_dists_perm (g := g) q weight nodes
  rw [hbest] at hnodup
  have hfilter : (nodes.filter fun c => !g.TREESAME c).Nodup :=
    hperm.nodup_iff.mp (List.nodup_append.mp hnodup).1
  -- What is left over would be listed twice.
  have hnone : (nodes.drop (nodes.filter fun c => !g.TREESAME c).length).take 1 = [] := by
    rw [List.eq_nil_iff_forall_not_mem]
    intro c hc
    have hcand := (hmem c).mp (by rw [hbest]; exact List.mem_append_right _ hc)
    obtain ⟨hin, hc'⟩ := hcand
    obtain ⟨hinteresting, hsame⟩ := Bool.and_eq_true_iff.mp hc'
    have hsorted : c ∈ (sorted_dists g q weight nodes).map (·.commit) := by
      rw [hperm.mem_iff, List.mem_filter]
      exact ⟨(hnodes c).mpr ⟨hin, by simpa using hinteresting⟩, hsame⟩
    exact (List.nodup_append.mp hnodup).2.2 c hsorted c hc rfl
  have hlen : nodes.length ≤ (nodes.filter fun c => !g.TREESAME c).length := by
    rcases List.take_eq_nil_iff.mp hnone with h0 | h0
    · omega
    · exact List.drop_eq_nil_iff.mp h0
  have hall := List.filter_eq_self.mp
    ((List.filter_sublist (p := fun c => !g.TREESAME c)).eq_of_length_le hlen)
  refine ⟨?_, ?_⟩
  · rwa [List.filter_eq_self.mpr hall] at hfilter
  · intro c hc hinteresting
    simpa using hall c ((hnodes c).mpr ⟨hc, hinteresting⟩)

/-- Without one the nodes are the commits that can be tested. -/
theorem right_of_no_treesame [Fintype commit] (hdag : Dag g)
    (hclosed : ∀ c ∈ list, g.UNINTERESTING c = false → ∀ p, Step g c p → p ∈ list)
    (hnodup : (list.filter fun c => !g.UNINTERESTING c).Nodup)
    (hcount : ∀ c ∈ list, g.UNINTERESTING c = false → g.TREESAME c = false) :
    AllRight g q list := by
  have hnodes := mem_nodes g list
  have hl : Listed g (list.filter fun c => !g.UNINTERESTING c).reverse := by
    refine ⟨hdag, List.nodup_reverse.mpr hnodup, ?_, ?_, ?_⟩
    · exact fun c hc => ((hnodes c).mp hc).2
    · intro c hc p hp
      obtain ⟨hin, hinteresting⟩ := (hnodes c).mp hc
      exact (hnodes p).mpr ⟨hclosed c hin hinteresting p hp, hp.2⟩
    · intro c hc hsame
      obtain ⟨hin, hinteresting⟩ := (hnodes c).mp hc
      rw [hcount c hin hinteresting] at hsame
      cases hsame
  have hnr : list.countP (candidate g) =
      (list.filter fun c => !g.UNINTERESTING c).reverse.length := by
    rw [List.length_reverse, ← List.countP_eq_length_filter]
    apply List.countP_congr
    intro c hc
    unfold candidate
    cases hinteresting : g.UNINTERESTING c with
    | true => rfl
    | false =>
      rw [hcount c hc hinteresting]
      rfl
  have hfind : ∀ passes, find_bisection_all g q passes list =
      (do_find_bisection_all g q passes (list.filter fun c => !g.UNINTERESTING c).reverse
        ((list.filter fun c => !g.UNINTERESTING c).reverse.filter fun c =>
          !g.TREESAME c).length).map fun (best, reaches, decorations) =>
        ⟨((list.filter fun c => !g.UNINTERESTING c).reverse.filter fun c =>
          !g.TREESAME c).length, best, reaches, decorations⟩ := fun _ => rfl
  unfold AllRight
  rw [hnr]
  generalize (list.filter fun c => !g.UNINTERESTING c).reverse = nodes at hnodes hl hfind
  have hsame : ∀ c ∈ nodes, g.TREESAME c = false := by
    intro c hc
    obtain ⟨hin, hinteresting⟩ := (hnodes c).mp hc
    exact hcount c hin hinteresting
  have hfilter : (nodes.filter fun c => !g.TREESAME c) = nodes :=
    List.filter_eq_self.mpr fun c hc => by rw [hsame c hc]; rfl
  obtain ⟨hmerged, hmerges⟩ := count_merges_all_weighed hl (initial_weighed hl)
  obtain ⟨s, hs, hweighed, hknown⟩ := fill_loop_all_weighed hl nodes.length _ hmerged hmerges
    List.countP_le_length
  rw [List.countP_eq_length_filter, hfilter] at hs
  have hperm := sorted_dists_perm (g := g) q s.weight nodes
  have hback := write_back_eq nodes (sorted_dists g q s.weight nodes)
  have hlen := hperm.length_eq
  rw [List.length_map, hfilter] at hlen
  rw [hlen, List.drop_length, List.take_nil, List.append_nil] at hback
  have hbest : (best_bisection_sorted g q s.weight nodes.length nodes).1 =
      (sorted_dists g q s.weight nodes).map (·.commit) := by
    rw [← hback (le_refl _)]
    unfold best_bisection_sorted sorted_dists
    rw [hfilter]
  rw [hfilter] at hperm
  refine ⟨nodes.length, ⟨nodes.length, (best_bisection_sorted g q s.weight nodes.length nodes).1,
    (best_bisection_sorted g q s.weight nodes.length nodes).1.head?.map s.weight,
    (best_bisection_sorted g q s.weight nodes.length nodes).2⟩, ?_, ?_, ?_, ?_⟩
  · rw [hfind, hfilter]
    unfold do_find_bisection_all
    dsimp only
    rw [hs]
    rfl
  · rw [hbest, hperm.nodup_iff]
    exact hl.nodup
  · intro c
    rw [hbest, hperm.mem_iff, hnodes]
    unfold candidate
    constructor
    · rintro ⟨hin, hinteresting⟩
      refine ⟨hin, ?_⟩
      rw [hinteresting, hcount c hin hinteresting]
      rfl
    · rintro ⟨hin, hcand⟩
      exact ⟨hin, by simpa using (Bool.and_eq_true_iff.mp hcand).1⟩
  · rw [hbest, List.pairwise_map]
    -- The distances are those that the weights stand for.
    have hdistance : ∀ e ∈ sorted_dists g q s.weight nodes,
        e.distance = (ruled_out g nodes.length e.commit : Int) := by
      intro e he
      have hmem : e.commit ∈ nodes := hperm.mem_iff.mp (List.mem_map_of_mem he)
      have hle := hl.reached_le hmem
      rw [List.countP_eq_length_filter, hfilter] at hle
      have hdist := commit_dists_distance ((q.perm _).mem_iff.mp he)
      rw [hfilter] at hdist
      rw [hdist]
      unfold distance ruled_out
      rw [hweighed.right _ hmem (hknown _ hmem (hsame _ hmem))]
      omega
    refine (q.sorted _).imp_of_mem ?_
    intro a b ha hb hab
    rw [compare_commit_dist_ne_gt, hdistance a ha, hdistance b hb] at hab
    simpa using hab

/-- The list of all that can be tested is right if and only if no commit is on it twice
and none that is interesting is TREESAME. -/
theorem find_bisection_all_right_iff [Fintype commit] (g : commit_graph commit)
    (sha1 : commit → Sha1) (q : qsort sha1) (list : List commit) (hdag : Dag g)
    (hclosed : ∀ c ∈ list, g.UNINTERESTING c = false → ∀ p, Step g c p → p ∈ list) :
    AllRight g q list ↔
      (list.filter fun c => !g.UNINTERESTING c).Nodup ∧
        ∀ c ∈ list, g.UNINTERESTING c = false → g.TREESAME c = false :=
  ⟨no_treesame_of_right, fun h => right_of_no_treesame hdag hclosed h.1 h.2⟩

/-- Names that differ in their last byte. -/
def numbered (c : Fin 3) : Sha1 := (Vector.replicate 20 0).set 19 (UInt8.ofNat c.val)

theorem three_commits (c : Fin 3) : c ∈ [0, 1, 2] := by
  revert c
  decide

theorem a_chain_is_listed : AllRight chain (insert_by_dist numbered) [0, 1, 2] :=
  (find_bisection_all_right_iff chain numbered (insert_by_dist numbered) [0, 1, 2]
    (Dag.of_order (by decide)) (fun _ _ _ p _ => three_commits p)).mpr ⟨by decide, by decide⟩

-- for the literals
local instance three : NeZero 3 := ⟨by decide⟩

/-- The middle of the chain is not to be tested. -/
def chain_with_treesame : commit_graph (Fin 3) := { chain with TREESAME := fun c => c = 1 }

/-- The node behind the two that are written still has commit 0. -/
theorem a_treesame_commit_leaves_a_node :
    (find_bisection_all chain_with_treesame (insert_by_dist numbered) 3 [0, 1, 2]).map (·.best) =
        some [2, 0, 0] ∧
      ¬∀ (g : commit_graph (Fin 3)) (sha1 : Fin 3 → Sha1) (q : qsort sha1) (list : List (Fin 3)),
        Dag g → (∀ c ∈ list, g.UNINTERESTING c = false → ∀ p, Step g c p → p ∈ list) →
          AllRight g q list := by
  refine ⟨by decide, fun h => ?_⟩
  have hright := h chain_with_treesame numbered (insert_by_dist numbered) [0, 1, 2]
    (Dag.of_order (by decide)) (fun _ _ _ p _ => three_commits p)
  exact absurd ((no_treesame_of_right hright).2 1 (by decide) rfl) (by decide)

end git.bisect
