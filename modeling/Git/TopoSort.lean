-- The topological sort of `commit.c`: a commit is emitted when the last of its
-- children has been.
import Git.MergeBasesLaws
import Git.Mergesort

namespace git.topo_sort

open git.merge_bases

variable {commit : Type} [DecidableEq commit]

/-- `indegree` of each commit. -/
abbrev indegree_map (commit : Type) := commit → Nat

/-- Mark them and clear the indegree. -/
def mark_listed (list : List commit) (indegree : indegree_map commit) : indegree_map commit :=
  list.foldl (fun indegree c => Function.update indegree c 1) indegree

/-- A parent that is marked has one more child. -/
def count_child (indegree : indegree_map commit) (parent : commit) : indegree_map commit :=
  if indegree parent ≠ 0 then Function.update indegree parent (indegree parent + 1) else indegree

/-- Update the indegree. -/
def count_children (g : commit_graph commit) (list : List commit)
    (indegree : indegree_map commit) : indegree_map commit :=
  list.foldl (fun indegree c => (g.parents c).foldl count_child indegree) indegree

def commit_list_sort_by_date (g : commit_graph commit) (list : List commit) : List commit :=
  mergesort.llist_mergesort (fun a b => decide (g.date b ≤ g.date a)) list

/-- How a parent is put on the work list. -/
def enqueue (g : commit_graph commit) (lifo : Bool) (parent : commit) (work : List commit) :
    List commit :=
  if lifo then parent :: work else commit_list_insert_by_date g parent work

/-- The loop over the parents of an emitted commit. -/
def release_parents (g : commit_graph commit) (lifo : Bool) :
    List commit → List commit × indegree_map commit → List commit × indegree_map commit
  | [], s => s
  | parent :: parents, (work, indegree) =>
    if indegree parent = 0 then release_parents g lifo parents (work, indegree)
    else
      -- parents are only enqueued when all their children have been emitted
      release_parents g lifo parents
        (if indegree parent - 1 = 1 then enqueue g lifo parent work else work,
          Function.update indegree parent (indegree parent - 1))

structure sorting (commit : Type) where
  work : List commit
  indegree : indegree_map commit
  list : List commit

/-- One turn: the first commit of the work list is emitted. -/
def emit (g : commit_graph commit) (lifo : Bool) (s : sorting commit) (c : commit)
    (work : List commit) : sorting commit :=
  let (work, indegree) := release_parents g lifo (g.parents c) (work, s.indegree)
  { work := work
    indegree := Function.update indegree c 0
    list := s.list ++ [c] }

/-- What is on the work list, and the children that are still to be emitted. -/
def sorting.left [Fintype commit] (work : List commit) (indegree : indegree_map commit) : Nat :=
  work.length + ∑ c, indegree c

theorem sum_update [Fintype commit] (indegree : indegree_map commit) (c : commit) (n : Nat) :
    ∑ d, Function.update indegree c n d + indegree c = ∑ d, indegree d + n := by
  have hold := Finset.add_sum_erase Finset.univ indegree (Finset.mem_univ c)
  have hnew := Finset.sum_update_of_mem (Finset.mem_univ c) indegree n
  rw [Finset.sdiff_singleton_eq_erase] at hnew
  omega

omit [DecidableEq commit] in
theorem length_enqueue (g : commit_graph commit) (lifo : Bool) (parent : commit)
    (work : List commit) : (enqueue g lifo parent work).length = work.length + 1 := by
  unfold enqueue
  split_ifs
  · rfl
  · exact length_insert_by_date g parent work

theorem release_parents_left [Fintype commit] (g : commit_graph commit) (lifo : Bool) (parents : List commit) :
    ∀ s : List commit × indegree_map commit,
      sorting.left (release_parents g lifo parents s).1 (release_parents g lifo parents s).2 ≤
        sorting.left s.1 s.2 := by
  induction parents with
  | nil => exact fun s => le_refl _
  | cons parent parents ih =>
    rintro ⟨work, indegree⟩
    rw [release_parents]
    split_ifs with hzero hone
    · exact ih _
    · refine (ih _).trans ?_
      have hsum := sum_update indegree parent (indegree parent - 1)
      unfold sorting.left
      simp only
      rw [length_enqueue]
      omega
    · refine (ih _).trans ?_
      have hsum := sum_update indegree parent (indegree parent - 1)
      unfold sorting.left
      simp only
      omega

theorem emit_left [Fintype commit] (g : commit_graph commit) (lifo : Bool) {s : sorting commit} {c : commit}
    {work : List commit} (hwork : s.work = c :: work) :
    sorting.left (emit g lifo s c work).work (emit g lifo s c work).indegree <
      sorting.left s.work s.indegree := by
  have hle := release_parents_left g lifo (g.parents c) (work, s.indegree)
  unfold emit
  have hsum := sum_update (release_parents g lifo (g.parents c) (work, s.indegree)).2 c 0
  unfold sorting.left at hle ⊢
  simp only at hle ⊢
  rw [hwork, List.length_cons]
  omega

/-- Process the list in topological order. -/
def emit_loop [Fintype commit] (g : commit_graph commit) (lifo : Bool) (s : sorting commit) : sorting commit :=
  match _h : s.work with
  | [] => s
  | c :: work => emit_loop g lifo (emit g lifo s c work)
  termination_by sorting.left s.work s.indegree
  decreasing_by exact emit_left g lifo _h

/-- The sorted list, and the indegrees that are left. -/
def sort_in_topological_order [Fintype commit] (g : commit_graph commit) (lifo : Bool)
    (indegree : indegree_map commit) (list : List commit) :
    List commit × indegree_map commit :=
  let indegree := count_children g list (mark_listed list indegree)
  -- find the tips
  let work := list.filter fun c => indegree c = 1
  let work := if lifo then work else commit_list_sort_by_date g work
  let s := emit_loop g lifo { work := work, indegree := indegree, list := [] }
  (s.list, s.indegree)

end git.topo_sort
