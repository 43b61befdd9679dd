-- The merge sort for lists of `mergesort.c`: runs of 1, 2, 4, ... items are merged
-- in pairs, until one run is the whole list.
import Mathlib

namespace git.mergesort

variable {α : Type}

/-- One pass over the list. Of two equal items the one of the first run comes first. -/
def merge_runs (le : α → α → Bool) (l : Nat) : Nat → List α → List α
  | 0, list => list
  | fuel + 1, list =>
    if list = [] then []
    else
      ((list.take l).merge ((list.drop l).take l) le) ++
        merge_runs le l fuel (list.drop (l + l))

/-- The loop over the lengths of the runs. -/
def mergesort_loop (le : α → α → Bool) : Nat → Nat → List α → List α
  | 0, _, list => list
  | fuel + 1, l, list =>
    if list.length ≤ l then list
    else mergesort_loop le fuel (l + l) (merge_runs le l list.length list)

/-- `le a b`: the comparison of `a` with `b` does not say that `b` comes first. -/
def llist_mergesort (le : α → α → Bool) (list : List α) : List α :=
  mergesort_loop le list.length 1 list

variable {le : α → α → Bool}

theorem merge_runs_perm (l fuel : Nat) (list : List α) :
    (merge_runs le l fuel list).Perm list := by
  induction fuel generalizing list with
  | zero => exact List.Perm.refl list
  | succ fuel ih =>
    rw [merge_runs]
    split_ifs with hnil
    · rw [hnil]
    · have hmerge : ((list.take l).merge ((list.drop l).take l) le).Perm
          (list.take l ++ (list.drop l).take l) := List.merge_perm_append le
      refine (hmerge.append (ih (list.drop (l + l)))).trans ?_
      rw [← List.drop_drop, List.append_assoc, List.take_append_drop, List.take_append_drop]

theorem mergesort_loop_perm (fuel l : Nat) (list : List α) :
    (mergesort_loop le fuel l list).Perm list := by
  induction fuel generalizing l list with
  | zero => exact List.Perm.refl list
  | succ fuel ih =>
    rw [mergesort_loop]
    split_ifs with hdone
    · exact List.Perm.refl list
    · exact (ih _ _).trans (merge_runs_perm l list.length list)

theorem llist_mergesort_perm (le : α → α → Bool) (list : List α) :
    (llist_mergesort le list).Perm list := mergesort_loop_perm _ _ list

/-! ## The runs are sorted -/

/-- Each run of `l` items is sorted. -/
def RunsSorted (le : α → α → Bool) (l : Nat) (list : List α) : Prop :=
  ∀ k, ((list.drop (k * l)).take l).Pairwise fun a b => le a b = true

theorem RunsSorted.one (list : List α) : RunsSorted le 1 list := by
  intro k
  cases hdrop : list.drop (k * 1) with
  | nil => exact List.Pairwise.nil
  | cons a rest => exact List.pairwise_singleton _ a

theorem RunsSorted.drop {l : Nat} {list : List α} (h : RunsSorted le l list) (n : Nat) :
    RunsSorted le l (list.drop (n * l)) := by
  intro k
  rw [List.drop_drop, ← Nat.add_mul]
  exact h (n + k)

/-- A list that fits into its first run is sorted. -/
theorem RunsSorted.whole {l : Nat} {list : List α} (h : RunsSorted le l list)
    (hlength : list.length ≤ l) : list.Pairwise fun a b => le a b = true := by
  have hfirst := h 0
  rw [Nat.zero_mul, List.drop_zero, List.take_of_length_le hlength] at hfirst
  exact hfirst

theorem merge_runs_sorted (htrans : ∀ a b c, le a b = true → le b c = true → le a c = true)
    (htotal : ∀ a b, (le a b || le b a) = true) {l : Nat} (hl : 0 < l) (fuel : Nat) :
    ∀ list : List α, list.length ≤ fuel → RunsSorted le l list →
      RunsSorted le (l + l) (merge_runs le l fuel list) := by
  induction fuel with
  | zero =>
    intro list hlength _ k
    rw [List.length_eq_zero_iff.mp (Nat.le_zero.mp hlength), merge_runs, List.drop_nil,
      List.take_nil]
    exact List.Pairwise.nil
  | succ fuel ih =>
    intro list hlength h
    rw [merge_runs]
    split_ifs with hnil
    · intro k
      rw [List.drop_nil, List.take_nil]
      exact List.Pairwise.nil
    · have hpos := List.length_pos_iff.mpr hnil
      have hfirst := h 0
      have hsecond := h 1
      rw [Nat.zero_mul, List.drop_zero] at hfirst
      rw [Nat.one_mul] at hsecond
      have hmerged := List.pairwise_merge htrans htotal _ _ hfirst hsecond
      have hrest := ih (list.drop (l + l)) (by rw [List.length_drop]; omega)
        (by simpa [Nat.two_mul] using h.drop 2)
      have hcount : ((list.take l).merge ((list.drop l).take l) le).length =
          min (l + l) list.length := by
        rw [List.length_merge, List.length_take, List.length_take, List.length_drop]
        omega
      intro k
      by_cases hshort : list.length ≤ l + l
      · -- there is one run only
        have hempty : list.drop (l + l) = [] := List.drop_eq_nil_of_le hshort
        have hnone : merge_runs le l fuel ([] : List α) = [] := by
          have hperm : (merge_runs le l fuel ([] : List α)).Perm [] := merge_runs_perm l fuel []
          exact hperm.eq_nil
        rw [hempty, hnone, List.append_nil]
        exact (hmerged.sublist (List.drop_sublist _ _)).sublist (List.take_sublist _ _)
      · have hfull : ((list.take l).merge ((list.drop l).take l) le).length = l + l := by
          rw [hcount]
          omega
        cases k with
        | zero =>
          rw [Nat.zero_mul, List.drop_zero, List.take_append_of_le_length hfull.ge,
            List.take_of_length_le hfull.le]
          exact hmerged
        | succ k =>
          have hindex : (k + 1) * (l + l) =
              ((list.take l).merge ((list.drop l).take l) le).length + k * (l + l) := by
            rw [hfull]
            ring
          rw [hindex, List.drop_append, List.drop_eq_nil_of_le (Nat.le_add_right _ _),
            List.nil_append, Nat.add_sub_cancel_left]
          exact hrest k

theorem mergesort_loop_sorted
    (htrans : ∀ a b c, le a b = true → le b c = true → le a c = true)
    (htotal : ∀ a b, (le a b || le b a) = true) (fuel : Nat) :
    ∀ (l : Nat) (list : List α), 0 < l → list.length ≤ l + fuel → RunsSorted le l list →
      (mergesort_loop le fuel l list).Pairwise fun a b => le a b = true := by
  induction fuel with
  | zero => exact fun l list _ hlength h => h.whole hlength
  | succ fuel ih =>
    intro l list hl hlength h
    rw [mergesort_loop]
    split_ifs with hdone
    · exact h.whole hdone
    · apply ih
      · omega
      · rw [(merge_runs_perm l list.length list).length_eq]
        omega
      · exact merge_runs_sorted htrans htotal hl list.length list (le_refl _) h

/-- The outcome is sorted. -/
theorem llist_mergesort_sorted
    (htrans : ∀ a b c, le a b = true → le b c = true → le a c = true)
    (htotal : ∀ a b, (le a b || le b a) = true) (list : List α) :
    (llist_mergesort le list).Pairwise fun a b => le a b = true :=
  mergesort_loop_sorted htrans htotal list.length 1 list Nat.one_pos (Nat.le_add_left _ _)
    (RunsSorted.one list)

/-! ## Items of one rank keep their order -/

/-- Neither has to come before the other. -/
def same (le : α → α → Bool) (a b : α) : Bool := le a b && le b a

theorem merge_same (htrans : ∀ a b c, le a b = true → le b c = true → le a c = true) (a : α)
    {xs ys : List α} (hx : xs.Pairwise fun a b => le a b = true) :
    (xs.merge ys le).filter (same le a) = xs.filter (same le a) ++ ys.filter (same le a) := by
  induction xs generalizing ys with
  | nil => rw [List.nil_merge, List.filter_nil, List.nil_append]
  | cons x xs ihx =>
    induction ys with
    | nil => rw [List.merge_right, List.filter_nil, List.append_nil]
    | cons y ys ihy =>
      obtain ⟨hfirst, hrest⟩ := List.pairwise_cons.mp hx
      rw [List.cons_merge_cons]
      split_ifs with hle
      · rw [List.filter_cons, ihx hrest, List.filter_cons (x := x)]
        split_ifs <;> rfl
      · rw [List.filter_cons, ihy, List.filter_cons (x := y)]
        split_ifs with hsame
        · -- what has the rank of `y` does not come from `x` on
          have hnone : (x :: xs).filter (same le a) = [] := by
            rw [List.filter_eq_nil_iff]
            intro z hz hza
            unfold same at hza hsame
            rw [Bool.and_eq_true] at hza hsame
            have hzy := htrans z a y hza.2 hsame.1
            rcases List.mem_cons.mp hz with rfl | hz
            · exact hle hzy
            · exact hle (htrans x z y (hfirst z hz) hzy)
          rw [hnone]
          rfl
        · rfl

theorem merge_runs_same (htrans : ∀ a b c, le a b = true → le b c = true → le a c = true) (a : α)
    {l : Nat} (fuel : Nat) : ∀ {list : List α}, RunsSorted le l list →
      (merge_runs le l fuel list).filter (same le a) = list.filter (same le a) := by
  induction fuel with
  | zero => exact fun _ => rfl
  | succ fuel ih =>
    intro list h
    rw [merge_runs]
    split_ifs with hnil
    · rw [hnil]
    · have hfirst := h 0
      rw [Nat.zero_mul, List.drop_zero] at hfirst
      rw [List.filter_append, ih (Nat.two_mul l ▸ h.drop 2), merge_same htrans a hfirst,
        ← List.filter_append, ← List.filter_append, ← List.drop_drop, List.append_assoc,
        List.take_append_drop, List.take_append_drop]

/-- The sort is stable. -/
theorem mergesort_loop_same
    (htrans : ∀ a b c, le a b = true → le b c = true → le a c = true)
    (htotal : ∀ a b, (le a b || le b a) = true) (a : α) (fuel : Nat) :
    ∀ {l : Nat} {list : List α}, 0 < l → RunsSorted le l list →
      (mergesort_loop le fuel l list).filter (same le a) = list.filter (same le a) := by
  induction fuel with
  | zero => exact fun _ _ => rfl
  | succ fuel ih =>
    intro l list hl h
    rw [mergesort_loop]
    split_ifs
    · rfl
    · rw [ih (by omega) (merge_runs_sorted htrans htotal hl list.length list (le_refl _) h),
        merge_runs_same htrans a _ h]

end git.mergesort
