-- The merge bases of `commit.c`: commits are painted from both sides, by
-- date, and what more than one painting leaves is compared in pairs.
import Mathlib

namespace git.merge_bases

inductive mark where
  | PARENT1
  | PARENT2
  | STALE
  | RESULT
  deriving DecidableEq

instance : Fintype mark where
  elems := {.PARENT1, .PARENT2, .STALE, .RESULT}
  complete := by
    intro m
    cases m <;> simp

variable {commit : Type}

/-- The commits, and whether each of them can be parsed. -/
structure commit_graph (commit : Type) where
  parents : commit → List commit
  date : commit → Nat
  parse_commit : commit → Bool

/-- `object.flags` of each commit. -/
abbrev flag_map (commit : Type) := commit → Finset mark

def all_flags : Finset mark := {.PARENT1, .PARENT2, .STALE, .RESULT}

def commit_list_insert_by_date (g : commit_graph commit) (item : commit) :
    List commit → List commit
  | [] => [item]
  | p :: list =>
    if g.date p < g.date item then item :: p :: list
    else p :: commit_list_insert_by_date g item list

theorem length_insert_by_date (g : commit_graph commit) (item : commit) (list : List commit) :
    (commit_list_insert_by_date g item list).length = list.length + 1 := by
  induction list with
  | nil => rfl
  | cons p list ih =>
    unfold commit_list_insert_by_date
    split <;> simp [ih]

/-! ## The painting -/

structure painting (commit : Type) where
  flags : flag_map commit
  list : List commit
  result : List commit

/-- Whether a commit of the list is not stale. -/
def interesting (s : painting commit) : Bool := s.list.any fun c => mark.STALE ∉ s.flags c

variable [DecidableEq commit]

def painting.paint (s : painting commit) (c : commit) (flags : Finset mark) : painting commit :=
  { s with flags := Function.update s.flags c (s.flags c ∪ flags) }

/-- The loop over the parents. Where one cannot be parsed the flags are left
as they are. -/
def paint_parents (g : commit_graph commit) (flags : Finset mark) :
    List commit → painting commit → Except (flag_map commit) (painting commit)
  | [], s => .ok s
  | p :: parents, s =>
    if flags ⊆ s.flags p then paint_parents g flags parents s
    else if !g.parse_commit p then .error s.flags
    else
      paint_parents g flags parents
        { s.paint p flags with list := commit_list_insert_by_date g p s.list }

/-- The flags that a commit with these flags hands down. -/
def handed_down (flags : Finset mark) : Finset mark :=
  let flags := flags ∩ {.PARENT1, .PARENT2, .STALE}
  -- Mark parents of a found merge stale
  if flags = {.PARENT1, .PARENT2} then insert .STALE flags else flags

/-- One turn of the painting. -/
def pop (g : commit_graph commit) (s : painting commit) :
    Except (flag_map commit) (painting commit) :=
  match s.list with
  | [] => .ok s
  | c :: list =>
    let flags := handed_down (s.flags c)
    let s := { s with list := list }
    let s :=
      if s.flags c ∩ {.PARENT1, .PARENT2, .STALE} = {.PARENT1, .PARENT2} ∧
          mark.RESULT ∉ s.flags c then
        { s.paint c {.RESULT} with result := commit_list_insert_by_date g c s.result }
      else s
    paint_parents g flags (g.parents c) s

section

variable [Fintype commit]

/-- What is in the list, and the flags that no commit has yet. -/
def painting.room (s : painting commit) : Nat := s.list.length + ∑ c, (s.flags c)ᶜ.card

theorem missing_paint (s : painting commit) (c : commit) (flags : Finset mark) :
    ∑ d, ((s.paint c flags).flags d)ᶜ.card + (s.flags c)ᶜ.card =
      ∑ d, (s.flags d)ᶜ.card + (s.flags c ∪ flags)ᶜ.card := by
  have hrest : ∑ d ∈ Finset.univ.erase c, ((s.paint c flags).flags d)ᶜ.card =
      ∑ d ∈ Finset.univ.erase c, (s.flags d)ᶜ.card := by
    apply Finset.sum_congr rfl
    intro d hd
    simp only [painting.paint, Function.update_of_ne (Finset.ne_of_mem_erase hd)]
  have hnew := Finset.add_sum_erase Finset.univ (fun d => ((s.paint c flags).flags d)ᶜ.card)
    (Finset.mem_univ c)
  have hold := Finset.add_sum_erase Finset.univ (fun d => (s.flags d)ᶜ.card) (Finset.mem_univ c)
  simp only [painting.paint, Function.update_self] at hnew hrest ⊢
  omega

/-- Flags that are there already take no room. -/
theorem missing_union_le (f flags : Finset mark) : (f ∪ flags)ᶜ.card ≤ fᶜ.card :=
  Finset.card_le_card (Finset.compl_subset_compl.mpr Finset.subset_union_left)

theorem missing_union_lt {f flags : Finset mark} (h : ¬ flags ⊆ f) :
    (f ∪ flags)ᶜ.card < fᶜ.card := by
  apply Finset.card_lt_card
  refine ⟨Finset.compl_subset_compl.mpr Finset.subset_union_left, ?_⟩
  intro hsub
  have hle := Finset.compl_subset_compl.mp hsub
  exact h (Finset.subset_union_right.trans hle)

theorem paint_parents_room {g : commit_graph commit} {flags : Finset mark} {parents : List commit}
    {s t : painting commit} (h : paint_parents g flags parents s = .ok t) : t.room ≤ s.room := by
  induction parents generalizing s with
  | nil =>
    obtain rfl : s = t := by simpa [paint_parents] using h
    exact Nat.le_refl _
  | cons p parents ih =>
    unfold paint_parents at h
    split_ifs at h with hsub hparse
    · exact ih h
    · refine (ih h).trans ?_
      have hsum := missing_paint s p flags
      have hlt := missing_union_lt hsub
      simp only [painting.room, length_insert_by_date]
      omega

/-- A turn takes its commit out of the list. -/
theorem pop_room {g : commit_graph commit} {s t : painting commit} (hint : interesting s = true)
    (h : pop g s = .ok t) : t.room < s.room := by
  unfold pop at h
  cases hl : s.list with
  | nil => simp [interesting, hl] at hint
  | cons c list =>
    simp only [hl] at h
    refine Nat.lt_of_le_of_lt (paint_parents_room h) ?_
    have hsum := missing_paint s c {.RESULT}
    have hle := missing_union_le (s.flags c) {.RESULT}
    split_ifs
    · simp only [painting.room, painting.paint, hl, List.length_cons] at hsum ⊢
      omega
    · simp only [painting.room, hl, List.length_cons]
      omega

end

/-- The loop, until only stale commits are left. -/
def paint_loop [Fintype commit] (g : commit_graph commit) (s : painting commit) :
    Except (flag_map commit) (painting commit) :=
  if _hint : interesting s = true then
    match _h : pop g s with
    | .error flags => .error flags
    | .ok t => paint_loop g t
  else .ok s
  termination_by s.room
  decreasing_by exact pop_room _hint _h

variable [Fintype commit]

/-- The list before the loop. -/
def painting_start (g : commit_graph commit) (flags : flag_map commit) (one : commit)
    (twos : List commit) : painting commit :=
  twos.foldl
    (fun s two =>
      { s.paint two {.PARENT2} with list := commit_list_insert_by_date g two s.list })
    { flags := Function.update flags one (flags one ∪ {.PARENT1})
      list := [one]
      result := [] }

/-- The result of `merge_bases_many`, without the stale ones, and the flags
that it leaves. -/
def merge_bases_many (g : commit_graph commit) (flags : flag_map commit) (one : commit)
    (twos : List commit) : List commit × flag_map commit :=
  if one ∈ twos then ([one], flags)
  else if !(g.parse_commit one && twos.all g.parse_commit) then ([], flags)
  else
    match paint_loop g (painting_start g flags one twos) with
    | .error flags => ([], flags)
    | .ok s =>
      (s.result.foldl
        (fun result c =>
          if mark.STALE ∉ s.flags c then commit_list_insert_by_date g c result else result) [],
        s.flags)

/-! ## The marks are cleared -/

theorem marks_cleared_lt {flags : flag_map commit} {c : commit} {mark : Finset mark}
    (h : mark ∩ flags c ≠ ∅) :
    ∑ d, (Function.update flags c (flags c \ mark) d).card < ∑ d, (flags d).card := by
  have hlt : (flags c \ mark).card < (flags c).card := by
    apply Finset.card_lt_card
    refine ⟨Finset.sdiff_subset, ?_⟩
    intro hsub
    obtain ⟨m, hm⟩ := Finset.nonempty_iff_ne_empty.mpr h
    obtain ⟨hmark, hflag⟩ := Finset.mem_inter.mp hm
    exact (Finset.mem_sdiff.mp (hsub hflag)).2 hmark
  apply Finset.sum_lt_sum
  · intro d _
    by_cases hd : d = c
    · subst hd
      rw [Function.update_self]
      exact hlt.le
    · rw [Function.update_of_ne hd]
  · exact ⟨c, Finset.mem_univ c, by rwa [Function.update_self]⟩

/-- `clear_commit_marks` with its list. The commit that the inner loop goes on
with is on top of it. -/
def clear_commit_list (g : commit_graph commit) (mark : Finset mark) (flags : flag_map commit)
    (list : List commit) : flag_map commit :=
  match list with
  | [] => flags
  | c :: plist =>
    if hmark : mark ∩ flags c = ∅ then clear_commit_list g mark flags plist
    else
      have := marks_cleared_lt hmark
      let flags := Function.update flags c (flags c \ mark)
      match g.parents c with
      | [] => clear_commit_list g mark flags plist
      | p :: parents => clear_commit_list g mark flags (p :: (parents.reverse ++ plist))
  termination_by (∑ d, (flags d).card, list.length)

def clear_commit_marks (g : commit_graph commit) (flags : flag_map commit) (c : commit)
    (mark : Finset mark) : flag_map commit :=
  clear_commit_list g mark flags [c]

/-! ## The pairs -/

/-- `rslt[i]` and `rslt[j]` are dropped where the merge bases of the two hold
them. -/
def compare_pair (g : commit_graph commit) (s : List (Option commit) × flag_map commit)
    (ij : Nat × Nat) : List (Option commit) × flag_map commit :=
  match s.1.getD ij.1 none, s.1.getD ij.2 none with
  | some a, some b =>
    let (result, flags) := merge_bases_many g s.2 a [b]
    let flags := clear_commit_marks g flags a all_flags
    let flags := clear_commit_marks g flags b all_flags
    let rslt := if a ∈ result then s.1.set ij.1 none else s.1
    let rslt := if b ∈ result then rslt.set ij.2 none else rslt
    (rslt, flags)
  | _, _ => s

/-- `for (i = 0; i < cnt - 1; i++) for (j = i + 1; j < cnt; j++)` -/
def pairs (cnt : Nat) : List (Nat × Nat) :=
  (List.range (cnt - 1)).flatMap fun i => (List.range' (i + 1) (cnt - (i + 1))).map fun j => (i, j)

def clear_all (g : commit_graph commit) (flags : flag_map commit) (one : commit)
    (twos : List commit) : flag_map commit :=
  twos.foldl (fun flags two => clear_commit_marks g flags two all_flags)
    (clear_commit_marks g flags one all_flags)

def get_merge_bases_many (g : commit_graph commit) (flags : flag_map commit) (one : commit)
    (twos : List commit) (cleanup : Bool) : List commit × flag_map commit :=
  let (result, flags) := merge_bases_many g flags one twos
  if one ∈ twos then (result, flags)
  else if result.length ≤ 1 then (result, if cleanup then clear_all g flags one twos else flags)
  else
    -- There are more than one
    let flags := clear_all g flags one twos
    let (rslt, flags) := (pairs result.length).foldl (compare_pair g) (result.map some, flags)
    -- Surviving ones in rslt[] are the independent results
    (rslt.foldl
      (fun result c =>
        match c with
        | some c => commit_list_insert_by_date g c result
        | none => result) [], flags)

end git.merge_bases
