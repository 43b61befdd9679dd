-- The choice of the next commit to test, of `bisect.c`: for each commit the number of
-- commits that it reaches, counted out for merges and handed on along single parents.
import Mathlib

namespace git.bisect

/-- The commits, with the flags that the walk left on them. -/
structure commit_graph (commit : Type) where
  parents : commit → List commit
  UNINTERESTING : commit → Bool
  TREESAME : commit → Bool

variable {commit : Type} [DecidableEq commit]

/-! ## Counting out -/

theorem uncounted_insert [Fintype commit] {COUNTED : Finset commit} {c : commit}
    (h : c ∉ COUNTED) : (insert c COUNTED)ᶜ.card < COUNTEDᶜ.card := by
  apply Finset.card_lt_card
  rw [Finset.compl_insert]
  exact Finset.erase_ssubset (Finset.mem_compl.mpr h)

/-- `count_distance`: the list holds what is left of the calls, the innermost first. -/
def count_distance [Fintype commit] (g : commit_graph commit) (nr : Nat) (COUNTED : Finset commit)
    (entries : List commit) : Nat × Finset commit :=
  match entries with
  | [] => (nr, COUNTED)
  | c :: entries =>
    if hseen : g.UNINTERESTING c = true ∨ c ∈ COUNTED then
      count_distance g nr COUNTED entries
    else
      have _hless := uncounted_insert (not_or.mp hseen).2
      match g.parents c with
      | [] => count_distance g (if g.TREESAME c then nr else nr + 1) (insert c COUNTED) entries
      -- the loop goes on with the first parent when the calls for the others are done
      | p :: parents =>
        count_distance g (if g.TREESAME c then nr else nr + 1) (insert c COUNTED)
          (parents ++ p :: entries)
  termination_by (COUNTEDᶜ.card, entries.length)
  decreasing_by
    · exact Prod.Lex.right _ (Nat.lt_succ_self _)
    · exact Prod.Lex.left _ _ _hless
    · exact Prod.Lex.left _ _ _hless

def clear_distance (list : List commit) (COUNTED : Finset commit) : Finset commit :=
  list.foldl (fun COUNTED c => COUNTED.erase c) COUNTED

/-! ## The weights -/

/-- The weights that `util` points to, the commits that have theirs, and the marks. -/
structure progress (commit : Type) where
  weight : commit → Int
  counted : Nat
  COUNTED : Finset commit

def progress.weight_set (s : progress commit) (c : commit) (weight : Int) : progress commit :=
  { s with weight := Function.update s.weight c weight }

def count_interesting_parents (g : commit_graph commit) (c : commit) : Nat :=
  ((g.parents c).filter fun p => !g.UNINTERESTING p).length

def halfway (g : commit_graph commit) (weight : commit → Int) (c : commit) (nr : Nat) : Bool :=
  -- Don't short-cut something we are not going to return!
  !g.TREESAME c && (2 * weight c - nr = -1 || 2 * weight c - nr = 0 || 2 * weight c - nr = 1)

/-- The loop that takes the best so far along. -/
def best_loop (g : commit_graph commit) (weight : commit → Int) (nr : Nat) :
    List commit → Option commit → Int → Option commit
  | [], best, _ => best
  | c :: list, best, best_distance =>
    if g.TREESAME c then best_loop g weight nr list best best_distance
    else
      let distance := if nr - weight c < weight c then nr - weight c else weight c
      if best_distance < distance then best_loop g weight nr list (some c) distance
      else best_loop g weight nr list best best_distance

def best_bisection (g : commit_graph commit) (weight : commit → Int) (nr : Nat)
    (list : List commit) : Option commit :=
  best_loop g weight nr list list.head? (-1)

/-- -1 for one parent, -2 for more than one. -/
def initial_weight (g : commit_graph commit) (s : progress commit) (c : commit) :
    progress commit :=
  match count_interesting_parents g c with
  | 0 =>
    if g.TREESAME c then s
    else { s.weight_set c 1 with counted := s.counted + 1 }
  | 1 => s.weight_set c (-1)
  | _ => s.weight_set c (-2)

/-- How a loop over the list ends: with a commit that is halfway, or at its end. -/
abbrev outcome (commit : Type) := Except (commit × progress commit) (progress commit)

/-- First count the distance of merges the usual way. -/
def count_merges [Fintype commit] (g : commit_graph commit) (nr : Nat) (all : List commit) :
    List commit → progress commit → outcome commit
  | [], s => .ok s
  | c :: list, s =>
    if g.UNINTERESTING c then count_merges g nr all list s
    else if s.weight c ≠ -2 then count_merges g nr all list s
    else
      let (distance, COUNTED) := count_distance g 0 s.COUNTED [c]
      let s := { s.weight_set c distance with COUNTED := clear_distance all COUNTED }
      if halfway g s.weight c nr then .error (c, s)
      else count_merges g nr all list { s with counted := s.counted + 1 }

/-- The first parent whose weight is known. -/
def known_parent (g : commit_graph commit) (weight : commit → Int) (c : commit) : Option commit :=
  (g.parents c).find? fun q => !g.UNINTERESTING q && 0 ≤ weight q

/-- Then fill the blanks using cheaper algorithm. -/
def fill_blanks (g : commit_graph commit) (nr : Nat) :
    List commit → progress commit → outcome commit
  | [], s => .ok s
  | c :: list, s =>
    if 0 ≤ s.weight c then fill_blanks g nr list s
    else
      match known_parent g s.weight c with
      | none => fill_blanks g nr list s
      | some q =>
        let s :=
          if g.TREESAME c then s.weight_set c (s.weight q)
          else { s.weight_set c (s.weight q + 1) with counted := s.counted + 1 }
        if halfway g s.weight c nr then .error (c, s)
        else fill_blanks g nr list s

/-- `while (counted < nr)`; `none` where that many passes are not enough. -/
def fill_loop (g : commit_graph commit) (nr : Nat) (list : List commit) :
    Nat → progress commit → Option (outcome commit)
  | 0, s => if s.counted < nr then none else some (.ok s)
  | passes + 1, s =>
    if s.counted < nr then
      match fill_blanks g nr list s with
      | .error found => some (.error found)
      | .ok s => fill_loop g nr list passes s
    else some (.ok s)

/-- The commit and its weight. -/
def do_find_bisection [Fintype commit] (g : commit_graph commit) (list : List commit) (nr : Nat) :
    Option (Option (commit × Int)) :=
  let s := list.foldl (initial_weight g) { weight := fun _ => 0, counted := 0, COUNTED := ∅ }
  match count_merges g nr list list s with
  | .error (c, s) => some (some (c, s.weight c))
  | .ok s =>
    (fill_loop g nr list list.length s).map fun s =>
      match s with
      | .error (c, s) => some (c, s.weight c)
      | .ok s => (best_bisection g s.weight nr list).map fun c => (c, s.weight c)

/-- `*all`, and the commit with `*reaches`, without `find_all`. `none`: it does not end. -/
def find_bisection [Fintype commit] (g : commit_graph commit) (list : List commit) :
    Option (Nat × Option (commit × Int)) :=
  -- drop the uninteresting ones, while reversing the list
  let list := (list.filter fun c => !g.UNINTERESTING c).reverse
  let nr := (list.filter fun c => !g.TREESAME c).length
  (do_find_bisection g list nr).map fun best => (nr, best)

end git.bisect
