-- `llist_mergesort` of `mergesort.c` on the links themselves: what it makes of them is what
-- the merges of the runs make of the list of the nodes.
import Git.Mergesort
import Git.Lib.Forest
import Git.Lib.Turns

namespace git.llist

open forest (Chain)
open turns (Ends)
open git.mergesort (merge_runs mergesort_loop RunsSorted)

variable {α : Type}

/-! ## Ways along the links -/

theorem chain_head {next : α → Option α} {o : Option α} {l : List α} (h : Chain next o l) :
    o = l.head? := by
  cases l with
  | nil => exact h
  | cons a l => exact h.1

theorem chain_drop {next : α → Option α} {o : Option α} {l : List α} (h : Chain next o l)
    (n : Nat) : Chain next (l.drop n).head? (l.drop n) := by
  induction n generalizing o l with
  | zero => exact chain_head h ▸ h
  | succ n ih =>
    cases l with
    | nil => rfl
    | cons a l => exact ih h.2

/-- The links lead from `a` through `l`, and the last node is `b`. -/
def Path (next : α → Option α) : α → List α → α → Prop
  | a, [], b => a = b
  | a, c :: l, b => next a = some c ∧ Path next c l b

theorem Path.append {next : α → Option α} {a b c : α} {l l' : List α} (h : Path next a l b)
    (h' : Path next b l' c) : Path next a (l ++ l') c := by
  induction l generalizing a with
  | nil => exact (show a = b from h) ▸ h'
  | cons d l ih => exact ⟨h.1, ih h.2⟩

theorem Path.mem_last {next : α → Option α} {a b : α} {l : List α} (h : Path next a l b) :
    b ∈ a :: l := by
  induction l generalizing a with
  | nil => exact (show a = b from h) ▸ List.mem_cons_self
  | cons c l ih => exact List.mem_cons_of_mem a (ih h.2)

/-- The link of the last node does not matter. -/
theorem Path.congr {next next' : α → Option α} {a b : α} {l : List α} (h : Path next a l b)
    (hnodup : (a :: l).Nodup) (hsame : ∀ x ∈ a :: l, x ≠ b → next' x = next x) :
    Path next' a l b := by
  induction l generalizing a with
  | nil => exact h
  | cons c l ih =>
    refine ⟨?_, ih h.2 hnodup.of_cons fun x hx => hsame x (List.mem_cons_of_mem a hx)⟩
    rw [hsame a List.mem_cons_self, h.1]
    rintro rfl
    exact (List.nodup_cons.mp hnodup).1 (Path.mem_last h.2)

theorem Path.chain [DecidableEq α] {next : α → Option α} {a b : α} {l : List α}
    (h : Path next a l b) (hnodup : (a :: l).Nodup) :
    Chain (Function.update next b none) (some a) (a :: l) := by
  induction l generalizing a with
  | nil =>
    obtain rfl : a = b := h
    exact ⟨rfl, Function.update_self ..⟩
  | cons c l ih =>
    refine ⟨rfl, ?_⟩
    have hne : a ≠ b := by
      rintro rfl
      exact (List.nodup_cons.mp hnodup).1 h.2.mem_last
    rw [Function.update_of_ne hne, h.1]
    exact ih h.2 hnodup.of_cons

/-! ## The source -/

structure mergesort_sublist (α : Type) where
  ptr : Option α
  len : Nat

/-- `get_nth_next`. -/
def get_nth_next (next : α → Option α) : Nat → Option α → Option α
  | n + 1, some list => get_nth_next next n (next list)
  | _, list => list

/-- `pop_item`. It follows `l->ptr`, so there is no value for a NULL. -/
def pop_item (next : α → Option α) (l : mergesort_sublist α) :
    Option (α × mergesort_sublist α) :=
  l.ptr.map fun p => (p, ⟨next p, if (next p).isSome then l.len - 1 else 0⟩)

def pop_p (next : α → Option α) (p q : mergesort_sublist α) :
    Option (α × mergesort_sublist α × mergesort_sublist α) :=
  (pop_item next p).map fun popped => (popped.1, popped.2, q)

def pop_q (next : α → Option α) (p q : mergesort_sublist α) :
    Option (α × mergesort_sublist α × mergesort_sublist α) :=
  (pop_item next q).map fun popped => (popped.1, p, popped.2)

/-- Of two equal items the one of `p` is popped. -/
def pop_smaller (compare_fn : α → α → Int) (next : α → Option α) (p q : mergesort_sublist α) :
    Option (α × mergesort_sublist α × mergesort_sublist α) := do
  let a ← p.ptr
  let b ← q.ptr
  if compare_fn a b > 0 then pop_q next p q else pop_p next p q

/-- The item that the inner loop pops: from the run that is left, or the smaller one. -/
def pop_next (compare_fn : α → α → Int) (next : α → Option α) (p q : mergesort_sublist α) :
    Option (α × mergesort_sublist α × mergesort_sublist α) :=
  if p.len = 0 then pop_q next p q
  else if q.len = 0 then pop_p next p q
  else pop_smaller compare_fn next p q

/-! ## Runs -/

theorem get_nth_next_chain {next : α → Option α} {o : Option α} {l : List α}
    (h : Chain next o l) (n : Nat) : get_nth_next next n o = (l.drop n).head? := by
  induction n generalizing o l with
  | zero =>
    rw [chain_head h, List.drop_zero]
    cases l.head? <;> rfl
  | succ n ih =>
    cases l with
    | nil => rw [show o = none from h]; rfl
    | cons a l =>
      rw [h.1]
      exact ih h.2

/-- The items that are popped until none is counted, and what the pointer is then. -/
def Gives (next : α → Option α) : mergesort_sublist α → List α → Option α → Prop
  | l, [], after => l.len = 0 ∧ l.ptr = after
  | l, x :: xs, after => l.len ≠ 0 ∧ l.ptr = some x ∧
      Gives next ⟨next x, if (next x).isSome then l.len - 1 else 0⟩ xs after

theorem Gives.congr {next next' : α → Option α} {l : mergesort_sublist α} {xs : List α}
    {after : Option α} (h : Gives next l xs after) (hsame : ∀ x ∈ xs, next' x = next x) :
    Gives next' l xs after := by
  induction xs generalizing l with
  | nil => exact h
  | cons x xs ih =>
    refine ⟨h.1, h.2.1, ?_⟩
    rw [hsame x List.mem_cons_self]
    exact ih h.2.2 fun y hy => hsame y (List.mem_cons_of_mem x hy)

theorem Gives.len_eq_zero {next : α → Option α} {l : mergesort_sublist α} {xs : List α}
    {after : Option α} (h : Gives next l xs after) : l.len = 0 ↔ xs = [] := by
  cases xs with
  | nil => exact iff_of_true h.1 rfl
  | cons x xs => exact iff_of_false h.1 (List.cons_ne_nil x xs)

theorem Gives.ptr_ne_none {next : α → Option α} {l : mergesort_sublist α} {xs : List α}
    {after : Option α} (h : Gives next l xs after) (hafter : after ≠ none) : l.ptr ≠ none := by
  cases xs with
  | nil => exact h.2 ▸ hafter
  | cons x xs => exact h.2.1 ▸ Option.some_ne_none x

/-- A run of `l` nodes, or what is left of one at the end of the list. -/
theorem gives_run {next : α → Option α} {list : List α} (l : Nat)
    (h : Chain next list.head? list) :
    Gives next ⟨list.head?, if list.head?.isSome then l else 0⟩ (list.take l)
      (list.drop l).head? := by
  induction l generalizing list with
  | zero => exact ⟨ite_self 0, rfl⟩
  | succ l ih =>
    cases list with
    | nil => exact ⟨rfl, rfl⟩
    | cons x list =>
      refine ⟨Nat.succ_ne_zero l, rfl, ?_⟩
      have hnext := chain_head h.2
      rw [hnext]
      exact ih (hnext ▸ h.2)

/-- `le` of the list of the nodes: the comparison does not say that the second comes first. -/
def le (compare_fn : α → α → Int) (a b : α) : Bool := decide (compare_fn a b ≤ 0)

variable {compare_fn : α → α → Int}

theorem pop_p_gives {next : α → Option α} {p : mergesort_sublist α} (q : mergesort_sublist α)
    {x : α} {xs : List α} {after : Option α} (h : Gives next p (x :: xs) after) :
    ∃ p', pop_p next p q = some (x, p', q) ∧ Gives next p' xs after :=
  ⟨_, by rw [pop_p, pop_item, h.2.1]; rfl, h.2.2⟩

theorem pop_q_gives {next : α → Option α} (p : mergesort_sublist α) {q : mergesort_sublist α}
    {y : α} {ys : List α} {after : Option α} (h : Gives next q (y :: ys) after) :
    ∃ q', pop_q next p q = some (y, p, q') ∧ Gives next q' ys after :=
  ⟨_, by rw [pop_q, pop_item, h.2.1]; rfl, h.2.2⟩

/-- What one pop takes from the two runs is what the merge of them starts with. -/
theorem pop_smaller_gives {next : α → Option α} {p q : mergesort_sublist α} {x y : α}
    {xs ys : List α} {afterp after : Option α} (hp : Gives next p (x :: xs) afterp)
    (hq : Gives next q (y :: ys) after) :
    ∃ item p' q' xs' ys', pop_smaller compare_fn next p q = some (item, p', q') ∧
      Gives next p' xs' afterp ∧ Gives next q' ys' after ∧
      (x :: xs).merge (y :: ys) (le compare_fn) = item :: xs'.merge ys' (le compare_fn) ∧
      (x :: xs ++ y :: ys).Perm (item :: (xs' ++ ys')) := by
  rw [pop_smaller, hp.2.1, hq.2.1, List.cons_merge_cons]
  by_cases hle : compare_fn x y ≤ 0
  · obtain ⟨p', hpop, hp'⟩ := pop_p_gives q hp
    refine ⟨x, p', q, xs, y :: ys, ?_, hp', hq, ?_, List.Perm.refl _⟩
    · exact (if_neg (Int.not_lt.mpr hle)).trans hpop
    · exact if_pos (decide_eq_true hle)
  · obtain ⟨q', hpop, hq'⟩ := pop_q_gives p hq
    refine ⟨y, p, q', x :: xs, ys, ?_, hp, hq', ?_, List.perm_middle⟩
    · exact (if_pos (Int.not_le.mp hle)).trans hpop
    · exact if_neg fun h => hle (of_decide_eq_true h)

theorem pop_next_gives {next : α → Option α} {p q : mergesort_sublist α} {xs ys : List α}
    {afterp after : Option α} (hp : Gives next p xs afterp) (hq : Gives next q ys after)
    (hne : xs ++ ys ≠ []) :
    ∃ item p' q' xs' ys', pop_next compare_fn next p q = some (item, p', q') ∧
      Gives next p' xs' afterp ∧ Gives next q' ys' after ∧
      xs.merge ys (le compare_fn) = item :: xs'.merge ys' (le compare_fn) ∧
      (xs ++ ys).Perm (item :: (xs' ++ ys')) := by
  unfold pop_next
  cases xs with
  | nil =>
    cases ys with
    | nil => exact absurd rfl hne
    | cons y ys =>
      obtain ⟨q', hpop, hq'⟩ := pop_q_gives p hq
      refine ⟨y, p, q', [], ys, ?_, hp, hq', ?_, List.Perm.refl _⟩
      · rw [if_pos hp.1, hpop]
      · rw [List.nil_merge, List.nil_merge]
  | cons x xs =>
    rw [if_neg hp.1]
    cases ys with
    | nil =>
      obtain ⟨p', hpop, hp'⟩ := pop_p_gives q hp
      refine ⟨x, p', q, xs, [], ?_, hp', hq, ?_, List.Perm.refl _⟩
      · rw [if_pos hq.1, hpop]
      · rw [List.merge_right, List.merge_right]
    | cons y ys =>
      rw [if_neg hq.1]
      exact pop_smaller_gives hp hq

/-! ## The loops of the source -/

variable [DecidableEq α]

/-- `while (p.len || q.len)`: two runs become one behind `curr`. -/
def merge_loop (compare_fn : α → α → Int) : Nat → (α → Option α) → α → mergesort_sublist α →
    mergesort_sublist α → Option ((α → Option α) × α × mergesort_sublist α)
  | 0, _, _, _, _ => none
  | turns + 1, next, curr, p, q =>
    if p.len = 0 ∧ q.len = 0 then some (next, curr, q)
    else do
      let (item, p, q) ← pop_next compare_fn next p q
      merge_loop compare_fn turns (Function.update next curr (some item)) item p q

/-- `while (p.ptr)`: one pair of runs after the other. -/
def runs_loop (compare_fn : α → α → Int) (l : Nat) : Nat → (α → Option α) → α →
    mergesort_sublist α → mergesort_sublist α → Option ((α → Option α) × α)
  | 0, _, _, _, _ => none
  | turns + 1, next, curr, p, q =>
    if p.ptr = none then some (next, curr)
    else do
      let (next, curr, q) ← merge_loop compare_fn turns next curr p q
      let ptr := get_nth_next next l q.ptr
      runs_loop compare_fn l turns next curr ⟨q.ptr, l⟩ ⟨ptr, if ptr.isSome then l else 0⟩

/-- `for (l = 1; ; l *= 2)`. -/
def sort_loop (compare_fn : α → α → Int) : Nat → Nat → (α → Option α) → α →
    Option (α × (α → Option α))
  | 0, _, _, _ => none
  | turns + 1, l, next, list =>
    match get_nth_next next l (some list) with
    | none => some (list, next)
    | some second => do
      let (list, p, q) ← pop_smaller compare_fn next ⟨some list, l⟩ ⟨some second, l⟩
      let (next, curr) ← runs_loop compare_fn l turns next list p q
      sort_loop compare_fn turns (l * 2) (Function.update next curr none) list

/-- `llist_mergesort`: the new first node and the new links. -/
def llist_mergesort (compare_fn : α → α → Int) (turns : Nat) (next : α → Option α) :
    Option α → Option (Option α × (α → Option α))
  | none => some (none, next)
  | some list => (sort_loop compare_fn turns 1 next list).map fun r => (some r.1, r.2)

/-! ## What the loops do -/

/-- The merge of two runs behind `curr`. The links of all other nodes stay. -/
theorem merge_loop_spec (n : Nat) : ∀ {next : α → Option α} {curr : α}
    {p q : mergesort_sublist α} {xs ys : List α} {afterp after : Option α},
    xs.length + ys.length = n → Gives next p xs afterp → Gives next q ys after →
    (curr :: (xs ++ ys)).Nodup →
    ∃ next' curr' q',
      Ends (fun turns => merge_loop compare_fn turns next curr p q) (next', curr', q') ∧
      Path next' curr (xs.merge ys (le compare_fn)) curr' ∧ q'.ptr = after ∧
      ∀ a ∉ curr :: (xs ++ ys), next' a = next a := by
  induction n with
  | zero =>
    intro next curr p q xs ys afterp after hn hp hq _
    obtain rfl := List.length_eq_zero_iff.mp (show xs.length = 0 by omega)
    obtain rfl := List.length_eq_zero_iff.mp (show ys.length = 0 by omega)
    refine ⟨next, curr, q, (Ends.const _).step fun turns => ?_, ?_, hq.2, fun _ _ => rfl⟩
    · rw [merge_loop, if_pos ⟨hp.1, hq.1⟩]
    · rw [List.nil_merge]
      rfl
  | succ n ih =>
    intro next curr p q xs ys afterp after hn hp hq hnodup
    have hne : xs ++ ys ≠ [] := by
      rw [← List.length_pos_iff, List.length_append]
      omega
    obtain ⟨item, p', q', xs', ys', hpop, hp', hq', hmerge, hperm⟩ := pop_next_gives hp hq hne
    have hnodup' : (curr :: item :: (xs' ++ ys')).Nodup := (hperm.cons curr).nodup hnodup
    have hcurr := List.nodup_cons.mp hnodup'
    have hsame : ∀ a ∈ xs' ++ ys', Function.update next curr (some item) a = next a :=
      fun a ha => Function.update_of_ne
        (ne_of_mem_of_not_mem (List.mem_cons_of_mem item ha) hcurr.1) ..
    have hlen : xs'.length + ys'.length = n := by
      have := hperm.length_eq
      rw [List.length_append, List.length_cons, List.length_append] at this
      omega
    obtain ⟨next', curr', r, hends, hpath, hptr, hkeep⟩ := ih hlen
      (hp'.congr fun a ha => hsame a (List.mem_append_left _ ha))
      (hq'.congr fun a ha => hsame a (List.mem_append_right _ ha)) hcurr.2
    refine ⟨next', curr', r, hends.step fun turns => ?_, ?_, hptr, fun a ha => ?_⟩
    · rw [merge_loop, if_neg, hpop]
      · rfl
      · rw [hp.len_eq_zero, hq.len_eq_zero]
        rintro ⟨rfl, rfl⟩
        exact hne rfl
    · rw [hmerge]
      exact ⟨(hkeep curr hcurr.1).trans (Function.update_self ..), hpath⟩
    · rw [List.mem_cons, hperm.mem_iff, not_or] at ha
      rw [hkeep a ha.2, Function.update_of_ne ha.1]

omit [DecidableEq α] in
theorem rest_gives {next : α → Option α} {rest : List α} {l : Nat}
    (h : Chain next rest.head? rest) :
    Gives next ⟨rest.head?, if rest.head?.isSome then l else 0⟩ (rest.take l)
        (rest.drop l).head? ∧
      Gives next ⟨(rest.drop l).head?, if (rest.drop l).head?.isSome then l else 0⟩
        ((rest.drop l).take l) (rest.drop (l + l)).head? := by
  refine ⟨gives_run l h, ?_⟩
  rw [← List.drop_drop]
  exact gives_run l (chain_drop h l)

theorem runs_loop_turn {l : Nat} {next next' : α → Option α} {curr curr' : α}
    {p q q' : mergesort_sublist α} {r : (α → Option α) × α} (hp : p.ptr ≠ none)
    (hmerge : Ends (fun turns => merge_loop compare_fn turns next curr p q) (next', curr', q'))
    (hrest : Ends (fun turns => runs_loop compare_fn l turns next' curr' ⟨q'.ptr, l⟩
      ⟨get_nth_next next' l q'.ptr,
        if (get_nth_next next' l q'.ptr).isSome then l else 0⟩) r) :
    Ends (fun turns => runs_loop compare_fn l turns next curr p q) r := by
  refine (hmerge.bind (h := fun turns m => runs_loop compare_fn l turns m.1 m.2.1 ⟨m.2.2.ptr, l⟩
    ⟨get_nth_next m.1 l m.2.2.ptr,
      if (get_nth_next m.1 l m.2.2.ptr).isSome then l else 0⟩) hrest).step fun turns => ?_
  rw [runs_loop, if_neg hp]
  rfl

omit [DecidableEq α] in
theorem merge_runs_nil (l n : Nat) : merge_runs (le compare_fn) l n [] = [] :=
  (git.mergesort.merge_runs_perm l n []).eq_nil

/-- The runs from `p` and `q` on are merged in pairs behind `curr`. -/
theorem runs_loop_spec {l : Nat} (hl : 0 < l) (n : Nat) : ∀ {rest : List α}
    {next : α → Option α} {curr : α} {p q : mergesort_sublist α} {xs ys : List α}
    {afterp : Option α}, rest.length ≤ n → p.ptr ≠ none → Gives next p xs afterp →
    Gives next q ys rest.head? → Chain next rest.head? rest →
    (curr :: (xs ++ ys) ++ rest).Nodup →
    ∃ next' curr', Ends (fun turns => runs_loop compare_fn l turns next curr p q) (next', curr') ∧
      Path next' curr (xs.merge ys (le compare_fn) ++ merge_runs (le compare_fn) l n rest) curr' ∧
      ∀ a ∉ curr :: (xs ++ ys) ++ rest, next' a = next a := by
  induction n using Nat.strong_induction_on with
  | _ n ih =>
    intro rest next curr p q xs ys afterp hn hptr hp hq hrest hnodup
    obtain ⟨next1, curr1, q1, hends, hpath, hafter, hkeep⟩ :=
      merge_loop_spec _ rfl hp hq (List.nodup_append.mp hnodup).1
    have hdisj := List.disjoint_of_nodup_append hnodup
    have hrest1 : Chain next1 rest.head? rest :=
      hrest.congr fun a ha => hkeep a fun hin => hdisj hin ha
    cases rest with
    | nil =>
      refine ⟨next1, curr1, runs_loop_turn hptr hends ((Ends.const _).step fun turns => ?_), ?_, ?_⟩
      · exact if_pos hafter
      · rw [merge_runs_nil, List.append_nil]
        exact hpath
      · rwa [List.append_nil]
    | cons x rest =>
      obtain ⟨m, rfl⟩ : ∃ m, n = m + 1 := ⟨n - 1, by rw [List.length_cons] at hn; omega⟩
      obtain ⟨hgp, hgq⟩ := rest_gives (l := l) hrest1
      have hshort : ((x :: rest).drop (l + l)).length ≤ m := by
        rw [List.length_drop]
        omega
      have hsplit : (x :: rest).take l ++ ((x :: rest).drop l).take l ++ (x :: rest).drop (l + l) =
          x :: rest := by
        rw [← List.drop_drop, List.append_assoc, List.take_append_drop, List.take_append_drop]
      have hmem : ∀ a, a ∈ curr :: xs.merge ys (le compare_fn) ↔ a ∈ curr :: (xs ++ ys) :=
        fun a => ((List.merge_perm_append (le compare_fn)).cons curr).mem_iff
      have hcurr1 : curr1 ∈ curr :: (xs ++ ys) := (hmem curr1).mp hpath.mem_last
      have hnodup1 : (curr1 :: ((x :: rest).take l ++ ((x :: rest).drop l).take l) ++
          (x :: rest).drop (l + l)).Nodup := by
        rw [List.cons_append, hsplit, List.nodup_cons]
        exact ⟨fun h => hdisj hcurr1 h, (List.nodup_append.mp hnodup).2.1⟩
      obtain ⟨next2, curr2, hends2, hpath2, hkeep2⟩ := ih m (by omega)
        (p := ⟨(x :: rest).head?, l⟩) hshort (Option.some_ne_none x) hgp hgq
        (chain_drop hrest1 (l + l)) hnodup1
      rw [List.cons_append, hsplit] at hkeep2
      refine ⟨next2, curr2, runs_loop_turn hptr hends ?_, ?_, fun a ha => ?_⟩
      · rw [hafter, get_nth_next_chain hrest1]
        exact hends2
      · rw [merge_runs, if_neg (List.cons_ne_nil x rest)]
        refine (hpath.congr ?_ fun a ha hne => hkeep2 a ?_).append hpath2
        · exact (((List.merge_perm_append (le compare_fn)).cons curr).nodup_iff).mpr
            (List.nodup_append.mp hnodup).1
        · rw [List.mem_cons, not_or]
          exact ⟨hne, fun h => hdisj ((hmem a).mp ha) h⟩
      · rw [List.mem_append, not_or] at ha
        rw [hkeep2 a, hkeep a ha.1]
        rw [List.mem_cons, not_or]
        exact ⟨fun h => ha.1 (h ▸ hcurr1), ha.2⟩

/-- A pass over the list, and the passes after it. -/
theorem sort_loop_spec (n : Nat) : ∀ {l : Nat} {next : α → Option α} {list : α}
    {nodes : List α}, 0 < l → nodes.length ≤ l + n → Chain next (some list) nodes →
    nodes.Nodup →
    ∃ list' next', Ends (fun turns => sort_loop compare_fn turns l next list) (list', next') ∧
      Chain next' (some list') (mergesort_loop (le compare_fn) n l nodes) := by
  induction n with
  | zero =>
    intro l next list nodes hl hlen hchain _
    refine ⟨list, next, (Ends.const _).step fun turns => ?_, hchain⟩
    rw [sort_loop, get_nth_next_chain hchain, List.drop_eq_nil_of_le (Nat.add_zero l ▸ hlen)]
    rfl
  | succ n ih =>
    intro l next list nodes hl hlen hchain hnodup
    rw [mergesort_loop]
    by_cases hdone : nodes.length ≤ l
    · rw [if_pos hdone]
      refine ⟨list, next, (Ends.const _).step fun turns => ?_, hchain⟩
      rw [sort_loop, get_nth_next_chain hchain, List.drop_eq_nil_of_le hdone]
      rfl
    · rw [if_neg hdone]
      have hhead := chain_head hchain
      obtain ⟨x, xs, hrun1⟩ := List.exists_cons_of_ne_nil (l := nodes.take l) (by
        rw [← List.length_pos_iff, List.length_take]
        omega)
      obtain ⟨second, behind, hdrop⟩ := List.exists_cons_of_ne_nil (l := nodes.drop l) (by
        rw [← List.length_pos_iff, List.length_drop]
        omega)
      obtain ⟨hgp, hgq⟩ := rest_gives (l := l) (hhead ▸ hchain)
      obtain ⟨k, hk⟩ : ∃ k, nodes.length = k + 1 := ⟨nodes.length - 1, by omega⟩
      rw [hrun1, ← hhead, hdrop] at hgp
      obtain ⟨y, ys, hrun2⟩ : ∃ y ys, (nodes.drop l).take l = y :: ys := by
        rw [hdrop]
        exact ⟨second, behind.take (l - 1), List.take_cons (by omega)⟩
      rw [hrun2, hdrop] at hgq
      obtain ⟨curr, p, q, xs', ys', hpop, hp, hq, hmerge, hperm⟩ :=
        pop_smaller_gives hgp hgq
      have hruns : merge_runs (le compare_fn) l nodes.length nodes =
          curr :: (xs'.merge ys' (le compare_fn) ++
            merge_runs (le compare_fn) l k (nodes.drop (l + l))) := by
        rw [hk, merge_runs, if_neg (List.ne_nil_of_length_eq_add_one hk), hrun1, hrun2, hmerge]
        rfl
      have hall : (curr :: (xs' ++ ys') ++ nodes.drop (l + l)).Nodup := by
        rw [← (hperm.append_right _).nodup_iff, ← hrun1, ← hrun2, ← List.drop_drop,
          List.append_assoc, List.take_append_drop, List.take_append_drop]
        exact hnodup
      obtain ⟨next1, last, hends, hpath, -⟩ := runs_loop_spec hl k
        (by rw [List.length_drop]; omega) (hp.ptr_ne_none (Option.some_ne_none second)) hp hq
        (chain_drop (hhead ▸ hchain) (l + l)) hall
      have hperm' : (merge_runs (le compare_fn) l nodes.length nodes).Perm nodes :=
        git.mergesort.merge_runs_perm l nodes.length nodes
      have hnodup' := hperm'.nodup_iff.mpr hnodup
      have hlen' := hperm'.length_eq
      rw [hruns] at hnodup' hlen' ⊢
      obtain ⟨list', next', hends', hsorted⟩ := ih (l := l * 2) (by omega) (by omega)
        (hpath.chain hnodup') hnodup'
      refine ⟨list', next', (hends.bind (h := fun turns m => sort_loop compare_fn turns (l * 2)
        (Function.update m.1 m.2 none) curr) hends').step fun turns => ?_, Nat.mul_two l ▸ hsorted⟩
      rw [sort_loop, get_nth_next_chain hchain, hdrop]
      change (pop_smaller compare_fn next ⟨some list, l⟩ ⟨some second, l⟩).bind _ = _
      rw [show pop_smaller compare_fn next ⟨some list, l⟩ ⟨some second, l⟩ = _ from hpop]
      rfl

/-- A comparison whose sign is that of a total preorder. -/
structure Preorders (compare_fn : α → α → Int) : Prop where
  swap : ∀ a b, 0 < compare_fn a b ↔ compare_fn b a < 0
  trans : ∀ a b c, compare_fn a b ≤ 0 → compare_fn b c ≤ 0 → compare_fn a c ≤ 0

omit [DecidableEq α] in
theorem Preorders.same_iff (h : Preorders compare_fn) (a b : α) :
    git.mergesort.same (le compare_fn) a b = decide (compare_fn a b = 0) := by
  have hab := h.swap a b
  have hba := h.swap b a
  rw [git.mergesort.same, le, le, ← Bool.decide_and, decide_eq_decide]
  omega

/-- The sort ends with a NULL-terminated list of the same nodes, sorted, and nodes that compare
equal stay in their order. -/
theorem llist_mergesort_sorts {compare_fn : α → α → Int} (h : Preorders compare_fn)
    {next : α → Option α} {list : Option α} {nodes : List α} (hchain : Chain next list nodes)
    (hnodup : nodes.Nodup) :
    ∃ list' next' nodes',
      Ends (fun turns => llist_mergesort compare_fn turns next list) (list', next') ∧
      Chain next' list' nodes' ∧ nodes'.Perm nodes ∧
      (nodes'.Pairwise fun a b => compare_fn a b ≤ 0) ∧
      ∀ a, nodes'.filter (compare_fn a · = 0) = nodes.filter (compare_fn a · = 0) := by
  have htrans : ∀ a b c, le compare_fn a b = true → le compare_fn b c = true →
      le compare_fn a c = true := by
    intro a b c hab hbc
    exact decide_eq_true (h.trans a b c (of_decide_eq_true hab) (of_decide_eq_true hbc))
  have htotal : ∀ a b, (le compare_fn a b || le compare_fn b a) = true := by
    intro a b
    have hab := h.swap a b
    rw [le, le, ← Bool.decide_or, decide_eq_true_eq]
    omega
  have hperm := git.mergesort.llist_mergesort_perm (le compare_fn) nodes
  have hsorted := git.mergesort.llist_mergesort_sorted htrans htotal nodes
  have hsame : ∀ a, (git.mergesort.llist_mergesort (le compare_fn) nodes).filter
      (compare_fn a · = 0) = nodes.filter (compare_fn a · = 0) := by
    intro a
    simp only [← h.same_iff]
    exact git.mergesort.mergesort_loop_same htrans htotal a _ Nat.one_pos (RunsSorted.one nodes)
  cases list with
  | none =>
    obtain rfl : nodes = [] := by
      cases nodes with
      | nil => rfl
      | cons a nodes => cases hchain.1
    exact ⟨none, next, [], Ends.const _, rfl, List.Perm.refl _, List.Pairwise.nil, fun _ => rfl⟩
  | some list =>
    obtain ⟨list', next', hends, hsort⟩ := sort_loop_spec
      nodes.length Nat.one_pos (Nat.le_add_left ..) hchain hnodup
    exact ⟨some list', next', _, hends.map fun r => (some r.1, r.2), hsort, hperm,
      hsorted.imp of_decide_eq_true, hsame⟩

/-- The links 0, 1, 2, compared by parity: 1 goes behind, 0 and 2 keep their order. -/
theorem three_nodes_by_parity :
    Preorders (fun a b : Fin 3 => ((a.val % 2 : Nat) : Int) - (b.val % 2 : Nat)) ∧
      ∃ list' next' nodes',
        Ends (fun turns => llist_mergesort
          (fun a b : Fin 3 => ((a.val % 2 : Nat) : Int) - (b.val % 2 : Nat)) turns
          ![some 1, some 2, none] (some 0)) (list', next') ∧
        Chain next' list' nodes' ∧ nodes'.Perm [0, 1, 2] ∧
        (nodes'.Pairwise fun a b => ((a.val % 2 : Nat) : Int) - (b.val % 2 : Nat) ≤ 0) ∧
        ∀ a : Fin 3, nodes'.filter (fun b => ((a.val % 2 : Nat) : Int) - (b.val % 2 : Nat) = 0) =
          [0, 1, 2].filter (fun b => ((a.val % 2 : Nat) : Int) - (b.val % 2 : Nat) = 0) :=
  have h : Preorders (fun a b : Fin 3 => ((a.val % 2 : Nat) : Int) - (b.val % 2 : Nat)) :=
    ⟨by decide, by decide⟩
  ⟨h, llist_mergesort_sorts h ⟨rfl, rfl, rfl, rfl⟩ (by decide)⟩

end git.llist
