-- The threads of the delta search (`builtin/pack-objects.c`): how the main
-- thread splits the list of objects between its workers, and how an idle
-- worker is given half of what another one has left. What is done under one
-- lock is one step.
import Git.Lib.Runs

open runs

namespace git.delta_search

/-! ## The split -/

/-- `list[pos]->hash` -/
def hash_at (objs : List (BitVec 32)) (pos : Nat) : BitVec 32 := objs.getD pos 0

/-- The object at `pos` is on the path of the one before it. -/
def same_path (objs : List (BitVec 32)) (pos : Nat) : Bool :=
  hash_at objs pos != 0 && hash_at objs pos == hash_at objs (pos - 1)

/-- `while (sub_size && sub_size < list_size && ...) sub_size++`, with `left`
objects after the segment. -/
def grow (objs : List (BitVec 32)) (list : Nat) : Nat → Nat → Nat
  | 0, sub_size => sub_size
  | left + 1, sub_size =>
    if sub_size ≠ 0 ∧ same_path objs (list + sub_size) then grow objs list left (sub_size + 1)
    else sub_size

/-- The size of segment `i` of `threads`, which starts at `list` with
`list_size` objects to share out. -/
def segment_size (objs : List (BitVec 32)) (window threads i list list_size : Nat) : Nat :=
  let sub_size := list_size / (threads - i)
  -- don't use too small segments or no deltas will be found
  let sub_size := if sub_size < 2 * window ∧ i + 1 < threads then 0 else sub_size
  grow objs list (list_size - sub_size) sub_size

/-- `list` before turn `i` of the partition. -/
def segment_start (objs : List (BitVec 32)) (window threads : Nat) : Nat → Nat
  | 0 => 0
  | i + 1 =>
    let list := segment_start objs window threads i
    list + segment_size objs window threads i list (objs.length - list)

/-! ## The threads -/

structure thread_params where
  list : Nat
  list_size : Nat
  remaining : Nat
  working : Bool
  data_ready : Bool

/-- Where a worker stands. -/
inductive worker_pc where
  | unstarted
  /-- Before `while (me->remaining)`. -/
  | test
  /-- Before `find_deltas` takes `me->list`. -/
  | call
  /-- In the loop of `find_deltas`, with its own `list`. -/
  | searching (list : Nat)
  /-- Out of `find_deltas`. -/
  | done
  /-- Before the wait for `data_ready`. -/
  | waiting
  | exited
  deriving DecidableEq

/-- Where the main thread stands. -/
inductive main_pc (n : Nat) where
  /-- In `find_deltas` itself, without workers. -/
  | searching (list list_size : Nat)
  /-- Before turn `i` of the loop that starts the workers. -/
  | starting (i : Nat)
  /-- Before `while (active_threads)`. -/
  | choosing
  /-- `target` was given `sub_size` objects, and is to be told. -/
  | telling (target : Fin n) (sub_size : Nat)
  | joining (target : Fin n)
  | ended
  deriving DecidableEq

/-- A dequeue: who took which object, from which segment. -/
structure dequeue (n : Nat) where
  who : Option (Fin n)
  object : Nat
  list : Nat
  list_size : Nat

structure state (n : Nat) where
  p : Fin n → thread_params
  pc : Fin n → worker_pc
  main : main_pc n
  active_threads : Nat
  /-- What was dequeued so far. -/
  log : List (dequeue n)
  /-- The workers that were told that there is no more work. -/
  told : Fin n → Bool

/-- Segment `i` of the partition. -/
def partition (objs : List (BitVec 32)) (window threads i : Nat) : thread_params :=
  let list := segment_start objs window threads i
  let sub_size := segment_size objs window threads i list (objs.length - list)
  { list := list, list_size := sub_size, remaining := sub_size, working := true,
    data_ready := false }

/-- Before the first step. With one thread there is nothing to share out. -/
def ll_find_deltas (objs : List (BitVec 32)) (window threads : Nat) : state threads where
  p i := if threads ≤ 1 then ⟨0, 0, 0, true, false⟩ else partition objs window threads i
  pc _ := .unstarted
  main := if threads ≤ 1 then .searching 0 objs.length else .starting 0
  active_threads := 0
  log := []
  told _ := false

variable {n : Nat}

def state.set_p (s : state n) (i : Fin n) (me : thread_params) : state n :=
  { s with p := Function.update s.p i me }

def state.set_pc (s : state n) (i : Fin n) (pc : worker_pc) : state n :=
  { s with pc := Function.update s.pc i pc }

/-! ## The steal -/

/-- The first thread that is not working. -/
def find_target (s : state n) : Option (Fin n) := (List.finRange n).find? (fun i => !(s.p i).working)

/-- One turn of the loop that looks for the victim. -/
def better_victim (s : state n) (window : Nat) (victim : Option (Fin n)) (i : Fin n) :
    Option (Fin n) :=
  if 2 * window < (s.p i).remaining ∧
      (∀ v ∈ victim, (s.p v).remaining < (s.p i).remaining) then some i
  else victim

/-- The thread with the largest number of unprocessed objects. -/
def find_victim (s : state n) (window : Nat) : Option (Fin n) :=
  (List.finRange n).foldl (better_victim s window) none

/-- `while (sub_size && list[0]->hash && ...) { list++; sub_size--; }` -/
def to_boundary (objs : List (BitVec 32)) : Nat → Nat → Nat
  | _, 0 => 0
  | list, sub_size + 1 =>
    if same_path objs list then to_boundary objs (list + 1) sub_size else sub_size + 1

/-- How much is stolen from the end of a victim's list: from a path boundary
on, or the exact half. -/
def stolen_size (objs : List (BitVec 32)) (victim : thread_params) : Nat :=
  let half := victim.remaining / 2
  let sub_size := to_boundary objs (victim.list + victim.list_size - half) half
  if sub_size = 0 then half else sub_size

/-- `target` with `sub_size` objects from `list` on. -/
def thread_params.given (target : thread_params) (list sub_size : Nat) : thread_params :=
  { target with list := list, list_size := sub_size, remaining := sub_size, working := true }

/-- `victim` without the last `sub_size` objects of its segment. -/
def thread_params.robbed (victim : thread_params) (sub_size : Nat) : thread_params :=
  { victim with
    list_size := victim.list_size - sub_size
    remaining := victim.remaining - sub_size }

/-- `target` with new work to see, or the news that there is none. -/
def thread_params.ready (target : thread_params) : thread_params := { target with data_ready := true }

/-- Gives `target` its new segment. Without a victim it gets nothing. -/
def steal (objs : List (BitVec 32)) (window : Nat) (s : state n) (target : Fin n) : state n :=
  match find_victim s window with
  | none => { s.set_p target ((s.p target).given (s.p target).list 0) with main := .telling target 0 }
  | some v =>
    let victim := s.p v
    let sub_size := stolen_size objs victim
    let list := victim.list + victim.list_size - sub_size
    { (s.set_p target ((s.p target).given list sub_size)).set_p v (victim.robbed sub_size) with
      main := .telling target sub_size }

/-! ## Steps -/

inductive action (n : Nat) where
  | main
  | worker (i : Fin n)

/-- The next step of the main thread. Where it has to wait nothing happens. -/
def main_step (objs : List (BitVec 32)) (window : Nat) (s : state n) : state n :=
  match s.main with
  | .searching list list_size =>
    if list_size = 0 then { s with main := .ended }
    else
      { s with
        main := .searching (list + 1) (list_size - 1)
        log := ⟨none, list, 0, objs.length⟩ :: s.log }
  | .starting i =>
    if h : i < n then
      if (s.p ⟨i, h⟩).list_size = 0 then { s with main := .starting (i + 1) }
      else
        { s.set_pc ⟨i, h⟩ .test with
          main := .starting (i + 1)
          active_threads := s.active_threads + 1 }
    else { s with main := .choosing }
  | .choosing =>
    if s.active_threads = 0 then { s with main := .ended }
    else
      match find_target s with
      | none => s
      | some target => steal objs window s target
  | .telling target sub_size =>
    let s := s.set_p target (s.p target).ready
    if sub_size = 0 then
      { s with main := .joining target, told := Function.update s.told target true }
    else { s with main := .choosing }
  | .joining target =>
    if s.pc target = .exited then
      { s with main := .choosing, active_threads := s.active_threads - 1 }
    else s
  | .ended => s

/-- The next step of a worker. -/
def worker_step (s : state n) (i : Fin n) : state n :=
  let me := s.p i
  match s.pc i with
  | .unstarted => s
  | .test => if me.remaining ≠ 0 then s.set_pc i .call else s.set_pc i .exited
  | .call => s.set_pc i (.searching me.list)
  | .searching list =>
    if me.remaining = 0 then s.set_pc i .done
    else
      { (s.set_p i { me with remaining := me.remaining - 1 }).set_pc i (.searching (list + 1)) with
        log := ⟨some i, list, me.list, me.list_size⟩ :: s.log }
  | .done => (s.set_p i { me with working := false }).set_pc i .waiting
  | .waiting =>
    if me.data_ready then (s.set_p i { me with data_ready := false }).set_pc i .test else s
  | .exited => s

def step (objs : List (BitVec 32)) (window : Nat) (s : state n) : action n → state n
  | .main => main_step objs window s
  | .worker i => worker_step s i

/-- Any thread may go next. -/
def anyone (_ : state n) (_ : action n) : Prop := True

/-! ## The invariant -/

/-- The object at `x` is in the segment, and was not taken out of it. -/
def thread_params.left (me : thread_params) (x : Nat) : Nat :=
  if me.list + me.list_size ≤ x + me.remaining ∧ x < me.list + me.list_size then 1 else 0

/-- The part of the list that the main thread searches itself. -/
def main_pc.left (x : Nat) : main_pc n → Nat
  | .searching list list_size => if list ≤ x ∧ x < list + list_size then 1 else 0
  | _ => 0

/-- How often the object at `x` was dequeued. -/
def dequeues (log : List (dequeue n)) (x : Nat) : Nat := log.countP (fun d => d.object = x)

/-- What holds of a worker where it stands. -/
def WorkerSound (me : thread_params) (told : Bool) (main : main_pc n) (i : Fin n) :
    worker_pc → Prop
  | .unstarted => me.working = true ∧ me.data_ready = false ∧ me.list_size = me.remaining ∧
      told = false ∧ ((∃ k, main = .starting k ∧ k ≤ i.val) ∨ me.remaining = 0)
  | .test => me.working = true ∧ me.data_ready = false ∧ me.list_size = me.remaining ∧
      (told = true ↔ me.remaining = 0)
  | .call => me.working = true ∧ me.data_ready = false ∧ me.list_size = me.remaining ∧
      told = false ∧ 0 < me.remaining
  | .searching list => me.working = true ∧ me.data_ready = false ∧ told = false ∧
      list + me.remaining = me.list + me.list_size ∧ me.list ≤ list
  | .done => me.working = true ∧ me.data_ready = false ∧ told = false ∧ me.remaining = 0
  | .waiting =>
      (me.working = false ∧ me.data_ready = false ∧ told = false ∧ me.remaining = 0) ∨
      (me.working = true ∧ me.data_ready = false ∧ told = false ∧
        me.list_size = me.remaining ∧ main = .telling i me.remaining) ∨
      (me.working = true ∧ me.data_ready = true ∧ me.list_size = me.remaining ∧
        (told = true ↔ me.remaining = 0))
  | .exited => me.working = true ∧ me.data_ready = false ∧ me.remaining = 0 ∧ told = true

/-- The worker was started, and was not told yet that there is no more work. -/
def active (pc : worker_pc) (told : Bool) : Nat :=
  if pc ≠ .unstarted ∧ told = false then 1 else 0

def main_pc.joins : main_pc n → Nat
  | .joining _ => 1
  | _ => 0

/-- The invariant of the delta search over `total` objects. -/
structure Partitioned (total : Nat) (s : state n) : Prop where
  cover : ∀ x, dequeues s.log x + s.main.left x + ∑ i, (s.p i).left x = if x < total then 1 else 0
  worker : ∀ i, WorkerSound (s.p i) (s.told i) s.main i (s.pc i)
  starting : ∀ k, s.main = .starting k → ∀ i : Fin n, k ≤ i.val → s.pc i = .unstarted
  telling : ∀ t sub_size, s.main = .telling t sub_size →
    s.pc t = .waiting ∧ (s.p t).data_ready = false ∧ (s.p t).working = true ∧
      (s.p t).remaining = sub_size
  joining : ∀ t, s.main = .joining t → s.told t = true
  alone : ∀ list list_size, s.main = .searching list list_size → (∀ i, s.pc i = .unstarted) ∧
    list + list_size = total
  count : s.active_threads = ∑ i, active (s.pc i) (s.told i) + s.main.joins
  ended : s.main = .ended → (∀ x, s.main.left x = 0) ∧ ∀ i, active (s.pc i) (s.told i) = 0
  segments : ∀ d ∈ s.log, d.list ≤ d.object ∧ d.object < d.list + d.list_size

theorem sum_update {α : Type} (f : Fin n → α → Nat) (g : Fin n → α) (i : Fin n) (a : α) :
    ∑ j, f j (Function.update g i a j) + f i (g i) = ∑ j, f j (g j) + f i a := by
  have hrest : ∑ j ∈ Finset.univ.erase i, f j (Function.update g i a j) =
      ∑ j ∈ Finset.univ.erase i, f j (g j) := by
    apply Finset.sum_congr rfl
    intro j hj
    rw [Function.update_of_ne (Finset.ne_of_mem_erase hj)]
  have hnew := Finset.add_sum_erase Finset.univ (fun j => f j (Function.update g i a j))
    (Finset.mem_univ i)
  have hold := Finset.add_sum_erase Finset.univ (fun j => f j (g j)) (Finset.mem_univ i)
  simp only [Function.update_self] at hnew
  omega

/-! ## Steps of the workers -/

/-- What a step of worker `i` has to keep, when only its own record, its
place and the log change. -/
theorem Partitioned.worker_change {total : Nat} {s : state n} (h : Partitioned total s) {i : Fin n}
    (me : thread_params) (pc : worker_pc) {log : List (dequeue n)}
    (hstarted : s.pc i ≠ .unstarted) (hpc : pc ≠ .unstarted)
    (hcover : ∀ x, dequeues log x + me.left x = dequeues s.log x + (s.p i).left x)
    (hsound : WorkerSound me (s.told i) s.main i pc)
    (htell : ∀ t sub_size, s.main = .telling t sub_size → t ≠ i)
    (hseg : ∀ d ∈ log, d.list ≤ d.object ∧ d.object < d.list + d.list_size) :
    Partitioned total
      { s with p := Function.update s.p i me, pc := Function.update s.pc i pc, log := log } := by
  have hactive : ∀ told, active pc told = active (s.pc i) told := by
    intro told
    simp only [active, hpc, hstarted, ne_eq, not_false_eq_true, true_and]
  refine ⟨?_, ?_, ?_, ?_, h.joining, ?_, ?_, ?_, hseg⟩
  · intro x
    have hsum := sum_update (fun _ me => thread_params.left me x) s.p i me
    have := h.cover x
    have := hcover x
    simp only at *
    omega
  · intro j
    by_cases hj : j = i
    · subst hj
      simpa using hsound
    · simpa [Function.update_of_ne hj] using h.worker j
  · intro k hk j hkj
    by_cases hj : j = i
    · subst hj
      exact absurd (h.starting k hk j hkj) hstarted
    · simpa [Function.update_of_ne hj] using h.starting k hk j hkj
  · intro t sub_size ht
    have hne := htell t sub_size ht
    simpa [Function.update_of_ne hne] using h.telling t sub_size ht
  · intro list list_size hm
    exact absurd ((h.alone list list_size hm).1 i) hstarted
  · have hsum := sum_update (fun j pc => active pc (s.told j)) s.pc i pc
    have := h.count
    have := hactive (s.told i)
    simp only at *
    omega
  · intro he
    obtain ⟨hleft, hall⟩ := h.ended he
    refine ⟨hleft, ?_⟩
    intro j
    by_cases hj : j = i
    · subst hj
      have := hall j
      have := hactive (s.told j)
      simp only [Function.update_self]
      omega
    · simpa [Function.update_of_ne hj] using hall j

/-- No one is being told anything while it is not waiting. -/
theorem Partitioned.not_telling {total : Nat} {s : state n} (h : Partitioned total s) {i : Fin n}
    (hpc : s.pc i ≠ .waiting) : ∀ t sub_size, s.main = .telling t sub_size → t ≠ i := by
  intro t sub_size ht hti
  rw [hti] at ht
  exact hpc (h.telling i sub_size ht).1

/-- The dequeue takes the first object that is left. -/
theorem left_dequeue {me : thread_params} {list : Nat} (hpos : me.remaining ≠ 0)
    (hlist : list + me.remaining = me.list + me.list_size) (x : Nat) :
    (if list = x then 1 else 0) + { me with remaining := me.remaining - 1 }.left x = me.left x := by
  simp only [thread_params.left]
  split_ifs <;> omega

theorem worker_step_keeps {total : Nat} {s : state n} (h : Partitioned total s) (i : Fin n) :
    Partitioned total (worker_step s i) := by
  have hi := h.worker i
  unfold worker_step
  cases hpc : s.pc i with
  | unstarted => exact h
  | test =>
    rw [hpc] at hi
    obtain ⟨hw, hr, hsize, htold⟩ := hi
    have hne : s.pc i ≠ .unstarted := by simp [hpc]
    have htell := h.not_telling (i := i) (by simp [hpc])
    simp only
    by_cases h0 : (s.p i).remaining = 0
    · rw [if_neg (by simpa using h0)]
      have := h.worker_change (s.p i) .exited hne (by simp) (fun _ => rfl)
        ⟨hw, hr, h0, htold.mpr h0⟩ htell h.segments
      rwa [Function.update_eq_self] at this
    · rw [if_pos h0]
      have hnot : s.told i = false := by
        by_contra hc
        exact h0 (htold.mp (by simpa using hc))
      have := h.worker_change (s.p i) .call hne (by simp) (fun _ => rfl)
        ⟨hw, hr, hsize, hnot, by omega⟩ htell h.segments
      rwa [Function.update_eq_self] at this
  | call =>
    rw [hpc] at hi
    obtain ⟨hw, hr, hsize, htold, hpos⟩ := hi
    have := h.worker_change (s.p i) (.searching (s.p i).list) (by simp [hpc]) (by simp)
      (fun _ => rfl) ⟨hw, hr, htold, by omega, le_refl _⟩
      (h.not_telling (by simp [hpc])) h.segments
    rwa [Function.update_eq_self] at this
  | searching list =>
    rw [hpc] at hi
    obtain ⟨hw, hr, htold, hlist, hle⟩ := hi
    have hne : s.pc i ≠ .unstarted := by simp [hpc]
    have htell := h.not_telling (i := i) (by simp [hpc])
    simp only
    by_cases h0 : (s.p i).remaining = 0
    · rw [if_pos h0]
      have := h.worker_change (s.p i) .done hne (by simp) (fun _ => rfl)
        ⟨hw, hr, htold, h0⟩ htell h.segments
      rwa [Function.update_eq_self] at this
    · rw [if_neg h0]
      have hlist' : list + 1 + ((s.p i).remaining - 1) = (s.p i).list + (s.p i).list_size := by
        omega
      refine h.worker_change _ _ hne (by simp) ?_
        ⟨hw, hr, htold, hlist', Nat.le_succ_of_le hle⟩ htell ?_
      · intro x
        have := left_dequeue h0 hlist x
        simp only [dequeues, List.countP_cons, decide_eq_true_eq]
        omega
      · intro d hd
        rcases List.mem_cons.mp hd with rfl | hd
        · have hlt : list < (s.p i).list + (s.p i).list_size := by omega
          exact ⟨hle, hlt⟩
        · exact h.segments d hd
  | done =>
    rw [hpc] at hi
    obtain ⟨hw, hr, htold, h0⟩ := hi
    exact h.worker_change _ .waiting (by simp [hpc]) (by simp) (fun _ => rfl)
      (Or.inl ⟨rfl, hr, htold, h0⟩) (h.not_telling (by simp [hpc])) h.segments
  | waiting =>
    rw [hpc] at hi
    simp only
    by_cases hready : (s.p i).data_ready = true
    · rw [if_pos hready]
      rcases hi with ⟨_, hr, _⟩ | ⟨_, hr, _⟩ | ⟨hw, _, hsize, htold⟩
      · simp [hr] at hready
      · simp [hr] at hready
      · refine h.worker_change _ .test (by simp [hpc]) (by simp) (fun _ => rfl)
          ⟨hw, rfl, hsize, htold⟩ ?_ h.segments
        intro t sub_size ht hti
        rw [hti] at ht
        have := (h.telling i sub_size ht).2.1
        simp [this] at hready
    · rw [if_neg hready]
      exact h
  | exited => exact h

/-! ## Steps of the main thread -/

/-- A worker does not mind where the main thread goes, but for its start and
for what it is being told. -/
theorem WorkerSound.main_change {me : thread_params} {told : Bool} {main main' : main_pc n}
    {i : Fin n} {pc : worker_pc} (h : WorkerSound me told main i pc)
    (hstart : ∀ k, main = .starting k → k ≤ i.val →
      (∃ k', main' = .starting k' ∧ k' ≤ i.val) ∨ me.remaining = 0)
    (htell : ∀ sub_size, main ≠ .telling i sub_size) : WorkerSound me told main' i pc := by
  cases pc with
  | unstarted =>
    obtain ⟨hw, hr, hsize, htold, hlater⟩ := h
    refine ⟨hw, hr, hsize, htold, ?_⟩
    rcases hlater with ⟨k, hk, hki⟩ | h0
    · exact hstart k hk hki
    · exact Or.inr h0
  | waiting =>
    rcases h with h | ⟨_, _, _, _, hm⟩ | h
    · exact Or.inl h
    · exact absurd hm (htell _)
    · exact Or.inr (Or.inr h)
  | test => exact h
  | call => exact h
  | searching list => exact h
  | done => exact h
  | exited => exact h

theorem searching_keeps {total : Nat} {objs : List (BitVec 32)} {window : Nat} {s : state n}
    (h : Partitioned total s) (htotal : objs.length = total) {list list_size : Nat}
    (hm : s.main = .searching list list_size) : Partitioned total (main_step objs window s) := by
  obtain ⟨halone, hend⟩ := h.alone list list_size hm
  have hsound : ∀ main' i, WorkerSound (s.p i) (s.told i) main' i (s.pc i) := by
    intro main' i
    apply (h.worker i).main_change
    · intro k hk
      simp [hm] at hk
    · simp [hm]
  have hcount := h.count
  simp only [hm, main_pc.joins] at hcount
  unfold main_step
  simp only [hm]
  by_cases h0 : list_size = 0
  · rw [if_pos h0]
    refine ⟨?_, hsound _, by simp, by simp, by simp, by simp, hcount, ?_, h.segments⟩
    · intro x
      have := h.cover x
      rw [hm] at this
      simp only [main_pc.left, h0] at this ⊢
      have hnone : ¬ (list ≤ x ∧ x < list + 0) := by omega
      rw [if_neg hnone] at this
      exact this
    · intro _
      refine ⟨fun _ => rfl, ?_⟩
      intro i
      simp [active, halone i]
  · rw [if_neg h0]
    refine ⟨?_, hsound _, by simp, by simp, by simp, ?_, hcount, by simp, ?_⟩
    · intro x
      have := h.cover x
      rw [hm] at this
      simp only [main_pc.left, dequeues, List.countP_cons, decide_eq_true_eq] at this ⊢
      split_ifs at this ⊢ <;> omega
    · intro list' list_size' hm'
      simp only [main_pc.searching.injEq] at hm'
      exact ⟨halone, by omega⟩
    · intro d hd
      rcases List.mem_cons.mp hd with rfl | hd
      · have hlt : list < 0 + objs.length := by omega
        exact ⟨Nat.zero_le _, hlt⟩
      · exact h.segments d hd

theorem starting_keeps {total : Nat} {objs : List (BitVec 32)} {window : Nat} {s : state n}
    (h : Partitioned total s) {k : Nat} (hm : s.main = .starting k) :
    Partitioned total (main_step objs window s) := by
  have hcover : ∀ x, dequeues s.log x + 0 + ∑ i, (s.p i).left x = if x < total then 1 else 0 := by
    intro x
    have := h.cover x
    rwa [hm] at this
  have htell : ∀ (i : Fin n) sub_size, s.main ≠ .telling i sub_size := by simp [hm]
  have hcount := h.count
  simp only [hm, main_pc.joins] at hcount
  unfold main_step
  simp only [hm]
  by_cases hk : k < n
  · rw [dif_pos hk]
    have hpc := h.starting k hm ⟨k, hk⟩ (le_refl _)
    have hsk := h.worker ⟨k, hk⟩
    rw [hpc] at hsk
    obtain ⟨hw, hr, hsize, htold, _⟩ := hsk
    have hlater : ∀ i : Fin n, i.val ≠ k →
        WorkerSound (s.p i) (s.told i) (.starting (k + 1)) i (s.pc i) := by
      intro i hi
      apply (h.worker i).main_change _ (htell i)
      intro k' hk' hle
      rw [hm, main_pc.starting.injEq] at hk'
      exact Or.inl ⟨k + 1, rfl, by omega⟩
    by_cases h0 : (s.p ⟨k, hk⟩).list_size = 0
    · rw [if_pos h0]
      refine ⟨hcover, ?_, ?_, by simp, by simp, by simp, hcount, by simp, h.segments⟩
      · intro i
        by_cases hi : i.val = k
        · apply (h.worker i).main_change _ (htell i)
          intro _ _ _
          have : i = ⟨k, hk⟩ := Fin.ext hi
          right
          rw [this]
          omega
        · exact hlater i hi
      · intro k' hk' i hle
        simp only [main_pc.starting.injEq] at hk'
        exact h.starting k hm i (by omega)
    · rw [if_neg h0]
      refine ⟨hcover, ?_, ?_, by simp, by simp, by simp, ?_, by simp, h.segments⟩
      · intro i
        by_cases hi : i = ⟨k, hk⟩
        · subst hi
          simp only [state.set_pc, Function.update_self]
          refine ⟨hw, hr, hsize, ?_⟩
          rw [htold]
          simp only [Bool.false_eq_true, false_iff]
          omega
        · have hik : i.val ≠ k := fun hc => hi (Fin.ext hc)
          simpa [state.set_pc, Function.update_of_ne hi] using hlater i hik
      · intro k' hk' i hle
        simp only [main_pc.starting.injEq] at hk'
        have hi : i ≠ ⟨k, hk⟩ := by
          intro hc
          rw [hc] at hle
          simp only at hle
          omega
        simpa [state.set_pc, Function.update_of_ne hi] using h.starting k hm i (by omega)
      · have hsum := sum_update (fun j pc => active pc (s.told j)) s.pc ⟨k, hk⟩ .test
        simp only [state.set_pc, main_pc.joins]
        simp only [hpc, htold, active] at hsum hcount ⊢
        simp only [ne_eq, not_true_eq_false, false_and, if_false, reduceCtorEq, not_false_eq_true,
          and_self, if_true] at hsum
        simp only [ne_eq] at hcount ⊢
        omega
  · rw [dif_neg hk]
    refine ⟨hcover, ?_, by simp, by simp, by simp, by simp, hcount, by simp, h.segments⟩
    intro i
    apply (h.worker i).main_change _ (htell i)
    intro k' hk' hle
    rw [hm, main_pc.starting.injEq] at hk'
    have := i.isLt
    omega

/-! ## The steal -/

theorem to_boundary_le (objs : List (BitVec 32)) (list sub_size : Nat) :
    to_boundary objs list sub_size ≤ sub_size := by
  induction sub_size generalizing list with
  | zero => simp [to_boundary]
  | succ sub_size ih =>
    have := ih (list + 1)
    rw [to_boundary]
    split_ifs <;> omega

/-- At most half of what is left is stolen. -/
theorem stolen_size_le (objs : List (BitVec 32)) (victim : thread_params) :
    stolen_size objs victim ≤ victim.remaining / 2 := by
  have := to_boundary_le objs (victim.list + victim.list_size - victim.remaining / 2)
    (victim.remaining / 2)
  unfold stolen_size
  simp only
  split_ifs <;> omega

/-- An idle worker stands before its wait, with nothing left. -/
theorem find_target_idle {total : Nat} {s : state n} (h : Partitioned total s) {t : Fin n}
    (ht : find_target s = some t) :
    s.pc t = .waiting ∧ (s.p t).data_ready = false ∧ s.told t = false ∧ (s.p t).remaining = 0 := by
  have hidle : (s.p t).working = false := by
    have := List.find?_some ht
    simpa using this
  have hsound := h.worker t
  cases hpc : s.pc t with
  | waiting =>
    rw [hpc] at hsound
    rcases hsound with ⟨_, hr, htold, h0⟩ | ⟨hw, _⟩ | ⟨hw, _⟩
    · exact ⟨rfl, hr, htold, h0⟩
    · simp [hidle] at hw
    · simp [hidle] at hw
  | unstarted => rw [hpc] at hsound; simp [WorkerSound, hidle] at hsound
  | test => rw [hpc] at hsound; simp [WorkerSound, hidle] at hsound
  | call => rw [hpc] at hsound; simp [WorkerSound, hidle] at hsound
  | searching list => rw [hpc] at hsound; simp [WorkerSound, hidle] at hsound
  | done => rw [hpc] at hsound; simp [WorkerSound, hidle] at hsound
  | exited => rw [hpc] at hsound; simp [WorkerSound, hidle] at hsound

/-- The victim has objects left. -/
theorem find_victim_busy {s : state n} {window : Nat} {v : Fin n}
    (hv : find_victim s window = some v) : 2 * window < (s.p v).remaining := by
  have hfold : ∀ (l : List (Fin n)) (victim : Option (Fin n)),
      (∀ v ∈ victim, 2 * window < (s.p v).remaining) →
      ∀ v ∈ l.foldl (better_victim s window) victim, 2 * window < (s.p v).remaining := by
    intro l
    induction l with
    | nil => exact fun victim h => h
    | cons i l ih =>
      intro victim h
      apply ih
      intro v hv
      unfold better_victim at hv
      split_ifs at hv with hb
      · rw [Option.mem_some_iff] at hv
        rw [← hv]
        exact hb.1
      · exact h v hv
  exact hfold _ none (by simp) v (by rw [← find_victim, hv]; rfl)

/-- A worker with objects left can lose some from the end of its segment, if
one is left. -/
theorem WorkerSound.shrink {me : thread_params} {told : Bool} {main main' : main_pc n} {i : Fin n}
    {pc : worker_pc} {k : Nat} (h : WorkerSound me told main i pc) (hm : main = .choosing)
    (hk : k < me.remaining) :
    WorkerSound (me.robbed k) told main' i pc := by
  cases pc with
  | unstarted =>
    obtain ⟨_, _, _, _, ⟨k', hk', _⟩ | h0⟩ := h
    · simp [hm] at hk'
    · omega
  | test =>
    obtain ⟨hw, hr, hsize, htold⟩ := h
    refine ⟨hw, hr, by show me.list_size - k = me.remaining - k; omega, ?_⟩
    rw [htold]
    show me.remaining = 0 ↔ me.remaining - k = 0
    omega
  | call =>
    obtain ⟨hw, hr, hsize, htold, hpos⟩ := h
    exact ⟨hw, hr, by show me.list_size - k = me.remaining - k; omega, htold,
      by show 0 < me.remaining - k; omega⟩
  | searching list =>
    obtain ⟨hw, hr, htold, hlist, hle⟩ := h
    exact ⟨hw, hr, htold,
      by show list + (me.remaining - k) = me.list + (me.list_size - k); omega, hle⟩
  | done =>
    obtain ⟨_, _, _, h0⟩ := h
    omega
  | waiting =>
    rcases h with ⟨_, _, _, h0⟩ | ⟨_, _, _, _, hmain⟩ | ⟨hw, hr, hsize, htold⟩
    · omega
    · simp [hm] at hmain
    · refine Or.inr (Or.inr ⟨hw, hr, ?_, ?_⟩)
      · show me.list_size - k = me.remaining - k
        omega
      · rw [htold]
        show me.remaining = 0 ↔ me.remaining - k = 0
        omega
  | exited =>
    obtain ⟨_, _, h0, _⟩ := h
    omega

/-- The remaining objects of a worker are at the end of its segment. -/
theorem WorkerSound.remaining_le {me : thread_params} {told : Bool} {main : main_pc n} {i : Fin n}
    {pc : worker_pc} (h : WorkerSound me told main i pc) : me.remaining ≤ me.list_size := by
  cases pc with
  | unstarted => exact le_of_eq h.2.2.1.symm
  | test => exact le_of_eq h.2.2.1.symm
  | call => exact le_of_eq h.2.2.1.symm
  | searching list =>
    obtain ⟨_, _, _, hlist, hle⟩ := h
    omega
  | done =>
    obtain ⟨_, _, _, h0⟩ := h
    omega
  | waiting =>
    rcases h with ⟨_, _, _, h0⟩ | ⟨_, _, _, hsize, _⟩ | ⟨_, _, hsize, _⟩ <;> omega
  | exited =>
    obtain ⟨_, _, h0, _⟩ := h
    omega

/-- What the victim has and what the target gets is what the victim had. -/
theorem left_stolen {victim target : thread_params} {k : Nat} (hk : k ≤ victim.remaining)
    (hle : victim.remaining ≤ victim.list_size) (x : Nat) :
    (victim.robbed k).left x + (target.given (victim.list + victim.list_size - k) k).left x =
      victim.left x := by
  have hend : victim.list + (victim.list_size - k) = victim.list + victim.list_size - k := by omega
  have hback : victim.list + victim.list_size - k + k = victim.list + victim.list_size := by omega
  unfold thread_params.left thread_params.robbed thread_params.given
  simp only [hend, hback]
  by_cases hx : x < victim.list + victim.list_size - k
  · have hnot : ¬ (victim.list + victim.list_size ≤ x + k ∧ x < victim.list + victim.list_size) := by
      omega
    rw [if_neg hnot]
    split_ifs <;> omega
  · have hnot : ¬ (victim.list + victim.list_size - k ≤ x + (victim.remaining - k) ∧
        x < victim.list + victim.list_size - k) := by omega
    rw [if_neg hnot]
    split_ifs <;> omega

theorem left_nothing {me : thread_params} (h0 : me.remaining = 0) (x : Nat) : me.left x = 0 := by
  unfold thread_params.left
  rw [if_neg (by omega)]

/-- What the main thread has to keep when it turns to `target`: the target
alone gets new objects, and all objects stay in their number. -/
theorem Partitioned.told_next {total : Nat} {s : state n} (h : Partitioned total s)
    (hm : s.main = .choosing) {t : Fin n} {p : Fin n → thread_params} {k : Nat}
    (hwait : s.pc t = .waiting) (htold : s.told t = false)
    (hpt : (p t).working = true ∧ (p t).data_ready = false ∧ (p t).list_size = (p t).remaining ∧
      (p t).remaining = k)
    (hothers : ∀ i, i ≠ t → WorkerSound (p i) (s.told i) (.telling t k) i (s.pc i))
    (hleft : ∀ x, ∑ i, (p i).left x = ∑ i, (s.p i).left x) :
    Partitioned total { s with p := p, main := .telling t k } := by
  obtain ⟨hw, hr, hsize, hk⟩ := hpt
  have hcount := h.count
  simp only [hm, main_pc.joins] at hcount
  refine ⟨?_, ?_, by simp, ?_, by simp, by simp, hcount, by simp, h.segments⟩
  · intro x
    have := h.cover x
    rw [hm] at this
    simp only [main_pc.left] at this ⊢
    rw [hleft x]
    exact this
  · intro i
    by_cases hi : i = t
    · subst hi
      simp only [hwait]
      exact Or.inr (Or.inl ⟨hw, hr, htold, hsize, by rw [hk]⟩)
    · exact hothers i hi
  · intro t' sub_size ht'
    simp only [main_pc.telling.injEq] at ht'
    obtain ⟨rfl, rfl⟩ := ht'
    exact ⟨hwait, hr, hw, hk⟩

theorem steal_keeps {total : Nat} {objs : List (BitVec 32)} {window : Nat} {s : state n}
    (h : Partitioned total s) (hm : s.main = .choosing) {t : Fin n}
    (ht : find_target s = some t) : Partitioned total (steal objs window s t) := by
  obtain ⟨hwait, hr, htold, h0⟩ := find_target_idle h ht
  have hother : ∀ k i, WorkerSound (s.p i) (s.told i) (.telling t k) i (s.pc i) := by
    intro k i
    apply (h.worker i).main_change
    · intro k' hk'
      simp [hm] at hk'
    · simp [hm]
  unfold steal
  cases hv : find_victim s window with
  | none =>
    simp only
    apply h.told_next hm hwait htold
    · simp [state.set_p, thread_params.given, hr]
    · intro i hi
      simpa [state.set_p, Function.update_of_ne hi] using hother 0 i
    · intro x
      have hsum := sum_update (fun _ me => thread_params.left me x) s.p t
        ((s.p t).given (s.p t).list 0)
      have hold : (s.p t).left x = 0 := left_nothing h0 x
      have hnew : ((s.p t).given (s.p t).list 0).left x = 0 := left_nothing rfl x
      simp only [state.set_p] at hsum ⊢
      omega
  | some v =>
    simp only
    have hbusy := find_victim_busy hv
    have hvt : v ≠ t := by
      intro hc
      rw [hc] at hbusy
      omega
    have hk := stolen_size_le objs (s.p v)
    generalize stolen_size objs (s.p v) = k at hk ⊢
    have hle := (h.worker v).remaining_le
    apply h.told_next hm hwait htold
    · simp [state.set_p, thread_params.given, hr, Function.update_of_ne hvt.symm]
    · intro i hi
      by_cases hiv : i = v
      · subst hiv
        simp only [state.set_p, Function.update_self]
        exact (h.worker i).shrink hm (by omega)
      · simpa [state.set_p, Function.update_of_ne hi, Function.update_of_ne hiv] using hother k i
    · intro x
      simp only [state.set_p]
      generalize hlist : (s.p v).list + (s.p v).list_size - k = list
      have hsum := sum_update (fun _ me => thread_params.left me x) s.p t ((s.p t).given list k)
      have hsum' := sum_update (fun _ me => thread_params.left me x)
        (Function.update s.p t ((s.p t).given list k)) v ((s.p v).robbed k)
      rw [Function.update_of_ne hvt] at hsum'
      have hmoved := @left_stolen (s.p v) (s.p t) k (by omega) hle x
      rw [hlist] at hmoved
      have hold : (s.p t).left x = 0 := left_nothing h0 x
      omega

/-! ## The end of the work -/

theorem choosing_keeps {total : Nat} {objs : List (BitVec 32)} {window : Nat} {s : state n}
    (h : Partitioned total s) (hm : s.main = .choosing) :
    Partitioned total (main_step objs window s) := by
  have hcount := h.count
  simp only [hm, main_pc.joins] at hcount
  unfold main_step
  simp only [hm]
  by_cases h0 : s.active_threads = 0
  · rw [if_pos h0]
    have hnone : ∀ i, active (s.pc i) (s.told i) = 0 := by
      rw [h0] at hcount
      intro i
      have hsum : ∑ i, active (s.pc i) (s.told i) = 0 := by omega
      exact Finset.sum_eq_zero_iff.mp hsum i (Finset.mem_univ i)
    refine ⟨?_, ?_, by simp, by simp, by simp, by simp, hcount, fun _ => ⟨fun _ => rfl, hnone⟩,
      h.segments⟩
    · intro x
      have := h.cover x
      rwa [hm] at this
    · intro i
      apply (h.worker i).main_change
      · intro k hk
        simp [hm] at hk
      · simp [hm]
  · rw [if_neg h0]
    cases ht : find_target s with
    | none => exact h
    | some t => exact steal_keeps h hm ht

theorem telling_keeps {total : Nat} {objs : List (BitVec 32)} {window : Nat} {s : state n}
    (h : Partitioned total s) {t : Fin n} {sub_size : Nat} (hm : s.main = .telling t sub_size) :
    Partitioned total (main_step objs window s) := by
  obtain ⟨hwait, hr, hw, hsub⟩ := h.telling t sub_size hm
  have hst := h.worker t
  rw [hwait] at hst
  obtain ⟨htold, hsize⟩ : s.told t = false ∧ (s.p t).list_size = (s.p t).remaining := by
    rcases hst with ⟨hw', _⟩ | ⟨_, _, htold, hsize, _⟩ | ⟨_, hr', _⟩
    · simp [hw] at hw'
    · exact ⟨htold, hsize⟩
    · simp [hr] at hr'
  have hother : ∀ main' i, i ≠ t → WorkerSound (s.p i) (s.told i) main' i (s.pc i) := by
    intro main' i hi
    apply (h.worker i).main_change
    · intro k hk
      simp [hm] at hk
    · intro k hk
      rw [hm, main_pc.telling.injEq] at hk
      exact hi hk.1.symm
  have hcover : ∀ x, dequeues s.log x + 0 +
      ∑ i, (Function.update s.p t (s.p t).ready i).left x =
        if x < total then 1 else 0 := by
    intro x
    have hsum := sum_update (fun _ me => thread_params.left me x) s.p t (s.p t).ready
    have hsame : (s.p t).ready.left x = (s.p t).left x := rfl
    have := h.cover x
    rw [hm] at this
    simp only [main_pc.left] at this hsum
    omega
  have hcount := h.count
  simp only [hm, main_pc.joins] at hcount
  unfold main_step
  simp only [hm]
  by_cases h0 : sub_size = 0
  · rw [if_pos h0]
    refine ⟨hcover, ?_, by simp, by simp, ?_, by simp, ?_, by simp, h.segments⟩
    · intro i
      by_cases hi : i = t
      · subst hi
        simp only [state.set_p, Function.update_self, hwait]
        refine Or.inr (Or.inr ⟨hw, rfl, hsize, ?_⟩)
        simp [thread_params.ready, hsub, h0]
      · simpa [state.set_p, Function.update_of_ne hi] using hother _ i hi
    · intro t' ht'
      simp only [main_pc.joining.injEq] at ht'
      rw [← ht']
      simp
    · have hsum := sum_update (fun j told => active (s.pc j) told) s.told t true
      simp only [state.set_p, main_pc.joins]
      have hwas : active (s.pc t) (s.told t) = 1 := by simp [active, hwait, htold]
      have hnow : active (s.pc t) true = 0 := by simp [active]
      omega
  · rw [if_neg h0]
    refine ⟨hcover, ?_, by simp, by simp, by simp, by simp, hcount, by simp, h.segments⟩
    intro i
    by_cases hi : i = t
    · subst hi
      simp only [state.set_p, Function.update_self, hwait]
      refine Or.inr (Or.inr ⟨hw, rfl, hsize, ?_⟩)
      simp [thread_params.ready, htold, hsub, h0]
    · simpa [state.set_p, Function.update_of_ne hi] using hother _ i hi

theorem joining_keeps {total : Nat} {objs : List (BitVec 32)} {window : Nat} {s : state n}
    (h : Partitioned total s) {t : Fin n} (hm : s.main = .joining t) :
    Partitioned total (main_step objs window s) := by
  have hcount := h.count
  simp only [hm, main_pc.joins] at hcount
  unfold main_step
  simp only [hm]
  by_cases hx : s.pc t = .exited
  · rw [if_pos hx]
    refine ⟨?_, ?_, by simp, by simp, by simp, by simp, ?_, by simp, h.segments⟩
    · intro x
      have := h.cover x
      rwa [hm] at this
    · intro i
      apply (h.worker i).main_change
      · intro k hk
        simp [hm] at hk
      · simp [hm]
    · simp only [main_pc.joins]
      omega
  · rw [if_neg hx]
    exact h

/-! ## Every run -/

theorem step_keeps {objs : List (BitVec 32)} {window : Nat} {s : state n}
    (h : Partitioned objs.length s) (a : action n) :
    Partitioned objs.length (step objs window s a) := by
  cases a with
  | worker i => exact worker_step_keeps h i
  | main =>
    cases hm : s.main with
    | searching list list_size => exact searching_keeps h rfl hm
    | starting k => exact starting_keeps h hm
    | choosing => exact choosing_keeps h hm
    | telling t sub_size => exact telling_keeps h hm
    | joining t => exact joining_keeps h hm
    | ended =>
      unfold step main_step
      simp only [hm]
      exact h

theorem grow_le (objs : List (BitVec 32)) (list left sub_size : Nat) :
    sub_size ≤ grow objs list left sub_size ∧ grow objs list left sub_size ≤ sub_size + left := by
  induction left generalizing sub_size with
  | zero => simp [grow]
  | succ left ih =>
    have := ih (sub_size + 1)
    rw [grow]
    split_ifs <;> omega

/-- A segment stays in what is there to share out, and the last one takes it
all. -/
theorem segment_size_spec (objs : List (BitVec 32)) (window threads i list list_size : Nat) :
    segment_size objs window threads i list list_size ≤ list_size ∧
      (i + 1 = threads → segment_size objs window threads i list list_size = list_size) := by
  unfold segment_size
  simp only
  have hdiv : list_size / (threads - i) ≤ list_size := Nat.div_le_self _ _
  generalize hq : list_size / (threads - i) = q at hdiv ⊢
  generalize hsub : (if q < 2 * window ∧ i + 1 < threads then 0 else q) = sub_size
  have hle : sub_size ≤ q := by
    rw [← hsub]
    split_ifs <;> omega
  have hgrow := grow_le objs list (list_size - sub_size) sub_size
  refine ⟨by omega, ?_⟩
  intro hlast
  have hone : threads - i = 1 := by omega
  rw [hone, Nat.div_one] at hq
  rw [if_neg (by omega)] at hsub
  omega

theorem segment_start_le (objs : List (BitVec 32)) (window threads i : Nat) :
    segment_start objs window threads i ≤ objs.length := by
  induction i with
  | zero => simp [segment_start]
  | succ i ih =>
    have := (segment_size_spec objs window threads i (segment_start objs window threads i)
      (objs.length - segment_start objs window threads i)).1
    rw [segment_start]
    omega

theorem segment_start_last (objs : List (BitVec 32)) (window : Nat) {threads : Nat}
    (h : 0 < threads) : segment_start objs window threads threads = objs.length := by
  obtain ⟨i, rfl⟩ : ∃ i, threads = i + 1 := ⟨threads - 1, by omega⟩
  have := (segment_size_spec objs window (i + 1) i (segment_start objs window (i + 1) i)
    (objs.length - segment_start objs window (i + 1) i)).2 rfl
  have := segment_start_le objs window (i + 1) i
  rw [segment_start]
  omega

/-- The segments follow one another. -/
theorem partition_left (objs : List (BitVec 32)) (window threads k x : Nat) :
    ∑ i : Fin k, (partition objs window threads i).left x =
      if x < segment_start objs window threads k then 1 else 0 := by
  induction k with
  | zero => simp [segment_start]
  | succ k ih =>
    rw [Fin.sum_univ_castSucc]
    simp only [Fin.val_castSucc, Fin.val_last]
    rw [ih]
    have hmk : ∀ list sub_size, thread_params.left ⟨list, sub_size, sub_size, true, false⟩ x =
        if list + sub_size ≤ x + sub_size ∧ x < list + sub_size then 1 else 0 := fun _ _ => rfl
    rw [partition, hmk, segment_start]
    generalize segment_start objs window threads k = list
    generalize segment_size objs window threads k list (objs.length - list) = sub_size
    by_cases h1 : x < list
    · have h2 : ¬ (list + sub_size ≤ x + sub_size ∧ x < list + sub_size) := by omega
      rw [if_pos h1, if_neg h2, if_pos (by omega)]
    · rw [if_neg h1, Nat.zero_add]
      congr 1
      apply propext
      omega

theorem ll_find_deltas_partitioned (objs : List (BitVec 32)) (window threads : Nat) :
    Partitioned objs.length (ll_find_deltas objs window threads) := by
  by_cases h1 : threads ≤ 1
  · refine ⟨?_, ?_, ?_, ?_, ?_, ?_, ?_, ?_, ?_⟩
    · intro x
      have hnone : thread_params.left ⟨0, 0, 0, true, false⟩ x = 0 := left_nothing rfl x
      simp [ll_find_deltas, h1, dequeues, main_pc.left, hnone]
    · intro i
      simp [ll_find_deltas, h1, WorkerSound]
    · simp [ll_find_deltas, h1]
    · simp [ll_find_deltas, h1]
    · simp [ll_find_deltas, h1]
    · simp [ll_find_deltas, h1]
    · simp [ll_find_deltas, h1, active, main_pc.joins]
    · simp [ll_find_deltas, h1]
    · simp [ll_find_deltas]
  · refine ⟨?_, ?_, ?_, ?_, ?_, ?_, ?_, ?_, ?_⟩
    · intro x
      have hsum := partition_left objs window threads threads x
      rw [segment_start_last objs window (by omega)] at hsum
      simpa [ll_find_deltas, h1, dequeues, main_pc.left] using hsum
    · intro i
      simp [ll_find_deltas, h1, WorkerSound, partition]
    · simp [ll_find_deltas, h1]
    · simp [ll_find_deltas, h1]
    · simp [ll_find_deltas, h1]
    · simp [ll_find_deltas, h1]
    · simp [ll_find_deltas, h1, active, main_pc.joins]
    · simp [ll_find_deltas, h1]
    · simp [ll_find_deltas]

theorem run_partitioned {objs : List (BitVec 32)} {window threads : Nat} {s : state threads}
    (h : Run (step objs window) anyone (ll_find_deltas objs window threads) s) :
    Partitioned objs.length s :=
  h.keeps (Partitioned objs.length) (fun _ a hs _ => step_keeps hs a)
    (ll_find_deltas_partitioned objs window threads)

/-- Once the loop has ended nothing is left in a segment. -/
theorem Partitioned.none_left {total : Nat} {s : state n} (h : Partitioned total s)
    (he : s.main = .ended) (x : Nat) : s.main.left x + ∑ i, (s.p i).left x = 0 := by
  obtain ⟨hmain, hnone⟩ := h.ended he
  have hzero : ∀ i, (s.p i).left x = 0 := by
    intro i
    apply left_nothing
    have hi := h.worker i
    have hactive := hnone i
    cases hpc : s.pc i with
    | unstarted =>
      rw [hpc] at hi
      obtain ⟨_, _, _, _, ⟨k, hk, _⟩ | h0⟩ := hi
      · simp [he] at hk
      · exact h0
    | test => rw [hpc] at hi hactive; simp_all [WorkerSound, active]
    | call => rw [hpc] at hi hactive; simp_all [WorkerSound, active]
    | searching list => rw [hpc] at hi hactive; simp_all [WorkerSound, active]
    | done => rw [hpc] at hi hactive; simp_all [WorkerSound, active]
    | waiting => rw [hpc] at hi hactive; simp_all [WorkerSound, active]
    | exited => rw [hpc] at hi hactive; simp_all [WorkerSound, active]
  rw [hmain x, Nat.zero_add]
  exact Finset.sum_eq_zero (fun i _ => hzero i)

/-! ## The search ends -/

/-- Bounds the steps that a worker can still take by itself, and those that
the main thread takes for it. -/
def worker_work (me : thread_params) : worker_pc → Nat
  | .unstarted => 16 * me.remaining + 28
  | .test => 16 * me.remaining + (if me.remaining = 0 then 2 else 14)
  | .call => 16 * me.remaining + 12
  | .searching _ => 16 * me.remaining + (if me.remaining = 0 then 24 else 10)
  | .done => 16 * me.remaining + 22
  | .waiting => 16 * me.remaining +
      (if me.working = false then 20 else if me.data_ready = false then 18 else 16)
  | .exited => 16 * me.remaining

def main_work : main_pc n → Nat
  | .searching _ list_size => list_size + 2
  | .starting k => 3 + (n - k)
  | .choosing => 2
  | .telling _ _ => 2
  | .joining _ => 3
  | .ended => 0

def work (s : state n) : Nat := ∑ i, worker_work (s.p i) (s.pc i) + main_work s.main

theorem work_update (s : state n) (i : Fin n) (me : thread_params) (pc : worker_pc) :
    ∑ j, worker_work (Function.update s.p i me j) (Function.update s.pc i pc j) +
        worker_work (s.p i) (s.pc i) =
      ∑ j, worker_work (s.p j) (s.pc j) + worker_work me pc := by
  have hsum := sum_update (fun _ (w : thread_params × worker_pc) => worker_work w.1 w.2)
    (fun j => (s.p j, s.pc j)) i (me, pc)
  have hpair : ∀ j, Function.update (fun j => (s.p j, s.pc j)) i (me, pc) j =
      (Function.update s.p i me j, Function.update s.pc i pc j) := by
    intro j
    by_cases hj : j = i
    · subst hj
      simp
    · simp [Function.update_of_ne hj]
  simp only [hpair] at hsum
  exact hsum

theorem work_worker_lt {s : state n} {i : Fin n} {me : thread_params} {pc : worker_pc}
    (h : worker_work me pc < worker_work (s.p i) (s.pc i)) (log : List (dequeue n)) :
    work { s with p := Function.update s.p i me, pc := Function.update s.pc i pc, log := log } <
      work s := by
  have := work_update s i me pc
  unfold work
  simp only
  omega

theorem work_pc_lt {s : state n} {i : Fin n} {pc : worker_pc}
    (h : worker_work (s.p i) pc < worker_work (s.p i) (s.pc i)) : work (s.set_pc i pc) < work s := by
  have := work_worker_lt h s.log
  rwa [Function.update_eq_self] at this

/-- A worker that can go on uses up work. -/
theorem worker_step_work {total : Nat} {s : state n} (h : Partitioned total s) {i : Fin n}
    (hmoves : s.pc i = .test ∨ s.pc i = .call ∨ (∃ list, s.pc i = .searching list) ∨
      s.pc i = .done ∨ (s.pc i = .waiting ∧ (s.p i).data_ready = true)) :
    work (worker_step s i) < work s := by
  have hi := h.worker i
  unfold worker_step
  rcases hmoves with hpc | hpc | ⟨list, hpc⟩ | hpc | ⟨hpc, hready⟩
  · simp only [hpc]
    by_cases h0 : (s.p i).remaining = 0
    · rw [if_neg (by simpa using h0)]
      apply work_pc_lt
      simp only [hpc, worker_work, h0, if_true]
      omega
    · rw [if_pos h0]
      apply work_pc_lt
      simp only [hpc, worker_work, h0, if_false]
      omega
  · rw [hpc] at hi
    obtain ⟨_, _, _, _, hpos⟩ := hi
    have h0 : ¬ (s.p i).remaining = 0 := by omega
    simp only [hpc]
    apply work_pc_lt
    simp only [hpc, worker_work, h0, if_false]
    omega
  · simp only [hpc]
    by_cases h0 : (s.p i).remaining = 0
    · rw [if_pos h0]
      apply work_pc_lt
      simp only [hpc, worker_work, h0, if_true]
      omega
    · rw [if_neg h0]
      apply work_worker_lt
      simp only [hpc, worker_work, h0, if_false]
      split_ifs <;> omega
  · simp only [hpc]
    apply work_worker_lt
    simp only [hpc, worker_work, if_true]
    omega
  · rw [hpc] at hi
    have hw : (s.p i).working = true := by
      rcases hi with ⟨_, hr, _⟩ | ⟨hw, _⟩ | ⟨hw, _⟩
      · simp [hready] at hr
      · exact hw
      · exact hw
    simp only [hpc, hready, if_true]
    apply work_worker_lt
    simp only [hpc, worker_work, hready, hw, Bool.true_eq_false, if_false]
    split_ifs <;> omega

theorem p_update_work (s : state n) (p : Fin n → thread_params) (i : Fin n) (me : thread_params) :
    ∑ j, worker_work (Function.update p i me j) (s.pc j) + worker_work (p i) (s.pc i) =
      ∑ j, worker_work (p j) (s.pc j) + worker_work me (s.pc i) :=
  sum_update (fun j me => worker_work me (s.pc j)) p i me

/-- A stolen object is as much work for the target as it was for the victim. -/
theorem robbed_work {me : thread_params} {k : Nat} (hk : k < me.remaining) (pc : worker_pc) :
    worker_work (me.robbed k) pc + 16 * k = worker_work me pc := by
  have h0 : ¬ me.remaining = 0 := by omega
  have h1 : ¬ me.remaining - k = 0 := by omega
  cases pc with
  | test => simp only [worker_work, thread_params.robbed, h0, h1, if_false]; omega
  | searching list => simp only [worker_work, thread_params.robbed, h0, h1, if_false]; omega
  | unstarted => simp only [worker_work, thread_params.robbed]; omega
  | call => simp only [worker_work, thread_params.robbed]; omega
  | done => simp only [worker_work, thread_params.robbed]; omega
  | waiting =>
    have hmk : ∀ working data_ready, worker_work ⟨me.list, me.list_size - k, me.remaining - k,
        working, data_ready⟩ .waiting + 16 * k =
          worker_work ⟨me.list, me.list_size, me.remaining, working, data_ready⟩ .waiting := by
      intro working data_ready
      cases working <;> cases data_ready <;> simp [worker_work] <;> omega
    exact hmk me.working me.data_ready
  | exited => simp only [worker_work, thread_params.robbed]; omega

theorem steal_work {total : Nat} {objs : List (BitVec 32)} {window : Nat} {s : state n}
    (h : Partitioned total s) (hm : s.main = .choosing) {t : Fin n}
    (ht : find_target s = some t) : work (steal objs window s t) < work s := by
  obtain ⟨hwait, hr, _, h0⟩ := find_target_idle h ht
  have hidle : (s.p t).working = false := by
    have := List.find?_some ht
    simpa using this
  have hgiven : ∀ list k, worker_work ((s.p t).given list k) (s.pc t) + 2 =
      worker_work (s.p t) (s.pc t) + 16 * k := by
    intro list k
    simp only [hwait, worker_work, thread_params.given, hr, hidle, h0, Bool.true_eq_false, if_false,
      if_true]
    omega
  unfold steal
  cases hv : find_victim s window with
  | none =>
    have hsum := p_update_work s s.p t ((s.p t).given (s.p t).list 0)
    have := hgiven (s.p t).list 0
    simp only [work, state.set_p, hm, main_work]
    omega
  | some v =>
    have hbusy := find_victim_busy hv
    have hvt : v ≠ t := by
      intro hc
      rw [hc] at hbusy
      omega
    have hk := stolen_size_le objs (s.p v)
    simp only
    generalize stolen_size objs (s.p v) = k at hk ⊢
    generalize (s.p v).list + (s.p v).list_size - k = list
    have hsum := p_update_work s s.p t ((s.p t).given list k)
    have hsum' := p_update_work s (Function.update s.p t ((s.p t).given list k)) v
      ((s.p v).robbed k)
    rw [Function.update_of_ne hvt] at hsum'
    have hrobbed := robbed_work (show k < (s.p v).remaining by omega) (s.pc v)
    have := hgiven list k
    simp only [work, state.set_p, hm, main_work]
    omega

/-- Where the main thread does not wait for a worker, its step uses up work. -/
theorem main_step_work {total : Nat} {objs : List (BitVec 32)} {window : Nat} {s : state n}
    (h : Partitioned total s) (hend : s.main ≠ .ended)
    (hidle : s.main = .choosing → s.active_threads = 0 ∨ ∃ t, find_target s = some t)
    (hexited : ∀ t, s.main = .joining t → s.pc t = .exited) :
    work (main_step objs window s) < work s := by
  unfold main_step
  cases hm : s.main with
  | searching list list_size =>
    simp only
    by_cases h0 : list_size = 0
    · rw [if_pos h0]
      simp only [work, hm, main_work]
      omega
    · rw [if_neg h0]
      simp only [work, hm, main_work]
      omega
  | starting k =>
    simp only
    by_cases hk : k < n
    · rw [dif_pos hk]
      by_cases h0 : (s.p ⟨k, hk⟩).list_size = 0
      · rw [if_pos h0]
        simp only [work, hm, main_work]
        omega
      · rw [if_neg h0]
        have hpc := h.starting k hm ⟨k, hk⟩ (Nat.le_refl k)
        have hlt : worker_work (s.p ⟨k, hk⟩) .test < worker_work (s.p ⟨k, hk⟩) (s.pc ⟨k, hk⟩) := by
          rw [hpc]
          simp only [worker_work]
          split_ifs <;> omega
        have := work_pc_lt hlt
        simp only [work, hm, main_work, state.set_pc] at this ⊢
        omega
    · rw [dif_neg hk]
      simp only [work, hm, main_work]
      omega
  | choosing =>
    simp only
    by_cases h0 : s.active_threads = 0
    · rw [if_pos h0]
      simp only [work, hm, main_work]
      omega
    · rw [if_neg h0]
      obtain h0' | ⟨t, ht⟩ := hidle hm
      · exact absurd h0' h0
      · rw [ht]
        exact steal_work h hm ht
  | telling t sub_size =>
    obtain ⟨hwait, hr, hw, _⟩ := h.telling t sub_size hm
    have hsum := p_update_work s s.p t (s.p t).ready
    have hready : worker_work (s.p t).ready (s.pc t) + 2 = worker_work (s.p t) (s.pc t) := by
      rw [hwait]
      simp only [worker_work, thread_params.ready, hr, hw, Bool.true_eq_false, if_true, if_false]
    simp only
    by_cases h0 : sub_size = 0
    · rw [if_pos h0]
      simp only [work, state.set_p, hm, main_work]
      omega
    · rw [if_neg h0]
      simp only [work, state.set_p, hm, main_work]
      omega
  | joining t =>
    simp only
    rw [if_pos (hexited t hm)]
    simp only [work, hm, main_work]
    omega
  | ended => exact absurd hm hend

/-- A worker that the main thread waits for can go on by itself. -/
theorem worker_goes_on {total : Nat} {s : state n} (h : Partitioned total s) {i : Fin n}
    (hpc : s.pc i ≠ .unstarted ∧ s.pc i ≠ .exited)
    (hwait : s.pc i = .waiting → (s.p i).data_ready = true) :
    work (worker_step s i) < work s := by
  apply worker_step_work h
  cases hp : s.pc i with
  | unstarted => exact absurd hp hpc.1
  | test => exact Or.inl rfl
  | call => exact Or.inr (Or.inl rfl)
  | searching list => exact Or.inr (Or.inr (Or.inl ⟨list, rfl⟩))
  | done => exact Or.inr (Or.inr (Or.inr (Or.inl rfl)))
  | waiting => exact Or.inr (Or.inr (Or.inr (Or.inr ⟨rfl, hwait hp⟩)))
  | exited => exact absurd hp hpc.2

/-- No deadlock: until the loop has ended, some thread can go on. -/
theorem some_thread_goes_on {objs : List (BitVec 32)} {window : Nat} {s : state n}
    (h : Partitioned objs.length s) (hend : s.main ≠ .ended) :
    ∃ a, work (step objs window s a) < work s := by
  by_cases hjoin : ∃ t, s.main = .joining t ∧ s.pc t ≠ .exited
  · obtain ⟨t, hm, hpc⟩ := hjoin
    have htold := h.joining t hm
    have hsound := h.worker t
    refine ⟨.worker t, worker_goes_on h ⟨?_, hpc⟩ ?_⟩
    · intro hp
      rw [hp] at hsound
      simp [WorkerSound, htold] at hsound
    · intro hp
      rw [hp] at hsound
      rcases hsound with ⟨_, _, hnot, _⟩ | ⟨_, _, hnot, _⟩ | ⟨_, hr, _⟩
      · simp [htold] at hnot
      · simp [htold] at hnot
      · exact hr
  by_cases hwait : s.main = .choosing ∧ s.active_threads ≠ 0 ∧ find_target s = none
  · obtain ⟨hm, h0, hnone⟩ := hwait
    -- one of the active workers is still at work
    obtain ⟨i, hi⟩ : ∃ i, active (s.pc i) (s.told i) ≠ 0 := by
      by_contra hall
      push Not at hall
      have hcount := h.count
      rw [Finset.sum_eq_zero (fun i _ => hall i), hm] at hcount
      exact h0 hcount
    have hactive : s.pc i ≠ .unstarted ∧ s.told i = false := by
      by_contra hnot
      exact hi (if_neg hnot)
    have hworks : (s.p i).working = true := by
      simpa using List.find?_eq_none.mp hnone i (List.mem_finRange i)
    have hsound := h.worker i
    refine ⟨.worker i, worker_goes_on h ⟨hactive.1, ?_⟩ ?_⟩
    · intro hp
      rw [hp] at hsound
      simp [WorkerSound, hactive.2] at hsound
    · intro hp
      rw [hp] at hsound
      rcases hsound with ⟨hw, _⟩ | ⟨_, _, _, _, htell⟩ | ⟨_, hr, _⟩
      · simp [hworks] at hw
      · simp [hm] at htell
      · exact hr
  refine ⟨.main, main_step_work h hend ?_ ?_⟩
  · intro hm
    by_contra hnot
    push Not at hnot
    exact hwait ⟨hm, hnot.1, Option.eq_none_iff_forall_ne_some.mpr hnot.2⟩
  · intro t hm
    by_contra hpc
    exact hjoin ⟨t, hm, hpc⟩

/-- Every run of the search can be carried on until the loop has ended. -/
theorem a_search_can_be_ended {objs : List (BitVec 32)} {window threads : Nat} {s : state threads}
    (h : Run (step objs window) anyone (ll_find_deltas objs window threads) s) :
    ∃ t, Run (step objs window) anyone s t ∧ t.main = .ended := by
  have hkeeps : ∀ (s : state threads) (a : action threads), Partitioned objs.length s →
      anyone s a → Partitioned objs.length (step objs window s a) :=
    fun _ a hs _ => step_keeps hs a
  have hless : ∀ s : state threads, Partitioned objs.length s → ¬ s.main = .ended →
      ∃ a, anyone s a ∧ work (step objs window s a) < work s := by
    intro s hs hend
    obtain ⟨a, ha⟩ := some_thread_goes_on hs hend
    exact ⟨a, trivial, ha⟩
  exact Run.reaches work hkeeps hless (run_partitioned h)

/-- **The threads partition the work.** In every interleaving each object is
dequeued at most once, by a worker that has it in its segment. The loop ends
only when each worker that was started was told that there is no more work,
and then each object was dequeued once. From every state it can still end. -/
theorem the_threads_partition_the_work {objs : List (BitVec 32)} {window threads : Nat}
    {s : state threads} (h : Run (step objs window) anyone (ll_find_deltas objs window threads) s) :
    (∀ x, dequeues s.log x ≤ 1) ∧
    (∀ d ∈ s.log, d.object < objs.length ∧ d.list ≤ d.object ∧
      d.object < d.list + d.list_size) ∧
    (s.main = .ended → (∀ x < objs.length, dequeues s.log x = 1) ∧
      ∀ i, s.pc i ≠ .unstarted → s.told i = true) ∧
    ∃ t, Run (step objs window) anyone s t ∧ t.main = .ended := by
  have hs := run_partitioned h
  refine ⟨?_, ?_, ?_, a_search_can_be_ended h⟩
  · intro x
    have := hs.cover x
    split_ifs at this <;> omega
  · intro d hd
    refine ⟨?_, hs.segments d hd⟩
    by_contra hout
    have := hs.cover d.object
    rw [if_neg hout] at this
    have hcount : 0 < dequeues s.log d.object :=
      List.countP_pos_iff.mpr ⟨d, hd, by simp⟩
    omega
  · intro he
    refine ⟨?_, ?_⟩
    · intro x hx
      have hcover := hs.cover x
      have hnone := hs.none_left he x
      rw [if_pos hx] at hcover
      omega
    · intro i hi
      have := (hs.ended he).2 i
      by_contra htold
      simp [active, hi, htold] at this

/-- Two threads and one object: only the second worker is started. It takes
the object, asks for more, and is told that there is none. -/
def two_threads_at_work : List (action 2) :=
  [.main, .main, .main] ++ List.replicate 5 (.worker 1) ++ [.main, .main] ++
    List.replicate 2 (.worker 1) ++ [.main, .main]

theorem a_search_with_two_threads_ends :
    ∃ s : state 2, Run (step [7] 10) anyone (ll_find_deltas [7] 10 2) s ∧ s.main = .ended ∧
      (∀ x < 1, dequeues s.log x = 1) ∧ ∀ i, s.pc i ≠ .unstarted → s.told i = true := by
  have hrun : Run (step [7] 10) anyone (ll_find_deltas [7] 10 2)
      (two_threads_at_work.foldl (step [7] 10) (ll_find_deltas [7] 10 2)) :=
    Run.of_list (fun _ _ => trivial) two_threads_at_work
  have hend : (two_threads_at_work.foldl (step [7] 10) (ll_find_deltas [7] 10 2)).main = .ended :=
    rfl
  exact ⟨_, hrun, hend, (the_threads_partition_the_work hrun).2.2.1 hend⟩

end git.delta_search
