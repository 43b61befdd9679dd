-- Loops with a number of turns that they may take: what such a loop comes to when it
-- has enough of them.
import Mathlib

namespace turns

variable {α β : Type*} {f g : Nat → Option α}

/-- With enough turns it comes to `a`. -/
def Ends (f : Nat → Option α) (a : α) : Prop := ∃ k, ∀ n, k ≤ n → f n = some a

/-- More turns change no result. -/
def Mono (f : Nat → Option α) : Prop := ∀ n a, f n = some a → f (n + 1) = some a

theorem Ends.const (a : α) : Ends (fun _ => some a) a := ⟨0, fun _ _ => rfl⟩

/-- One turn before the others. -/
theorem Ends.step {a : α} (hstep : ∀ n, f (n + 1) = g n) (h : Ends g a) : Ends f a := by
  obtain ⟨k, hk⟩ := h
  refine ⟨k + 1, fun n hn => ?_⟩
  obtain ⟨m, rfl⟩ : ∃ m, n = m + 1 := ⟨n - 1, by omega⟩
  rw [hstep]
  exact hk m (by omega)

theorem Ends.shift {a : α} (h : Ends f a) : Ends (fun n => f (n + 1)) a := by
  obtain ⟨k, hk⟩ := h
  exact ⟨k, fun n hn => hk (n + 1) (by omega)⟩

/-- One loop after another. -/
theorem Ends.bind {a : α} {b : β} {h : Nat → α → Option β} (hf : Ends f a)
    (hh : Ends (fun n => h n a) b) : Ends (fun n => (f n).bind (h n)) b := by
  obtain ⟨k, hk⟩ := hf
  obtain ⟨m, hm⟩ := hh
  refine ⟨max k m, fun n hn => ?_⟩
  change (f n).bind (h n) = some b
  rw [hk n (by omega)]
  exact hm n (by omega)

theorem Ends.map {a : α} (h : Ends f a) (m : α → β) : Ends (fun n => (f n).map m) (m a) := by
  obtain ⟨k, hk⟩ := h
  exact ⟨k, fun n hn => (congrArg (Option.map m) (hk n hn)).trans rfl⟩

/-- Where the first loop comes to `a`, the second one goes on from there. -/
theorem Ends.of_bind_left {a : α} {b : β} {h : Nat → α → Option β} (hf : Ends f a)
    (hb : Ends (fun n => (f n).bind (h n)) b) : Ends (fun n => h n a) b := by
  obtain ⟨k, hk⟩ := hf
  obtain ⟨m, hm⟩ := hb
  refine ⟨max k m, fun n hn => ?_⟩
  have hn' := hm n (by omega)
  dsimp only at hn'
  rwa [hk n (by omega)] at hn'

/-- A loop that never has a result does not end, and nothing behind it does. -/
theorem Ends.of_bind {b : β} {h : Nat → α → Option β} (hb : Ends (fun n => (f n).bind (h n)) b) :
    ∃ n a, f n = some a := by
  obtain ⟨k, hk⟩ := hb
  obtain ⟨a, ha, -⟩ := Option.bind_eq_some_iff.mp (hk k (le_refl k))
  exact ⟨k, a, ha⟩

theorem Mono.const (a : Option α) : Mono (fun _ => a) := fun _ _ h => h

theorem Mono.bind {h : Nat → α → Option β} (hf : Mono f) (hh : ∀ a, Mono (fun n => h n a)) :
    Mono (fun n => (f n).bind (h n)) := by
  intro n b hb
  obtain ⟨a, ha, hab⟩ := Option.bind_eq_some_iff.mp hb
  exact Option.bind_eq_some_iff.mpr ⟨a, hf n a ha, hh a n b hab⟩

/-- A result with some turns is the result with enough of them. -/
theorem Mono.ends (hf : Mono f) {n : Nat} {a : α} (h : f n = some a) : Ends f a := by
  refine ⟨n, fun m hm => ?_⟩
  induction m, hm using Nat.le_induction with
  | base => exact h
  | succ m _ ih => exact hf m a ih

end turns
