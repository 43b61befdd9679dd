-- Computations that can fail, beside the relations that say which values they may give:
-- a computation gives the values of its relation and no other, and fails only as it may.
import Mathlib

namespace computes

universe u v

variable {ε : Type u} {α β : Type v} {E : ε → Prop}

/-- The values are those of `R`, the failures some of `E`. -/
structure Computes (E : ε → Prop) (x : Except ε α) (R : α → Prop) : Prop where
  value : ∀ a, x = .ok a ↔ R a
  failure : ∀ e, x = .error e → E e

theorem Computes.ok (a : α) : Computes E (.ok a) fun b => b = a where
  value b := by
    rw [Except.ok.injEq]
    exact eq_comm
  failure e h := by cases h

theorem Computes.fail {e : ε} (he : E e) {R : α → Prop} (hR : ∀ a, ¬ R a) :
    Computes E (.error e) R where
  value a := ⟨fun h => (by cases h), fun h => absurd h (hR a)⟩
  failure e' h := by
    cases h
    exact he

theorem Computes.congr {x : Except ε α} {R S : α → Prop} (h : Computes E x R)
    (heq : ∀ a, R a ↔ S a) : Computes E x S where
  value a := (h.value a).trans (heq a)
  failure := h.failure

/-- One after the other. -/
theorem Computes.bind {x : Except ε α} {f : α → Except ε β} {R : α → Prop}
    (hx : Computes E x R) (S : α → β → Prop) (hf : ∀ a, R a → Computes E (f a) (S a)) :
    Computes E (x >>= f) fun b => ∃ a, R a ∧ S a b := by
  cases x with
  | error e =>
    refine ⟨fun b => ⟨fun h => (by cases h), ?_⟩, fun e' h => ?_⟩
    · rintro ⟨a, ha, -⟩
      cases (hx.value a).mpr ha
    · cases h
      exact hx.failure e rfl
  | ok a =>
    have ha := (hx.value a).mp rfl
    refine ⟨fun b => ⟨fun h => ⟨a, ha, ((hf a ha).value b).mp h⟩, ?_⟩, fun e h => ?_⟩
    · rintro ⟨a', ha', hb⟩
      cases (hx.value a').mpr ha'
      exact ((hf a ha).value b).mpr hb
    · exact (hf a ha).failure e h

/-- A test that fails. -/
theorem Computes.unless {c : Prop} [Decidable c] {e : ε} {x : Except ε α} {R : α → Prop}
    (he : c → E e) (hx : ¬ c → Computes E x R) :
    Computes E (if c then .error e else x) fun a => ¬ c ∧ R a := by
  by_cases hc : c
  · rw [if_pos hc]
    exact Computes.fail (he hc) fun a h => h.1 hc
  · rw [if_neg hc]
    exact (hx hc).congr fun a => ⟨fun h => ⟨hc, h⟩, fun h => h.2⟩

/-! ## Two computations that differ in one failure -/

/-- Unless `x` fails with `e`, both come to the same. -/
def SameUnless (e : ε) (x y : Except ε α) : Prop := x = .error e ∨ y = x

theorem SameUnless.refl (e : ε) (x : Except ε α) : SameUnless e x x := Or.inr rfl

theorem SameUnless.bind {e : ε} {x y : Except ε α} {f g : α → Except ε β} (h : SameUnless e x y)
    (hf : ∀ a, SameUnless e (f a) (g a)) : SameUnless e (x >>= f) (y >>= g) := by
  rcases h with rfl | rfl
  · exact Or.inl rfl
  · cases y with
    | error e' => exact Or.inr rfl
    | ok a => exact hf a

theorem SameUnless.ite {e : ε} {c : Prop} [Decidable c] {x y x' y' : Except ε α}
    (h : SameUnless e x x') (h' : SameUnless e y y') :
    SameUnless e (if c then x else y) (if c then x' else y') := by
  by_cases hc : c
  · rw [if_pos hc, if_pos hc]
    exact h
  · rw [if_neg hc, if_neg hc]
    exact h'

end computes
