-- Finite relations without cycles are well-founded, both ways.
import Mathlib

open Relation

namespace acyclic

variable {α : Type*} {r : α → α → Prop}

/-- No element leads back to itself. -/
def Acyclic (r : α → α → Prop) : Prop := ∀ a, ¬ TransGen r a a

theorem Acyclic.wf_trans [Finite α] (h : Acyclic r) : WellFounded (TransGen r) := by
  have : IsTrans α (TransGen r) := ⟨fun _ _ _ => TransGen.trans⟩
  have : Std.Irrefl (TransGen r) := ⟨h⟩
  exact Finite.wellFounded_of_trans_of_irrefl _

theorem Acyclic.wf [Finite α] (h : Acyclic r) : WellFounded r :=
  Subrelation.wf (fun h => TransGen.single h) h.wf_trans

theorem Acyclic.swap (h : Acyclic r) : Acyclic (Function.swap r) := by
  intro a ha
  exact h a (transGen_swap.mp ha)

end acyclic
