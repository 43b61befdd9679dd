-- Runs of a machine: one operation after another, each of them one that the
-- machine may take where it stands.
import Mathlib

namespace runs

variable {σ ω : Type*} {step : σ → ω → σ} {may may' : σ → ω → Prop} {s t u : σ}

/-- `t` is reached from `s` by operations that may be taken. -/
def Run (step : σ → ω → σ) (may : σ → ω → Prop) : σ → σ → Prop :=
  Relation.ReflTransGen (fun s t => ∃ o, may s o ∧ t = step s o)

theorem Run.refl : Run step may s s := Relation.ReflTransGen.refl

theorem Run.then (h : Run step may s t) {o : ω} (ho : may t o) : Run step may s (step t o) :=
  Relation.ReflTransGen.tail h ⟨o, ho, rfl⟩

/-- What every step keeps, every run keeps. -/
theorem Run.keeps (h : Run step may s t) (Inv : σ → Prop)
    (hstep : ∀ s o, Inv s → may s o → Inv (step s o)) (hs : Inv s) : Inv t := by
  induction h with
  | refl => exact hs
  | tail _ hone ih =>
    obtain ⟨o, ho, rfl⟩ := hone
    exact hstep _ o ih ho

/-- Where every operation may always be taken, any list of them is a run. -/
theorem Run.of_list (h : ∀ s o, may s o) (ops : List ω) : Run step may s (ops.foldl step s) := by
  induction ops generalizing s with
  | nil => exact Run.refl
  | cons o ops ih => exact Relation.ReflTransGen.head ⟨o, h s o, rfl⟩ ih

/-- Where each state short of the goal has a step that makes the measure
smaller, every state has a run to the goal. -/
theorem Run.reaches {Inv Goal : σ → Prop} (measure : σ → ℕ)
    (hstep : ∀ s o, Inv s → may s o → Inv (step s o))
    (hless : ∀ s, Inv s → ¬ Goal s → ∃ o, may s o ∧ measure (step s o) < measure s)
    (hs : Inv s) : ∃ t, Run step may s t ∧ Goal t := by
  generalize hm : measure s = m
  induction m using Nat.strong_induction_on generalizing s with
  | _ m ih =>
    by_cases hg : Goal s
    · exact ⟨s, Run.refl, hg⟩
    · obtain ⟨o, ho, hlt⟩ := hless s hs hg
      obtain ⟨t, hrun, ht⟩ := ih _ (hm ▸ hlt) (hstep s o hs ho) rfl
      exact ⟨t, Relation.ReflTransGen.head ⟨o, ho, rfl⟩ hrun, ht⟩

end runs
