-- Assignments of which the first wins, and which may bring further ones along:
-- these are carried out before the rest.
import Mathlib

namespace first_wins

variable {α β : Type*} [DecidableEq α] {body : α → β → List (α × β)}

/-- Carrying out the assignments of a list, from the left, takes the values `v` to `v'`.
What `body` gives for an assignment comes in its place. -/
inductive Settles (body : α → β → List (α × β)) :
    (α → Option β) → List (α × β) → (α → Option β) → Prop
  | done (v : α → Option β) : Settles body v [] v
  | known {v v' : α → Option β} {a : α} {b : β} {l : List (α × β)} :
      v a ≠ none → Settles body v l v' → Settles body v ((a, b) :: l) v'
  | assign {v v' : α → Option β} {a : α} {b : β} {l : List (α × β)} :
      v a = none → Settles body (Function.update v a (some b)) (body a b ++ l) v' →
      Settles body v ((a, b) :: l) v'

/-- There is one outcome only. -/
theorem Settles.unique {v v₁ v₂ : α → Option β} {l : List (α × β)} (h₁ : Settles body v l v₁)
    (h₂ : Settles body v l v₂) : v₁ = v₂ := by
  induction h₁ with
  | done v =>
    cases h₂
    rfl
  | known hknown _ ih =>
    cases h₂ with
    | known _ hrest => exact ih hrest
    | assign hnone _ => exact absurd hnone hknown
  | assign hnone _ ih =>
    cases h₂ with
    | known hknown _ => exact absurd hnone hknown
    | assign _ hrest => exact ih hrest

/-- A value stays. -/
theorem Settles.stays {v v' : α → Option β} {l : List (α × β)} (h : Settles body v l v') {a : α}
    {b : β} (ha : v a = some b) : v' a = some b := by
  induction h with
  | done v => exact ha
  | known _ _ ih => exact ih ha
  | @assign v v' a' b' l hnone _ ih =>
    apply ih
    rw [Function.update_of_ne]
    · exact ha
    · rintro rfl
      rw [hnone] at ha
      cases ha

theorem Settles.append {v v₁ v₂ : α → Option β} {l l' : List (α × β)} (h : Settles body v l v₁)
    (h' : Settles body v₁ l' v₂) : Settles body v (l ++ l') v₂ := by
  induction h with
  | done v => exact h'
  | known hknown _ ih => exact (ih h').known hknown
  | assign hnone _ ih =>
    have hrest := ih h'
    rw [List.append_assoc] at hrest
    exact hrest.assign hnone

/-- What comes first is settled first. -/
theorem Settles.split {v v₂ : α → Option β} {l' l'' : List (α × β)}
    (h : Settles body v (l' ++ l'') v₂) :
    ∃ v₁, Settles body v l' v₁ ∧ Settles body v₁ l'' v₂ := by
  generalize hl : l' ++ l'' = l at h
  induction h generalizing l' with
  | done v =>
    obtain ⟨rfl, rfl⟩ := List.append_eq_nil_iff.mp hl
    exact ⟨v, Settles.done v, Settles.done v⟩
  | @known v v₂ a b l hknown hrest ih =>
    cases l' with
    | nil =>
      rw [List.nil_append] at hl
      rw [hl]
      exact ⟨v, Settles.done v, hrest.known hknown⟩
    | cons x l' =>
      rw [List.cons_append] at hl
      obtain ⟨rfl, hrest⟩ := List.cons.inj hl
      obtain ⟨v₁, h₁, h₂⟩ := ih hrest
      exact ⟨v₁, h₁.known hknown, h₂⟩
  | @assign v v₂ a b l hnone hrest ih =>
    cases l' with
    | nil =>
      rw [List.nil_append] at hl
      rw [hl]
      exact ⟨v, Settles.done v, hrest.assign hnone⟩
    | cons x l' =>
      rw [List.cons_append] at hl
      obtain ⟨rfl, hrest⟩ := List.cons.inj hl
      have hbody : (body a b ++ l') ++ l'' = body a b ++ l := by rw [List.append_assoc, hrest]
      obtain ⟨v₁, h₁, h₂⟩ := ih hbody
      exact ⟨v₁, h₁.assign hnone, h₂⟩

/-- So what a first part decides is the outcome. -/
theorem Settles.first_part {v v₂ : α → Option β} {l l' : List (α × β)}
    (h : Settles body v (l ++ l') v₂) :
    ∃ v₁, Settles body v l v₁ ∧ ∀ a b, v₁ a = some b → v₂ a = some b := by
  obtain ⟨v₁, h₁, h₂⟩ := h.split
  exact ⟨v₁, h₁, fun a b hab => h₂.stays hab⟩

/-- Where all are known, nothing changes. -/
theorem Settles.of_known {v : α → Option β} {l : List (α × β)} (h : ∀ x ∈ l, v x.1 ≠ none) :
    Settles body v l v := by
  induction l with
  | nil => exact Settles.done v
  | cons x l ih =>
    have hrest := ih fun y hy => h y (List.mem_cons_of_mem x hy)
    exact hrest.known (h x List.mem_cons_self)

end first_wins
