-- The lexicographic order of lists over a linear order: what a shared
-- prefix fixes, and that the lists with one prefix stand side by side.
import Mathlib

namespace list_order

variable {α : Type*} [LinearOrder α]

theorem append_lt_append_iff (p a b : List α) : p ++ a < p ++ b ↔ a < b := by
  induction p with
  | nil => rfl
  | cons x p ih => simp [ih]

theorem append_le_append_iff (p a b : List α) : p ++ a ≤ p ++ b ↔ a ≤ b := by
  rw [← not_lt, ← not_lt, append_lt_append_iff]

theorem lt_append_cons (p : List α) (x : α) (r : List α) : p < p ++ x :: r := by
  have h := (append_lt_append_iff p [] (x :: r)).mpr (List.nil_lt_cons x r)
  rwa [List.append_nil] at h

theorem le_append (p r : List α) : p ≤ p ++ r := by
  cases r with
  | nil => rw [List.append_nil]
  | cons x r => exact (lt_append_cons p x r).le

theorem le_of_prefix {p a : List α} (h : p <+: a) : p ≤ a := by
  obtain ⟨r, rfl⟩ := h
  exact le_append p r

/-- The lists with one prefix stand side by side: what lies between the
prefix and one of them has the prefix too. -/
theorem prefix_of_between {p b c : List α} (h1 : p ≤ b) (h2 : b ≤ c) (hc : p <+: c) :
    p <+: b := by
  induction p generalizing b c with
  | nil => exact List.nil_prefix
  | cons x p ih =>
    obtain ⟨c, rfl⟩ : ∃ c', c = x :: c' := by
      obtain ⟨r, rfl⟩ := hc
      exact ⟨p ++ r, rfl⟩
    cases b with
    | nil => exact absurd (List.nil_lt_cons x p) (not_lt.mpr h1)
    | cons y b =>
      rw [← not_lt, List.cons_lt_cons_iff] at h1 h2
      push Not at h1 h2
      have hyx : y = x := le_antisymm h2.1 h1.1
      subst hyx
      have hp := h1.2 rfl
      have hb := h2.2 rfl
      have := ih hp hb (by simpa using hc)
      simpa using this

/-- A list that is no prefix of `b` compares with every extension of it
as it compares with `b`. -/
theorem append_lt_of_lt {a b : List α} (r : List α) (h : a < b) (hp : ¬ a <+: b) :
    a ++ r < b := by
  induction a generalizing b with
  | nil => exact absurd List.nil_prefix hp
  | cons x a ih =>
    cases b with
    | nil => exact absurd h (List.not_lt_nil _)
    | cons y b =>
      rw [List.cons_append, List.cons_lt_cons_iff]
      rcases List.cons_lt_cons_iff.mp h with hxy | ⟨rfl, hab⟩
      · exact Or.inl hxy
      · exact Or.inr ⟨rfl, ih hab (by simpa using hp)⟩

/-- Cutting two lists at one length keeps their order, up to equality. -/
theorem take_le_take {a b : List α} (n : Nat) (h : a ≤ b) : a.take n ≤ b.take n := by
  induction n generalizing a b with
  | zero => simp
  | succ n ih =>
    cases a with
    | nil =>
      rw [List.take_nil]
      exact not_lt.mp (List.not_lt_nil _)
    | cons x a =>
      cases b with
      | nil => exact absurd h (not_le.mpr (List.nil_lt_cons x a))
      | cons y b =>
        rw [List.take_succ_cons, List.take_succ_cons, ← not_lt, List.cons_lt_cons_iff]
        rw [← not_lt, List.cons_lt_cons_iff] at h
        push Not at h ⊢
        exact ⟨h.1, fun hyx => ih (h.2 hyx)⟩

omit [LinearOrder α] in
theorem prefix_take_iff {p a : List α} {n : Nat} (h : p.length ≤ n) :
    p <+: a.take n ↔ p <+: a := by
  rw [List.prefix_take_iff]
  exact ⟨fun hp => hp.1, fun hp => ⟨hp, h⟩⟩

end list_order
