-- A text that a separator splits into fields: the induction over its fields, and what a text
-- has in it when its fields have it.
import Mathlib

namespace fields

variable {α : Type*} {sep : α}

/-- A text is one field, or a field with a separator and a text behind it. -/
theorem induction {motive : List α → Prop} (sep : α)
    (last : ∀ field, sep ∉ field → motive field)
    (more : ∀ field rest, sep ∉ field → motive rest → motive (field ++ sep :: rest))
    (text : List α) : motive text := by
  induction hlen : text.length using Nat.strong_induction_on generalizing text with
  | _ n ih =>
    by_cases hmem : sep ∈ text
    · obtain ⟨field, rest, rfl, hfield⟩ := List.eq_append_cons_of_mem hmem
      refine more field rest hfield (ih rest.length ?_ rest rfl)
      rw [← hlen, List.length_append, List.length_cons]
      omega
    · exact last text hmem

/-- What does not contain the separator does not reach over it. -/
theorem infix_around_iff {w a b : List α} (hw : sep ∉ w) (hne : w ≠ []) :
    w <:+: a ++ sep :: b ↔ w <:+: a ∨ w <:+: b := by
  constructor
  · rintro ⟨s, t, heq⟩
    rcases List.append_eq_append_iff.mp heq with ⟨a', rfl, -⟩ | ⟨c, hsw, hsep⟩
    · exact Or.inl ⟨s, a', rfl⟩
    · cases c with
      | nil =>
        rw [List.append_nil] at hsw
        exact Or.inl ⟨s, [], by rw [List.append_nil, hsw]⟩
      | cons d c =>
        obtain ⟨rfl, rfl⟩ := List.cons.inj hsep
        rcases List.append_eq_append_iff.mp hsw with ⟨a', rfl, rfl⟩ | ⟨e, rfl, he⟩
        · exact absurd (List.mem_append_right a' List.mem_cons_self) hw
        · cases e with
          | nil =>
            rw [List.nil_append] at he
            exact absurd (he ▸ List.mem_cons_self) hw
          | cons d e =>
            obtain ⟨-, rfl⟩ := List.cons.inj he
            exact Or.inr ⟨e, t, rfl⟩
  · rintro (h | h)
    · exact h.trans (List.infix_append' [] a (sep :: b))
    · exact h.trans ⟨a ++ [sep], [], by simp⟩

variable [DecidableEq α]

theorem mem_iff {x : α} (hx : x ≠ sep) (text : List α) :
    x ∈ text ↔ ∃ field ∈ text.splitOn sep, x ∈ field := by
  induction text using induction sep with
  | last field hfield => simp [List.splitOn_eq_singleton hfield]
  | more field rest hfield ih =>
    rw [List.splitOn_append_cons_self_of_not_mem hfield, List.mem_append, List.mem_cons, ih]
    simp [hx]

theorem infix_iff (sep : α) {w : List α} (hw : sep ∉ w) (hne : w ≠ []) (text : List α) :
    w <:+: text ↔ ∃ field ∈ text.splitOn sep, w <:+: field := by
  induction text using induction sep with
  | last field hfield => simp [List.splitOn_eq_singleton hfield]
  | more field rest hfield ih =>
    rw [List.splitOn_append_cons_self_of_not_mem hfield, infix_around_iff hw hne, ih]
    simp

/-- No field has the separator in it. -/
theorem notMem_of_mem {text field : List α} (h : field ∈ text.splitOn sep) : sep ∉ field := by
  induction text using induction sep with
  | last text htext =>
    rw [List.splitOn_eq_singleton htext, List.mem_singleton] at h
    exact h ▸ htext
  | more first rest hfirst ih =>
    rw [List.splitOn_append_cons_self_of_not_mem hfirst, List.mem_cons] at h
    rcases h with rfl | h
    · exact hfirst
    · exact ih h

end fields
