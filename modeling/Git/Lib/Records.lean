-- Tables of records of one size, one record behind the other in a buffer.
import Mathlib

namespace records

variable {α β : Type*}

theorem length_flatMap {f : α → List β} {k : Nat} {l : List α} (h : ∀ x ∈ l, (f x).length = k) :
    (l.flatMap f).length = k * l.length := by
  induction l with
  | nil => rfl
  | cons x l ih =>
    rw [List.flatMap_cons, List.length_append, h x List.mem_cons_self,
      ih (fun y hy => h y (List.mem_cons_of_mem _ hy)), List.length_cons, Nat.mul_succ,
      Nat.add_comm]

/-- Behind the first `i` records stand the others. -/
theorem drop_flatMap {f : α → List β} {k : Nat} {l : List α} (h : ∀ x ∈ l, (f x).length = k)
    {i : Nat} (hi : i ≤ l.length) (rest : List β) :
    (l.flatMap f ++ rest).drop (k * i) = (l.drop i).flatMap f ++ rest := by
  induction l generalizing i with
  | nil =>
    have h0 : i = 0 := by simpa using hi
    subst h0
    rfl
  | cons x l ih =>
    cases i with
    | zero => rfl
    | succ i =>
      have hx := h x List.mem_cons_self
      have htail := ih (fun y hy => h y (List.mem_cons_of_mem _ hy)) (Nat.le_of_succ_le_succ hi)
      have hsplit : k * (i + 1) = (f x).length + k * i := by rw [hx, Nat.mul_succ, Nat.add_comm]
      rw [List.flatMap_cons, List.append_assoc, hsplit, List.drop_length_add_append, htail,
        List.drop_succ_cons]

/-- Record `i` stands at `i` times the size. -/
theorem drop_flatMap_get {f : α → List β} {k : Nat} {l : List α} (h : ∀ x ∈ l, (f x).length = k)
    {i : Nat} (hi : i < l.length) (rest : List β) :
    ∃ tail, (l.flatMap f ++ rest).drop (k * i) = f l[i] ++ tail := by
  refine ⟨(l.drop (i + 1)).flatMap f ++ rest, ?_⟩
  rw [drop_flatMap h hi.le, List.drop_eq_getElem_cons hi, List.flatMap_cons, List.append_assoc]

/-- Past the last record. -/
theorem drop_flatMap_end {f : α → List β} {k : Nat} {l : List α} (h : ∀ x ∈ l, (f x).length = k)
    (rest : List β) : (l.flatMap f ++ rest).drop (k * l.length) = rest := by
  rw [drop_flatMap h (Nat.le_refl _), List.drop_length]
  rfl

/-- A place behind a prefix. -/
theorem drop_prefix {a b : List β} {n i : Nat} (h : a.length = n) :
    (a ++ b).drop (n + i) = b.drop i := by
  rw [← h, List.drop_length_add_append]

end records
