-- Listings: lists in strict order that hold what a predicate holds of. And calls over a list, one
-- element after another, until one of them stops.
import Git.Lib.Bsearch

namespace listing

open bsearch (Ascends)

variable {α κ σ : Type*} [LinearOrder κ] {key : α → κ} {S T : α → Prop} {l m : List α}

/-- `l` has what `S` holds of, once each, in the order of the keys. -/
structure Lists (key : α → κ) (S : α → Prop) (l : List α) : Prop where
  ascends : Ascends key l
  mem_iff : ∀ x, x ∈ l ↔ S x

theorem Lists.congr (h : Lists key S l) (hst : ∀ x, S x ↔ T x) : Lists key T l :=
  ⟨h.ascends, fun x => (h.mem_iff x).trans (hst x)⟩

theorem Lists.nil (h : ∀ x, ¬ S x) : Lists key S [] :=
  ⟨List.Pairwise.nil, fun x => by simp [h x]⟩

theorem Lists.singleton (x : α) : Lists key (· = x) [x] :=
  ⟨List.pairwise_singleton _ x, fun _ => List.mem_singleton⟩

/-- One listing before another. -/
theorem Lists.append (hl : Lists key S l) (hm : Lists key T m)
    (h : ∀ x y, S x → T y → key x < key y) : Lists key (fun x => S x ∨ T x) (l ++ m) where
  ascends := List.pairwise_append.mpr ⟨hl.ascends, hm.ascends,
    fun x hx y hy => h x y ((hl.mem_iff x).mp hx) ((hm.mem_iff y).mp hy)⟩
  mem_iff x := by rw [List.mem_append, hl.mem_iff, hm.mem_iff]

theorem Lists.filter (h : Lists key S l) (p : α → Bool) :
    Lists key (fun x => S x ∧ p x = true) (l.filter p) where
  ascends := h.ascends.sublist List.filter_sublist
  mem_iff x := by rw [List.mem_filter, h.mem_iff]

/-! ## Calls -/

/-- A call for each element. One that gives no zero is the last one. -/
def each (call : α → σ → Int × σ) : List α → σ → Int × σ
  | [], s => (0, s)
  | x :: l, s => if (call x s).1 ≠ 0 then call x s else each call l (call x s).2

theorem each_append (call : α → σ → Int × σ) (l m : List α) (s : σ) :
    each call (l ++ m) s =
      if (each call l s).1 ≠ 0 then each call l s else each call m (each call l s).2 := by
  induction l generalizing s with
  | nil => simp [each]
  | cons x l ih =>
    rw [List.cons_append, each, each, ih]
    by_cases h : (call x s).1 = 0
    · simp only [h, ne_eq, not_true_eq_false, if_false]
    · simp only [ne_eq, h, not_false_eq_true, if_true]

theorem each_singleton (call : α → σ → Int × σ) (x : α) (s : σ) :
    each call [x] s = call x s := by
  rw [each, each]
  split
  · rfl
  · next h => exact Prod.ext (by simpa using Eq.symm (not_not.mp h)) rfl

/-- Elements for which nothing is done need no call. -/
theorem each_filter {call call' : α → σ → Int × σ} (p : α → Bool)
    (hcall : ∀ x s, p x = true → call x s = call' x s)
    (hskip : ∀ x s, p x = false → call x s = (0, s)) (l : List α) (s : σ) :
    each call l s = each call' (l.filter p) s := by
  induction l generalizing s with
  | nil => rfl
  | cons x l ih =>
    cases hp : p x with
    | false =>
      rw [List.filter_cons_of_neg (by simp [hp]), each, hskip x s hp]
      exact ih s
    | true =>
      rw [List.filter_cons_of_pos hp, each, each, hcall x s hp, ih]

end listing
