-- Forests that are given by the parent of each element: the order in which the
-- children of an element come together, and then what is below each of them.
import Git.Lib.Acyclic

open Relation

namespace forest

variable {α : Type*}

/-! ## Linked lists -/

/-- The links from `o` on go through `l`. -/
def Chain (next : α → Option α) : Option α → List α → Prop
  | o, [] => o = none
  | o, a :: l => o = some a ∧ Chain next (next a) l

theorem Chain.congr {next next' : α → Option α} {o : Option α} {l : List α} (h : Chain next o l)
    (hsame : ∀ a ∈ l, next' a = next a) : Chain next' o l := by
  induction l generalizing o with
  | nil => exact h
  | cons a l ih =>
    refine ⟨h.1, ?_⟩
    rw [hsame a List.mem_cons_self]
    exact ih h.2 fun b hb => hsame b (List.mem_cons_of_mem a hb)

/-! ## The order -/

/-- `out` is what is below the elements of `l`: for each of them its children, and then
what is below these. -/
inductive Below (children : α → List α) : List α → List α → Prop
  | nil : Below children [] []
  | cons {a : α} {l below after : List α} (hbelow : Below children (children a) below)
      (hafter : Below children l after) : Below children (a :: l) (children a ++ below ++ after)

variable {children : α → List α} {l out : List α}

theorem Below.mem_iff (h : Below children l out) {x : α} :
    x ∈ out ↔ ∃ a ∈ l, TransGen (fun a b => b ∈ children a) a x := by
  induction h with
  | nil => simp
  | @cons a l below after _ _ ihbelow ihafter =>
    rw [List.mem_append, List.mem_append, ihbelow, ihafter, List.exists_mem_cons_iff]
    refine or_congr_left ?_
    constructor
    · rintro (hx | ⟨b, hb, hpath⟩)
      · exact TransGen.single hx
      · exact TransGen.head hb hpath
    · intro hpath
      rcases TransGen.head'_iff.mp hpath with ⟨b, hb, hrest⟩
      rcases reflTransGen_iff_eq_or_transGen.mp hrest with rfl | hrest
      · exact Or.inl hb
      · exact Or.inr ⟨b, hb, hrest⟩

theorem Below.exists_of_forall (h : ∀ a ∈ l, ∃ out, Below children (children a) out) :
    ∃ out, Below children l out := by
  induction l with
  | nil => exact ⟨[], .nil⟩
  | cons a l ih =>
    obtain ⟨below, hbelow⟩ := h a List.mem_cons_self
    obtain ⟨after, hafter⟩ := ih fun b hb => h b (List.mem_cons_of_mem a hb)
    exact ⟨_, .cons hbelow hafter⟩

theorem Below.exists_of_acc {a : α} (h : Acc (fun b a => b ∈ children a) a) :
    ∃ out, Below children (children a) out := by
  induction h with
  | intro a _ ih => exact Below.exists_of_forall ih

/-! ## Parents -/

variable {parent : α → Option α}

/-- Going up from `a` comes to an end. -/
def Rooted (parent : α → Option α) (a : α) : Prop := Acc (fun p a => parent a = some p) a

theorem Rooted.of_root {a : α} (h : parent a = none) : Rooted parent a :=
  ⟨a, fun p hp => by rw [h] at hp; cases hp⟩

theorem Rooted.of_parent {a p : α} (h : parent a = some p) (hp : Rooted parent p) :
    Rooted parent a := by
  refine ⟨a, fun q hq => ?_⟩
  rw [h] at hq
  exact Option.some.inj hq ▸ hp

theorem Rooted.no_cycle {a : α} (h : Rooted parent a) :
    ¬TransGen (fun a b => parent b = some a) a a := by
  intro hpath
  have hacc : Acc (TransGen fun p a => parent a = some p) a := Acc.transGen h
  clear h
  induction hacc with
  | intro a _ ih => exact ih a hpath hpath

/-- Where elements are finitely many, so does going down from one that has a root. -/
theorem Rooted.acc_children [Finite α] {a : α} (h : Rooted parent a) :
    Acc (fun b a => parent b = some a) a := by
  have hacyclic : acyclic.Acyclic
      fun (b a : {a // Rooted parent a}) => parent b.val = some a.val := by
    intro b hpath
    refine b.property.no_cycle ?_
    rw [← transGen_swap]
    exact hpath.lift Subtype.val fun _ _ hab => hab
  have hall : ∀ a : {a // Rooted parent a}, Acc (fun b a => parent b = some a) a.val := by
    intro a
    induction a using hacyclic.wf.induction with
    | _ a ih => exact ⟨a.val, fun b hb => ih ⟨b, Rooted.of_parent hb a.property⟩ hb⟩
  exact hall ⟨a, h⟩

/-- The elements above one another stand in a line. -/
theorem above_total {x a b : α} (ha : ReflTransGen (fun a b => parent b = some a) a x)
    (hb : ReflTransGen (fun a b => parent b = some a) b x) :
    ReflTransGen (fun a b => parent b = some a) a b ∨
      ReflTransGen (fun a b => parent b = some a) b a := by
  have hunique : Relator.RightUnique fun b a : α => parent b = some a := by
    intro b p q hp hq
    exact Option.some.inj (hp.symm.trans hq)
  have htotal := ReflTransGen.total_of_right_unique hunique
    (reflTransGen_swap.mpr ha) (reflTransGen_swap.mpr hb)
  exact htotal.symm.imp reflTransGen_swap.mp reflTransGen_swap.mp

/-- Each element below `l` comes once, where none of `l` is below another. -/
theorem Below.nodup (hmem : ∀ a b, b ∈ children a ↔ parent b = some a)
    (hnodup : ∀ a, (children a).Nodup) (h : Below children l out) (hl : l.Nodup)
    (hapart : ∀ a ∈ l, ∀ b ∈ l, ¬TransGen (fun a b => parent b = some a) a b) :
    out.Nodup ∧ ∀ x ∈ l, x ∉ out := by
  have hrel : (fun a b : α => b ∈ children a) = fun a b => parent b = some a := by
    funext a b
    exact propext (hmem a b)
  have hnot : ∀ {l out : List α}, Below children l out →
      (∀ a ∈ l, ∀ b ∈ l, ¬TransGen (fun a b => parent b = some a) a b) → ∀ x ∈ l, x ∉ out := by
    intro l out h hapart x hx hout
    obtain ⟨a, ha, hpath⟩ := h.mem_iff.mp hout
    rw [hrel] at hpath
    exact hapart a ha x hx hpath
  refine ⟨?_, hnot h hapart⟩
  induction h with
  | nil => exact List.nodup_nil
  | @cons a l below after hbelow hafter ihbelow ihafter =>
    have hself : ¬TransGen (fun a b => parent b = some a) a a :=
      hapart a List.mem_cons_self a List.mem_cons_self
    -- A child that is below another would put `a` below itself.
    have hchildren : ∀ b ∈ children a, ∀ c ∈ children a,
        ¬TransGen (fun a b => parent b = some a) b c := by
      intro b hb c hc hpath
      obtain ⟨p, hrest, hlast⟩ := TransGen.tail'_iff.mp hpath
      obtain rfl : a = p := Option.some.inj (((hmem a c).mp hc).symm.trans hlast)
      exact hself (TransGen.head' ((hmem a b).mp hb) hrest)
    obtain ⟨hal, hl'⟩ := List.nodup_cons.mp hl
    have hrest : ∀ b ∈ l, ∀ c ∈ l, ¬TransGen (fun a b => parent b = some a) b c :=
      fun b hb c hc => hapart b (List.mem_cons_of_mem a hb) c (List.mem_cons_of_mem a hc)
    rw [List.nodup_append, List.nodup_append]
    refine ⟨⟨hnodup a, ihbelow (hnodup a) hchildren, ?_⟩, ihafter hl' hrest, ?_⟩
    · rintro b hb _ hb' rfl
      exact hnot hbelow hchildren b hb hb'
    · rintro x hx _ hx' rfl
      -- `x` is below `a` and below another of the list
      have hxa : TransGen (fun a b => parent b = some a) a x := by
        rw [← hrel]
        rcases List.mem_append.mp hx with hx | hx
        · exact TransGen.single hx
        · obtain ⟨b, hb, hpath⟩ := hbelow.mem_iff.mp hx
          exact TransGen.head hb hpath
      obtain ⟨b, hb, hxb⟩ := hafter.mem_iff.mp hx'
      rw [hrel] at hxb
      have hne : a ≠ b := fun heq => hal (heq ▸ hb)
      rcases above_total hxa.to_reflTransGen hxb.to_reflTransGen with hpath | hpath
      · rcases reflTransGen_iff_eq_or_transGen.mp hpath with heq | hpath
        · exact hne heq.symm
        · exact hapart a List.mem_cons_self b (List.mem_cons_of_mem a hb) hpath
      · rcases reflTransGen_iff_eq_or_transGen.mp hpath with heq | hpath
        · exact hne heq
        · exact hapart b (List.mem_cons_of_mem a hb) a List.mem_cons_self hpath

end forest
