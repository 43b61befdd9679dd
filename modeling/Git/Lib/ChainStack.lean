-- A stack that follows a chain: each element is the successor of the one below,
-- the bottom is 0, and the chain is grown up to a target. What was left on the
-- stack by another chain may stay as far as both agree.
import Mathlib

namespace chain_stack

/-- The stack, top first, of a chain from 0. -/
inductive Chain (next : Nat → Option Nat) : List Nat → Prop
  | root : Chain next [0]
  | push {l m : Nat} {ls : List Nat} : Chain next (l :: ls) → next l = some m →
      Chain next (m :: l :: ls)

variable {next next' : Nat → Option Nat}

theorem Chain.ne_nil {ls : List Nat} (h : Chain next ls) : ls ≠ [] := by
  cases h with
  | root => exact List.cons_ne_nil 0 []
  | push _ _ => exact List.cons_ne_nil _ _

theorem Chain.of_suffix {ls : List Nat} (h : Chain next ls) :
    ∀ ls', ls' <:+ ls → ls' ≠ [] → Chain next ls' := by
  induction h with
  | root =>
    intro ls' hsuffix hne
    rcases List.suffix_cons_iff.mp hsuffix with rfl | hnil
    · exact Chain.root
    · exact absurd (List.suffix_nil.mp hnil) hne
  | push hchain hnext ih =>
    intro ls' hsuffix hne
    rcases List.suffix_cons_iff.mp hsuffix with rfl | hbelow
    · exact Chain.push hchain hnext
    · exact ih ls' hbelow hne

/-- All of a chain is at most its top. -/
theorem Chain.le_top (hup : ∀ l m, next l = some m → l < m) {ls : List Nat} (h : Chain next ls) :
    ∀ l ∈ ls, l ≤ ls.headD 0 := by
  induction h with
  | root =>
    intro l hl
    rw [List.mem_singleton.mp hl]
    exact le_refl _
  | @push l m ls hchain hnext ih =>
    intro k hk
    rcases List.mem_cons.mp hk with rfl | hk
    · exact le_refl _
    · exact (ih k hk).trans (hup l m hnext).le

/-- Another successor that agrees up to the top has the same chain. -/
theorem Chain.congr (hup : ∀ l m, next l = some m → l < m) {ls : List Nat} (h : Chain next ls)
    (hsame : ∀ l m, next l = some m → m ≤ ls.headD 0 → next' l = some m) : Chain next' ls := by
  induction h with
  | root => exact Chain.root
  | @push l m ls hchain hnext ih =>
    refine Chain.push (ih ?_) (hsame l m hnext (le_refl _))
    intro a b hab hb
    exact hsame a b hab (hb.trans (hup l m hnext).le)

/-! ## Growing -/

/-- Push successors until the top is at the target. `none`: there is no successor. -/
def grow (next : Nat → Option Nat) (target : Nat) : Nat → List Nat → Option (List Nat)
  | 0, ls => some ls
  | fuel + 1, ls =>
    if target ≤ ls.headD 0 then some ls
    else (next (ls.headD 0)).bind fun m => grow next target fuel (m :: ls)

theorem grow_cons (next : Nat → Option Nat) (target fuel l : Nat) (ls : List Nat) :
    grow next target (fuel + 1) (l :: ls) =
      if target ≤ l then some (l :: ls)
      else (next l).bind fun m => grow next target fuel (m :: l :: ls) := rfl

theorem grow_done {target fuel : Nat} {ls : List Nat} (h : target ≤ ls.headD 0) :
    grow next target fuel ls = some ls := by
  cases fuel with
  | zero => rfl
  | succ fuel => exact if_pos h

/-- More fuel than needed makes no difference. -/
theorem grow_fuel (hup : ∀ l m, next l = some m → l < m) {target : Nat} (fuel : Nat) :
    ∀ (fuel' : Nat) (ls : List Nat), target ≤ ls.headD 0 + fuel → target ≤ ls.headD 0 + fuel' →
      grow next target fuel ls = grow next target fuel' ls := by
  induction fuel with
  | zero =>
    intro fuel' ls h _
    rw [grow_done h, grow_done h]
  | succ fuel ih =>
    intro fuel' ls h h'
    by_cases hdone : target ≤ ls.headD 0
    · rw [grow_done hdone, grow_done hdone]
    · cases fuel' with
      | zero => exact absurd h' hdone
      | succ fuel' =>
        rw [grow, grow, if_neg hdone, if_neg hdone]
        cases hnext : next (ls.headD 0) with
        | none => rfl
        | some m =>
          have hless := hup _ m hnext
          rw [Option.bind_some, Option.bind_some]
          apply ih
          · rw [List.headD_cons]
            omega
          · rw [List.headD_cons]
            omega

/-- From any chain on the way the outcome is that of starting over. -/
theorem grow_chain (hup : ∀ l m, next l = some m → l < m) {target : Nat} {ls : List Nat}
    (h : Chain next ls) (htop : ls.headD 0 ≤ target) {fuel fuel' : Nat}
    (hfuel : target ≤ ls.headD 0 + fuel) (hfuel' : target ≤ fuel') :
    grow next target fuel ls = grow next target fuel' [0] := by
  induction h generalizing fuel with
  | root => exact grow_fuel hup fuel fuel' [0] hfuel (by simpa using hfuel')
  | @push l m ls hchain hnext ih =>
    rw [List.headD_cons] at htop hfuel
    have hless := hup l m hnext
    have hnot : ¬ target ≤ l := by omega
    have hstep : grow next target (target + 1) (l :: ls) = grow next target target (m :: l :: ls) := by
      rw [grow_cons, if_neg hnot, hnext, Option.bind_some]
    have hmore : grow next target fuel (m :: l :: ls) = grow next target target (m :: l :: ls) := by
      apply grow_fuel hup
      · rw [List.headD_cons]
        exact hfuel
      · exact Nat.le_add_left _ _
    rw [hmore, ← hstep]
    apply ih
    · rw [List.headD_cons]
      omega
    · rw [List.headD_cons]
      omega

/-- What was grown is a chain with its top at the target. -/
theorem grow_spec {target : Nat} (hup : ∀ l m, next l = some m → l < m)
    (hmax : ∀ l m, l < target → next l = some m → m ≤ target) (fuel : Nat) :
    ∀ ls ls' : List Nat, Chain next ls → ls.headD 0 ≤ target → target ≤ ls.headD 0 + fuel →
      grow next target fuel ls = some ls' → Chain next ls' ∧ ls'.headD 0 = target := by
  induction fuel with
  | zero =>
    intro ls ls' h htop hfuel hgrow
    obtain rfl := Option.some.inj hgrow
    exact ⟨h, le_antisymm htop hfuel⟩
  | succ fuel ih =>
    intro ls ls' h htop hfuel hgrow
    rw [grow] at hgrow
    split_ifs at hgrow with hdone
    · obtain rfl := Option.some.inj hgrow
      exact ⟨h, le_antisymm htop hdone⟩
    · obtain ⟨m, hnext, hrest⟩ := Option.bind_eq_some_iff.mp hgrow
      have hless := hup _ m hnext
      obtain ⟨l, below, rfl⟩ := List.exists_cons_of_ne_nil h.ne_nil
      rw [List.headD_cons] at *
      exact ih (m :: l :: below) ls' (h.push hnext) (hmax l m (not_le.mp hdone) hnext)
        (by rw [List.headD_cons]; omega) hrest

/-- It comes to its end where each element below the target has a successor. -/
theorem grow_total {target : Nat}
    (hnext : ∀ l ls, Chain next (l :: ls) → l < target → ∃ m, next l = some m) (fuel : Nat) :
    ∀ ls : List Nat, Chain next ls → ∃ ls', grow next target fuel ls = some ls' := by
  induction fuel with
  | zero => exact fun ls _ => ⟨ls, rfl⟩
  | succ fuel ih =>
    intro ls h
    obtain ⟨l, below, rfl⟩ := List.exists_cons_of_ne_nil h.ne_nil
    rw [grow_cons]
    split_ifs with hdone
    · exact ⟨_, rfl⟩
    · obtain ⟨m, hm⟩ := hnext l below h (not_le.mp hdone)
      rw [hm, Option.bind_some]
      exact ih _ (h.push hm)

end chain_stack
