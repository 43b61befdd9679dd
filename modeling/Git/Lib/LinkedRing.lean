-- Doubly linked rings: a head that stays, and nodes that are linked in behind it and unlinked,
-- by updates of the two links of their neighbours.
import Mathlib

namespace linked_ring

variable {α : Type*}

structure links (α : Type*) where
  next : α → α
  prev : α → α

/-- `x.next.prev = x.prev; x.prev.next = x.next` -/
def links.unlink [DecidableEq α] (s : links α) (x : α) : links α :=
  let s := { s with prev := Function.update s.prev (s.next x) (s.prev x) }
  { s with next := Function.update s.next (s.prev x) (s.next x) }

/-- `x.next = head; x.prev = head.prev; head.prev.next = x; head.prev = x` -/
def links.append [DecidableEq α] (s : links α) (head x : α) : links α :=
  let s := { s with next := Function.update s.next x head }
  let s := { s with prev := Function.update s.prev x (s.prev head) }
  let s := { s with next := Function.update s.next (s.prev head) x }
  { s with prev := Function.update s.prev head x }

/-- `b` comes after `a`. -/
def links.Joined (s : links α) (a b : α) : Prop := s.next a = b ∧ s.prev b = a

/-- The ring of the nodes `l`, in the order of `next`. -/
structure Ring (s : links α) (head : α) (l : List α) : Prop where
  chain : (head :: l ++ [head]).IsChain s.Joined
  nodup : (head :: l).Nodup

theorem Ring.empty {s : links α} {head : α} (hnext : s.next head = head)
    (hprev : s.prev head = head) : Ring s head [] where
  chain := by simp [links.Joined, hnext, hprev]
  nodup := by simp

/-- A chain uses `next` of all nodes but the last, and `prev` of all but the first. -/
theorem chain_congr {s t : links α} {l : List α} (h : l.IsChain s.Joined)
    (hnext : ∀ a ∈ l.dropLast, t.next a = s.next a) (hprev : ∀ a ∈ l.tail, t.prev a = s.prev a) :
    l.IsChain t.Joined := by
  induction l with
  | nil => exact List.IsChain.nil
  | cons a l ih =>
    cases l with
    | nil => exact List.IsChain.singleton a
    | cons b l =>
      obtain ⟨⟨hab, hba⟩, hl⟩ := List.isChain_cons_cons.mp h
      refine List.isChain_cons_cons.mpr ⟨⟨?_, ?_⟩, ih hl ?_ ?_⟩
      · rw [hnext a (by simp), hab]
      · rw [hprev b (by simp), hba]
      · intro c hc
        exact hnext c (by rw [List.dropLast_cons_cons]; exact List.mem_cons_of_mem _ hc)
      · intro c hc
        exact hprev c (List.mem_cons_of_mem _ hc)

/-- The neighbours of a node. -/
theorem Ring.split {s : links α} {head x : α} {a b : List α} (h : Ring s head (a ++ x :: b)) :
    ∃ before after, head :: a = before ++ [s.prev x] ∧ b ++ [head] = s.next x :: after ∧
      (before ++ [s.prev x]).IsChain s.Joined ∧ (s.next x :: after).IsChain s.Joined := by
  obtain ⟨before, u, hbefore⟩ : ∃ before u, head :: a = before ++ [u] :=
    ⟨_, _, (List.dropLast_append_getLast (List.cons_ne_nil head a)).symm⟩
  obtain ⟨v, after, hafter⟩ : ∃ v after, b ++ [head] = v :: after := by
    cases b with
    | nil => exact ⟨head, [], rfl⟩
    | cons v b => exact ⟨v, b ++ [head], rfl⟩
  have hchain := h.chain
  rw [show head :: (a ++ x :: b) ++ [head] = before ++ u :: (x :: v :: after) by
    rw [List.cons_append, List.append_assoc, ← List.cons_append, hbefore, List.cons_append, hafter]
    simp, List.isChain_split] at hchain
  obtain ⟨hleft, hright⟩ := hchain
  obtain ⟨⟨-, hprev⟩, hright⟩ := List.isChain_cons_cons.mp hright
  obtain ⟨⟨hnext, -⟩, hright⟩ := List.isChain_cons_cons.mp hright
  rw [← hprev] at hbefore hleft
  rw [← hnext] at hafter hright
  exact ⟨before, after, hbefore, hafter, hleft, hright⟩

variable [DecidableEq α]

/-- Apart from the node, the ring is as before. -/
theorem Ring.unlink {s : links α} {head x : α} {a b : List α} (h : Ring s head (a ++ x :: b)) :
    Ring (s.unlink x) head (a ++ b) ∧ (s.unlink x).next x = s.next x := by
  obtain ⟨before, after, hbefore, hafter, hleft, hright⟩ := h.split
  have hnodup : (head :: a ++ x :: b).Nodup := h.nodup
  have hne : ∀ c ∈ head :: a, ∀ d ∈ x :: b, c ≠ d :=
    fun c hc d hd => List.disjoint_of_nodup_append hnodup hc |> fun hno heq => hno (heq ▸ hd)
  have hprev_mem : s.prev x ∈ head :: a := by
    rw [hbefore]
    simp
  have hnext_mem : s.next x ∈ b ++ [head] := by
    rw [hafter]
    simp
  have hne_prev : x ≠ s.prev x := (hne _ hprev_mem x List.mem_cons_self).symm
  have hne_next : x ≠ s.next x := by
    rcases List.mem_append.mp hnext_mem with hin | hin
    · have hb := (List.nodup_cons.mp (List.nodup_append.mp hnodup).2.1).1
      exact fun heq => hb (heq ▸ hin)
    · rw [List.mem_singleton.mp hin]
      exact (hne head List.mem_cons_self x List.mem_cons_self).symm
  have hunlink : s.unlink x =
      ⟨Function.update s.next (s.prev x) (s.next x),
        Function.update s.prev (s.next x) (s.prev x)⟩ := by
    unfold links.unlink
    simp only [Function.update_of_ne hne_next]
  rw [hunlink]
  refine ⟨⟨?_, ?_⟩, Function.update_of_ne hne_prev _ _⟩
  · have hlist : head :: (a ++ b) ++ [head] = before ++ s.prev x :: (s.next x :: after) := by
      rw [List.cons_append, List.append_assoc, ← List.cons_append, hbefore, hafter]
      simp
    rw [hlist, List.isChain_split]
    have hfirst : (before ++ [s.prev x]).Nodup := by
      rw [← hbefore]
      exact (List.nodup_append.mp hnodup).1
    have hlast : (s.next x :: after).Nodup := by
      rw [← hafter, List.nodup_append]
      refine ⟨(List.nodup_cons.mp (List.nodup_append.mp hnodup).2.1).2, by simp, ?_⟩
      intro c hc d hd
      rw [List.mem_singleton.mp hd]
      exact (hne head List.mem_cons_self c (List.mem_cons_of_mem _ hc)).symm
    refine ⟨chain_congr hleft ?_ ?_, List.isChain_cons_cons.mpr
      ⟨⟨Function.update_self .., Function.update_self ..⟩, chain_congr hright ?_ ?_⟩⟩
    · intro c hc
      rw [List.dropLast_concat] at hc
      exact Function.update_of_ne (fun heq => (List.nodup_append.mp hfirst).2.2 c hc _
        List.mem_cons_self heq) _ _
    · intro c hc
      rw [← hbefore, List.tail_cons] at hc
      refine Function.update_of_ne (fun heq => ?_) _ _
      rcases List.mem_append.mp hnext_mem with hin | hin
      · exact hne c (List.mem_cons_of_mem _ hc) _ (List.mem_cons_of_mem _ hin) heq
      · have hhead := (List.nodup_cons.mp (List.nodup_append.mp hnodup).1).1
        rw [List.mem_singleton.mp hin] at heq
        exact hhead (heq ▸ hc)
    · intro c hc
      rw [← hafter, List.dropLast_concat] at hc
      exact Function.update_of_ne (hne _ hprev_mem c (List.mem_cons_of_mem _ hc)).symm _ _
    · intro c hc
      refine Function.update_of_ne (fun heq => ?_) _ _
      exact (List.nodup_cons.mp hlast).1 (heq ▸ hc)
  · exact h.nodup.sublist (((List.sublist_cons_self x b).append_left a).cons_cons head)

/-- The node comes last. -/
theorem Ring.append {s : links α} {head x : α} {l : List α} (h : Ring s head l)
    (hx : x ∉ head :: l) : Ring (s.append head x) head (l ++ [x]) := by
  obtain ⟨before, u, hbefore⟩ : ∃ before u, head :: l = before ++ [u] :=
    ⟨_, _, (List.dropLast_append_getLast (List.cons_ne_nil head l)).symm⟩
  have hchain := h.chain
  rw [hbefore, List.append_assoc, List.singleton_append, List.isChain_split] at hchain
  obtain ⟨hleft, hright⟩ := hchain
  obtain ⟨⟨-, hprev⟩, -⟩ := List.isChain_cons_cons.mp hright
  have hu : u ∈ head :: l := by
    rw [hbefore]
    simp
  have hxu : x ≠ u := fun heq => hx (heq ▸ hu)
  have hxh : head ≠ x := fun heq => hx (heq ▸ List.mem_cons_self)
  have happend : s.append head x =
      ⟨Function.update (Function.update s.next x head) u x,
        Function.update (Function.update s.prev x u) head x⟩ := by
    unfold links.append
    simp only [Function.update_of_ne hxh, hprev]
  rw [happend]
  refine ⟨?_, ?_⟩
  · have hlist : head :: (l ++ [x]) ++ [head] = before ++ u :: [x, head] := by
      rw [List.cons_append, List.append_assoc, ← List.cons_append, hbefore]
      simp
    rw [hlist, List.isChain_split]
    have hnodup := h.nodup
    refine ⟨chain_congr hleft ?_ ?_, List.isChain_cons_cons.mpr
      ⟨⟨Function.update_self .., ?_⟩, List.isChain_cons_cons.mpr
        ⟨⟨?_, Function.update_self ..⟩, List.IsChain.singleton head⟩⟩⟩
    · intro c hc
      rw [List.dropLast_concat] at hc
      have hcu : c ≠ u := by
        rw [hbefore] at hnodup
        exact (List.nodup_append.mp hnodup).2.2 c hc u List.mem_cons_self
      have hcx : c ≠ x := by
        rintro rfl
        exact hx (hbefore ▸ List.mem_append_left _ hc)
      simp only [Function.update_of_ne hcu, Function.update_of_ne hcx]
    · intro c hc
      rw [← hbefore, List.tail_cons] at hc
      have hch : c ≠ head := fun heq => (List.nodup_cons.mp hnodup).1 (heq ▸ hc)
      have hcx : c ≠ x := fun heq => hx (heq ▸ List.mem_cons_of_mem _ hc)
      simp only [Function.update_of_ne hch, Function.update_of_ne hcx]
    · simp only [Function.update_of_ne hxh.symm, Function.update_self]
    · simp only [Function.update_of_ne hxu, Function.update_self]
  · rw [← List.cons_append]
    exact List.nodup_append.mpr ⟨h.nodup, by simp, fun c hc d hd heq => hx (by
      rw [List.mem_singleton.mp hd] at heq
      exact heq ▸ hc)⟩

end linked_ring
