-- Nodes that are threaded on one link each, through many heads: a node goes before the head of
-- each key that it has, and its one link has to lead on to the others of all these keys.
import Git.Lib.Forest

open forest

namespace threads

variable {α κ : Type*} {link : α → Option α}

theorem chain_unique {o : Option α} {l l' : List α} (h : Chain link o l) (h' : Chain link o l') :
    l = l' := by
  induction l generalizing o l' with
  | nil =>
    cases l' with
    | nil => rfl
    | cons b l' => exact absurd (h.symm.trans h'.1) (Option.some_ne_none b).symm
  | cons a l ih =>
    cases l' with
    | nil => exact absurd (h'.symm.trans h.1) (Option.some_ne_none a).symm
    | cons b l' =>
      obtain rfl : a = b := Option.some.inj (h.1.symm.trans h'.1)
      rw [ih h.2 h'.2]

/-- From the head of each key the links lead to nodes of `nodes` only, and to all of those that
have the key. -/
def Threaded (link : α → Option α) (head : κ → Option α) (nodes : Set α) (keys : α → Set κ) :
    Prop :=
  ∀ k, ∃ l, Chain link (head k) l ∧ (∀ a ∈ l, a ∈ nodes) ∧ ∀ a ∈ nodes, k ∈ keys a → a ∈ l

variable {head : κ → Option α} {nodes : Set α} {keys : α → Set κ}

theorem Threaded.empty (link : α → Option α) (keys : α → Set κ) :
    Threaded link (fun _ => none) ∅ keys :=
  fun _ => ⟨[], rfl, fun _ h => (nomatch h), fun _ h => h.elim⟩

theorem Threaded.head_ne_none (h : Threaded link head nodes keys) {a : α} {k : κ} (ha : a ∈ nodes)
    (hk : k ∈ keys a) : head k ≠ none := by
  obtain ⟨l, hchain, -, hall⟩ := h k
  cases l with
  | nil => exact fun _ => nomatch hall a ha hk
  | cons b l =>
    rw [hchain.1]
    exact Option.some_ne_none b

/-- A node goes first under the keys `s`, which are its own ones and maybe others: its link has
to lead to all nodes that have one of them. -/
theorem Threaded.add [DecidableEq α] (h : Threaded link head nodes keys) {a : α} (ha : a ∉ nodes)
    {s : Set κ} {head' : κ → Option α} (hin : ∀ k ∈ s, head' k = some a)
    (hout : ∀ k, k ∉ s → head' k = head k) {first : Option α} {l : List α}
    (hchain : Chain link first l) (hnodes : ∀ b ∈ l, b ∈ nodes)
    (hall : ∀ k ∈ s, ∀ b ∈ nodes, k ∈ keys b → b ∈ l) (hown : keys a ⊆ s) :
    Threaded (Function.update link a first) head' (insert a nodes) keys := by
  have hkeep : ∀ {o : Option α} {l : List α}, Chain link o l → (∀ b ∈ l, b ∈ nodes) →
      Chain (Function.update link a first) o l := by
    intro o l hl hsub
    refine hl.congr fun b hb => Function.update_of_ne ?_ _ _
    rintro rfl
    exact ha (hsub b hb)
  intro k
  by_cases hk : k ∈ s
  · refine ⟨a :: l, ⟨hin k hk, ?_⟩, ?_, ?_⟩
    · rw [Function.update_self]
      exact hkeep hchain hnodes
    · intro b hb
      rcases List.mem_cons.mp hb with rfl | hb
      · exact Set.mem_insert b nodes
      · exact Set.mem_insert_of_mem a (hnodes b hb)
    · rintro b (rfl | hb) hkb
      · exact List.mem_cons_self
      · exact List.mem_cons_of_mem a (hall k hk b hb hkb)
  · obtain ⟨l', hl', hsub, hall'⟩ := h k
    refine ⟨l', ?_, fun b hb => Set.mem_insert_of_mem a (hsub b hb), ?_⟩
    · rw [hout k hk]
      exact hkeep hl' hsub
    · rintro b (rfl | hb) hkb
      · exact absurd (hown hkb) hk
      · exact hall' b hb hkb

end threads
