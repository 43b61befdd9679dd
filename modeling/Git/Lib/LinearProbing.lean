-- Tables with open addressing: a key is looked for from its home on, slot after slot and from
-- the last to the first, until it is found or a slot is vacant.
import Mathlib

namespace linear_probing

variable {α κ : Type*} {lim : Nat}

/-! ## The search -/

/-- The slot where the search stops, within so many tries. -/
def probe (lim : Nat) (stop : Nat → Bool) : Nat → Nat → Option Nat
  | 0, _ => none
  | tries + 1, bucket =>
    if stop bucket then some bucket
    else probe lim stop tries (if lim ≤ bucket + 1 then 0 else bucket + 1)

theorem next_bucket {bucket : Nat} (h : bucket < lim) (u : Nat) :
    ((if lim ≤ bucket + 1 then 0 else bucket + 1) + u) % lim = (bucket + (u + 1)) % lim := by
  split_ifs with hwrap
  · have hlast : bucket + 1 = lim := le_antisymm h hwrap
    rw [Nat.zero_add, Nat.add_comm u 1, ← Nat.add_assoc, hlast, Nat.add_mod_left]
  · rw [Nat.add_comm u 1, Nat.add_assoc]

theorem next_lt {bucket : Nat} (h : bucket < lim) :
    (if lim ≤ bucket + 1 then 0 else bucket + 1) < lim := by
  split_ifs <;> omega

theorem probe_some {stop : Nat → Bool} {tries bucket j : Nat} (hbucket : bucket < lim)
    (h : probe lim stop tries bucket = some j) :
    stop j = true ∧ ∃ t, j = (bucket + t) % lim ∧ ∀ u < t, stop ((bucket + u) % lim) = false := by
  induction tries generalizing bucket with
  | zero => cases h
  | succ tries ih =>
    rw [probe] at h
    by_cases hstop : stop bucket = true
    · rw [if_pos hstop] at h
      cases h
      refine ⟨hstop, 0, ?_, fun u hu => absurd hu (Nat.not_lt_zero u)⟩
      rw [Nat.add_zero, Nat.mod_eq_of_lt hbucket]
    · rw [if_neg hstop] at h
      obtain ⟨hj, t, heq, hpath⟩ := ih (next_lt hbucket) h
      refine ⟨hj, t + 1, by rw [heq, next_bucket hbucket], ?_⟩
      rintro (- | u) hu
      · rw [Nat.add_zero, Nat.mod_eq_of_lt hbucket]
        exact Bool.eq_false_iff.mpr hstop
      · have := hpath u (Nat.lt_of_succ_lt_succ hu)
        rwa [next_bucket hbucket] at this

theorem probe_none {stop : Nat → Bool} {tries bucket : Nat} (hbucket : bucket < lim)
    (h : probe lim stop tries bucket = none) : ∀ u < tries, stop ((bucket + u) % lim) = false := by
  induction tries generalizing bucket with
  | zero => exact fun u hu => absurd hu (Nat.not_lt_zero u)
  | succ tries ih =>
    rw [probe] at h
    by_cases hstop : stop bucket = true
    · rw [if_pos hstop] at h
      cases h
    rw [if_neg hstop] at h
    rintro (- | u) hu
    · rw [Nat.add_zero, Nat.mod_eq_of_lt hbucket]
      exact Bool.eq_false_iff.mpr hstop
    · have := ih (next_lt hbucket) h u (Nat.lt_of_succ_lt_succ hu)
      rwa [next_bucket hbucket] at this

/-- As many tries as slots find a slot to stop at, where there is one. -/
theorem probe_finds (stop : Nat → Bool) {bucket i : Nat} (hbucket : bucket < lim) (hi : i < lim)
    (h : stop i = true) : ∃ j, probe lim stop lim bucket = some j := by
  by_contra hnone
  have hall := probe_none hbucket
    (Option.eq_none_iff_forall_ne_some.mpr fun j hj => hnone ⟨j, hj⟩)
  have hslot := hall ((i + lim - bucket) % lim) (Nat.mod_lt _ (Nat.zero_lt_of_lt hi))
  have hsame : (bucket + (i + lim - bucket) % lim) % lim = i := by
    rw [Nat.add_mod_mod, show bucket + (i + lim - bucket) = i + lim by omega, Nat.add_mod_right,
      Nat.mod_eq_of_lt hi]
  rw [hsame, h] at hslot
  cases hslot

/-! ## Tables -/

variable {home : κ → Nat} {key : α → κ} {vacant : α → Bool} {data : Nat → α}

/-- The slots from a key's home up to slot `j` are taken. -/
def Path (lim : Nat) (vacant : α → Bool) (data : Nat → α) (bucket j : Nat) : Prop :=
  ∃ t, j = (bucket + t) % lim ∧ ∀ u < t, vacant (data ((bucket + u) % lim)) = false

/-- Each entry can be found from its home, and no two have one key. -/
structure Table (lim : Nat) (home : κ → Nat) (key : α → κ) (vacant : α → Bool)
    (data : Nat → α) : Prop where
  placed : ∀ i < lim, vacant (data i) = false → Path lim vacant data (home (key (data i))) i
  distinct : ∀ i < lim, ∀ j < lim, vacant (data i) = false → vacant (data j) = false →
    key (data i) = key (data j) → i = j

theorem Table.empty (h : ∀ i, vacant (data i) = true) : Table lim home key vacant data := by
  refine ⟨fun i _ hi => ?_, fun i _ j _ hi => ?_⟩
  · rw [h i] at hi
    cases hi
  · rw [h i] at hi
    cases hi

theorem Path.update {bucket i j : Nat} {a : α} (h : Path lim vacant data bucket i)
    (ha : vacant a = false) : Path lim vacant (Function.update data j a) bucket i := by
  obtain ⟨t, heq, hpath⟩ := h
  refine ⟨t, heq, fun u hu => ?_⟩
  by_cases hslot : (bucket + u) % lim = j
  · rw [hslot, Function.update_self]
    exact ha
  · rw [Function.update_of_ne hslot]
    exact hpath u hu

/-- An entry gives way to another one with its key. -/
theorem Table.refill (h : Table lim home key vacant data) {j : Nat} {a : α}
    (htaken : vacant (data j) = false) (hkey : key a = key (data j)) (ha : vacant a = false) :
    Table lim home key vacant (Function.update data j a) := by
  have hkeys : ∀ i, key (Function.update data j a i) = key (data i) := by
    intro i
    by_cases hij : i = j
    · rw [hij, Function.update_self, hkey]
    · rw [Function.update_of_ne hij]
  have hvacant : ∀ i, vacant (Function.update data j a i) = false → vacant (data i) = false := by
    intro i hi
    by_cases hij : i = j
    · rw [hij]
      exact htaken
    · rwa [Function.update_of_ne hij] at hi
  refine ⟨fun i hi htook => ?_, fun i hi i' hi' htook htook' heq => ?_⟩
  · rw [hkeys]
    exact (h.placed i hi (hvacant i htook)).update ha
  · rw [hkeys, hkeys] at heq
    exact h.distinct i hi i' hi' (hvacant i htook) (hvacant i' htook') heq

/-- A new key takes a vacant slot on its path. -/
theorem Table.fill (h : Table lim home key vacant data) {j : Nat} {a : α}
    (ha : vacant a = false) (hpath : Path lim vacant data (home (key a)) j)
    (hnew : ∀ i < lim, vacant (data i) = false → key (data i) ≠ key a) :
    Table lim home key vacant (Function.update data j a) := by
  refine ⟨fun i hi htook => ?_, fun i hi i' hi' htook htook' heq => ?_⟩
  · by_cases hij : i = j
    · rw [hij, Function.update_self]
      exact hpath.update ha
    · rw [Function.update_of_ne hij] at htook ⊢
      exact (h.placed i hi htook).update ha
  · by_cases hij : i = j
    · by_cases hij' : i' = j
      · rw [hij, hij']
      · rw [hij, Function.update_self, Function.update_of_ne hij'] at heq
        rw [Function.update_of_ne hij'] at htook'
        exact absurd heq.symm (hnew i' hi' htook')
    · rw [Function.update_of_ne hij] at heq htook
      by_cases hij' : i' = j
      · rw [hij', Function.update_self] at heq
        exact absurd heq (hnew i hi htook)
      · rw [Function.update_of_ne hij'] at heq htook'
        exact h.distinct i hi i' hi' htook htook' heq

/-- A search that ends at a vacant slot tells that the key is not there. -/
theorem Table.absent (h : Table lim home key vacant data) {k : κ} {j : Nat} (stop : Nat → Bool)
    (hkey : ∀ i, key (data i) = k → stop i = true)
    (hpath : ∃ t, j = (home k + t) % lim ∧ ∀ u < t, stop ((home k + u) % lim) = false)
    (hvacant : vacant (data j) = true) :
    ∀ i < lim, vacant (data i) = false → key (data i) ≠ k := by
  rintro i hi htook rfl
  obtain ⟨t, rfl, hsearch⟩ := hpath
  obtain ⟨t', heq, htaken⟩ := h.placed i hi htook
  rcases Nat.lt_trichotomy t t' with hlt | rfl | hlt
  · rw [htaken t hlt] at hvacant
    cases hvacant
  · rw [← heq, htook] at hvacant
    cases hvacant
  · have hstop := hsearch t' hlt
    rw [← heq, hkey i rfl] at hstop
    cases hstop

/-! ## How many -/

/-- The slots that are taken. -/
def taken (lim : Nat) (vacant : α → Bool) (data : Nat → α) : Finset Nat :=
  (Finset.range lim).filter fun i => vacant (data i) = false

theorem taken_fill {j : Nat} {a : α} (hj : j < lim) (hvacant : vacant (data j) = true)
    (ha : vacant a = false) :
    (taken lim vacant (Function.update data j a)).card = (taken lim vacant data).card + 1 := by
  have hinsert : taken lim vacant (Function.update data j a) =
      insert j (taken lim vacant data) := by
    ext i
    rw [Finset.mem_insert, taken, taken, Finset.mem_filter, Finset.mem_filter]
    by_cases hij : i = j
    · rw [hij, Function.update_self]
      exact ⟨fun _ => Or.inl rfl, fun _ => ⟨Finset.mem_range.mpr hj, ha⟩⟩
    · rw [Function.update_of_ne hij]
      exact ⟨Or.inr, fun h => h.resolve_left hij⟩
  rw [hinsert, Finset.card_insert_of_notMem]
  intro hmem
  rw [(Finset.mem_filter.mp hmem).2] at hvacant
  cases hvacant

theorem taken_refill {j : Nat} {a : α} (htaken : vacant (data j) = false) (ha : vacant a = false) :
    taken lim vacant (Function.update data j a) = taken lim vacant data := by
  unfold taken
  apply Finset.filter_congr
  intro i _
  by_cases hij : i = j
  · rw [hij, Function.update_self, ha, htaken]
  · rw [Function.update_of_ne hij]

/-- A table that is not full has a vacant slot. -/
theorem exists_vacant (h : (taken lim vacant data).card < lim) :
    ∃ i < lim, vacant (data i) = true := by
  by_contra hnone
  have hall : taken lim vacant data = Finset.range lim := by
    apply Finset.filter_true_of_mem
    intro i hi
    exact Bool.eq_false_iff.mpr fun hv => hnone ⟨i, Finset.mem_range.mp hi, hv⟩
  rw [hall, Finset.card_range] at h
  exact lt_irrefl lim h

/-- There are no more entries than keys. -/
theorem Table.taken_le {key : α → Nat} {home : Nat → Nat} (h : Table lim home key vacant data)
    {bound : Nat} (hbound : ∀ i < lim, vacant (data i) = false → key (data i) < bound) :
    (taken lim vacant data).card ≤ bound := by
  have hinj := Finset.card_le_card_of_injOn (t := Finset.range bound) (fun i => key (data i))
    (s := taken lim vacant data) ?_ ?_
  · rwa [Finset.card_range] at hinj
  · intro i hi
    obtain ⟨hlt, htook⟩ := Finset.mem_filter.mp hi
    exact Finset.mem_coe.mpr (Finset.mem_range.mpr (hbound i (Finset.mem_range.mp hlt) htook))
  · intro i hi j hj heq
    obtain ⟨hlt, htook⟩ := Finset.mem_filter.mp hi
    obtain ⟨hlt', htook'⟩ := Finset.mem_filter.mp hj
    exact h.distinct i (Finset.mem_range.mp hlt) j (Finset.mem_range.mp hlt') htook htook' heq

end linear_probing
