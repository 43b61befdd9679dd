-- The delta base cache of `sha1_file.c`: a table of unpacked entries of packs, with a list of
-- the used slots that says which were not used for longest.
import Git.PatchDelta
import Git.Lib.LinkedRing

open linked_ring

namespace git.base_cache

/-! ## The table -/

/-- The address of a pack. -/
abbrev packed_git := BitVec 64

abbrev off_t := BitVec 64

def MAX_DELTA_CACHE : Nat := 256

abbrev slot := Fin MAX_DELTA_CACHE

/-- A link of the list: `none` is `delta_base_cache_lru`. -/
abbrev lru_node := Option slot

inductive object_type where
  | OBJ_COMMIT | OBJ_TREE | OBJ_BLOB | OBJ_TAG
  deriving DecidableEq

structure delta_base_cache_entry where
  data : Option Bytes
  p : packed_git
  base_offset : off_t
  size : Nat
  type : object_type

structure delta_base_cache where
  lru : links lru_node
  entry : slot → delta_base_cache_entry
  delta_base_cached : Nat

def no_entries : delta_base_cache where
  lru := ⟨fun _ => none, fun _ => none⟩
  entry _ := ⟨none, 0, 0, 0, .OBJ_COMMIT⟩
  delta_base_cached := 0

def pack_entry_hash (p : packed_git) (base_offset : off_t) : slot :=
  let hash := p + base_offset
  let hash := hash + ((hash >>> 8) + (hash >>> 16))
  ⟨hash.toNat % MAX_DELTA_CACHE, Nat.mod_lt _ (by decide)⟩

/-- The data leaves the table: the caller keeps or frees it. -/
def take_out (c : delta_base_cache) (i : slot) : delta_base_cache where
  lru := c.lru.unlink (some i)
  entry := Function.update c.entry i { c.entry i with data := none }
  delta_base_cached := c.delta_base_cached - (c.entry i).size

def release_delta_base_cache (c : delta_base_cache) (i : slot) : delta_base_cache :=
  if (c.entry i).data.isSome then take_out c i else c

def clear_delta_base_cache (c : delta_base_cache) : delta_base_cache :=
  (List.finRange MAX_DELTA_CACHE).foldl release_delta_base_cache c

/-- A walk over the list that releases what `victim` says, while there is too much in the
table. Of no more turns than there are slots. -/
def evict (delta_base_cache_limit : Nat) (victim : object_type → Bool) :
    Nat → lru_node → delta_base_cache → delta_base_cache
  | 0, _, c => c
  | _ + 1, none, c => c
  | turns + 1, some f, c =>
    if delta_base_cache_limit < c.delta_base_cached then
      let c := if victim (c.entry f).type then release_delta_base_cache c f else c
      evict delta_base_cache_limit victim turns (c.lru.next (some f)) c
    else c

/-- The two walks of `add_delta_base_cache`: blobs go first. -/
def make_room (delta_base_cache_limit : Nat) (c : delta_base_cache) : delta_base_cache :=
  let c := evict delta_base_cache_limit (· == .OBJ_BLOB) MAX_DELTA_CACHE (c.lru.next none) c
  evict delta_base_cache_limit (fun _ => true) MAX_DELTA_CACHE (c.lru.next none) c

def add_delta_base_cache (delta_base_cache_limit : Nat) (c : delta_base_cache) (p : packed_git)
    (base_offset : off_t) (base : Bytes) (base_size : Nat) (type : object_type) :
    delta_base_cache :=
  let i := pack_entry_hash p base_offset
  let c := release_delta_base_cache c i
  let c := { c with delta_base_cached := c.delta_base_cached + base_size }
  let c := make_room delta_base_cache_limit c
  { c with
    lru := c.lru.append none (some i)
    entry := Function.update c.entry i ⟨some base, p, base_offset, base_size, type⟩ }

/-! ## What the table holds -/

/-- The list has the used slots, `slots`, and nothing else; their entries have the property
`P`, and `extra` is counted beside them. -/
structure Holds (P : delta_base_cache_entry → Prop) (c : delta_base_cache) (slots : List slot)
    (extra : Nat) : Prop where
  ring : Ring c.lru none (slots.map some)
  used : ∀ i, i ∈ slots ↔ (c.entry i).data ≠ none
  cached : c.delta_base_cached = (slots.map fun i => (c.entry i).size).sum + extra
  place : ∀ i ∈ slots, pack_entry_hash (c.entry i).p (c.entry i).base_offset = i
  right : ∀ i ∈ slots, P (c.entry i)

variable {P : delta_base_cache_entry → Prop} {c : delta_base_cache} {slots : List slot}
  {extra : Nat}

theorem Holds.nodup (h : Holds P c slots extra) : slots.Nodup :=
  List.Nodup.of_map some (List.nodup_cons.mp h.ring.nodup).2

theorem no_entries_holds (P : delta_base_cache_entry → Prop) : Holds P no_entries [] 0 where
  ring := Ring.empty rfl rfl
  used _ := ⟨fun h => (nomatch h), fun h => absurd rfl h⟩
  cached := rfl
  place _ h := nomatch h
  right _ h := nomatch h

/-- A used slot is given up. -/
theorem Holds.take_out {i : slot} {before after : List slot}
    (h : Holds P c (before ++ i :: after) extra) :
    Holds P (take_out c i) (before ++ after) extra ∧
      (take_out c i).lru.next (some i) = c.lru.next (some i) := by
  have hperm : (before ++ i :: after).Perm (i :: (before ++ after)) := List.perm_middle
  obtain ⟨hnot, -⟩ := List.nodup_cons.mp (hperm.nodup_iff.mp h.nodup)
  have hring := h.ring
  rw [List.map_append, List.map_cons] at hring
  obtain ⟨hring', hnext⟩ := hring.unlink
  have hne : ∀ j ∈ before ++ after, j ≠ i := fun j hj heq => hnot (heq ▸ hj)
  have hother : ∀ j, j ≠ i → (base_cache.take_out c i).entry j = c.entry j := fun j hj =>
    Function.update_of_ne hj _ _
  have hin : ∀ j ∈ before ++ after, j ∈ before ++ i :: after := fun j hj =>
    hperm.mem_iff.mpr (List.mem_cons_of_mem _ hj)
  refine ⟨⟨?_, fun j => ?_, ?_, fun j hj => ?_, fun j hj => ?_⟩, hnext⟩
  · rw [List.map_append]
    exact hring'
  · by_cases hj : j = i
    · subst hj
      refine ⟨fun hmem => absurd hmem hnot, fun hdata => absurd ?_ hdata⟩
      unfold base_cache.take_out
      simp only [Function.update_self]
    · rw [hother j hj, ← h.used j, hperm.mem_iff, List.mem_cons, or_iff_right hj]
  · have hsum : ((before ++ i :: after).map fun j => (c.entry j).size).sum =
        (c.entry i).size + ((before ++ after).map fun j => (c.entry j).size).sum := by
      rw [(hperm.map _).sum_eq, List.map_cons, List.sum_cons]
    have hsame : ((before ++ after).map fun j => ((base_cache.take_out c i).entry j).size) =
        (before ++ after).map fun j => (c.entry j).size :=
      List.map_congr_left fun j hj => by rw [hother j (hne j hj)]
    have hcached := h.cached
    rw [hsum] at hcached
    rw [hsame]
    unfold base_cache.take_out
    simp only
    omega
  · rw [hother j (hne j hj)]
    exact h.place j (hin j hj)
  · rw [hother j (hne j hj)]
    exact h.right j (hin j hj)

/-- Where the released slot was used. -/
theorem Holds.release (h : Holds P c slots extra) (i : slot) :
    (i ∉ slots ∧ release_delta_base_cache c i = c) ∨
      ∃ before after, slots = before ++ i :: after ∧
        release_delta_base_cache c i = base_cache.take_out c i := by
  unfold release_delta_base_cache
  by_cases hdata : (c.entry i).data = none
  · rw [hdata]
    exact Or.inl ⟨fun hi => (h.used i).mp hi hdata, rfl⟩
  · rw [if_pos (Option.isSome_iff_ne_none.mpr hdata)]
    obtain ⟨before, after, hsplit⟩ := List.append_of_mem ((h.used i).mpr hdata)
    exact Or.inr ⟨before, after, hsplit, rfl⟩

theorem Holds.release_keeps (h : Holds P c slots extra) (i : slot) :
    ∃ slots', slots' ⊆ slots ∧ i ∉ slots' ∧
      Holds P (release_delta_base_cache c i) slots' extra := by
  rcases h.release i with ⟨hi, hsame⟩ | ⟨before, after, rfl, htake⟩
  · rw [hsame]
    exact ⟨slots, List.Subset.refl _, hi, h⟩
  · rw [htake]
    refine ⟨before ++ after, ?_, ?_, h.take_out.1⟩
    · exact (((List.sublist_cons_self i after).append_left before)).subset
    · exact (List.nodup_cons.mp (List.perm_middle.nodup_iff.mp h.nodup)).1

theorem Holds.evict_keeps (limit : Nat) (victim : object_type → Bool) (turns : Nat) :
    ∀ (lru : lru_node) (c : delta_base_cache) (slots : List slot), Holds P c slots extra →
      ∃ slots', slots' ⊆ slots ∧ Holds P (evict limit victim turns lru c) slots' extra := by
  induction turns with
  | zero => exact fun lru c slots h => ⟨slots, List.Subset.refl _, h⟩
  | succ turns ih =>
    intro lru c slots h
    cases lru with
    | none => exact ⟨slots, List.Subset.refl _, h⟩
    | some f =>
      unfold evict
      split_ifs with hfull hvictim
      · obtain ⟨slots₁, hsub₁, -, h₁⟩ := h.release_keeps f
        obtain ⟨slots₂, hsub₂, h₂⟩ := ih _ _ slots₁ h₁
        exact ⟨slots₂, List.Subset.trans hsub₂ hsub₁, h₂⟩
      · exact ih _ _ slots h
      · exact ⟨slots, List.Subset.refl _, h⟩

theorem Holds.clear_keeps (h : Holds P c slots extra) :
    ∃ slots', Holds P (clear_delta_base_cache c) slots' extra := by
  unfold clear_delta_base_cache
  generalize List.finRange MAX_DELTA_CACHE = order
  induction order generalizing c slots with
  | nil => exact ⟨slots, h⟩
  | cons i order ih =>
    obtain ⟨slots', -, -, h'⟩ := h.release_keeps i
    exact ih h'

theorem Holds.make_room_keeps (h : Holds P c slots extra) (limit : Nat) :
    ∃ slots', slots' ⊆ slots ∧ Holds P (make_room limit c) slots' extra := by
  obtain ⟨slots₁, hsub₁, h₁⟩ := Holds.evict_keeps limit (· == .OBJ_BLOB) MAX_DELTA_CACHE
    (c.lru.next none) c slots h
  obtain ⟨slots₂, hsub₂, h₂⟩ := Holds.evict_keeps limit (fun _ => true) MAX_DELTA_CACHE
    ((evict limit (· == .OBJ_BLOB) MAX_DELTA_CACHE (c.lru.next none) c).lru.next none) _ slots₁ h₁
  exact ⟨slots₂, List.Subset.trans hsub₂ hsub₁, h₂⟩

/-- An unused slot is taken, and what is counted for it is there now. -/
theorem Holds.append {i : slot} {e : delta_base_cache_entry} (h : Holds P c slots e.size)
    (hi : i ∉ slots) (hdata : e.data ≠ none) (hplace : pack_entry_hash e.p e.base_offset = i)
    (hright : P e) :
    Holds P { c with
      lru := c.lru.append none (some i)
      entry := Function.update c.entry i e } (slots ++ [i]) 0 := by
  have hother : ∀ j ∈ slots, Function.update c.entry i e j = c.entry j := by
    intro j hj
    have hne : j ≠ i := fun heq => hi (heq ▸ hj)
    exact Function.update_of_ne hne _ _
  refine ⟨?_, fun j => ?_, ?_, fun j hj => ?_, fun j hj => ?_⟩
  · rw [List.map_append]
    exact h.ring.append (by simpa using hi)
  · simp only
    by_cases hj : j = i
    · rw [hj, Function.update_self]
      exact ⟨fun _ => hdata, fun _ => by simp⟩
    · rw [Function.update_of_ne hj, ← h.used j, List.mem_append, List.mem_singleton,
        or_iff_left hj]
  · have hsame : (slots.map fun j => (Function.update c.entry i e j).size) =
        slots.map fun j => (c.entry j).size :=
      List.map_congr_left fun j hj => by rw [hother j hj]
    have hcached := h.cached
    simp only [List.map_append, List.map_singleton, List.sum_append, List.sum_singleton, hsame,
      Function.update_self]
    omega
  · simp only
    rcases List.mem_append.mp hj with hj | hj
    · rw [hother j hj]
      exact h.place j hj
    · rw [List.mem_singleton.mp hj, Function.update_self]
      exact hplace
  · simp only
    rcases List.mem_append.mp hj with hj | hj
    · rw [hother j hj]
      exact h.right j hj
    · rw [List.mem_singleton.mp hj, Function.update_self]
      exact hright

theorem Holds.add_keeps (h : Holds P c slots 0) (limit : Nat) (p : packed_git)
    (base_offset : off_t) (base : Bytes) (base_size : Nat) (type : object_type)
    (hright : P ⟨some base, p, base_offset, base_size, type⟩) :
    ∃ slots', Holds P (add_delta_base_cache limit c p base_offset base base_size type)
      slots' 0 := by
  obtain ⟨slots₁, -, hi, h₁⟩ := h.release_keeps (pack_entry_hash p base_offset)
  have hcounted : Holds P { release_delta_base_cache c (pack_entry_hash p base_offset) with
      delta_base_cached :=
        (release_delta_base_cache c (pack_entry_hash p base_offset)).delta_base_cached +
          base_size } slots₁ base_size := by
    refine ⟨h₁.ring, h₁.used, ?_, h₁.place, h₁.right⟩
    have := h₁.cached
    simp only
    omega
  obtain ⟨slots₂, hsub, h₂⟩ := hcounted.make_room_keeps limit
  exact ⟨_, Holds.append h₂
    (fun hmem => hi (hsub hmem)) (Option.some_ne_none base) rfl hright⟩

/-! ## The walk is not cut short -/

end git.base_cache
