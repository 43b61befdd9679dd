-- Any sequence of operations on the delta base cache: its list and its count stay right, and
-- reading through it gives what the packs have.
import Git.UnpackEntry

open keeps runs linked_ring

namespace git.base_cache

/-! ## The operations -/

inductive operation where
  | cache_or_unpack_entry (depth : Nat) (p : packed_git) (base_offset : off_t) (keep_cache : Bool)
  | unpack_entry (depth : Nat) (p : packed_git) (obj_offset : off_t)
  | add_delta_base_cache (p : packed_git) (base_offset : off_t) (base : object)
  | clear_delta_base_cache

/-- The state after it returned. -/
def after {α : Type} (m : M α) (st : state) : state :=
  match m st with
  | .ok (_, st') => st'
  | .error _ => st

def step (w : object_store) (st : state) : operation → state
  | .cache_or_unpack_entry depth p base_offset keep_cache =>
    after (cache_or_unpack_entry (unpack_entry w depth) p base_offset keep_cache) st
  | .unpack_entry depth p obj_offset => after (unpack_entry w depth p obj_offset) st
  | .add_delta_base_cache p base_offset base => after (add_base w p base_offset base) st
  | .clear_delta_base_cache => { st with cache := clear_delta_base_cache st.cache }

/-- Nothing comes after a `die`, and what is added under the name of an entry is that entry. -/
def may (w : object_store) (st : state) : operation → Prop
  | .cache_or_unpack_entry depth p base_offset keep_cache =>
    ∃ r, cache_or_unpack_entry (unpack_entry w depth) p base_offset keep_cache st = .ok r
  | .unpack_entry depth p obj_offset => ∃ r, unpack_entry w depth p obj_offset st = .ok r
  | .add_delta_base_cache p base_offset base => ∀ o, Unpacks w p base_offset o → base = o
  | .clear_delta_base_cache => True

def start : state := ⟨no_entries, [], 0⟩

/-! ## What every run keeps -/

theorem start_good (w : object_store) : Good w start := ⟨[], no_entries_holds _⟩

theorem after_good {w : object_store} {α : Type} {m : M α} {Q : α → Prop} {st : state}
    (h : Upholds (Good w) m Q) (hst : Good w st) : Good w (after m st) := by
  unfold after
  cases hrun : m st with
  | error e => exact hst
  | ok r => exact (h st r.1 r.2 hst hrun).1

theorem step_good {w : object_store} (st : state) (o : operation) (h : Good w st)
    (ho : may w st o) : Good w (step w st o) := by
  cases o with
  | cache_or_unpack_entry depth p base_offset keep_cache =>
    exact after_good (cache_or_unpack_entry_sound (unpack_entry_sound w depth) p base_offset
      keep_cache) h
  | unpack_entry depth p obj_offset => exact after_good (unpack_entry_sound w depth p obj_offset) h
  | add_delta_base_cache p base_offset base => exact after_good (add_base_keeps ho) h
  | clear_delta_base_cache =>
    obtain ⟨slots, hslots⟩ := h
    simp only [step, Good]
    exact hslots.clear_keeps

/-- In every state that is reached the list is the list of the slots with data, each of them
once, the count is the sum of their sizes and each slot is the one of its entry; an entry whose
deltas can be followed is read the same with the cache and without it. -/
theorem every_run_reads_the_packs (w : object_store) {st : state}
    (h : Run (step w) (may w) start st) :
    (∃ slots : List slot, Ring st.cache.lru none (slots.map some) ∧ slots.Nodup ∧
      (∀ i, i ∈ slots ↔ (st.cache.entry i).data ≠ none) ∧
      st.cache.delta_base_cached = (slots.map fun i => (st.cache.entry i).size).sum ∧
      ∀ i ∈ slots, pack_entry_hash (st.cache.entry i).p (st.cache.entry i).base_offset = i) ∧
    ∀ p base_offset o, Unpacks w p base_offset o →
      ∃ levels, ∀ depth, levels ≤ depth → ∀ keep_cache,
        (∃ st', cache_or_unpack_entry (unpack_entry w depth) p base_offset keep_cache st =
          .ok (some o, st')) ∧
        ∃ st', unpack_entry w depth p base_offset st = .ok (some o, st') := by
  have hgood : Good w st := h.keeps (Good w) step_good (start_good w)
  refine ⟨?_, fun p base_offset o ho => ?_⟩
  · obtain ⟨slots, hslots⟩ := hgood
    exact ⟨slots, hslots.ring, hslots.nodup, hslots.used, hslots.cached, hslots.place⟩
  · obtain ⟨levels, hlevels⟩ := unpack_entry_returns ho
    refine ⟨levels, fun depth hdepth keep_cache => ⟨?_, ?_⟩⟩
    · exact (cache_or_unpack_entry_returns (hlevels depth hdepth) keep_cache).value
        (cache_or_unpack_entry_sound (unpack_entry_sound w depth) p base_offset keep_cache)
        (fun r hr => hr o ho) hgood
    · exact (hlevels depth hdepth).value (unpack_entry_sound w depth p base_offset)
        (fun r hr => hr o ho) hgood

/-! ## One pack -/

/-- A blob of one byte, and another one that is a delta against it. The first one can be
damaged; the object is there somewhere else, too. -/
def a_pack_of_two (damaged : Bool) : object_store where
  entry _ offset :=
    if offset = 1 then .whole .OBJ_BLOB (if damaged then none else some [97])
    else if offset = 2 then .delta (some 1) (some [1, 1, 1, 98])
    else .unknown_type
  nth_packed_object_sha1 _ _ := some 0
  find_pack_entry _ _ _ := none
  find_cached_object _ := some (object.of_data .OBJ_BLOB [97])
  loose_object _ := none
  delta_base_cache_limit := 100

/-- The second blob is read, and the first one comes from the cache. -/
theorem the_base_is_read_again :
    ∃ levels, ∀ depth, levels ≤ depth → ∀ keep_cache,
      (∃ st', cache_or_unpack_entry (unpack_entry (a_pack_of_two false) depth) 0 1 keep_cache
        (step (a_pack_of_two false) start (.cache_or_unpack_entry 2 0 2 true)) =
          .ok (some (object.of_data .OBJ_BLOB [97]), st')) ∧
      ∃ st', unpack_entry (a_pack_of_two false) depth 0 1
        (step (a_pack_of_two false) start (.cache_or_unpack_entry 2 0 2 true)) =
          .ok (some (object.of_data .OBJ_BLOB [97]), st') :=
  (every_run_reads_the_packs (a_pack_of_two false)
    (Run.refl.then (o := operation.cache_or_unpack_entry 2 0 2 true) (Exists.intro _ rfl))).2 0 1 _ (.whole rfl)

/-- Where the base is damaged, it was fetched from elsewhere, and the cache has it since. -/
theorem a_damaged_base_is_in_the_cache :
    ∃ st st' st'', Run (step (a_pack_of_two true)) (may (a_pack_of_two true)) start st ∧
      cache_or_unpack_entry (unpack_entry (a_pack_of_two true) 2) 0 1 true st =
        .ok (some (object.of_data .OBJ_BLOB [97]), st') ∧
      unpack_entry (a_pack_of_two true) 2 0 1 st = .ok (none, st'') :=
  ⟨_, _, _, Run.refl.then (o := operation.cache_or_unpack_entry 2 0 2 true) (Exists.intro _ rfl), rfl, rfl⟩

end git.base_cache
