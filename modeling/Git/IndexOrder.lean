-- The order of the cache array, kept by lookup and removal: what
-- `index_name_pos` finds, and which entries the loops of
-- `add_index_entry_with_check` take out.
import Git.ReadCache

open bsearch

namespace git

/-! ## Keys -/

theorem Named.mask_le {ce : cache_entry} (h : Named ce) :
    (ce.ce_flags &&& CE_NAMEMASK).toNat ≤ ce.name.length := h.trans_le (Nat.min_le_left _ _)

/-- The key of an entry: its name up to 4095 bytes, and its stage. -/
theorem Named.key {ce : cache_entry} (h : Named ce) :
    ce.key = toLex (ce.name.take 0x0fff, ce_stage ce * 4096) := by
  unfold Named at h
  unfold cache_entry.key cache_key
  rw [stagemask_eq, h]
  congr 2
  rw [List.take_eq_take_iff]
  omega

/-- Entries with short names are told apart by their names and stages. -/
theorem key_eq_iff {a b : cache_entry} (ha : Named a) (hb : Named b)
    (hs : a.name.length < 0x0fff) :
    a.key = b.key ↔ a.name = b.name ∧ ce_stage a = ce_stage b := by
  rw [ha.key, hb.key]
  simp only [EmbeddingLike.apply_eq_iff_eq, Prod.mk.injEq]
  constructor
  · rintro ⟨hn, hst⟩
    rw [List.take_of_length_le hs.le] at hn
    have hl := congrArg List.length hn
    rw [List.length_take] at hl
    rw [List.take_of_length_le (by omega)] at hn
    exact ⟨hn, by omega⟩
  · rintro ⟨hn, hst⟩
    rw [hn, hst]
    exact ⟨rfl, rfl⟩

theorem and_stagemask_of_lt {x : BitVec 32} (h : x.toNat < 4096) : x &&& CE_STAGEMASK = 0 := by
  apply BitVec.eq_of_toNat_eq
  rw [BitVec.toNat_and]
  apply Nat.eq_of_testBit_eq
  intro i
  rw [Nat.testBit_and]
  by_cases hi : i < 12
  · have : CE_STAGEMASK.toNat.testBit i = false := by
      interval_cases i <;> decide
    simp [this]
  · have : x.toNat.testBit i = false :=
      Nat.testBit_lt_two_pow (h.trans_le (Nat.pow_le_pow_right (n := 2) (by omega) (by omega : 12 ≤ i)))
    simp [this]

theorem create_ce_flags_mask (len stage : Nat) (hs : stage < 4) :
    (create_ce_flags len stage &&& CE_NAMEMASK).toNat = min len 0x0fff := by
  unfold create_ce_flags CE_STAGESHIFT
  have hst : (BitVec.ofNat 32 stage <<< 12) &&& CE_NAMEMASK = 0 := by
    interval_cases stage <;> decide
  rw [or_and_apart hst]
  split
  · simp [CE_NAMEMASK]
    omega
  · rename_i hl
    rw [BitVec.toNat_and, BitVec.toNat_ofNat]
    have : CE_NAMEMASK.toNat = 2 ^ 12 - 1 := by decide
    rw [this, Nat.and_two_pow_sub_one_eq_mod]
    omega

theorem create_ce_flags_stage (len stage : Nat) (hs : stage < 4) :
    (create_ce_flags len stage &&& CE_STAGEMASK).toNat = stage * 4096 := by
  unfold create_ce_flags CE_STAGESHIFT
  have hlen : (if 0x0fff ≤ len then CE_NAMEMASK else BitVec.ofNat 32 len) &&&
      CE_STAGEMASK = 0 := by
    split
    · decide
    · apply and_stagemask_of_lt
      rw [BitVec.toNat_ofNat]
      omega
  rw [BitVec.and_or_distrib_right, hlen]
  interval_cases stage <;> decide

theorem new_entry_named (mode : BitVec 32) (sha1 : Sha1) (path : Bytes) {stage : Nat}
    (hs : stage < 4) : Named (new_entry mode sha1 path stage) :=
  create_ce_flags_mask path.length stage hs

theorem new_entry_stage (mode : BitVec 32) (sha1 : Sha1) (path : Bytes) {stage : Nat}
    (hs : stage < 4) : ce_stage (new_entry mode sha1 path stage) = stage := by
  have h1 := stagemask_eq (new_entry mode sha1 path stage)
  have h2 := create_ce_flags_stage path.length stage hs
  have h3 : ce_stage (new_entry mode sha1 path stage) * 4096 = stage * 4096 := h1.symm.trans h2
  omega

/-! ## Lookup -/

/-- The cache array is in the order of `cache_name_compare`, with one entry
for each name and stage, and the flags of each entry tell its name length. -/
structure Ordered (istate : index_state) : Prop where
  ascends : Ascends cache_entry.key istate.cache
  named : ∀ ce ∈ istate.cache, Named ce

theorem index_name_pos_spec {istate : index_state} (h : Ordered istate) (name : Bytes)
    (flags : BitVec 32) (hl : (flags &&& CE_NAMEMASK).toNat ≤ name.length) :
    (∃ pre e post, istate.cache = pre ++ e :: post ∧
        index_name_pos istate name flags = .found pre.length ∧ e.key = cache_key name flags) ∨
      ∃ pre post, istate.cache = pre ++ post ∧
        index_name_pos istate name flags = .absent pre.length ∧
        (∀ a ∈ pre, a.key < cache_key name flags) ∧ ∀ b ∈ post, cache_key name flags < b.key :=
  search_spec h.ascends fun ce hce =>
    cache_name_compare_compares name flags ce.name ce.ce_flags hl (h.named ce hce).mask_le

theorem index_name_pos_le (istate : index_state) (name : Bytes) (flags : BitVec 32) :
    (index_name_pos istate name flags).val ≤ istate.cache_nr := by
  unfold index_name_pos
  cases h : search (fun ce => cache_name_compare name flags ce.name ce.ce_flags) istate.cache with
  | found p => exact (search_found_lt h).le
  | absent p => exact search_absent_le h

/-- What the raw length of a path leaves as a length, in `index_name_pos`. -/
theorem raw_length_le (path : Bytes) :
    ((BitVec.ofNat 32 path.length) &&& CE_NAMEMASK).toNat ≤ path.length := by
  rw [BitVec.toNat_and, BitVec.toNat_ofNat]
  exact Nat.and_le_left.trans (Nat.mod_le _ _)

/-! ## Removal -/

@[simp] theorem record_resolve_undo_cache (istate : index_state) (ce : cache_entry) :
    (record_resolve_undo istate ce).cache = istate.cache := by
  unfold record_resolve_undo
  split <;> rfl

@[simp] theorem record_resolve_undo_cache_tree (istate : index_state) (ce : cache_entry) :
    (record_resolve_undo istate ce).cache_tree = istate.cache_tree := by
  unfold record_resolve_undo
  split <;> rfl

@[simp] theorem record_resolve_undo_timestamp (istate : index_state) (ce : cache_entry) :
    (record_resolve_undo istate ce).timestamp = istate.timestamp := by
  unfold record_resolve_undo
  split <;> rfl

@[simp] theorem record_resolve_undo_name_hash (istate : index_state) (ce : cache_entry) :
    (record_resolve_undo istate ce).name_hash_initialized = istate.name_hash_initialized := by
  unfold record_resolve_undo
  split <;> rfl

/-- `istate'` is `istate` with some entries taken out, each of them with
`P`. Nothing else of the array or of the cache-tree changes. -/
structure Trims (P : cache_entry → Prop) (istate istate' : index_state) : Prop where
  sublist : istate'.cache.Sublist istate.cache
  gone : ∀ e ∈ istate.cache, e ∉ istate'.cache → P e
  cache_tree : istate'.cache_tree = istate.cache_tree
  timestamp : istate'.timestamp = istate.timestamp
  name_hash : istate'.name_hash_initialized = istate.name_hash_initialized

section Trims
variable {P Q : cache_entry → Prop} {istate istate' istate'' : index_state}

theorem Trims.refl (P : cache_entry → Prop) (istate : index_state) : Trims P istate istate :=
  ⟨List.Sublist.refl _, fun _ h hn => absurd h hn, rfl, rfl, rfl⟩

theorem Trims.trans (h1 : Trims P istate istate') (h2 : Trims P istate' istate'') :
    Trims P istate istate'' where
  sublist := h2.sublist.trans h1.sublist
  gone e he hn := by
    by_cases h : e ∈ istate'.cache
    · exact h2.gone e h hn
    · exact h1.gone e he h
  cache_tree := h2.cache_tree.trans h1.cache_tree
  timestamp := h2.timestamp.trans h1.timestamp
  name_hash := h2.name_hash.trans h1.name_hash

theorem Trims.mono (h : Trims P istate istate') (hPQ : ∀ e, P e → Q e) : Trims Q istate istate' :=
  ⟨h.sublist, fun e he hn => hPQ e (h.gone e he hn), h.cache_tree, h.timestamp, h.name_hash⟩

theorem Trims.ordered (h : Trims P istate istate') (ho : Ordered istate) : Ordered istate' :=
  ⟨ho.ascends.sublist h.sublist, fun ce hce => ho.named ce (h.sublist.subset hce)⟩

end Trims

theorem remove_index_entry_at_cache (istate : index_state) (pos : Nat) :
    (remove_index_entry_at istate pos).1.cache = istate.cache.eraseIdx pos := by
  unfold remove_index_entry_at
  cases h : istate.cache[pos]? with
  | none => exact (List.eraseIdx_of_length_le (List.getElem?_eq_none_iff.mp h)).symm
  | some ce => simp

theorem trims_remove {P : cache_entry → Prop} {istate : index_state} {pos : Nat} {e : cache_entry}
    (he : istate.cache[pos]? = some e) (hP : P e) :
    Trims P istate (remove_index_entry_at istate pos).1 where
  sublist := by
    rw [remove_index_entry_at_cache]
    exact List.eraseIdx_sublist ..
  gone x hx hn := by
    rw [remove_index_entry_at_cache] at hn
    obtain ⟨i, hi, rfl⟩ := List.getElem_of_mem hx
    by_cases hip : i = pos
    · subst hip
      rw [List.getElem?_eq_getElem hi, Option.some.injEq] at he
      rwa [he]
    · exact absurd (List.mem_eraseIdx_iff_getElem.mpr ⟨i, hi, hip, rfl⟩) hn
  cache_tree := by simp [remove_index_entry_at, he]
  timestamp := by simp [remove_index_entry_at, he]
  name_hash := by simp [remove_index_entry_at, he]

theorem remove_at_append {istate : index_state} {pre post : List cache_entry} {e : cache_entry}
    (h : istate.cache = pre ++ e :: post) :
    (remove_index_entry_at istate pre.length).1.cache = pre ++ post := by
  rw [remove_index_entry_at_cache, h, eraseIdx_append]

theorem remove_at_more {istate : index_state} {pre post : List cache_entry} {e : cache_entry}
    (h : istate.cache = pre ++ e :: post) :
    (remove_index_entry_at istate pre.length).2 = decide (0 < post.length) := by
  simp [remove_index_entry_at, index_state.cache_nr, h, eraseIdx_append]

end git
