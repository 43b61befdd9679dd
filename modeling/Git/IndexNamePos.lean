-- What `index_name_pos` finds for names of any length. The flags keep no more
-- than 4095 of the length, so longer names are told apart by their first
-- 4095 bytes alone.
import Git.IndexOrder

open bsearch

namespace git

/-! ## The order of full names -/

/-- A full name and its stage, in the order of the index. -/
def full_key (name : Bytes) (stage : Nat) : Bytes ×ₗ Nat := toLex (name, stage)

def cache_entry.full_key (ce : cache_entry) : Bytes ×ₗ Nat := git.full_key ce.name (ce_stage ce)

/-- The index is sorted by full name and stage, and the flags of each entry
are those that `create_ce_flags` gives its name. -/
structure NameSorted (istate : index_state) : Prop where
  ascends : Ascends cache_entry.full_key istate.cache
  named : ∀ ce ∈ istate.cache, Named ce

/-- The entries that a binary search for a full name and its stage asks about. -/
def asked_for (istate : index_state) (name : Bytes) (stage : Nat) : List cache_entry :=
  search_asked (fun ce => cmp (full_key name stage) ce.full_key) istate.cache

/-- To compare the first `n` bytes of `name`, at stage `seen`, with the first
4095 bytes of `ce` is to compare the full name, at `stage`, with `ce`. -/
def SeenRight (n seen : Nat) (name : Bytes) (stage : Nat) (ce : cache_entry) : Prop :=
  cmp (full_key (name.take n) seen) (full_key (ce.name.take 0x0fff) (ce_stage ce)) =
    cmp (full_key name stage) ce.full_key

/-! ## What the flags leave to compare -/

/-- The stages are compared 12 bits up. -/
theorem cmp_shifted (a b : Bytes) (s t : Nat) :
    cmp (full_key a (s * 4096)) (full_key b (t * 4096)) = cmp (full_key a s) (full_key b t) := by
  apply Ordering.Compares.cmp_eq
  have h := cmp_compares (full_key a s) (full_key b t)
  unfold full_key at h ⊢
  revert h
  cases cmp (toLex (a, s)) (toLex (b, t)) with
  | lt =>
    simp only [Ordering.Compares, Prod.Lex.toLex_lt_toLex]
    rintro (h | ⟨rfl, h⟩)
    · exact Or.inl h
    · exact Or.inr ⟨rfl, by omega⟩
  | eq =>
    simp only [Ordering.Compares, EmbeddingLike.apply_eq_iff_eq, Prod.mk.injEq]
    rintro ⟨rfl, rfl⟩
    exact ⟨rfl, rfl⟩
  | gt =>
    simp only [Ordering.Compares, gt_iff_lt, Prod.Lex.toLex_lt_toLex]
    rintro (h | ⟨rfl, h⟩)
    · exact Or.inl h
    · exact Or.inr ⟨rfl, by omega⟩

/-- `cache_name_compare` sees as much of `name` as the flags tell, with the
stage in the flags. -/
theorem cache_name_compare_seen {name : Bytes} {flags : BitVec 32} {ce : cache_entry} {n s : Nat}
    (hn : (flags &&& CE_NAMEMASK).toNat = n) (hs : (flags &&& CE_STAGEMASK).toNat = s * 4096)
    (hl : n ≤ name.length) (hce : Named ce) :
    cache_name_compare name flags ce.name ce.ce_flags =
      cmp (full_key (name.take n) s) (full_key (ce.name.take 0x0fff) (ce_stage ce)) := by
  subst hn
  have h := cache_name_compare_compares name flags ce.name ce.ce_flags hl hce.mask_le
  rw [← cmp_shifted, ← hs]
  have hkey := hce.key
  unfold cache_entry.key at hkey
  rw [hkey] at h
  exact h.cmp_eq.symm

/-- The plain length of a name, taken for flags: its low 12 bits are the
length, and the two bits above are the stage. -/
theorem raw_mask (len : Nat) : (BitVec.ofNat 32 len &&& CE_NAMEMASK).toNat = len % 4096 := by
  rw [BitVec.toNat_and, BitVec.toNat_ofNat]
  have : CE_NAMEMASK.toNat = 2 ^ 12 - 1 := by decide
  rw [this, Nat.and_two_pow_sub_one_eq_mod]
  omega

theorem raw_stage (len : Nat) :
    (BitVec.ofNat 32 len &&& CE_STAGEMASK).toNat = len / 4096 % 4 * 4096 := by
  have hmask : CE_STAGEMASK = BitVec.ofNat 32 3 <<< 12 := by decide
  have hlen : BitVec.ofNat 32 len &&& CE_STAGEMASK =
      (BitVec.ofNat 32 len >>> 12 &&& BitVec.ofNat 32 3) <<< 12 := by
    rw [hmask]
    ext i hi
    simp only [BitVec.getElem_and, BitVec.getElem_shiftLeft]
    by_cases h12 : i < 12
    · simp [h12]
    · have hi' : 12 + (i - 12) = i := Nat.add_sub_cancel' (Nat.le_of_not_lt h12)
      simp [h12, hi', BitVec.getLsbD_eq_getElem hi]
  have hand : (BitVec.ofNat 32 len >>> 12 &&& BitVec.ofNat 32 3).toNat = len / 4096 % 4 := by
    rw [BitVec.toNat_and, BitVec.toNat_ushiftRight, BitVec.toNat_ofNat, BitVec.toNat_ofNat,
      Nat.shiftRight_eq_div_pow]
    have : 3 % 2 ^ 32 = 2 ^ 2 - 1 := by decide
    rw [this, Nat.and_two_pow_sub_one_eq_mod]
    omega
  rw [hlen, BitVec.toNat_shiftLeft, hand, Nat.shiftLeft_eq]
  omega

/-! ## Short names -/

/-- A short name stands to the start of a name as to all of it. -/
theorem lt_take_iff {a : Bytes} (b : Bytes) {n : Nat} (h : a.length < n) :
    a < b.take n ↔ a < b := by
  induction a generalizing b n with
  | nil =>
    obtain ⟨n, rfl⟩ : ∃ k, n = k + 1 := ⟨n - 1, by omega⟩
    cases b with
    | nil => rfl
    | cons y b => exact ⟨fun _ => List.nil_lt_cons y b, fun _ => List.nil_lt_cons y _⟩
  | cons x a ih =>
    simp only [List.length_cons] at h
    obtain ⟨n, rfl⟩ : ∃ k, n = k + 1 := ⟨n - 1, by omega⟩
    cases b with
    | nil => rfl
    | cons y b =>
      rw [List.take_succ_cons, List.cons_lt_cons_iff, List.cons_lt_cons_iff, ih b (by omega)]

theorem eq_take_iff {a : Bytes} (b : Bytes) {n : Nat} (h : a.length < n) :
    a = b.take n ↔ a = b := by
  constructor
  · intro heq
    have hl := congrArg List.length heq
    rw [List.length_take] at hl
    rw [heq, List.take_of_length_le (by omega)]
  · rintro rfl
    rw [List.take_of_length_le h.le]

theorem seenRight_of_short {name : Bytes} (h : name.length < 0x0fff) (stage : Nat)
    (ce : cache_entry) : SeenRight 0x0fff stage name stage ce := by
  unfold SeenRight cache_entry.full_key
  rw [List.take_of_length_le h.le]
  have hfull := cmp_compares (full_key name stage) (full_key ce.name (ce_stage ce))
  apply Ordering.Compares.cmp_eq
  unfold full_key at hfull ⊢
  have hlt := lt_take_iff ce.name h
  have heq := eq_take_iff ce.name h
  revert hfull
  cases cmp (toLex (name, stage)) (toLex (ce.name, ce_stage ce)) with
  | lt =>
    simp only [Ordering.Compares, Prod.Lex.toLex_lt_toLex]
    rintro (hn | ⟨hn, hs⟩)
    · exact Or.inl (hlt.mpr hn)
    · exact Or.inr ⟨heq.mpr hn, hs⟩
  | eq =>
    simp only [Ordering.Compares, EmbeddingLike.apply_eq_iff_eq, Prod.mk.injEq]
    exact fun ⟨hn, hs⟩ => ⟨heq.mpr hn, hs⟩
  | gt =>
    simp only [Ordering.Compares, gt_iff_lt, Prod.Lex.toLex_lt_toLex]
    rintro (hn | ⟨hn, hs⟩)
    · refine Or.inl (lt_of_not_ge fun hle => ?_)
      rcases lt_or_eq_of_le hle with hle | hle
      · exact absurd (hlt.mp hle) (not_lt_of_gt hn)
      · exact absurd (heq.mp hle) hn.ne'
    · exact Or.inr ⟨(heq.mpr hn.symm).symm, hs⟩

/-! ## The lookup -/

/-- A lookup with any flags finds the place of a name just when what the flags
leave to compare is right about the entries that a binary search asks about. -/
theorem placed_iff_seenRight {istate : index_state} (h : NameSorted istate) (name : Bytes)
    {flags : BitVec 32} {n seen : Nat} (stage : Nat) (hn : (flags &&& CE_NAMEMASK).toNat = n)
    (hs : (flags &&& CE_STAGEMASK).toNat = seen * 4096) (hl : n ≤ name.length) :
    Placed cache_entry.full_key (full_key name stage) istate.cache
        (index_name_pos istate name flags) ↔
      ∀ ce ∈ asked_for istate name stage, SeenRight n seen name stage ce := by
  unfold index_name_pos asked_for
  rw [search_placed_iff h.ascends fun ce _ => cmp_compares (full_key name stage) ce.full_key]
  refine forall₂_congr fun ce hce => ?_
  rw [cache_name_compare_seen hn hs hl (h.named ce (search_asked_subset _ _ hce))]
  rfl

theorem seenRight_min (seen : Nat) (name : Bytes) (stage : Nat) (ce : cache_entry) :
    SeenRight (min name.length 0x0fff) seen name stage ce ↔
      SeenRight 0x0fff seen name stage ce := by
  unfold SeenRight
  rw [show name.take (min name.length 0x0fff) = name.take 0x0fff by
    rw [List.take_eq_take_iff]
    omega]

/-- A short name has all of its length in the flags, plain or not. -/
theorem seenRight_raw {name : Bytes} (h : name.length < 0x0fff) (ce : cache_entry) :
    SeenRight (name.length % 4096) (name.length / 4096 % 4) name 0 ce := by
  have hmin := (seenRight_min 0 name 0 ce).mpr (seenRight_of_short h 0 ce)
  rw [Nat.min_eq_left h.le] at hmin
  have hmod : name.length % 4096 = name.length := Nat.mod_eq_of_lt (by omega)
  have hdiv : name.length / 4096 = 0 := Nat.div_eq_of_lt (by omega)
  rw [hmod, hdiv]
  exact hmin

/-- `index_name_pos` finds the place of a name and its stage in the index, just
when what it sees of the name is right about each entry that a binary search
for the name asks about. With the flags of `create_ce_flags` it sees 4095 bytes,
with a plain length it sees the low bits of the length. A name of less than
4095 bytes is seen whole. -/
theorem index_name_pos_placed_iff (istate : index_state) (h : NameSorted istate) (name : Bytes)
    (stage : Nat) (hs : stage < 4) :
    (Placed cache_entry.full_key (full_key name stage) istate.cache
        (index_name_pos istate name (create_ce_flags name.length stage)) ↔
      ∀ ce ∈ asked_for istate name stage, SeenRight 0x0fff stage name stage ce) ∧
    (Placed cache_entry.full_key (full_key name 0) istate.cache
        (index_name_pos istate name (BitVec.ofNat 32 name.length)) ↔
      ∀ ce ∈ asked_for istate name 0,
        SeenRight (name.length % 4096) (name.length / 4096 % 4) name 0 ce) ∧
    (name.length < 0x0fff →
      Placed cache_entry.full_key (full_key name stage) istate.cache
          (index_name_pos istate name (create_ce_flags name.length stage)) ∧
        Placed cache_entry.full_key (full_key name 0) istate.cache
          (index_name_pos istate name (BitVec.ofNat 32 name.length))) := by
  have hcreated : Placed cache_entry.full_key (full_key name stage) istate.cache
      (index_name_pos istate name (create_ce_flags name.length stage)) ↔
      ∀ ce ∈ asked_for istate name stage, SeenRight 0x0fff stage name stage ce := by
    rw [placed_iff_seenRight h name stage (create_ce_flags_mask name.length stage hs)
      (create_ce_flags_stage name.length stage hs) (Nat.min_le_left _ _)]
    exact forall₂_congr fun ce _ => seenRight_min stage name stage ce
  have hraw := placed_iff_seenRight h name 0 (raw_mask name.length)
    (raw_stage name.length) (Nat.mod_le _ _)
  refine ⟨hcreated, hraw, fun hshort => ⟨?_, ?_⟩⟩
  · exact hcreated.mpr fun ce _ => seenRight_of_short hshort stage ce
  · exact hraw.mpr fun ce _ => seenRight_raw hshort ce

/-- An index with the entry `a`. -/
def short_index : index_state :=
  { index_state.empty with cache := [new_entry 0o100644 (Vector.replicate 20 0) [97] 0] }

theorem short_index_sorted : NameSorted short_index where
  ascends := List.pairwise_singleton _ _
  named ce hce := by
    rw [List.mem_singleton.mp hce]
    exact new_entry_named _ _ _ (by decide)

theorem index_name_pos_placed_short :
    Placed cache_entry.full_key (full_key [98] 0) short_index.cache
        (index_name_pos short_index [98] (create_ce_flags 1 0)) ∧
      Placed cache_entry.full_key (full_key [98] 0) short_index.cache
        (index_name_pos short_index [98] 1) :=
  (index_name_pos_placed_iff short_index short_index_sorted [98] 0 (by decide)).2.2 (by decide)

/-! ## Names that share 4095 bytes -/

/-- A name of 4096 bytes, the last of which is `c`. -/
def long_name (c : UInt8) : Bytes := List.replicate 0x0fff 97 ++ [c]

/-- An index with one entry, of a long name. -/
def long_index : index_state :=
  { index_state.empty with
    cache := [new_entry 0o100644 (Vector.replicate 20 0) (long_name 97) 0] }

theorem long_name_length (c : UInt8) : (long_name c).length = 4096 := by
  unfold long_name
  rw [List.length_append, List.length_replicate]
  rfl

theorem long_name_take (c : UInt8) : (long_name c).take 0x0fff = List.replicate 0x0fff 97 := by
  unfold long_name
  rw [List.take_append_of_le_length (by rw [List.length_replicate]),
    List.take_of_length_le (by rw [List.length_replicate])]

theorem long_name_lt : long_name 97 < long_name 98 := by
  unfold long_name
  exact List.append_left_lt (by decide)

theorem long_index_sorted : NameSorted long_index where
  ascends := List.pairwise_singleton _ _
  named ce hce := by
    rw [List.mem_singleton.mp hce]
    exact new_entry_named _ _ _ (by decide)

/-- What the flags leave to compare with the entry of `long_index`. -/
theorem long_index_pos {name : Bytes} {flags : BitVec 32} {n s : Nat}
    (hn : (flags &&& CE_NAMEMASK).toNat = n) (hs : (flags &&& CE_STAGEMASK).toNat = s * 4096)
    (hl : n ≤ name.length) :
    index_name_pos long_index name flags =
      single (cmp (full_key (name.take n) s) (full_key (List.replicate 0x0fff 97) 0)) := by
  unfold index_name_pos long_index
  rw [search_singleton, cache_name_compare_seen hn hs hl (new_entry_named _ _ _ (by decide)),
    new_entry_stage _ _ _ (by decide)]
  unfold new_entry
  rw [long_name_take]

/-- The entry is taken for another name that shares its first 4095 bytes. -/
theorem long_name_found :
    index_name_pos long_index (long_name 98) (create_ce_flags (long_name 98).length 0) =
      .found 0 := by
  rw [long_index_pos (create_ce_flags_mask _ 0 (by decide)) (create_ce_flags_stage _ 0 (by decide))
    (Nat.min_le_left _ _)]
  have htake : (long_name 98).take (min (long_name 98).length 0x0fff) =
      List.replicate 0x0fff 97 := by
    rw [long_name_length, Nat.min_eq_right (by decide), long_name_take]
  rw [htake, cmp_self_eq_eq]
  rfl

/-- The plain length 4096 is that of the empty name at stage 1. -/
theorem long_name_raw :
    index_name_pos long_index (long_name 98) (BitVec.ofNat 32 (long_name 98).length) =
      .absent 0 := by
  rw [long_index_pos (raw_mask _) (raw_stage _) (Nat.mod_le _ _), long_name_length]
  have hlt : full_key ((long_name 98).take (4096 % 4096)) (4096 / 4096 % 4) <
      full_key (List.replicate 0x0fff 97) 0 := by
    rw [List.replicate_succ, Nat.mod_self, List.take_zero]
    exact Prod.Lex.toLex_lt_toLex.mpr (Or.inl (List.nil_lt_cons 97 _))
  rw [hlt.cmp_eq_lt]
  rfl

/-- Of two names that share 4095 bytes, `index_name_pos` takes one for the
other, and with a plain length it misses the place where the name would go. -/
theorem index_name_pos_long_fails : ∃ istate name, NameSorted istate ∧
    ¬Placed cache_entry.full_key (full_key name 0) istate.cache
      (index_name_pos istate name (create_ce_flags name.length 0)) ∧
    ¬Placed cache_entry.full_key (full_key name 0) istate.cache
      (index_name_pos istate name (BitVec.ofNat 32 name.length)) := by
  have hname : ∀ ce ∈ long_index.cache, ce.full_key < full_key (long_name 98) 0 := by
    intro ce hce
    rw [List.mem_singleton.mp hce]
    exact Prod.Lex.toLex_lt_toLex.mpr (Or.inl long_name_lt)
  refine ⟨long_index, long_name 98, long_index_sorted, ?_, ?_⟩
  · rw [long_name_found]
    rintro ⟨x, hx, hk⟩
    exact absurd hk (hname x (List.mem_of_getElem? hx)).ne
  · rw [long_name_raw]
    rintro ⟨-, -, hpost⟩
    have hmem : new_entry 0o100644 (Vector.replicate 20 0) (long_name 97) 0 ∈
        long_index.cache := List.mem_singleton_self _
    exact absurd (hpost _ hmem) (not_lt_of_gt (hname _ hmem))

end git
