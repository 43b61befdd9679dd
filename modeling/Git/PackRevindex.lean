-- The reverse index of a pack, from offsets to places in the index
-- (`pack-revindex.c`), beside the offsets that the index itself gives.
import Git.PackIdx

open bsearch

namespace git.pack_idx

/-! ## The code -/

/-- `offset` is an `off_t`. -/
structure revindex_entry where
  offset : Int
  nr : BitVec 32
  deriving DecidableEq, Repr

/-- 64 bits, taken for an `off_t`. -/
def off_t (bits : Nat) : Int := (BitVec.ofNat 64 bits).toInt

/-- `ntohl(*place)`; `none` leaves the mapping. -/
def word_at (p : pack_index) (place : Int) : Option (BitVec 32) :=
  if place < 0 then none else (ntohl (p.index_data.drop place.toNat)).map (·.1)

/-- A word of the offset table as an offset: by itself, or the large offset at `large`. -/
def value_at (p : pack_index) (off : BitVec 32) (large : Nat) : Option Int :=
  if off &&& 0x80000000 = 0 then some off.toNat
  else
    match word_at p large, word_at p (large + 4) with
    | some high, some low => some (off_t (high.toNat <<< 32 ||| low.toNat))
    | _, _ => none

/-- The loop for version 2. A large offset is the next of its table. -/
def revindex_from (p : pack_index) : Nat → Nat → Nat → Nat → Option (List revindex_entry)
  | 0, _, _, _ => some []
  | turns + 1, i, off_32, off_64 =>
    match word_at p off_32 with
    | none => none
    | some off =>
      match value_at p off off_64 with
      | none => none
      | some offset =>
        let off_64 := if off &&& 0x80000000 = 0 then off_64 else off_64 + 8
        (revindex_from p turns (i + 1) (off_32 + 4) off_64).map
          (⟨offset, BitVec.ofNat 32 i⟩ :: ·)

/-- The loop for version 1: `index + 24 * i`, where the product is an `int`. -/
def revindex_v1_from (p : pack_index) : Nat → Nat → Option (List revindex_entry)
  | 0, _ => some []
  | turns + 1, i =>
    match word_at p (4 * 256 + (BitVec.ofNat 32 (24 * i)).toInt) with
    | none => none
    | some hl => (revindex_v1_from p turns (i + 1)).map (⟨hl.toNat, BitVec.ofNat 32 i⟩ :: ·)

/-- The place of slot `i` in the offset table. -/
def slot_place (p : pack_index) (i : Nat) : Nat :=
  4 * 256 + 8 + (p.num_objects * (20 + 4)).toNat + 4 * i

/-- The place of large offset `k`. -/
def large_place (p : pack_index) (k : Nat) : Nat := slot_place p p.num_objects.toNat + 8 * k

def revindex_entries (p : pack_index) : Option (List revindex_entry) :=
  if 1 < p.index_version then
    revindex_from p p.num_objects.toNat 0 (slot_place p 0) (large_place p 0)
  else revindex_v1_from p p.num_objects.toNat 0

def cmp_offset (a b : revindex_entry) : Ordering :=
  if a.offset < b.offset then .lt else if b.offset < a.offset then .gt else .eq

/-- What `qsort` does with `cmp_offset`. -/
abbrev qsort := Sorter cmp_offset

/-- `none` where a read leaves the mapping, or where there is no room for the
entries: their number is an `int`. -/
def create_pack_revindex (q : qsort) (p : pack_index) (pack_size : Int) :
    Option (List revindex_entry) :=
  if 2 ^ 31 ≤ p.num_objects.toNat + 1 then none
  else
    -- the 20-byte trailer follows immediately after the last object data
    (revindex_entries p).map fun entries => q.sort entries ++ [⟨pack_size - 20, -1⟩]

/-- `ofs` beside entry `mi`. `none`: `lo + hi` is no `int`, or there is no entry. -/
def ofs_test (revindex : List revindex_entry) (ofs : Int) (mi : Nat) : Option Ordering :=
  if 2 ^ 30 ≤ mi then none
  else
    (revindex[mi]?).map fun e =>
      if e.offset = ofs then .eq else if ofs < e.offset then .lt else .gt

/-- The place of an entry, `absent` for NULL. -/
def find_pack_revindex (p : pack_index) (revindex : List revindex_entry) (ofs : Int) :
    Option Pos :=
  try_loop (ofs_test revindex ofs) (p.num_objects.toNat + 1) 0 (p.num_objects.toNat + 1)

/-! ## What is asked of it -/

/-- The offset at place `i`, as an `off_t`. -/
def nth_offset (p : pack_index) (i : Nat) : Option Int :=
  (nth_packed_object_offset p (BitVec.ofNat 32 i)).map off_t

/-- The offsets of all objects. -/
def offsets (p : pack_index) : List Int :=
  (List.range p.num_objects.toNat).map fun i => (nth_offset p i).getD 0

/-- The entry that is found for an offset has a place with that offset, and
the next entry has the next larger offset, or where the objects end. -/
def FindsEntry (p : pack_index) (revindex : List revindex_entry) (pack_size ofs : Int) : Prop :=
  ∃ place e next, find_pack_revindex p revindex ofs = some (.found place) ∧
    revindex[place]? = some e ∧ e.nr < p.num_objects ∧ nth_offset p e.nr.toNat = some ofs ∧
    revindex[place + 1]? = some next ∧ ofs < next.offset ∧
    (next.offset ∈ offsets p ∨ next.offset = pack_size - 20) ∧
    ∀ o ∈ offsets p, ofs < o → next.offset ≤ o

/-- For each place of the index, the offset that the index gives is recorded,
and is found again. -/
def RevindexRight (q : qsort) (p : pack_index) (pack_size : Int) : Prop :=
  ∃ revindex, create_pack_revindex q p pack_size = some revindex ∧
    ∀ i < p.num_objects.toNat, ∃ ofs, nth_offset p i = some ofs ∧
      ⟨ofs, BitVec.ofNat 32 i⟩ ∈ revindex ∧ FindsEntry p revindex pack_size ofs

/-! ## The index files for which it is so -/

/-- How many slots before slot `i` are for large offsets. -/
def rank (p : pack_index) (i : Nat) : Nat :=
  (List.range i).countP fun j =>
    ((word_at p (slot_place p j)).getD 0) &&& 0x80000000 ≠ 0

/-- Where the index itself has slot `i`, and the large offset of a slot. The
sums are of 32 bits. -/
def nth_slot_place (p : pack_index) (i : Nat) : Nat :=
  4 * 256 + (8 + p.num_objects * (20 + 4)).toNat + (4 * BitVec.ofNat 32 i).toNat

def nth_large_place (p : pack_index) (off : BitVec 32) : Nat :=
  4 * 256 + (8 + p.num_objects * (20 + 4)).toNat +
    (p.num_objects * 4 + (off &&& 0x7fffffff) * 8).toNat

/-- The large offset at the rank of slot `i` is the one that the slot points to. -/
def SameOffset (p : pack_index) (i : Nat) : Prop :=
  ∃ off off' offset, word_at p (slot_place p i) = some off ∧
    word_at p (nth_slot_place p i) = some off' ∧
    value_at p off (large_place p (rank p i)) = some offset ∧
    value_at p off' (nth_large_place p off') = some offset

/-- Among the sorted offsets, `ofs` stands from its first to its last place. -/
def first_place (p : pack_index) (ofs : Int) : Nat := (offsets p).countP fun o => o < ofs

def last_place (p : pack_index) (ofs : Int) : Nat := ((offsets p).countP fun o => o ≤ ofs) - 1

/-- A binary search for the last place of `ofs` does not ask about another
place of `ofs`, nor about a place whose double is no `int`. -/
def WayClear (p : pack_index) (ofs : Int) : Prop :=
  ∀ mi ∈ asked (fun i => cmp (last_place p ofs) i) (p.num_objects.toNat + 1) 0
      (p.num_objects.toNat + 1),
    mi < 2 ^ 30 ∧ ¬(first_place p ofs ≤ mi ∧ mi < last_place p ofs)

/-- The number of objects is an `int`, and so is each distance in the table of
version 1; in version 2 the large offsets stand in the order of their slots. The
offsets are inside the pack, and the search for each one is clear. -/
structure InOrder (p : pack_index) (pack_size : Int) : Prop where
  int : p.num_objects.toNat + 1 < 2 ^ 31
  table : if p.index_version = 1 then p.num_objects.toNat ≤ 89478486
    else ∀ i < p.num_objects.toNat, SameOffset p i
  inside : ∀ ofs ∈ offsets p, ofs < pack_size - 20
  clear : ∀ ofs ∈ offsets p, WayClear p ofs

/-! ## What is recorded -/

/-- What is recorded for place `i`. -/
def recorded (p : pack_index) (i : Nat) : Option Int :=
  if 1 < p.index_version then
    match word_at p (slot_place p i) with
    | none => none
    | some off => value_at p off (large_place p (rank p i))
  else (word_at p (4 * 256 + (BitVec.ofNat 32 (24 * i)).toInt)).map fun hl => hl.toNat

/-- The entries of the next `turns` places. -/
def record_from (p : pack_index) : Nat → Nat → Option (List revindex_entry)
  | 0, _ => some []
  | turns + 1, i =>
    match recorded p i with
    | none => none
    | some ofs => (record_from p turns (i + 1)).map (⟨ofs, BitVec.ofNat 32 i⟩ :: ·)

theorem rank_succ (p : pack_index) {i : Nat} {off : BitVec 32}
    (h : word_at p (slot_place p i) = some off) :
    rank p (i + 1) = if off &&& 0x80000000 = 0 then rank p i else rank p i + 1 := by
  unfold rank
  rw [List.range_succ, List.countP_append, List.countP_singleton, h, Option.getD_some]
  by_cases hoff : off &&& 0x80000000 = 0
  · rw [if_pos hoff, if_neg (by simpa using hoff), Nat.add_zero]
  · rw [if_neg hoff, if_pos (by simpa using hoff)]

theorem revindex_from_eq {p : pack_index} (hv : 1 < p.index_version) (turns i : Nat) :
    revindex_from p turns i (slot_place p i) (large_place p (rank p i)) =
      record_from p turns i := by
  induction turns generalizing i with
  | zero => rfl
  | succ turns ih =>
    unfold revindex_from record_from recorded
    rw [if_pos hv]
    cases hword : word_at p (slot_place p i) with
    | none => rfl
    | some off =>
      simp only
      cases value_at p off (large_place p (rank p i)) with
      | none => rfl
      | some ofs =>
        simp only
        have hlarge : (if off &&& 0x80000000 = 0 then large_place p (rank p i)
            else large_place p (rank p i) + 8) = large_place p (rank p (i + 1)) := by
          rw [rank_succ p hword]
          unfold large_place
          split <;> omega
        have hslot : slot_place p i + 4 = slot_place p (i + 1) := by
          unfold slot_place
          omega
        rw [hlarge, hslot, ih]

theorem revindex_v1_from_eq {p : pack_index} (hv : ¬1 < p.index_version) (turns i : Nat) :
    revindex_v1_from p turns i = record_from p turns i := by
  induction turns generalizing i with
  | zero => rfl
  | succ turns ih =>
    unfold revindex_v1_from record_from recorded
    rw [if_neg hv, ih]
    cases word_at p (4 * 256 + (BitVec.ofNat 32 (24 * i)).toInt) with
    | none => rfl
    | some hl => rfl

theorem revindex_entries_eq (p : pack_index) :
    revindex_entries p = record_from p p.num_objects.toNat 0 := by
  unfold revindex_entries
  by_cases hv : 1 < p.index_version
  · rw [if_pos hv, ← revindex_from_eq hv]
    rfl
  · rw [if_neg hv, revindex_v1_from_eq hv]

/-- All is recorded, or nothing is. -/
theorem record_from_eq_some (p : pack_index) (turns i : Nat) (l : List revindex_entry) :
    record_from p turns i = some l ↔
      l.length = turns ∧ ∀ k < turns, ∃ ofs, recorded p (i + k) = some ofs ∧
        l[k]? = some ⟨ofs, BitVec.ofNat 32 (i + k)⟩ := by
  induction turns generalizing i l with
  | zero =>
    unfold record_from
    rw [Option.some.injEq, eq_comm, ← List.length_eq_zero_iff]
    exact ⟨fun h => ⟨h, fun k hk => absurd hk (Nat.not_lt_zero _)⟩, And.left⟩
  | succ turns ih =>
    unfold record_from
    constructor
    · intro h
      cases hofs : recorded p i with
      | none => simp [hofs] at h
      | some ofs =>
        simp only [hofs, Option.map_eq_some_iff] at h
        obtain ⟨rest, hrest, rfl⟩ := h
        obtain ⟨hlen, hget⟩ := (ih (i + 1) rest).mp hrest
        refine ⟨by rw [List.length_cons, hlen], fun k hk => ?_⟩
        cases k with
        | zero => exact ⟨ofs, hofs, rfl⟩
        | succ k =>
          obtain ⟨o, ho, hk'⟩ := hget k (by omega)
          rw [Nat.add_assoc, Nat.add_comm 1 k] at ho hk'
          exact ⟨o, ho, hk'⟩
    · rintro ⟨hlen, hget⟩
      obtain ⟨ofs, hofs, h0⟩ := hget 0 (Nat.succ_pos _)
      rw [Nat.add_zero] at hofs h0
      cases l with
      | nil => cases h0
      | cons e rest =>
        obtain rfl : e = ⟨ofs, BitVec.ofNat 32 i⟩ := Option.some.inj h0
        have hrest : record_from p turns (i + 1) = some rest := by
          refine (ih (i + 1) rest).mpr ⟨by simpa using hlen, fun k hk => ?_⟩
          obtain ⟨o, ho, hk'⟩ := hget (k + 1) (by omega)
          have hik : i + (k + 1) = i + 1 + k := by omega
          rw [hik] at ho hk'
          exact ⟨o, ho, hk'⟩
        simp [hofs, hrest]

/-! ## The two tables -/

/-- The versions that are accepted, and the size of a file of version 1. -/
theorem check_packed_git_idx_version {idx_map : Bytes} {p : pack_index}
    (h : check_packed_git_idx idx_map = some p) :
    p.index_version = 2 ∨ p.index_version = 1 ∧
      p.index_data.length = (4 * 256 + p.num_objects * 24 + 20 + 20).toNat := by
  unfold check_packed_git_idx at h
  dsimp only at h
  split at h
  · cases h
  cases hsig : ntohl idx_map with
  | none => simp [hsig] at h
  | some sig =>
    simp only [hsig] at h
    split at h
    · cases hver : ntohl sig.2 with
      | none => simp [hver] at h
      | some version =>
        simp only [hver] at h
        split at h
        · cases h
        cases hmono : monotonic 256 0 version.2 with
        | none =>
          rw [hmono] at h
          cases h
        | some nr =>
          rw [hmono] at h
          dsimp only at h
          by_cases hsize : idx_map.length < (8 + 4 * 256 + nr * (20 + 4 + 4) + 20 + 20).toNat ∨
              (if nr = 0 then (8 + 4 * 256 + nr * (20 + 4 + 4) + 20 + 20).toNat
                else (8 + 4 * 256 + nr * (20 + 4 + 4) + 20 + 20).toNat +
                  ((nr - 1) * 8).toNat) < idx_map.length
          · rw [if_pos hsize] at h
            cases h
          · rw [if_neg hsize] at h
            cases h
            exact Or.inl rfl
    · cases hmono : monotonic 256 0 idx_map with
      | none =>
        rw [hmono] at h
        cases h
      | some nr =>
        rw [hmono] at h
        dsimp only at h
        by_cases hsize : idx_map.length = (4 * 256 + nr * 24 + 20 + 20).toNat
        · rw [if_neg (not_not.mpr hsize)] at h
          cases h
          exact Or.inr ⟨rfl, hsize⟩
        · rw [if_pos hsize] at h
          cases h

theorem word_at_nat (p : pack_index) (place : Nat) :
    word_at p place = (ntohl (p.index_data.drop place)).map (·.1) := by
  unfold word_at
  rw [if_neg (by omega), Int.toNat_natCast]

theorem word_at_inside (p : pack_index) (place : Nat) (h : place + 4 ≤ p.index_data.length) :
    ∃ w, word_at p place = some w := by
  rw [word_at_nat]
  unfold ntohl big_endian.word
  rw [if_neg]
  · exact ⟨_, rfl⟩
  · rw [List.length_drop]
    omega

theorem off_t_small {n : Nat} (h : n < 2 ^ 63) : off_t n = n := by
  unfold off_t
  rw [BitVec.toInt_eq_toNat_of_lt]
  · rw [BitVec.toNat_ofNat, Nat.mod_eq_of_lt (by omega)]
  · rw [BitVec.toNat_ofNat]
    omega

/-- In version 2, the index reads its own slot and the large offset it points to. -/
theorem nth_offset_v2 {p : pack_index} (hv : p.index_version ≠ 1) (i : Nat) :
    nth_offset p i = match word_at p (nth_slot_place p i) with
      | none => none
      | some off => value_at p off (nth_large_place p off) := by
  unfold nth_offset nth_packed_object_offset offset_read nth_slot_place nth_large_place
  dsimp only
  rw [if_neg hv, List.drop_drop, word_at_nat]
  cases ntohl (p.index_data.drop (4 * 256 + (8 + p.num_objects * (20 + 4)).toNat +
      (4 * BitVec.ofNat 32 i).toNat)) with
  | none => rfl
  | some off =>
    simp only [Option.map_some]
    unfold value_at
    by_cases hoff : off.1 &&& 0x80000000 = 0
    · rw [if_pos hoff, if_pos hoff, Option.map_some, off_t_small (by omega)]
    · rw [if_neg hoff, if_neg hoff, List.drop_drop, List.drop_drop, word_at_nat,
        show ∀ a : Nat, (a : Int) + 4 = ((a + 4 : Nat) : Int) from fun _ => rfl, word_at_nat,
        ← Nat.add_assoc]
      cases ntohl (p.index_data.drop (4 * 256 + (8 + p.num_objects * (20 + 4)).toNat +
          (p.num_objects * 4 + (off.1 &&& 0x7fffffff) * 8).toNat)) with
      | none => rfl
      | some high =>
        simp only [Option.map_some]
        cases ntohl (p.index_data.drop (4 * 256 + (8 + p.num_objects * (20 + 4)).toNat +
            (p.num_objects * 4 + (off.1 &&& 0x7fffffff) * 8).toNat + 4)) with
        | none => rfl
        | some low => rfl

/-- In version 1 the two tables are one, as long as its distances are `int`s. -/
theorem recorded_v1 {p : pack_index} (hv : p.index_version = 1)
    (hsize : p.index_data.length = (4 * 256 + p.num_objects * 24 + 20 + 20).toNat) :
    (∀ i < p.num_objects.toNat, ∃ ofs, recorded p i = some ofs ∧ nth_offset p i = some ofs) ↔
      p.num_objects.toNat ≤ 89478486 := by
  have hrec : ∀ i, recorded p i =
      (word_at p (4 * 256 + (BitVec.ofNat 32 (24 * i)).toInt)).map fun hl => (hl.toNat : Int) := by
    intro i
    unfold recorded
    rw [if_neg (by omega)]
  constructor
  · intro h
    by_contra hlarge
    obtain ⟨ofs, hofs, -⟩ := h 89478486 (by omega)
    have hneg : (4 * 256 + (BitVec.ofNat 32 (24 * 89478486)).toInt : Int) < 0 := by decide
    rw [hrec, word_at, if_pos hneg] at hofs
    cases hofs
  · intro hle i hi
    have hlen : p.index_data.length = 1064 + 24 * p.num_objects.toNat := by
      have h24 : (24 : BitVec 32).toNat = 24 := rfl
      have h1024 : (4 * 256 : BitVec 32).toNat = 1024 := rfl
      have h20 : (20 : BitVec 32).toNat = 20 := rfl
      rw [hsize]
      simp only [BitVec.toNat_add, BitVec.toNat_mul p.num_objects, h24, h1024, h20]
      omega
    have hint : (BitVec.ofNat 32 (24 * i)).toInt = (24 * i : Nat) := by
      rw [BitVec.toInt_eq_toNat_of_lt]
      · rw [BitVec.toNat_ofNat, Nat.mod_eq_of_lt (by omega)]
      · rw [BitVec.toNat_ofNat, Nat.mod_eq_of_lt (by omega)]
        omega
    have hnat : (24 * BitVec.ofNat 32 i).toNat = 24 * i := by
      have h24 : (24 : BitVec 32).toNat = 24 := rfl
      rw [BitVec.toNat_mul, h24, BitVec.toNat_ofNat]
      omega
    have hplace : (4 * 256 + ((24 * i : Nat) : Int)) = ((4 * 256 + 24 * i : Nat) : Int) := by
      omega
    obtain ⟨w, hw⟩ := word_at_inside p (4 * 256 + 24 * i) (by omega)
    refine ⟨w.toNat, ?_, ?_⟩
    · rw [hrec, hint, hplace, hw, Option.map_some]
    · unfold nth_offset nth_packed_object_offset
      rw [word_at_nat] at hw
      obtain ⟨r, hr, rfl⟩ := Option.map_eq_some_iff.mp hw
      dsimp only
      rw [if_pos hv, hnat, hr, Option.map_some, Option.map_some, off_t_small (by omega)]

theorem recorded_v2 {p : pack_index} (hv : p.index_version = 2) :
    (∀ i < p.num_objects.toNat, ∃ ofs, recorded p i = some ofs ∧ nth_offset p i = some ofs) ↔
      ∀ i < p.num_objects.toNat, SameOffset p i := by
  refine forall₂_congr fun i _ => ?_
  unfold recorded SameOffset
  rw [if_pos (by omega), nth_offset_v2 (by omega)]
  cases word_at p (slot_place p i) with
  | none => simp
  | some off =>
    cases word_at p (nth_slot_place p i) with
    | none => simp
    | some off' => simp

theorem recorded_iff {idx_map : Bytes} {p : pack_index}
    (h : check_packed_git_idx idx_map = some p) :
    (∀ i < p.num_objects.toNat, ∃ ofs, recorded p i = some ofs ∧ nth_offset p i = some ofs) ↔
      if p.index_version = 1 then p.num_objects.toNat ≤ 89478486
      else ∀ i < p.num_objects.toNat, SameOffset p i := by
  rcases check_packed_git_idx_version h with hv | ⟨hv, hsize⟩
  · rw [if_neg (by omega), recorded_v2 hv]
  · rw [if_pos hv, recorded_v1 hv hsize]

/-! ## The sorted offsets -/

section Sorted
variable {q : qsort} {p : pack_index} {entries : List revindex_entry} {pack_size : Int}

/-- The entries have the offsets of the index, place by place. -/
def Recorded (p : pack_index) (entries : List revindex_entry) : Prop :=
  entries.length = p.num_objects.toNat ∧ ∀ i < p.num_objects.toNat, ∃ ofs,
    nth_offset p i = some ofs ∧ entries[i]? = some ⟨ofs, BitVec.ofNat 32 i⟩

theorem Recorded.offsets (h : Recorded p entries) : entries.map (·.offset) = offsets p := by
  apply List.ext_getElem?
  intro i
  unfold pack_idx.offsets
  rw [List.getElem?_map, List.getElem?_map]
  by_cases hi : i < p.num_objects.toNat
  · obtain ⟨ofs, hofs, hget⟩ := h.2 i hi
    rw [hget, List.getElem?_range hi, Option.map_some, Option.map_some, hofs, Option.getD_some]
  · rw [List.getElem?_eq_none (by rw [h.1]; omega),
      List.getElem?_eq_none (by rw [List.length_range]; omega)]
    rfl

/-- The sorted offsets are those of the index. -/
theorem sorted_perm (q : qsort) (h : Recorded p entries) :
    ((q.sort entries).map (·.offset)).Perm (offsets p) := by
  rw [← h.offsets]
  exact (q.perm entries).map _

theorem sorted_length (q : qsort) (h : Recorded p entries) :
    (q.sort entries).length = p.num_objects.toNat := (q.perm entries).length_eq.trans h.1

theorem sorted_le (q : qsort) (entries : List revindex_entry) :
    (q.sort entries).Pairwise (fun a b => a.offset ≤ b.offset) := by
  refine (q.sorted entries).imp fun {a b} hab => ?_
  by_contra hlt
  refine hab ?_
  unfold cmp_offset
  rw [if_neg (by omega), if_pos (by omega)]

/-- Before its first place stands what is less than `ofs`. -/
theorem lt_iff_first_place (h : Recorded p entries) (ofs : Int) {i : Nat}
    (hi : i < (q.sort entries).length) :
    (q.sort entries)[i].offset < ofs ↔ i < first_place p ofs := by
  have hcount : first_place p ofs = (q.sort entries).countP fun e => e.offset < ofs := by
    unfold first_place
    rw [← (sorted_perm q h).countP_eq, List.countP_map]
    rfl
  rw [hcount]
  exact getElem_iff_lt_countP (P := fun e : revindex_entry => e.offset < ofs)
    ((sorted_le q entries).imp fun hab hb => hab.trans_lt hb) hi

/-- Up to its last place stands what is not more than `ofs`. -/
theorem le_iff_last_place (h : Recorded p entries) {ofs : Int} (hofs : ofs ∈ offsets p) {i : Nat}
    (hi : i < (q.sort entries).length) :
    (q.sort entries)[i].offset ≤ ofs ↔ i ≤ last_place p ofs := by
  have hpos : 0 < (offsets p).countP fun o => o ≤ ofs :=
    List.countP_pos_iff.mpr ⟨ofs, hofs, by simp⟩
  have hcount : ((offsets p).countP fun o => o ≤ ofs) =
      (q.sort entries).countP fun e => e.offset ≤ ofs := by
    rw [← (sorted_perm q h).countP_eq, List.countP_map]
    rfl
  unfold last_place
  rw [getElem_iff_lt_countP (P := fun e : revindex_entry => e.offset ≤ ofs)
    ((sorted_le q entries).imp fun hab hb => hab.trans hb) hi, ← hcount]
  omega

theorem last_place_lt (p : pack_index) {ofs : Int} (hofs : ofs ∈ offsets p) :
    last_place p ofs < p.num_objects.toNat := by
  have hpos : 0 < (offsets p).countP fun o => o ≤ ofs :=
    List.countP_pos_iff.mpr ⟨ofs, hofs, by simp⟩
  have hle : ((offsets p).countP fun o => o ≤ ofs) ≤ (offsets p).length := List.countP_le_length
  have hlen : (offsets p).length = p.num_objects.toNat := by simp [offsets]
  unfold last_place
  omega

/-- An entry of the sorted list has its place in the index. -/
theorem entry_of_mem (h : Recorded p entries) {e : revindex_entry} (he : e ∈ q.sort entries) :
    ∃ k < p.num_objects.toNat, nth_offset p k = some e.offset ∧ e.nr = BitVec.ofNat 32 k := by
  obtain ⟨k, hk, rfl⟩ := List.getElem_of_mem ((q.perm entries).mem_iff.mp he)
  rw [h.1] at hk
  obtain ⟨ofs, hofs, hget⟩ := h.2 k hk
  rw [List.getElem?_eq_getElem (by rw [h.1]; exact hk), Option.some.injEq] at hget
  rw [hget]
  exact ⟨k, hk, hofs, rfl⟩

/-- Each offset stands somewhere in the sorted list. -/
theorem place_of_offset (q : qsort) (h : Recorded p entries) {ofs : Int} (hofs : ofs ∈ offsets p) :
    ∃ j, ∃ hj : j < (q.sort entries).length, (q.sort entries)[j].offset = ofs := by
  have hmem := (sorted_perm q h).mem_iff.mpr hofs
  obtain ⟨e, he, rfl⟩ := List.mem_map.mp hmem
  obtain ⟨j, hj, rfl⟩ := List.getElem_of_mem he
  exact ⟨j, hj, rfl⟩

theorem offset_mem (h : Recorded p entries) {i : Nat} (hi : i < (q.sort entries).length) :
    (q.sort entries)[i].offset ∈ offsets p :=
  (sorted_perm q h).mem_iff.mp (List.mem_map_of_mem (List.getElem_mem hi))

/-- At its last place stands `ofs`. -/
theorem at_last_place (h : Recorded p entries) {ofs : Int} (hofs : ofs ∈ offsets p)
    (hl : last_place p ofs < (q.sort entries).length) :
    (q.sort entries)[last_place p ofs].offset = ofs := by
  refine le_antisymm ((le_iff_last_place h hofs hl).mpr (Nat.le_refl _)) ?_
  obtain ⟨j, hj, rfl⟩ := place_of_offset q h hofs
  have hjl := (le_iff_last_place h hofs hj).mp (Int.le_refl _)
  rcases Nat.eq_or_lt_of_le hjl with heq | hlt
  · simp only [← heq]
    exact Int.le_refl _
  · exact List.pairwise_iff_getElem.mp (sorted_le q entries) _ _ hj hl hlt

/-- The entries with the end of the objects after them. -/
def with_end (q : qsort) (entries : List revindex_entry) (pack_size : Int) : List revindex_entry :=
  q.sort entries ++ [⟨pack_size - 20, -1⟩]

theorem with_end_getElem (q : qsort) (pack_size : Int) (h : Recorded p entries) {i : Nat} (hi : i < p.num_objects.toNat) :
    ∃ hi' : i < (q.sort entries).length,
      (with_end q entries pack_size)[i]? = some (q.sort entries)[i] := by
  have hi' : i < (q.sort entries).length := (sorted_length q h).symm ▸ hi
  refine ⟨hi', ?_⟩
  unfold with_end
  rw [List.getElem?_append_left hi', List.getElem?_eq_getElem hi']

theorem with_end_end (h : Recorded p entries) :
    (with_end q entries pack_size)[p.num_objects.toNat]? = some ⟨pack_size - 20, -1⟩ := by
  unfold with_end
  rw [List.getElem?_append_right (sorted_length q h).le, sorted_length q h, Nat.sub_self]
  rfl

/-- Where the offsets are inside the pack, the test of the search is right but
at the places before the last one of `ofs`. -/
theorem ofs_test_eq_iff (h : Recorded p entries) {ofs : Int} (hofs : ofs ∈ offsets p)
    (hend : ofs < pack_size - 20) {mi : Nat} (hmi : mi < p.num_objects.toNat + 1) :
    ofs_test (with_end q entries pack_size) ofs mi = some (cmp (last_place p ofs) mi) ↔
      mi < 2 ^ 30 ∧ ¬(first_place p ofs ≤ mi ∧ mi < last_place p ofs) := by
  have hlast := last_place_lt p hofs
  unfold ofs_test
  by_cases hint : 2 ^ 30 ≤ mi
  · rw [if_pos hint]
    exact iff_of_false (by simp) fun hc => absurd hc.1 (by omega)
  rw [if_neg hint, and_iff_right (by omega)]
  by_cases hn : mi = p.num_objects.toNat
  · subst hn
    rw [with_end_end h, Option.map_some]
    dsimp only
    rw [if_neg (by omega), if_pos hend, (cmp_eq_lt_iff _ _).mpr hlast]
    exact iff_of_true rfl (by omega)
  obtain ⟨hi, hget⟩ := with_end_getElem q pack_size h
    (show mi < p.num_objects.toNat by omega)
  rw [hget, Option.map_some, Option.some.injEq]
  have hlt := lt_iff_first_place h ofs hi
  have hle := le_iff_last_place h hofs hi
  rcases lt_trichotomy (q.sort entries)[mi].offset ofs with hc | hc | hc
  · -- before the first place
    rw [if_neg (by omega), if_neg (by omega), (cmp_eq_gt_iff _ _).mpr]
    · exact iff_of_true rfl (by omega)
    · have hfirst := hlt.mp hc
      have hmile := hle.mp hc.le
      rcases Nat.eq_or_lt_of_le hmile with heq | hlt'
      · have hat := at_last_place (q := q) h hofs (by omega)
        simp only [heq] at hc
        omega
      · exact hlt'
  · -- at a place of `ofs`
    rw [if_pos hc]
    have hge : first_place p ofs ≤ mi := Nat.not_lt.mp fun hlt' => by
      have := hlt.mpr hlt'
      omega
    have hmile := hle.mp hc.le
    rw [eq_comm, cmp_eq_eq_iff]
    omega
  · -- after the last place
    have hgt : last_place p ofs < mi := Nat.not_le.mp fun hle' => by
      have := hle.mpr hle'
      omega
    rw [if_neg (by omega), if_pos hc, (cmp_eq_lt_iff _ _).mpr hgt]
    exact iff_of_true rfl (by omega)

/-- The search ends at the last place of `ofs` just when its way is clear. -/
theorem find_last_iff (h : Recorded p entries) {ofs : Int} (hofs : ofs ∈ offsets p)
    (hend : ofs < pack_size - 20) :
    find_pack_revindex p (with_end q entries pack_size) ofs =
        some (.found (last_place p ofs)) ↔ WayClear p ofs := by
  have hlast := last_place_lt p hofs
  have hplace : bsearch.loop (fun i => cmp (last_place p ofs) i) (p.num_objects.toNat + 1) 0
      (p.num_objects.toNat + 1) = .found (last_place p ofs) := loop_place (by omega)
  unfold find_pack_revindex
  rw [← hplace, try_loop_eq_iff]
  exact forall₂_congr fun mi hmi => ofs_test_eq_iff h hofs hend (asked_lt hmi)

/-- What is found is as it should be just when it is the last place of `ofs`. -/
theorem findsEntry_iff (h : Recorded p entries) (hint : p.num_objects.toNat + 1 < 2 ^ 31)
    {ofs : Int} (hofs : ofs ∈ offsets p) (hend : ofs < pack_size - 20) :
    FindsEntry p (with_end q entries pack_size) pack_size ofs ↔
      find_pack_revindex p (with_end q entries pack_size) ofs =
        some (.found (last_place p ofs)) := by
  have hlast := last_place_lt p hofs
  constructor
  · rintro ⟨place, e, next, hfind, he, hnr, hnth, hnext, hlt, -, -⟩
    -- the entry is not the end
    have hplace : place < p.num_objects.toNat := by
      rcases Nat.lt_trichotomy place p.num_objects.toNat with hc | rfl | hc
      · exact hc
      · rw [with_end_end h, Option.some.injEq] at he
        subst he
        have hend : p.num_objects.toNat < (-1 : BitVec 32).toNat := by
          have : (-1 : BitVec 32).toNat = 4294967295 := rfl
          omega
        exact absurd (BitVec.lt_def.mp hnr) (Nat.lt_asymm hend)
      · rw [List.getElem?_eq_none] at he
        · cases he
        · rw [with_end, List.length_append, sorted_length q h]
          exact hc
    obtain ⟨hi, hget⟩ := with_end_getElem q pack_size h hplace
    rw [hget, Option.some.injEq] at he
    have heofs : (q.sort entries)[place].offset = ofs := by
      obtain ⟨k, hk, hko, hknr⟩ := entry_of_mem h (List.getElem_mem hi)
      rw [he] at hko hknr
      rw [hknr, BitVec.toNat_ofNat, Nat.mod_eq_of_lt (by omega), hko, Option.some.injEq] at hnth
      rw [he, hnth]
    have hle := (le_iff_last_place h hofs hi).mp heofs.le
    rcases Nat.eq_or_lt_of_le hle with heq | hlt'
    · rw [hfind, heq]
    · obtain ⟨hi', hget'⟩ := with_end_getElem q pack_size h
        (show place + 1 < p.num_objects.toNat by omega)
      rw [hget', Option.some.injEq] at hnext
      have := (le_iff_last_place h hofs hi').mpr hlt'
      rw [hnext] at this
      omega
  · intro hfind
    obtain ⟨hi, hget⟩ := with_end_getElem q pack_size h hlast
    have hat := at_last_place h hofs hi
    obtain ⟨k, hk, hko, hknr⟩ := entry_of_mem h (List.getElem_mem hi)
    have hnr : (q.sort entries)[last_place p ofs].nr.toNat = k := by
      rw [hknr, BitVec.toNat_ofNat, Nat.mod_eq_of_lt (by omega)]
    have hknum : (q.sort entries)[last_place p ofs].nr < p.num_objects := by
      rw [BitVec.lt_def, hnr]
      exact hk
    rw [hat] at hko
    by_cases hn : last_place p ofs + 1 < p.num_objects.toNat
    · obtain ⟨hi', hget'⟩ := with_end_getElem q pack_size h hn
      have hgt : ofs < (q.sort entries)[last_place p ofs + 1].offset :=
        Int.not_le.mp fun hle => absurd ((le_iff_last_place h hofs hi').mp hle)
          (Nat.not_succ_le_self _)
      refine ⟨_, _, _, hfind, hget, hknum, by rw [hnr]; exact hko, hget', hgt,
        Or.inl (offset_mem h hi'), fun o ho hlt => ?_⟩
      obtain ⟨j, hj, rfl⟩ := place_of_offset q h ho
      have hjgt : last_place p ofs < j := Nat.not_le.mp fun hle =>
        absurd ((le_iff_last_place h hofs hj).mpr hle) (by omega)
      rcases Nat.eq_or_lt_of_le hjgt with heq | hlt'
      · simp only [← heq]
        exact Int.le_refl _
      · exact List.pairwise_iff_getElem.mp (sorted_le q entries) _ _ hi' hj hlt'
    · have hn' : last_place p ofs + 1 = p.num_objects.toNat := by omega
      refine ⟨_, _, _, hfind, hget, hknum, by rw [hnr]; exact hko, by rw [hn', with_end_end h],
        hend, Or.inr rfl, fun o ho hlt => ?_⟩
      obtain ⟨j, hj, rfl⟩ := place_of_offset q h ho
      have hjn : j < p.num_objects.toNat := (sorted_length q h) ▸ hj
      have := (le_iff_last_place h hofs hj).mpr (by omega)
      omega

/-- The last entry of all has the end after it, so that all is inside the pack. -/
theorem inside_of_finds (h : Recorded p entries)
    (hfinds : ∀ ofs ∈ offsets p, FindsEntry p (with_end q entries pack_size) pack_size ofs)
    {ofs : Int} (hofs : ofs ∈ offsets p) : ofs < pack_size - 20 := by
  obtain ⟨j, hj, rfl⟩ := place_of_offset q h hofs
  have hlen := sorted_length q h
  have hl : p.num_objects.toNat - 1 < (q.sort entries).length := by omega
  have hmax : ∀ o ∈ offsets p, o ≤ (q.sort entries)[p.num_objects.toNat - 1].offset := by
    intro o ho
    obtain ⟨i, hi, rfl⟩ := place_of_offset q h ho
    rcases Nat.eq_or_lt_of_le (show i ≤ p.num_objects.toNat - 1 by omega) with heq | hlt
    · simp only [heq]
      exact Int.le_refl _
    · exact List.pairwise_iff_getElem.mp (sorted_le q entries) _ _ hi hl hlt
  obtain ⟨_, _, next, -, -, -, -, -, hlt, hnext, -⟩ := hfinds _ (offset_mem h hl)
  rcases hnext with hmem | heq
  · exact absurd (hmax _ hmem) (by omega)
  · exact (hmax _ (offset_mem h hj)).trans_lt (heq ▸ hlt)

end Sorted

/-! ## The reverse index -/

theorem ofNat_inj_of_lt {i j : Nat} (hi : i < 2 ^ 32) (hj : j < 2 ^ 32)
    (h : BitVec.ofNat 32 i = BitVec.ofNat 32 j) : i = j := by
  have := congrArg BitVec.toNat h
  rwa [BitVec.toNat_ofNat, BitVec.toNat_ofNat, Nat.mod_eq_of_lt hi, Nat.mod_eq_of_lt hj] at this

theorem offset_of_mem {p : pack_index} {ofs : Int} (h : ofs ∈ offsets p)
    (hsome : ∀ i < p.num_objects.toNat, ∃ ofs, nth_offset p i = some ofs) :
    ∃ i < p.num_objects.toNat, nth_offset p i = some ofs := by
  obtain ⟨i, hi, heq⟩ := List.mem_map.mp h
  obtain ⟨o, ho⟩ := hsome i (List.mem_range.mp hi)
  rw [ho, Option.getD_some] at heq
  exact ⟨i, List.mem_range.mp hi, by rw [ho, heq]⟩

theorem mem_offsets {p : pack_index} {i : Nat} {ofs : Int} (hi : i < p.num_objects.toNat)
    (h : nth_offset p i = some ofs) : ofs ∈ offsets p :=
  List.mem_map.mpr ⟨i, List.mem_range.mpr hi, by rw [h, Option.getD_some]⟩

theorem recorded_entries {p : pack_index} {entries : List revindex_entry}
    (hlen : entries.length = p.num_objects.toNat)
    (hget : ∀ k < p.num_objects.toNat, ∃ ofs, recorded p (0 + k) = some ofs ∧
      entries[k]? = some ⟨ofs, BitVec.ofNat 32 (0 + k)⟩)
    (hrec : ∀ i < p.num_objects.toNat, ∃ ofs, recorded p i = some ofs ∧
      nth_offset p i = some ofs) : Recorded p entries := by
  refine ⟨hlen, fun i hi => ?_⟩
  obtain ⟨ofs, hofs, hnth⟩ := hrec i hi
  obtain ⟨o, ho, hok⟩ := hget i hi
  rw [Nat.zero_add] at ho hok
  rw [hofs, Option.some.injEq] at ho
  exact ⟨ofs, hnth, ho ▸ hok⟩

/-- Where all is right, the entries are those that are recorded, and they have
the offsets of the index. -/
theorem recorded_of_right {q : qsort} {p : pack_index} {pack_size : Int}
    (h : RevindexRight q p pack_size) :
    p.num_objects.toNat + 1 < 2 ^ 31 ∧
      (∀ i < p.num_objects.toNat, ∃ ofs, recorded p i = some ofs ∧ nth_offset p i = some ofs) ∧
      ∃ entries, Recorded p entries ∧
        ∀ ofs ∈ offsets p, FindsEntry p (with_end q entries pack_size) pack_size ofs := by
  obtain ⟨revindex, hcreate, hright⟩ := h
  unfold create_pack_revindex at hcreate
  split_ifs at hcreate with hint
  obtain ⟨entries, hentries, rfl⟩ := Option.map_eq_some_iff.mp hcreate
  rw [revindex_entries_eq, record_from_eq_some] at hentries
  obtain ⟨hlen, hget⟩ := hentries
  have hrec : ∀ i < p.num_objects.toNat, ∃ ofs, recorded p i = some ofs ∧
      nth_offset p i = some ofs := by
    intro i hi
    obtain ⟨ofs, hofs, hmem, -⟩ := hright i hi
    rcases List.mem_append.mp hmem with hmem | hmem
    · obtain ⟨k, hk, hk'⟩ := List.getElem_of_mem ((q.perm entries).mem_iff.mp hmem)
      obtain ⟨o, ho, hok⟩ := hget k (by omega)
      rw [Nat.zero_add] at ho hok
      rw [List.getElem?_eq_getElem hk, hk', Option.some.injEq] at hok
      obtain ⟨rfl, hnr⟩ := revindex_entry.mk.inj hok
      obtain rfl := ofNat_inj_of_lt (by omega) (by omega) hnr
      exact ⟨ofs, ho, hofs⟩
    · obtain ⟨-, hnr⟩ := revindex_entry.mk.inj (List.mem_singleton.mp hmem)
      have hone : (-1 : BitVec 32) = BitVec.ofNat 32 4294967295 := by decide
      have := ofNat_inj_of_lt (by omega) (by omega) (hnr.trans hone)
      omega
  refine ⟨Nat.not_le.mp hint, hrec, entries, recorded_entries hlen hget hrec, fun ofs hofs => ?_⟩
  obtain ⟨i, hi, hnth⟩ := offset_of_mem hofs fun i hi => ⟨_, (hrec i hi).choose_spec.2⟩
  obtain ⟨o, ho, -, hfind⟩ := hright i hi
  rw [hnth, Option.some.injEq] at ho
  exact ho ▸ hfind

/-- For an index that is accepted, the reverse index has the offsets of the
index and finds each one, just when the index is in order. -/
theorem create_pack_revindex_right_iff (q : qsort) (idx_map : Bytes) (p : pack_index)
    (h : check_packed_git_idx idx_map = some p) (pack_size : Int) :
    RevindexRight q p pack_size ↔ InOrder p pack_size := by
  have hiff := recorded_iff h
  constructor
  · intro hright
    obtain ⟨hint, hrec, entries, hrecorded, hfinds⟩ := recorded_of_right hright
    have hinside := fun ofs hofs => @inside_of_finds _ _ _ _ hrecorded hfinds ofs hofs
    refine ⟨hint, hiff.mp hrec, hinside, fun ofs hofs => ?_⟩
    exact (find_last_iff hrecorded hofs (hinside ofs hofs)).mp
      ((findsEntry_iff hrecorded hint hofs (hinside ofs hofs)).mp (hfinds ofs hofs))
  · intro horder
    have hrec := hiff.mpr horder.table
    have hint := horder.int
    -- every place is recorded
    obtain ⟨entries, hentries⟩ : ∃ l, record_from p p.num_objects.toNat 0 = some l := by
      refine ⟨(List.range p.num_objects.toNat).map fun i =>
        ⟨(recorded p i).getD 0, BitVec.ofNat 32 i⟩, (record_from_eq_some ..).mpr ⟨by simp, ?_⟩⟩
      intro i hi
      obtain ⟨ofs, hofs, -⟩ := hrec i hi
      refine ⟨ofs, by rw [Nat.zero_add, hofs], ?_⟩
      rw [Nat.zero_add, List.getElem?_map, List.getElem?_range hi, Option.map_some, hofs,
        Option.getD_some]
    obtain ⟨hlen, hget⟩ := (record_from_eq_some ..).mp hentries
    have hrecorded := recorded_entries hlen hget hrec
    refine ⟨with_end q entries pack_size, ?_, fun i hi => ?_⟩
    · unfold create_pack_revindex
      rw [if_neg (by omega), revindex_entries_eq, hentries]
      rfl
    · obtain ⟨ofs, hnth, hok⟩ := hrecorded.2 i hi
      have hofs := mem_offsets hi hnth
      refine ⟨ofs, hnth, ?_, ?_⟩
      · exact List.mem_append_left _ ((q.perm entries).mem_iff.mpr (List.mem_of_getElem? hok))
      · rw [findsEntry_iff hrecorded hint hofs (horder.inside ofs hofs),
          find_last_iff hrecorded hofs (horder.inside ofs hofs)]
        exact horder.clear ofs hofs

/-- A merge sort by offsets. -/
def merge_by_offset : qsort where
  sort l := l.mergeSort (fun a b => cmp_offset a b != .gt)
  perm l := List.mergeSort_perm l _
  sorted l := by
    have hcmp : ∀ a b : revindex_entry, (cmp_offset a b != .gt) = true ↔ a.offset ≤ b.offset := by
      intro a b
      unfold cmp_offset
      split_ifs <;> simp <;> omega
    refine (List.pairwise_mergeSort ?_ ?_ l).imp fun hab => by simpa using hab
    · intro a b c hab hbc
      rw [hcmp] at *
      omega
    · intro a b
      rw [Bool.or_eq_true, hcmp, hcmp]
      omega

deriving instance DecidableEq for pack_index

/-- An index of three objects, of which the first has the second large offset. -/
def swapped_idx : Bytes :=
  [0xff, 0x74, 0x4f, 0x63, 0, 0, 0, 2] ++ (List.replicate 256 [0, 0, 0, 3]).flatten ++
    (List.replicate 19 0 ++ [0]) ++ (List.replicate 19 0 ++ [1]) ++ (List.replicate 19 0 ++ [2]) ++
    List.replicate 12 0 ++ [0x80, 0, 0, 1, 0, 0, 0, 12, 0, 0, 0, 13] ++
    [0, 0, 0, 1, 0, 0, 0, 0, 0, 0, 0, 2, 0, 0, 0, 0] ++ List.replicate 40 0

def swapped : pack_index where
  index_version := 2
  index_data := swapped_idx
  num_objects := 3

theorem swapped_accepted : check_packed_git_idx swapped_idx = some swapped := by
  decide +kernel

theorem create_pack_revindex_right_swapped :
    RevindexRight merge_by_offset swapped 10000000000 ↔ InOrder swapped 10000000000 :=
  create_pack_revindex_right_iff merge_by_offset swapped_idx swapped swapped_accepted 10000000000

/-- The large offset is taken by its rank, and not by the number in its slot. -/
theorem create_pack_revindex_takes_rank : ¬∀ (q : qsort) (idx_map : Bytes) (p : pack_index),
    check_packed_git_idx idx_map = some p → ∀ pack_size, RevindexRight q p pack_size := by
  intro h
  have hright := h merge_by_offset swapped_idx swapped swapped_accepted 10000000000
  obtain ⟨ofs, hrec, hnth⟩ := (recorded_of_right hright).2.1 0 (by decide)
  have h1 : recorded swapped 0 = some 4294967296 := by decide +kernel
  have h2 : nth_offset swapped 0 = some 8589934592 := by decide +kernel
  rw [h1] at hrec
  rw [h2] at hnth
  cases hrec.trans hnth.symm

end git.pack_idx
