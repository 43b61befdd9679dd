-- The two layouts of a pack index on disk, and how the reader opens them.
import Git.PackIdxLookup

open big_endian

namespace git.pack_idx

/-! ## Words and places in 32 bits -/

theorem scaled {i c : Nat} (h : c * i < 2 ^ 32) :
    (BitVec.ofNat 32 i * BitVec.ofNat 32 c).toNat = c * i := by
  rw [BitVec.toNat_mul, BitVec.toNat_ofNat, BitVec.toNat_ofNat, ← Nat.mul_mod, Nat.mul_comm i c]
  exact Nat.mod_eq_of_lt h

theorem high_bit_clear {x : Nat} (h : x < 2 ^ 31) : BitVec.ofNat 32 x &&& 0x80000000 = 0 := by
  apply BitVec.eq_of_toNat_eq
  have hx : x % 2 ^ 32 = x := Nat.mod_eq_of_lt (by omega)
  have hbit : x &&& 2 ^ 31 = 0 := by
    apply Nat.eq_of_testBit_eq
    intro i
    rw [Nat.testBit_and, Nat.testBit_two_pow, Nat.zero_testBit]
    by_cases hi : 31 = i
    · rw [← hi, Nat.testBit_lt_two_pow h]
      rfl
    · simp [hi]
  rw [BitVec.toNat_and, BitVec.toNat_ofNat, hx]
  exact hbit

theorem high_bit_set (y : BitVec 32) : (0x80000000 ||| y) &&& 0x80000000 ≠ 0 := by
  intro h
  have hbit := congrArg (fun v : BitVec 32 => v.getLsbD 31) h
  simp at hbit

theorem without_high_bit {x : Nat} (h : x < 2 ^ 31) :
    (0x80000000 ||| BitVec.ofNat 32 x) &&& 0x7fffffff = BitVec.ofNat 32 x := by
  have hclear : (0x80000000 : BitVec 32) &&& 0x7fffffff = 0 := by decide
  have hlow : BitVec.ofNat 32 x &&& 0x7fffffff = BitVec.ofNat 32 x := by
    apply BitVec.eq_of_toNat_eq
    have hx : x % 2 ^ 32 = x := Nat.mod_eq_of_lt (by omega)
    rw [BitVec.toNat_and, BitVec.toNat_ofNat, hx]
    exact (Nat.and_two_pow_sub_one_eq_mod x 31).trans (Nat.mod_eq_of_lt h)
  rw [BitVec.and_comm, BitVec.and_or_distrib_left, BitVec.and_comm, hclear, BitVec.and_comm, hlow]
  exact BitVec.zero_or

/-- The two words of a large offset give it back. -/
theorem split_join {offset : Nat} (h : offset < 2 ^ 63) :
    (BitVec.ofNat 32 (offset >>> 32)).toNat <<< 32 ||| (BitVec.ofNat 32 offset).toNat = offset := by
  have hlow : offset % 2 ^ 32 < 2 ^ 32 := Nat.mod_lt _ (by decide)
  rw [BitVec.toNat_ofNat, BitVec.toNat_ofNat, ← Nat.shiftLeft_add_eq_or_of_lt hlow,
    Nat.shiftRight_eq_div_pow, Nat.shiftLeft_eq]
  omega

theorem small_of_not_large {opts : pack_idx_option} {obj : pack_idx_entry}
    (h : ¬ Large opts obj = true) : obj.offset < 2 ^ 31 := by
  unfold Large need_large_offset at h
  by_contra hge
  rw [if_pos] at h
  · exact h rfl
  · left
    rw [Nat.shiftRight_eq_div_pow]
    have := Nat.div_pos (not_lt.mp hge) (by decide)
    omega

/-! ## The two layouts -/

section Layout
variable {l : List pack_idx_entry} (opts : pack_idx_option) (sha1 file_sha1 : Sha1)

/-- The bytes of version 2 from the offset table on. -/
def from_offsets (l : List pack_idx_entry) : Bytes :=
  (offset_table opts 0 l).1 ++
    (large_offset_table opts (offset_table opts 0 l).2 l ++ (sha1.toList ++ file_sha1.toList))

/-- A file of version 2. -/
def layout_two (version : BitVec 32) (l : List pack_idx_entry) : Bytes :=
  (htonl PACK_IDX_SIGNATURE ++ htonl version) ++
    (first_level 256 0 0 l ++ (name_table l ++ (crc_table l ++ from_offsets opts sha1 file_sha1 l)))

/-- A file of version 1. -/
def layout_one (l : List pack_idx_entry) : Bytes :=
  first_level 256 0 0 l ++ (entry_table l ++ (sha1.toList ++ file_sha1.toList))

@[simp] theorem length_toList (sha1 : Sha1) : sha1.toList.length = 20 := by simp

theorem length_first_level (hs : Sorted l) : (first_level 256 0 0 l).length = 1024 := by
  rw [first_level_words hs, records.length_flatMap (fun _ _ => length_htonl _)]
  simp

@[simp] theorem length_name_table (l : List pack_idx_entry) :
    (name_table l).length = 20 * l.length :=
  records.length_flatMap (fun obj _ => length_toList obj.sha1)

@[simp] theorem length_crc_table (l : List pack_idx_entry) :
    (crc_table l).length = 4 * l.length :=
  records.length_flatMap (fun _ _ => length_htonl _)

@[simp] theorem length_entry_table (l : List pack_idx_entry) :
    (entry_table l).length = 24 * l.length :=
  records.length_flatMap (fun _ _ => by simp)

theorem large_table_eq (l : List pack_idx_entry) :
    large_offset_table opts (offset_table opts 0 l).2 l =
      (l.filter (Large opts)).flatMap split := by
  rw [offset_table_count, Nat.zero_add, large_offset_table_eq]

theorem length_from_offsets (l : List pack_idx_entry) :
    (from_offsets opts sha1 file_sha1 l).length =
      4 * l.length + (8 * l.countP (Large opts) + 40) := by
  unfold from_offsets
  rw [List.length_append, length_offset_table, large_table_eq, List.length_append,
    records.length_flatMap (fun obj _ => length_split obj), ← List.countP_eq_length_filter,
    List.length_append, length_toList, length_toList]

/-- A word of the first-level table. -/
theorem fan_get (hs : Sorted l) {k : Nat} (hk : k < 256) (rest : Bytes) :
    ∃ tail, (first_level 256 0 0 l ++ rest).drop (4 * k) = htonl (fan l (k + 1)) ++ tail := by
  rw [first_level_words hs]
  have hlen : k < (List.range' 0 256).length := by
    rw [List.length_range']
    exact hk
  obtain ⟨tail, htail⟩ := @records.drop_flatMap_get _ _ (fun j => htonl (fan l (j + 1))) 4
    (List.range' 0 256) (fun _ _ => length_htonl _) k hlen rest
  refine ⟨tail, ?_⟩
  rw [htail]
  simp

/-- The offset of an entry comes out of the tables of version 2. -/
theorem offset_read_get {i : Nat} (hi : i < l.length) (hn : l.length < 2 ^ 28)
    (hoff : l[i].offset < 2 ^ 63) :
    offset_read (from_offsets opts sha1 file_sha1 l) (BitVec.ofNat 32 l.length)
      (BitVec.ofNat 32 i) = some l[i].offset := by
  have hplace : (4 * BitVec.ofNat 32 i).toNat = 4 * i := by
    rw [BitVec.mul_comm]
    exact @scaled i 4 (by omega)
  obtain ⟨tail, hword⟩ := @offset_table_get opts 0 l i hi
    (large_offset_table opts (offset_table opts 0 l).2 l ++ (sha1.toList ++ file_sha1.toList))
  have hcount : (l.take i).countP (Large opts) < 2 ^ 31 := by
    have hle := List.countP_le_length (p := Large opts) (l := l.take i)
    rw [List.length_take] at hle
    omega
  rw [Nat.zero_add] at hword
  unfold offset_read from_offsets
  rw [hplace, hword]
  simp only [ntohl_htonl]
  unfold offset_word
  by_cases hlarge : Large opts l[i] = true
  · obtain ⟨hlt, hget⟩ := filter_get hi hlarge
    have hindex : (BitVec.ofNat 32 l.length * 4 +
        BitVec.ofNat 32 ((l.take i).countP (Large opts)) * 8).toNat =
          4 * l.length + 8 * (l.take i).countP (Large opts) := by
      have h4 : (BitVec.ofNat 32 l.length * 4).toNat = 4 * l.length := @scaled _ 4 (by omega)
      have h8 : (BitVec.ofNat 32 ((l.take i).countP (Large opts)) * 8).toNat =
          8 * (l.take i).countP (Large opts) := by
        have hle := List.countP_le_length (p := Large opts) (l := l.take i)
        rw [List.length_take] at hle
        exact @scaled _ 8 (by omega)
      have hle := List.countP_le_length (p := Large opts) (l := l.take i)
      rw [List.length_take] at hle
      rw [BitVec.toNat_add, h4, h8]
      exact Nat.mod_eq_of_lt (by omega)
    obtain ⟨tail', hsplit⟩ := @records.drop_flatMap_get _ _ split 8 (l.filter (Large opts))
      (fun obj _ => length_split obj) _ hlt (sha1.toList ++ file_sha1.toList)
    have hhigh : List.drop (4 * l.length + 8 * (l.take i).countP (Large opts))
        ((offset_table opts 0 l).1 ++ (large_offset_table opts (offset_table opts 0 l).2 l ++
          (sha1.toList ++ file_sha1.toList))) =
        htonl (BitVec.ofNat 32 (l[i].offset >>> 32)) ++
          (htonl (BitVec.ofNat 32 l[i].offset) ++ tail') := by
      rw [records.drop_prefix (length_offset_table opts 0 l), large_table_eq, hsplit, hget,
        ← List.append_assoc]
      rfl
    have hskip : (htonl (BitVec.ofNat 32 (l[i].offset >>> 32)) ++
        (htonl (BitVec.ofNat 32 l[i].offset) ++ tail')).drop 4 =
          htonl (BitVec.ofNat 32 l[i].offset) ++ tail' := List.drop_left' (length_htonl _)
    have hlow : List.drop (4 * l.length + 8 * (l.take i).countP (Large opts) + 4)
        ((offset_table opts 0 l).1 ++ (large_offset_table opts (offset_table opts 0 l).2 l ++
          (sha1.toList ++ file_sha1.toList))) =
        htonl (BitVec.ofNat 32 l[i].offset) ++ tail' := by
      rw [← List.drop_drop, hhigh, hskip]
    rw [if_pos hlarge, if_neg (high_bit_set _), without_high_bit hcount, hindex, hhigh, hlow]
    simp only [ntohl_htonl]
    rw [split_join hoff]
  · have hsmall := small_of_not_large hlarge
    rw [if_neg hlarge, if_pos (high_bit_clear hsmall), BitVec.toNat_ofNat,
      Nat.mod_eq_of_lt (by omega)]

/-! ## Opening the file -/

theorem fan_zero (l : List pack_idx_entry) : fan l 0 = 0 := by
  unfold fan
  rw [below_zero]
  rfl

theorem fan_all (l : List pack_idx_entry) : fan l 256 = BitVec.ofNat 32 l.length := by
  unfold fan
  rw [below_all]

theorem fan_mono (hn : l.length < 2 ^ 31) (k : Nat) : fan l k ≤ fan l (k + 1) := by
  have h1 := below_le l k
  have h2 := below_le l (k + 1)
  have hle : below l k ≤ below l (k + 1) := below_mono l (Nat.le_succ k)
  unfold fan
  rw [BitVec.le_def, BitVec.toNat_ofNat, BitVec.toNat_ofNat, Nat.mod_eq_of_lt (by omega),
    Nat.mod_eq_of_lt (by omega)]
  exact hle

theorem monotonic_first_level (hs : Sorted l) (hn : l.length < 2 ^ 31) (rest : Bytes) :
    monotonic 256 0 (first_level 256 0 0 l ++ rest) = some (BitVec.ofNat 32 l.length) := by
  rw [first_level_words hs, ← fan_zero l, monotonic_words (fan_mono hn), fan_all]

/-- A file of version 2 opens unless its sizes wrap, or no offset is a small one. -/
theorem check_two (hs : Sorted l) (hn : l.length < 2 ^ 31) :
    check_packed_git_idx (layout_two opts sha1 file_sha1 2 l) =
      if 28 * l.length + 1072 < 2 ^ 32 ∧ (l = [] ∨ ∃ obj ∈ l, ¬ Large opts obj = true) then
        some { index_version := 2, index_data := layout_two opts sha1 file_sha1 2 l,
               num_objects := BitVec.ofNat 32 l.length }
      else none := by
  have hlen : (layout_two opts sha1 file_sha1 2 l).length =
      1072 + (28 * l.length + 8 * l.countP (Large opts)) := by
    unfold layout_two
    rw [List.length_append, List.length_append, length_htonl, length_htonl, List.length_append,
      length_first_level hs, List.length_append, length_name_table, List.length_append,
      length_crc_table, length_from_offsets]
    omega
  have hcount : l.countP (Large opts) ≤ l.length := List.countP_le_length
  have hall : (l = [] ∨ ∃ obj ∈ l, ¬ Large opts obj = true) ↔
      l.length = 0 ∨ l.countP (Large opts) < l.length := by
    rw [List.length_eq_zero_iff]
    apply or_congr_right
    rw [hcount.lt_iff_ne, ne_eq, List.countP_eq_length]
    push Not
    rfl
  have hnum : (BitVec.ofNat 32 l.length).toNat = l.length := by
    rw [BitVec.toNat_ofNat]
    exact Nat.mod_eq_of_lt (by omega)
  have hzero : BitVec.ofNat 32 l.length = 0 ↔ l.length = 0 := by
    rw [← BitVec.toNat_inj, hnum]
    rfl
  have hmin : (8 + 4 * 256 + BitVec.ofNat 32 l.length * (20 + 4 + 4) + 20 + 20).toNat =
      (1072 + 28 * l.length) % 2 ^ 32 := by
    simp only [BitVec.toNat_add, BitVec.toNat_mul, hnum]
    change (((1032 + l.length * 28 % 2 ^ 32) % 2 ^ 32 + 20) % 2 ^ 32 + 20) % 2 ^ 32 = _
    omega
  have hmax : 0 < l.length → ((BitVec.ofNat 32 l.length - 1) * 8).toNat =
      8 * (l.length - 1) % 2 ^ 32 := by
    intro hpos
    simp only [BitVec.toNat_sub, BitVec.toNat_mul, hnum]
    change (2 ^ 32 - 1 + l.length) % 2 ^ 32 * 8 % 2 ^ 32 = _
    omega
  unfold check_packed_git_idx
  rw [if_neg (by rw [hlen]; omega)]
  have hsig : ntohl (layout_two opts sha1 file_sha1 2 l) =
      some (PACK_IDX_SIGNATURE, htonl 2 ++ (first_level 256 0 0 l ++ (name_table l ++
        (crc_table l ++ from_offsets opts sha1 file_sha1 l)))) := by
    unfold layout_two
    rw [List.append_assoc, ntohl_htonl]
  simp only [hsig, if_true, ntohl_htonl, monotonic_first_level hs hn, hmin, hlen, hzero, hall]
  rw [if_neg (by decide)]
  by_cases hz : l.length = 0
  · rw [if_pos hz, hz, if_neg (by omega), if_pos ⟨by omega, Or.inl rfl⟩]
  · rw [if_neg hz, hmax (by omega)]
    by_cases hfit : 28 * l.length + 1072 < 2 ^ 32
    · by_cases hsome : l.countP (Large opts) < l.length
      · rw [if_neg (by omega), if_pos ⟨hfit, Or.inr hsome⟩]
      · rw [if_pos (by omega), if_neg (by omega)]
    · rw [if_pos (by omega), if_neg (by omega)]

/-- A file of version 1 opens unless its size wraps. -/
theorem check_one (hs : Sorted l) (hn : l.length < 2 ^ 31) :
    check_packed_git_idx (layout_one sha1 file_sha1 l) =
      if 24 * l.length + 1064 < 2 ^ 32 then
        some { index_version := 1, index_data := layout_one sha1 file_sha1 l,
               num_objects := BitVec.ofNat 32 l.length }
      else none := by
  have hlen : (layout_one sha1 file_sha1 l).length = 1064 + 24 * l.length := by
    unfold layout_one
    rw [List.length_append, length_first_level hs, List.length_append, length_entry_table,
      List.length_append, length_toList, length_toList]
    omega
  obtain ⟨tail, hfirst⟩ := fan_get hs (k := 0) (by decide)
    (entry_table l ++ (sha1.toList ++ file_sha1.toList))
  have hword : ntohl (layout_one sha1 file_sha1 l) = some (fan l 1, tail) := by
    rw [Nat.mul_zero, List.drop_zero] at hfirst
    unfold layout_one
    rw [hfirst, ntohl_htonl]
  -- a count is never the signature
  have hsig : fan l 1 ≠ PACK_IDX_SIGNATURE := by
    intro heq
    have hle := below_le l 1
    have hnat := congrArg BitVec.toNat heq
    unfold fan at hnat
    rw [BitVec.toNat_ofNat, Nat.mod_eq_of_lt (by omega)] at hnat
    have : PACK_IDX_SIGNATURE.toNat = 4285812579 := by decide
    omega
  have hnum : (BitVec.ofNat 32 l.length).toNat = l.length := by
    rw [BitVec.toNat_ofNat]
    exact Nat.mod_eq_of_lt (by omega)
  have hsize : (4 * 256 + BitVec.ofNat 32 l.length * 24 + 20 + 20).toNat =
      (1064 + 24 * l.length) % 2 ^ 32 := by
    simp only [BitVec.toNat_add, BitVec.toNat_mul, hnum]
    change (((1024 + l.length * 24 % 2 ^ 32) % 2 ^ 32 + 20) % 2 ^ 32 + 20) % 2 ^ 32 = _
    omega
  have hmono : monotonic 256 0 (layout_one sha1 file_sha1 l) = some (BitVec.ofNat 32 l.length) :=
    monotonic_first_level hs hn _
  unfold check_packed_git_idx
  rw [if_neg (by rw [hlen]; omega)]
  simp only [hword, if_neg hsig, hmono, hsize, hlen]
  by_cases hfit : 24 * l.length + 1064 < 2 ^ 32
  · rw [if_neg (by omega), if_pos hfit]
  · rw [if_pos (by omega), if_neg hfit]

/-- A later version is not supported. -/
theorem check_other {version : BitVec 32} (hversion : 2 < version) (hs : Sorted l) :
    check_packed_git_idx (layout_two opts sha1 file_sha1 version l) = none := by
  have hlen : ¬ (layout_two opts sha1 file_sha1 version l).length < 4 * 256 + 20 + 20 := by
    unfold layout_two
    rw [List.length_append, List.length_append, length_htonl, length_htonl, List.length_append,
      length_first_level hs, List.length_append, length_name_table, List.length_append,
      length_crc_table, length_from_offsets]
    omega
  have hsig : ntohl (layout_two opts sha1 file_sha1 version l) =
      some (PACK_IDX_SIGNATURE, htonl version ++ (first_level 256 0 0 l ++ (name_table l ++
        (crc_table l ++ from_offsets opts sha1 file_sha1 l)))) := by
    unfold layout_two
    rw [List.append_assoc, ntohl_htonl]
  unfold check_packed_git_idx
  rw [if_neg hlen]
  simp only [hsig, if_true, ntohl_htonl, if_pos (Or.inr hversion)]

end Layout

end git.pack_idx
