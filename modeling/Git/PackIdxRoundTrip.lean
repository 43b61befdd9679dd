-- The pack index that is written is the one that is read: when the lookups and
-- the enumeration give exactly what was recorded.
import Git.BlockSha1
import Git.PackIdxLayout

open big_endian

namespace git.pack_idx

/-! ## The open files -/

section Open
variable {l : List pack_idx_entry} {opts : pack_idx_option} {sha1 file_sha1 : Sha1}

/-- The name behind a buffer of 20 bytes and more. -/
theorem sha1_at_some {bs : Bytes} (h : 20 ≤ bs.length) :
    ∃ name : Sha1, (∃ tail, bs = name.toList ++ tail) ∧ some (first_byte name) =
      bs.head?.map UInt8.toNat := by
  have hlen : (bs.take 20).toArray.size = 20 := by simp [h]
  refine ⟨⟨(bs.take 20).toArray, hlen⟩, ⟨bs.drop 20, ?_⟩, ?_⟩
  · simp [Vector.toList]
  · cases bs with
    | nil => simp at h
    | cons b bs => rfl

theorem reads_two (hs : Sorted l) (hfit : 28 * l.length + 1072 < 2 ^ 32)
    (hoff : ∀ obj ∈ l, obj.offset < 2 ^ 63) :
    ∃ stray : Sha1,
      some (first_byte stray) =
        (crc_table l ++ from_offsets opts sha1 file_sha1 l).head?.map UInt8.toNat ∧
      Reads { index_version := 2, index_data := layout_two opts sha1 file_sha1 2 l,
              num_objects := BitVec.ofNat 32 l.length } l stray
        (offset_read (from_offsets opts sha1 file_sha1 l) (BitVec.ofNat 32 l.length)
          (BitVec.ofNat 32 l.length)) := by
  have hheader : (htonl PACK_IDX_SIGNATURE ++ htonl 2 : Bytes).length = 8 := by
    rw [List.length_append, length_htonl, length_htonl]
  have hnames : ∀ i, (layout_two opts sha1 file_sha1 2 l).drop (1032 + i) =
      (name_table l ++ (crc_table l ++ from_offsets opts sha1 file_sha1 l)).drop i := by
    intro i
    have hprefix : ((htonl PACK_IDX_SIGNATURE ++ htonl 2) ++ first_level 256 0 0 l).length =
        1032 := by
      rw [List.length_append, hheader, length_first_level hs]
    unfold layout_two
    rw [← List.append_assoc, records.drop_prefix hprefix]
  have hoffsets : ∀ n : BitVec 32, nth_packed_object_offset
      { index_version := 2, index_data := layout_two opts sha1 file_sha1 2 l,
        num_objects := BitVec.ofNat 32 l.length } n =
      offset_read (from_offsets opts sha1 file_sha1 l) (BitVec.ofNat 32 l.length) n := by
    intro n
    have hbase : (8 + BitVec.ofNat 32 l.length * (20 + 4)).toNat = 8 + 24 * l.length := by
      rw [BitVec.toNat_add]
      have := @scaled l.length 24 (by omega)
      change (8 + (BitVec.ofNat 32 l.length * BitVec.ofNat 32 24).toNat) % 2 ^ 32 = _
      rw [this]
      exact Nat.mod_eq_of_lt (by omega)
    have hplace : (layout_two opts sha1 file_sha1 2 l).drop (4 * 256 + (8 + 24 * l.length)) =
        from_offsets opts sha1 file_sha1 l := by
      have hcrc : 4 * 256 + (8 + 24 * l.length) =
          1032 + (20 * l.length + (4 * l.length + 0)) := by omega
      rw [hcrc, hnames, records.drop_prefix (length_name_table l),
        records.drop_prefix (length_crc_table l), List.drop_zero]
    unfold nth_packed_object_offset
    rw [if_neg (show ¬ (2 : Nat) = 1 by decide)]
    simp only [hbase, hplace]
  obtain ⟨stray, ⟨tail, hstray⟩, hbyte⟩ := @sha1_at_some
    (crc_table l ++ from_offsets opts sha1 file_sha1 l) (by
      rw [List.length_append, length_from_offsets]
      omega)
  refine ⟨stray, hbyte, hs, by omega, rfl, ?_, ?_, ⟨tail, ?_⟩, ?_, hoffsets _⟩
  · intro k hk
    obtain ⟨tail, htail⟩ := fan_get hs hk
      (name_table l ++ (crc_table l ++ from_offsets opts sha1 file_sha1 l))
    refine ⟨tail, ?_⟩
    change (layout_two opts sha1 file_sha1 2 l).drop (8 + 4 * k) = _
    unfold layout_two
    rw [records.drop_prefix hheader, htail]
  · intro i hi
    obtain ⟨tail, htail⟩ := @records.drop_flatMap_get _ _ _ 20 l
      (fun obj _ => length_toList obj.sha1) i hi
      (crc_table l ++ from_offsets opts sha1 file_sha1 l)
    refine ⟨tail, ?_⟩
    change (layout_two opts sha1 file_sha1 2 l).drop
      (1032 + (BitVec.ofNat 32 i * BitVec.ofNat 32 20).toNat) = _
    rw [@scaled i 20 (by omega), hnames]
    exact htail
  · change (layout_two opts sha1 file_sha1 2 l).drop
      (1032 + (BitVec.ofNat 32 l.length * BitVec.ofNat 32 20).toNat) = _
    rw [@scaled l.length 20 (by omega), hnames, ← hstray]
    exact records.drop_flatMap_end (fun obj _ => length_toList obj.sha1) _
  · intro i hi
    rw [hoffsets]
    exact offset_read_get opts sha1 file_sha1 hi (by omega) (hoff _ (List.getElem_mem hi))

theorem reads_one (hs : Sorted l) (hfit : 24 * l.length + 1064 < 2 ^ 32)
    (hoff : ∀ obj ∈ l, obj.offset < 2 ^ 31) :
    ∃ stray : Sha1, first_byte stray = sha1[4].toNat ∧
      Reads { index_version := 1, index_data := layout_one sha1 file_sha1 l,
              num_objects := BitVec.ofNat 32 l.length } l stray
        ((ntohl sha1.toList).map (fun r => r.1.toNat)) := by
  have hentries : ∀ i, (layout_one sha1 file_sha1 l).drop (1024 + i) =
      (entry_table l ++ (sha1.toList ++ file_sha1.toList)).drop i := by
    intro i
    unfold layout_one
    rw [records.drop_prefix (length_first_level hs)]
  have hsize : ∀ obj ∈ l,
      (htonl (BitVec.ofNat 32 obj.offset) ++ obj.sha1.toList : Bytes).length = 24 := by
    intro obj _
    rw [List.length_append, length_htonl, length_toList]
  have hoffset : ∀ i ≤ l.length, nth_packed_object_offset
      { index_version := 1, index_data := layout_one sha1 file_sha1 l,
        num_objects := BitVec.ofNat 32 l.length } (BitVec.ofNat 32 i) =
      (ntohl ((entry_table l ++ (sha1.toList ++ file_sha1.toList)).drop (24 * i))).map
        (fun r => r.1.toNat) := by
    intro i hi
    have hplace : (24 * BitVec.ofNat 32 i).toNat = 24 * i := by
      rw [BitVec.mul_comm]
      exact @scaled i 24 (by omega)
    unfold nth_packed_object_offset
    rw [if_pos rfl]
    simp only [hplace]
    rw [hentries]
  obtain ⟨stray, ⟨tail, hstray⟩, hbyte⟩ := @sha1_at_some
    ((sha1.toList ++ file_sha1.toList).drop 4) (by
      rw [List.length_drop, List.length_append, length_toList, length_toList]
      omega)
  refine ⟨stray, ?_, hs, by omega, rfl, ?_, ?_, ⟨tail, ?_⟩, ?_, ?_⟩
  · have hhead : ((sha1.toList ++ file_sha1.toList).drop 4).head? = some sha1[4] := by
      rw [List.head?_drop, List.getElem?_append_left (by rw [length_toList]; omega)]
      simp
    rw [hhead] at hbyte
    exact Option.some.inj hbyte
  · intro k hk
    obtain ⟨tail, htail⟩ := fan_get hs hk (entry_table l ++ (sha1.toList ++ file_sha1.toList))
    refine ⟨tail, ?_⟩
    change (layout_one sha1 file_sha1 l).drop (0 + 4 * k) = _
    rw [Nat.zero_add]
    exact htail
  · intro i hi
    obtain ⟨tail, htail⟩ := records.drop_flatMap_get hsize hi (sha1.toList ++ file_sha1.toList)
    refine ⟨tail, ?_⟩
    change (layout_one sha1 file_sha1 l).drop
      (1028 + (BitVec.ofNat 32 i * BitVec.ofNat 32 24).toNat) = _
    have hplace : 1028 + 24 * i = 1024 + (24 * i + 4) := by omega
    rw [@scaled i 24 (by omega), hplace, hentries, ← List.drop_drop]
    unfold entry_table
    rw [htail, List.append_assoc]
    exact List.drop_left' (length_htonl _)
  · change (layout_one sha1 file_sha1 l).drop
      (1028 + (BitVec.ofNat 32 l.length * BitVec.ofNat 32 24).toNat) = _
    have hplace : 1028 + 24 * l.length = 1024 + (24 * l.length + 4) := by omega
    rw [@scaled l.length 24 (by omega), hplace, hentries, ← List.drop_drop, ← hstray]
    unfold entry_table
    rw [records.drop_flatMap_end hsize]
  · intro i hi
    obtain ⟨tail, htail⟩ := records.drop_flatMap_get hsize hi (sha1.toList ++ file_sha1.toList)
    rw [hoffset i hi.le]
    unfold entry_table
    rw [htail, List.append_assoc, ntohl_htonl, Option.map_some, BitVec.toNat_ofNat,
      Nat.mod_eq_of_lt ((hoff _ (List.getElem_mem hi)).trans (by decide))]
  · rw [hoffset l.length (Nat.le_refl _)]
    unfold entry_table ntohl word
    rw [records.drop_flatMap_end hsize, if_neg (by simp), if_neg (by simp),
      List.take_append_of_le_length (by simp)]
    rfl

end Open

/-! ## The round trip -/

/-- The index tells of the objects and of nothing else: the lookups, and the
enumeration in the order of the names. -/
structure Faithful (objects : List pack_idx_entry) (file : packed_git) : Prop where
  listed : ∀ obj ∈ objects, find_pack_entry_one obj.sha1 file = some obj.offset
  unlisted : ∀ sha1, (∀ obj ∈ objects, obj.sha1 ≠ sha1) →
    find_pack_entry_one sha1 file = some 0
  enumerated : ∃ l : List pack_idx_entry, l.Perm objects ∧
    l.Pairwise (fun a b => a.sha1.toList < b.sha1.toList) ∧
    (∀ n : BitVec 32, nth_packed_object_sha1 file n = some (l[n.toNat]?.map (·.sha1))) ∧
    ∀ index, open_pack_index file = some index → ∀ n : BitVec 32, ∀ obj ∈ l[n.toNat]?,
      nth_packed_object_offset index n = some obj.offset

section Faithful
variable {p : pack_index} {l objects : List pack_idx_entry} {stray : Sha1} {past : Option Nat}
  {file : packed_git}

theorem nth_sha1_spec (h : Reads p l stray past) (hversion : p.index_version = 1 ∨
    p.index_version = 2) (hopen : open_pack_index file = some p) (n : BitVec 32) :
    nth_packed_object_sha1 file n = some (l[n.toNat]?.map (·.sha1)) := by
  have hsmall := h.small
  have hnum : p.num_objects.toNat = l.length := by
    rw [h.num, BitVec.toNat_ofNat]
    exact Nat.mod_eq_of_lt (by omega)
  unfold nth_packed_object_sha1
  simp only [hopen, BitVec.le_def, hnum]
  by_cases hn : l.length ≤ n.toNat
  · rw [if_pos hn, List.getElem?_eq_none hn]
    rfl
  · have hlt : n.toNat < l.length := not_le.mp hn
    obtain ⟨tail, hname⟩ := h.name n.toNat hlt
    have hplace : (if p.index_version = 1 then 4 * 256 + (24 * n).toNat + 4
        else 4 * 256 + 8 + (20 * n).toNat) =
        p.names + (BitVec.ofNat 32 n.toNat * p.stride).toNat := by
      unfold pack_index.names pack_index.stride
      rw [BitVec.ofNat_toNat, BitVec.setWidth_eq]
      rcases hversion with hone | htwo
      · rw [if_pos hone, hone, if_neg (by decide), if_neg (by decide), BitVec.mul_comm]
        omega
      · rw [htwo, if_neg (by decide), if_pos (by decide), if_pos (by decide), BitVec.mul_comm]
    rw [if_neg hn, hplace, hname, sha1_at_append, List.getElem?_eq_getElem hlt]
    rfl

/-- An open index is faithful unless the place behind the last name passes for
a bucket: no listed name has a first byte as high as the stray one. -/
theorem faithful_iff (h : Reads p l stray past) (hversion : p.index_version = 1 ∨
    p.index_version = 2) (hopen : open_pack_index file = some p) (hperm : l.Perm objects) :
    Faithful objects file ↔
      (∃ obj ∈ objects, first_byte stray ≤ first_byte obj.sha1) ∨ past = some 0 := by
  constructor
  · intro hfaithful
    by_contra hnot
    push Not at hnot
    obtain ⟨hbytes, hpast⟩ := hnot
    have hunlisted : ∀ obj ∈ objects, obj.sha1 ≠ stray := by
      intro obj hobj heq
      have := hbytes obj hobj
      rw [heq] at this
      exact absurd this (lt_irrefl _)
    have hbelow : below l (first_byte stray) = l.length := by
      apply List.countP_eq_length.mpr
      intro obj hobj
      exact decide_eq_true (hbytes obj (hperm.mem_iff.mp hobj))
    rcases find_spec h hopen stray with ⟨obj, hobj, heq, -⟩ | ⟨-, hfind⟩
    · exact hunlisted obj (hperm.mem_iff.mp hobj) heq
    · rw [if_pos ⟨hbelow, rfl⟩, hfaithful.unlisted stray hunlisted] at hfind
      exact hpast hfind.symm
  · intro hbucket
    refine ⟨?_, ?_, l, hperm, h.sorted, nth_sha1_spec h hversion hopen, ?_⟩
    · intro obj hobj
      have hobj' := hperm.mem_iff.mpr hobj
      rcases find_spec h hopen obj.sha1 with ⟨obj', hmem, heq, hfind⟩ | ⟨hne, -⟩
      · have : obj' = obj := h.sorted.eq_of_key hmem hobj' (congrArg Vector.toList heq)
        rw [hfind, this]
      · exact absurd rfl (hne obj hobj')
    · intro sha1 hne
      rcases find_spec h hopen sha1 with ⟨obj, hobj, heq, -⟩ | ⟨-, hfind⟩
      · exact absurd heq (hne obj (hperm.mem_iff.mp hobj))
      · rw [hfind]
        split_ifs with hstray
        · obtain ⟨hbelow, rfl⟩ := hstray
          rcases hbucket with ⟨obj, hobj, hle⟩ | hpast
          · have := List.countP_eq_length.mp hbelow obj (hperm.mem_iff.mpr hobj)
            exact absurd (of_decide_eq_true this) (not_lt.mpr hle)
          · exact hpast
        · rfl
    · intro index hindex n obj hobj
      rw [hopen, Option.some.injEq] at hindex
      subst hindex
      obtain ⟨hn, rfl⟩ := List.getElem?_eq_some_iff.mp hobj
      have := h.offset n.toNat hn
      rwa [BitVec.ofNat_toNat, BitVec.setWidth_eq] at this

/-- An index that does not open tells of an empty pack only. -/
theorem faithful_of_not_open (hopen : open_pack_index file = none)
    (hoff : ∀ obj ∈ objects, 1 ≤ obj.offset) : Faithful objects file ↔ objects = [] := by
  have hfind : ∀ sha1, find_pack_entry_one sha1 file = some 0 := by
    intro sha1
    unfold find_pack_entry_one
    rw [hopen]
  constructor
  · intro hfaithful
    by_contra hne
    obtain ⟨obj, hobj⟩ := List.exists_mem_of_ne_nil _ hne
    have := hfaithful.listed obj hobj
    rw [hfind, Option.some.injEq] at this
    have := hoff obj hobj
    omega
  · rintro rfl
    refine ⟨fun _ hobj => absurd hobj List.not_mem_nil, fun sha1 _ => hfind sha1, [],
      List.Perm.nil, List.Pairwise.nil, ?_, ?_⟩
    · intro n
      unfold nth_packed_object_sha1
      rw [hopen]
      rfl
    · intro index hindex
      rw [hopen] at hindex
      cases hindex

end Faithful

/-- The first of the bytes behind the table of names: of the first checksum in
crc order, or of the checksum of the pack. -/
def stray_byte (objects : List pack_idx_entry) (opts : pack_idx_option) (sha1 : Sha1) : Nat :=
  if 2 ≤ index_version objects opts then
    match sorted_by_sha objects with
    | [] => first_byte sha1
    | obj :: _ => (obj.crc32 >>> 24).toNat
  else sha1[4].toNat

/-- What stands in the offset table for a name behind the last one. -/
def stray_offset (objects : List pack_idx_entry) (opts : pack_idx_option)
    (sha1 file_sha1 : Sha1) : Option Nat :=
  if 2 ≤ index_version objects opts then
    offset_read (from_offsets opts sha1 file_sha1 (sorted_by_sha objects))
      (BitVec.ofNat 32 objects.length) (BitVec.ofNat 32 objects.length)
  else (ntohl sha1.toList).map (fun r => r.1.toNat)

/-- The reader takes the file: its sizes do not wrap, and in version 2 some
offset is a small one. -/
def Opens (objects : List pack_idx_entry) (opts : pack_idx_option) : Prop :=
  if 2 ≤ index_version objects opts then
    index_version objects opts = 2 ∧ 28 * objects.length + 1072 < 2 ^ 32 ∧
      (objects = [] ∨ ∃ obj ∈ objects, ¬ need_large_offset obj.offset opts = true)
  else 24 * objects.length + 1064 < 2 ^ 32

/-- When the index is faithful. -/
def Sound (objects : List pack_idx_entry) (opts : pack_idx_option) (sha1 file_sha1 : Sha1) :
    Prop :=
  Opens objects opts ∧
      ((∃ obj ∈ objects, stray_byte objects opts sha1 ≤ first_byte obj.sha1) ∨
        stray_offset objects opts sha1 file_sha1 = some 0) ∨
    ¬ Opens objects opts ∧ objects = []

theorem le_last_obj_offset {objects : List pack_idx_entry} {obj : pack_idx_entry}
    (h : obj ∈ objects) : obj.offset ≤ last_obj_offset objects := by
  have hfold : ∀ (l : List pack_idx_entry) (last : Nat),
      last ≤ l.foldl (fun last obj => if last < obj.offset then obj.offset else last) last ∧
      ∀ obj ∈ l, obj.offset ≤
        l.foldl (fun last obj => if last < obj.offset then obj.offset else last) last := by
    intro l
    induction l with
    | nil => exact fun last => ⟨Nat.le_refl _, fun _ h => absurd h List.not_mem_nil⟩
    | cons a l ih =>
      intro last
      obtain ⟨hlast, hmem⟩ := ih (if last < a.offset then a.offset else last)
      have hmax : last ≤ (if last < a.offset then a.offset else last) ∧
          a.offset ≤ (if last < a.offset then a.offset else last) := by
        split_ifs
        · omega
        · omega
      refine ⟨hmax.1.trans hlast, ?_⟩
      intro obj hobj
      rcases List.mem_cons.mp hobj with rfl | hobj
      · exact hmax.2.trans hlast
      · exact hmem obj hobj
  exact (hfold objects 0).2 obj h

theorem sound_of_opens {objects : List pack_idx_entry} {opts : pack_idx_option}
    {sha1 file_sha1 : Sha1} (h : Opens objects opts) : Sound objects opts sha1 file_sha1 ↔
      (∃ obj ∈ objects, stray_byte objects opts sha1 ≤ first_byte obj.sha1) ∨
        stray_offset objects opts sha1 file_sha1 = some 0 := by
  unfold Sound
  simp only [h, true_and, not_true_eq_false, false_and, or_false]

theorem sound_of_not_opens {objects : List pack_idx_entry} {opts : pack_idx_option}
    {sha1 file_sha1 : Sha1} (h : ¬ Opens objects opts) :
    Sound objects opts sha1 file_sha1 ↔ objects = [] := by
  unfold Sound
  simp only [h, false_and, not_false_eq_true, true_and, false_or]

theorem open_new (idx_file : Bytes) :
    open_pack_index ⟨idx_file, none⟩ = check_packed_git_idx idx_file := rfl

section RoundTrip
variable {objects : List pack_idx_entry} {opts : pack_idx_option} {sha1 file_sha1 : Sha1}

/-- The first byte behind the names of version 2. -/
theorem head_behind_names (l : List pack_idx_entry) :
    (crc_table l ++ from_offsets opts sha1 file_sha1 l).head?.map UInt8.toNat =
      some (match l with
        | [] => first_byte sha1
        | obj :: _ => (obj.crc32 >>> 24).toNat) := by
  cases l with
  | nil =>
    obtain ⟨tail, hcons⟩ := toList_eq_cons sha1
    have hhead : (from_offsets opts sha1 file_sha1 []).head? = some sha1[0] := by
      simp [from_offsets, offset_table, large_offset_table, hcons]
    rw [crc_table, List.flatMap_nil, List.nil_append, hhead]
    rfl
  | cons obj rest =>
    have hword : htonl obj.crc32 = UInt8.ofNat (obj.crc32.toNat / 256 ^ 3) ::
        put 3 obj.crc32.toNat := put_add 1 3 obj.crc32.toNat
    rw [crc_table, List.flatMap_cons, hword, List.append_assoc, List.cons_append,
      List.head?_cons, Option.map_some, UInt8.toNat_ofNat']
    simp only [BitVec.toNat_ushiftRight, Nat.shiftRight_eq_div_pow, Option.some.injEq]
    have := obj.crc32.isLt
    omega

theorem faithful_iff_sound_one (hversion : ¬ 2 ≤ index_version objects opts)
    (hnodup : (objects.map (·.sha1)).Nodup)
    (hoff : ∀ obj ∈ objects, 1 ≤ obj.offset ∧ obj.offset < 2 ^ 63)
    (hlen : objects.length < 2 ^ 31) :
    Faithful objects
        ⟨idx_body objects opts ++ sha1.toList ++ file_sha1.toList, none⟩ ↔
      Sound objects opts sha1 file_sha1 := by
  have hperm := sorted_by_sha_perm objects
  have hs := sorted_by_sha_sorted hnodup
  have hbody : idx_body objects opts ++ sha1.toList ++ file_sha1.toList =
      layout_one sha1 file_sha1 (sorted_by_sha objects) := by
    simp only [idx_body, if_neg hversion, layout_one, List.append_assoc]
  have hcheck := check_one sha1 file_sha1 hs (by rwa [hperm.length_eq])
  have hopens : Opens objects opts ↔ 24 * objects.length + 1064 < 2 ^ 32 := by
    unfold Opens
    rw [if_neg hversion]
  have hsmall : ∀ obj ∈ sorted_by_sha objects, obj.offset < 2 ^ 31 := by
    intro obj hobj
    have hlast : ¬ need_large_offset (last_obj_offset objects) opts = true := by
      intro hlarge
      unfold index_version at hversion
      rw [if_pos hlarge] at hversion
      exact hversion (by decide)
    have hle := le_last_obj_offset (hperm.mem_iff.mp hobj)
    have := @small_of_not_large opts ⟨obj.sha1, obj.crc32, last_obj_offset objects⟩ hlast
    exact hle.trans_lt this
  rw [hbody]
  rw [hperm.length_eq] at hcheck
  by_cases hfit : 24 * objects.length + 1064 < 2 ^ 32
  · rw [if_pos hfit] at hcheck
    obtain ⟨stray, hbyte, hreads⟩ := @reads_one _ sha1 file_sha1 hs
      (by rwa [hperm.length_eq]) hsmall
    rw [hperm.length_eq] at hreads
    have hstray : first_byte stray = stray_byte objects opts sha1 := by
      unfold stray_byte
      rw [if_neg hversion, hbyte]
    have hoffset : stray_offset objects opts sha1 file_sha1 =
        (ntohl sha1.toList).map (fun r => r.1.toNat) := by
      unfold stray_offset
      rw [if_neg hversion]
    rw [faithful_iff hreads (Or.inl rfl) ((open_new _).trans hcheck) hperm, hstray,
      sound_of_opens (hopens.mpr hfit), hoffset]
  · rw [if_neg hfit] at hcheck
    rw [faithful_of_not_open ((open_new _).trans hcheck) (fun obj hobj => (hoff obj hobj).1),
      sound_of_not_opens (mt hopens.mp hfit)]

theorem faithful_iff_sound_two (hversion : 2 ≤ index_version objects opts)
    (hnodup : (objects.map (·.sha1)).Nodup)
    (hoff : ∀ obj ∈ objects, 1 ≤ obj.offset ∧ obj.offset < 2 ^ 63)
    (hlen : objects.length < 2 ^ 31) :
    Faithful objects
        ⟨idx_body objects opts ++ sha1.toList ++ file_sha1.toList, none⟩ ↔
      Sound objects opts sha1 file_sha1 := by
  have hperm := sorted_by_sha_perm objects
  have hs := sorted_by_sha_sorted hnodup
  have hbody : idx_body objects opts ++ sha1.toList ++ file_sha1.toList =
      layout_two opts sha1 file_sha1 (index_version objects opts) (sorted_by_sha objects) := by
    simp only [idx_body, if_pos hversion, layout_two, from_offsets, tables_behind_names,
      List.append_assoc]
  have hopens : Opens objects opts ↔ index_version objects opts = 2 ∧
      28 * objects.length + 1072 < 2 ^ 32 ∧
        (objects = [] ∨ ∃ obj ∈ objects, ¬ need_large_offset obj.offset opts = true) := by
    unfold Opens
    rw [if_pos hversion]
  rw [hbody]
  by_cases htwo : index_version objects opts = 2
  · have hcheck := check_two opts sha1 file_sha1 hs (by rwa [hperm.length_eq])
    have hempty : sorted_by_sha objects = [] ↔ objects = [] := by
      rw [← List.length_eq_zero_iff, hperm.length_eq, List.length_eq_zero_iff]
    have hsome : (∃ obj ∈ sorted_by_sha objects, ¬ Large opts obj = true) ↔
        ∃ obj ∈ objects, ¬ need_large_offset obj.offset opts = true :=
      exists_congr (fun obj => and_congr_left' hperm.mem_iff)
    simp only [hperm.length_eq, hempty, hsome] at hcheck
    rw [htwo]
    by_cases hfit : 28 * objects.length + 1072 < 2 ^ 32 ∧
        (objects = [] ∨ ∃ obj ∈ objects, ¬ need_large_offset obj.offset opts = true)
    · rw [if_pos hfit] at hcheck
      obtain ⟨stray, hbyte, hreads⟩ := @reads_two _ opts sha1 file_sha1 hs
        (by rw [hperm.length_eq]; exact hfit.1)
        (fun obj hobj => (hoff obj (hperm.mem_iff.mp hobj)).2)
      rw [hperm.length_eq] at hreads
      have hstray : first_byte stray = stray_byte objects opts sha1 := by
        rw [head_behind_names] at hbyte
        unfold stray_byte
        rw [if_pos hversion]
        exact Option.some.inj hbyte
      have hoffset : stray_offset objects opts sha1 file_sha1 =
          offset_read (from_offsets opts sha1 file_sha1 (sorted_by_sha objects))
            (BitVec.ofNat 32 objects.length) (BitVec.ofNat 32 objects.length) := by
        unfold stray_offset
        rw [if_pos hversion]
      rw [faithful_iff hreads (Or.inr rfl) ((open_new _).trans hcheck) hperm, hstray,
        sound_of_opens (hopens.mpr ⟨htwo, hfit⟩), hoffset]
    · rw [if_neg hfit] at hcheck
      rw [faithful_of_not_open ((open_new _).trans hcheck) (fun obj hobj => (hoff obj hobj).1),
        sound_of_not_opens (fun ho => hfit (hopens.mp ho).2)]
  · have hlater : 2 < index_version objects opts := by
      rw [BitVec.lt_def]
      rw [BitVec.le_def] at hversion
      have : (index_version objects opts).toNat ≠ (2 : BitVec 32).toNat :=
        fun heq => htwo (BitVec.toNat_inj.mp heq)
      omega
    have hcheck := check_other opts sha1 file_sha1 hlater hs
    rw [faithful_of_not_open ((open_new _).trans hcheck) (fun obj hobj => (hoff obj hobj).1),
      sound_of_not_opens (fun ho => htwo (hopens.mp ho).1)]

theorem faithful_iff_sound (hnodup : (objects.map (·.sha1)).Nodup)
    (hoff : ∀ obj ∈ objects, 1 ≤ obj.offset ∧ obj.offset < 2 ^ 63)
    (hlen : objects.length < 2 ^ 31) :
    Faithful objects
        ⟨idx_body objects opts ++ sha1.toList ++ file_sha1.toList, none⟩ ↔
      Sound objects opts sha1 file_sha1 := by
  by_cases hversion : 2 ≤ index_version objects opts
  · exact faithful_iff_sound_two hversion hnodup hoff hlen
  · exact faithful_iff_sound_one hversion hnodup hoff hlen

theorem write_idx_file_eq (sha1_of : Bytes → Sha1) (hnodup : (objects.map (·.sha1)).Nodup) :
    write_idx_file sha1_of objects opts sha1 =
      some (idx_body objects opts ++ sha1.toList ++
        (sha1_of (idx_body objects opts ++ sha1.toList)).toList,
        sha1_of (name_table (sorted_by_sha objects))) := by
  unfold write_idx_file
  rw [(sorted_by_sha_sorted hnodup).not_twice, Bool.and_false]
  rfl

end RoundTrip

/-- **A pack index reads back** exactly when the reader takes the file, and
either some listed name has a first byte as high as the byte that stands behind
the names, or the place behind the names tells the offset 0. -/
theorem a_pack_index_reads_back (sha1_of : Bytes → Sha1) (objects : List pack_idx_entry)
    (opts : pack_idx_option) (sha1 : Sha1) (hnodup : (objects.map (·.sha1)).Nodup)
    (hoff : ∀ obj ∈ objects, 1 ≤ obj.offset ∧ obj.offset < 2 ^ 63)
    (hlen : objects.length < 2 ^ 31) :
    ∃ file names, write_idx_file sha1_of objects opts sha1 = some (file, names) ∧
      (Faithful objects { idx_file := file, index := none } ↔
        Sound objects opts sha1 (sha1_of (idx_body objects opts ++ sha1.toList))) :=
  ⟨_, _, write_idx_file_eq sha1_of hnodup, faithful_iff_sound hnodup hoff hlen⟩

/-- The SHA-1 of a byte string. -/
def git_SHA1 (bs : Bytes) : Sha1 :=
  ⟨(blk_SHA1_Final (blk_SHA1_Update
    (blk_SHA1_Init ⟨0, Vector.replicate 5 0, Vector.replicate 64 0⟩) bs)).toArray,
    by simp [blk_SHA1_Final, put_be32]⟩

/-- Two objects, the second beyond 4 GiB. -/
theorem two_objects_read_back :
    ∃ file names, write_idx_file git_SHA1
        [⟨Vector.replicate 20 3, 1, 12⟩, ⟨Vector.replicate 20 0xb7, 2, 2 ^ 32 + 12⟩]
        reset_pack_idx_option (Vector.replicate 20 0x55) = some (file, names) ∧
      Faithful
        [⟨Vector.replicate 20 3, 1, 12⟩, ⟨Vector.replicate 20 0xb7, 2, 2 ^ 32 + 12⟩]
        { idx_file := file, index := none } := by
  obtain ⟨file, names, hwrite, hfaithful⟩ := a_pack_index_reads_back git_SHA1
    [⟨Vector.replicate 20 3, 1, 12⟩, ⟨Vector.replicate 20 0xb7, 2, 2 ^ 32 + 12⟩]
    reset_pack_idx_option (Vector.replicate 20 0x55) (by decide) (by decide) (by decide)
  refine ⟨file, names, hwrite, hfaithful.mpr (Or.inl ⟨?_, Or.inl ?_⟩)⟩
  · unfold Opens
    rw [if_pos (by decide)]
    decide
  · have hsorted : sorted_by_sha
        [⟨Vector.replicate 20 3, 1, 12⟩, ⟨Vector.replicate 20 0xb7, 2, 2 ^ 32 + 12⟩] =
        [⟨Vector.replicate 20 3, 1, 12⟩, ⟨Vector.replicate 20 0xb7, 2, 2 ^ 32 + 12⟩] :=
      List.mergeSort_of_pairwise (by decide)
    refine ⟨_, List.mem_cons_of_mem _ List.mem_cons_self, ?_⟩
    unfold stray_byte
    rw [if_pos (by decide), hsorted]
    decide

theorem stray_word (file_sha1 : Sha1) :
    offset_read (from_offsets reset_pack_idx_option (Vector.replicate 20 0x55) file_sha1
      [⟨Vector.replicate 20 3, 0x9abcdef0, 12⟩]) 1 1 = some 0x55555555 := by
  have hpack : (Vector.replicate 20 0x55 : Sha1).toList =
      htonl 0x55555555 ++ List.replicate 16 0x55 := by decide
  have htable : from_offsets reset_pack_idx_option (Vector.replicate 20 0x55) file_sha1
      [⟨Vector.replicate 20 3, 0x9abcdef0, 12⟩] =
      htonl 12 ++ (htonl 0x55555555 ++ (List.replicate 16 0x55 ++ file_sha1.toList)) := by
    rw [from_offsets, hpack, List.append_assoc]
    rfl
  have hplace : (4 * 1 : BitVec 32).toNat = (htonl 12).length := rfl
  unfold offset_read
  rw [htable, hplace, List.drop_left, ntohl_htonl]
  rfl

/-- One object whose CRC begins with a higher byte than its name. The bytes
behind its name spell another name, and the lookup of that one gives an offset. -/
theorem a_name_that_no_object_has_is_found :
    ¬ ∃ file names, write_idx_file git_SHA1 [⟨Vector.replicate 20 3, 0x9abcdef0, 12⟩]
        reset_pack_idx_option (Vector.replicate 20 0x55) = some (file, names) ∧
      Faithful [⟨Vector.replicate 20 3, 0x9abcdef0, 12⟩]
        { idx_file := file, index := none } := by
  rintro ⟨file, names, hwrite, hfaithful⟩
  rw [write_idx_file_eq git_SHA1 (by decide), Option.some.injEq, Prod.mk.injEq] at hwrite
  rw [← hwrite.1, faithful_iff_sound (by decide) (by decide) (by decide)] at hfaithful
  rcases hfaithful with ⟨-, ⟨obj, hobj, hbyte⟩ | hoffset⟩ | ⟨-, hempty⟩
  · rw [List.mem_singleton.mp hobj] at hbyte
    simp [stray_byte, index_version, last_obj_offset, need_large_offset, reset_pack_idx_option,
      sorted_by_sha, first_byte] at hbyte
  · unfold stray_offset at hoffset
    rw [if_pos (by decide)] at hoffset
    generalize git_SHA1 _ = file_sha1 at hoffset
    have hsorted : sorted_by_sha [⟨Vector.replicate 20 3, 0x9abcdef0, 12⟩] =
        [⟨Vector.replicate 20 3, 0x9abcdef0, 12⟩] := List.mergeSort_singleton _
    rw [hsorted] at hoffset
    have hword := (stray_word file_sha1).symm.trans hoffset
    exact absurd hword (by decide)
  · cases hempty

end git.pack_idx
