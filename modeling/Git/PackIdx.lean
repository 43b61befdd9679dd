-- The pack index: how `pack-write.c` writes the `.idx` file and `sha1_file.c`
-- reads it. The SHA-1 of a byte string is a parameter.
import Git.IndexFile

namespace git.pack_idx

/-- Compares the 20 bytes of two object names. -/
def hashcmp (sha1 sha2 : Sha1) : Ordering := memcmp sha1.toList sha2.toList 20

/-- What a packed object leaves for the index. `offset` is an `off_t`. -/
structure pack_idx_entry where
  sha1 : Sha1
  crc32 : BitVec 32
  offset : Nat
  deriving DecidableEq

/-- `strict` stands for the flag `WRITE_IDX_STRICT`. -/
structure pack_idx_option where
  strict : Bool
  version : BitVec 32
  off32_limit : BitVec 32
  anomaly : List (BitVec 32)

def reset_pack_idx_option : pack_idx_option :=
  { strict := false, version := 2, off32_limit := 0x7fffffff, anomaly := [] }

/-! ## The writer -/

def sha1_compare (a b : pack_idx_entry) : Ordering := hashcmp a.sha1 b.sha1

/-- The anomalies are sorted, so that `bsearch` finds each one of them. -/
def need_large_offset (offset : Nat) (opts : pack_idx_option) : Bool :=
  if offset >>> 31 ≠ 0 ∨ opts.off32_limit.toNat < offset then true
  else if opts.anomaly = [] then false
  else opts.anomaly.contains (BitVec.ofNat 32 offset)

def last_obj_offset (objects : List pack_idx_entry) : Nat :=
  objects.foldl (fun last obj => if last < obj.offset then obj.offset else last) 0

/-- If the last object's offset is large, version 2 is used. -/
def index_version (objects : List pack_idx_entry) (opts : pack_idx_option) : BitVec 32 :=
  if need_large_offset (last_obj_offset objects) opts then 2 else opts.version

def sorted_by_sha (objects : List pack_idx_entry) : List pack_idx_entry :=
  objects.mergeSort (fun a b => sha1_compare a b != .gt)

def PACK_IDX_SIGNATURE : BitVec 32 := 0xff744f63

/-- The byte that the first-level table goes by. -/
def first_byte (sha1 : Sha1) : Nat := sha1[0].toNat

theorem toList_eq_cons (sha1 : Sha1) : ∃ tail, sha1.toList = sha1[0] :: tail := by
  have hlen : 0 < sha1.toList.length := by simp
  refine ⟨sha1.toList.drop 1, ?_⟩
  have := List.drop_eq_getElem_cons hlen
  rw [List.drop_zero] at this
  rw [this]
  simp [Vector.getElem_toList]

/-- The first-level table from place `i` on: `list` is what is not counted yet,
and `passed` is `list - sorted_by_sha`. -/
def first_level : Nat → Nat → Nat → List pack_idx_entry → Bytes
  | 0, _, _, _ => []
  | turns + 1, i, passed, list =>
    let same := list.takeWhile (fun obj => obj.sha1[0].toNat == i)
    let next := passed + same.length
    htonl (BitVec.ofNat 32 next) ++ first_level turns (i + 1) next (list.drop same.length)

/-- The entries of version 1. -/
def entry_table (list : List pack_idx_entry) : Bytes :=
  list.flatMap (fun obj => htonl (BitVec.ofNat 32 obj.offset) ++ obj.sha1.toList)

def name_table (list : List pack_idx_entry) : Bytes := list.flatMap (fun obj => obj.sha1.toList)

def crc_table (list : List pack_idx_entry) : Bytes := list.flatMap (fun obj => htonl obj.crc32)

/-- The 32-bit offset table, and `nr_large_offset` behind it. -/
def offset_table (opts : pack_idx_option) : Nat → List pack_idx_entry → Bytes × Nat
  | nr_large_offset, [] => ([], nr_large_offset)
  | nr_large_offset, obj :: list =>
    if need_large_offset obj.offset opts then
      let rest := offset_table opts (nr_large_offset + 1) list
      (htonl (0x80000000 ||| BitVec.ofNat 32 nr_large_offset) ++ rest.1, rest.2)
    else
      let rest := offset_table opts nr_large_offset list
      (htonl (BitVec.ofNat 32 obj.offset) ++ rest.1, rest.2)

/-- The large offset table: the loop ends with the last large offset. -/
def large_offset_table (opts : pack_idx_option) : Nat → List pack_idx_entry → Bytes
  | 0, _ => []
  | _ + 1, [] => []
  | nr_large_offset + 1, obj :: list =>
    if need_large_offset obj.offset opts then
      htonl (BitVec.ofNat 32 (obj.offset >>> 32)) ++ htonl (BitVec.ofNat 32 obj.offset) ++
        large_offset_table opts nr_large_offset list
    else large_offset_table opts (nr_large_offset + 1) list

/-- The tables behind the names of version 2. -/
def tables_behind_names (opts : pack_idx_option) (list : List pack_idx_entry) : Bytes :=
  let offsets := offset_table opts 0 list
  crc_table list ++ (offsets.1 ++ large_offset_table opts offsets.2 list)

/-- The file up to the two checksums. -/
def idx_body (objects : List pack_idx_entry) (opts : pack_idx_option) : Bytes :=
  let list := sorted_by_sha objects
  let version := index_version objects opts
  if 2 ≤ version then
    htonl PACK_IDX_SIGNATURE ++ htonl version ++ first_level 256 0 0 list ++ name_table list ++
      tables_behind_names opts list
  else first_level 256 0 0 list ++ entry_table list

/-- Equal names stand next to each other. -/
def appears_twice : List pack_idx_entry → Bool
  | a :: b :: list => hashcmp a.sha1 b.sha1 == .eq || appears_twice (b :: list)
  | _ => false

/-- `sha1` is the checksum of the pack. Gives the file, and the SHA-1 of the
sorted names; `none` where git dies. -/
def write_idx_file (sha1_of : Bytes → Sha1) (objects : List pack_idx_entry)
    (opts : pack_idx_option) (sha1 : Sha1) : Option (Bytes × Sha1) :=
  if opts.strict && appears_twice (sorted_by_sha objects) then none
  else
    let written := idx_body objects opts ++ sha1.toList
    some (written ++ (sha1_of written).toList, sha1_of (name_table (sorted_by_sha objects)))

/-! ## The reader -/

-- Pointers into the mapped file are places in `index_data`. `none` is a read
-- that leaves the mapping.

/-- An opened index. -/
structure pack_index where
  index_version : Nat
  index_data : Bytes
  num_objects : BitVec 32

/-- A pack: its `.idx` file on disk, and the index once it is open. -/
structure packed_git where
  idx_file : Bytes
  index : Option pack_index

/-- The last of the next `turns` words, which never fall. -/
def monotonic : Nat → BitVec 32 → Bytes → Option (BitVec 32)
  | 0, nr, _ => some nr
  | turns + 1, nr, index =>
    match ntohl index with
    | none => none
    | some (n, index) => if n < nr then none else monotonic turns n index

/-- `none` is an error return. The sizes are computed in 32 bits. -/
def check_packed_git_idx (idx_map : Bytes) : Option pack_index :=
  let idx_size := idx_map.length
  if idx_size < 4 * 256 + 20 + 20 then none
  else
    match ntohl idx_map with
    | none => none
    | some (idx_signature, rest) =>
      if idx_signature = PACK_IDX_SIGNATURE then
        match ntohl rest with
        | none => none
        | some (version, index) =>
          if version < 2 ∨ 2 < version then none
          else
            match monotonic 256 0 index with
            | none => none
            | some nr =>
              let min_size := (8 + 4 * 256 + nr * (20 + 4 + 4) + 20 + 20).toNat
              let max_size := if nr = 0 then min_size else min_size + ((nr - 1) * 8).toNat
              if idx_size < min_size ∨ max_size < idx_size then none
              else some { index_version := 2, index_data := idx_map, num_objects := nr }
      else
        match monotonic 256 0 idx_map with
        | none => none
        | some nr =>
          if idx_size ≠ (4 * 256 + nr * 24 + 20 + 20).toNat then none
          else some { index_version := 1, index_data := idx_map, num_objects := nr }

def open_pack_index (p : packed_git) : Option pack_index :=
  match p.index with
  | some index => some index
  | none => check_packed_git_idx p.idx_file

/-- The name at a place, `some none` for NULL. -/
def nth_packed_object_sha1 (p : packed_git) (n : BitVec 32) : Option (Option Sha1) :=
  match open_pack_index p with
  | none => some none
  | some p =>
    if p.num_objects ≤ n then some none
    else
      let index := 4 * 256
      let place :=
        if p.index_version = 1 then index + (24 * n).toNat + 4 else index + 8 + (20 * n).toNat
      (sha1_at (p.index_data.drop place)).map (fun r => some r.1)

/-- The part of `nth_packed_object_offset` for version 2, with `index` at the
offset table. -/
def offset_read (index : Bytes) (num_objects n : BitVec 32) : Option Nat :=
  match ntohl (index.drop (4 * n).toNat) with
  | none => none
  | some (off, _) =>
    if off &&& 0x80000000 = 0 then some off.toNat
    else
      let large := (num_objects * 4 + (off &&& 0x7fffffff) * 8).toNat
      match ntohl (index.drop large), ntohl (index.drop (large + 4)) with
      | some (high, _), some (low, _) => some (high.toNat <<< 32 ||| low.toNat)
      | _, _ => none

/-- The offset at a place of an open index, as the 64 bits of an `off_t`. -/
def nth_packed_object_offset (p : pack_index) (n : BitVec 32) : Option Nat :=
  let index := 4 * 256
  if p.index_version = 1 then
    (ntohl (p.index_data.drop (index + (24 * n).toNat))).map (fun r => r.1.toNat)
  else
    offset_read (p.index_data.drop (index + (8 + p.num_objects * (20 + 4)).toNat)) p.num_objects n

/-- The loop of the search, which has its test at the end. -/
def find_from (p : pack_index) (index : Nat) (stride : BitVec 32) (sha1 : Sha1) :
    Nat → BitVec 32 → BitVec 32 → Option Nat
  | 0, _, _ => some 0
  | turns + 1, lo, hi =>
    let mi := (lo + hi) / 2
    match sha1_at (p.index_data.drop (index + (mi * stride).toNat)) with
    | none => none
    | some (name, _) =>
      match hashcmp name sha1 with
      | .eq => nth_packed_object_offset p mi
      | .gt => if lo < mi then find_from p index stride sha1 turns lo mi else some 0
      | .lt => if mi + 1 < hi then find_from p index stride sha1 turns (mi + 1) hi else some 0

/-- The offset of an object, 0 where the pack does not have it. -/
def find_pack_entry_one (sha1 : Sha1) (p : packed_git) : Option Nat :=
  match open_pack_index p with
  | none => some 0
  | some p =>
    let level1_ofs := if 1 < p.index_version then 8 else 0
    let index := level1_ofs + 4 * 256
    let first := sha1[0].toNat
    match ntohl (p.index_data.drop (level1_ofs + 4 * first)),
        if first = 0 then some 0
        else (ntohl (p.index_data.drop (level1_ofs + 4 * (first - 1)))).map (fun r => r.1) with
    | some (hi, _), some lo =>
      -- one turn, and one more for each place that the search can leave out
      let turns := (hi - lo).toNat + 1
      if 1 < p.index_version then find_from p index 20 sha1 turns lo hi
      else find_from p (index + 4) 24 sha1 turns lo hi
    | _, _ => none

end git.pack_idx
