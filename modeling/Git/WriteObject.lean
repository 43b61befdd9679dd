-- How `builtin/pack-objects.c` writes the objects to a pack: what becomes of
-- one object, and the order in which a delta and its base are written.
import Git.Varint

namespace git.pack_objects

/-! ## The objects -/

inductive object_kind where
  | OBJ_COMMIT
  | OBJ_TREE
  | OBJ_BLOB
  | OBJ_TAG
  deriving DecidableEq

inductive object_type where
  | whole (kind : object_kind)
  | OBJ_OFS_DELTA
  | OBJ_REF_DELTA
  deriving DecidableEq

/-- `in_pack`: what an existing pack has of an object. -/
structure packed_copy where
  in_pack_type : object_type
  index_version : Nat
  /-- From `in_pack_offset` to the next object of that pack. -/
  bytes : Bytes
  in_pack_header_size : Nat

structure object_entry (n : Nat) where
  sha1 : Sha1
  offset : Int
  size : Nat
  in_pack : Option packed_copy
  /-- The delta base. -/
  delta : Option (Fin n)
  delta_data : Option Bytes
  delta_size : Nat
  z_delta_size : Nat
  type : object_type
  preferred_base : Bool

/-- The options, the objects that can be read, and the functions of zlib and
of the delta code. -/
structure environment where
  pack_to_stdout : Bool
  allow_ofs_delta : Bool
  reuse_object : Bool
  pack_size_limit : Nat
  read_sha1_file : Sha1 → Option (object_kind × Bytes)
  diff_delta : Bytes → Bytes → Option Bytes
  do_compress : Bytes → Bytes
  check_pack_crc : packed_copy → Bool
  check_pack_inflate : packed_copy → Nat → Bool

/-- Where git dies. -/
inductive death where
  | unable_to_read (sha1 : Sha1)
  | delta_size_changed (buf base_buf : Bytes) (delta_size : Nat)
  | pack_too_large (offset : Int) (size : Nat)
  /-- `entry->delta` is read where there is none. -/
  | null_delta

/-- How an object stands in the pack. -/
inductive representation (n : Nat) where
  | whole (kind : object_kind)
  /-- Against the object that starts `ofs` bytes before this one. -/
  | ofs_delta (base : Fin n) (ofs : Int)
  /-- Against the object of this name. -/
  | ref_delta (base : Fin n)

def representation.base {n : Nat} : representation n → Option (Fin n)
  | .whole _ => none
  | .ofs_delta base _ => some base
  | .ref_delta base => some base

/-- An object of the pack. -/
structure packed_object (n : Nat) where
  object : Fin n
  offset : Int
  representation : representation n
  bytes : Bytes

structure state (n : Nat) where
  objects : Fin n → object_entry n
  /-- Where the next object goes. -/
  offset : Int
  written_list : List (Fin n)
  /-- The pack so far. -/
  pack : List (packed_object n)

variable {n : Nat}

def state.set_entry (s : state n) (e : Fin n) (entry : object_entry n) : state n :=
  { s with objects := Function.update s.objects e entry }

def state.set_offset (s : state n) (e : Fin n) (offset : Int) : state n :=
  s.set_entry e { s.objects e with offset := offset }

/-! ## One object -/

def type_bits : object_type → Nat
  | .whole .OBJ_COMMIT => 1
  | .whole .OBJ_TREE => 2
  | .whole .OBJ_BLOB => 3
  | .whole .OBJ_TAG => 4
  | .OBJ_OFS_DELTA => 6
  | .OBJ_REF_DELTA => 7

/-- The loop of `encode_in_pack_object_header`, with `size` shifted already. -/
def encode_size_from (c size : Nat) : Bytes :=
  if size = 0 then [UInt8.ofNat c]
  else UInt8.ofNat (c ||| 0x80) :: encode_size_from (size &&& 0x7f) (size / 128)
  termination_by size

def encode_in_pack_object_header (type : object_type) (size : Nat) : Bytes :=
  encode_size_from (16 * type_bits type ||| (size &&& 15)) (size / 16)

/-- What is left of `pack_size_limit`; 0 for no limit. -/
def limit (env : environment) (s : state n) (write_offset : Int) : Nat :=
  if env.pack_size_limit = 0 ∨ s.written_list.length = 0 then 0
  else if (env.pack_size_limit : Int) ≤ write_offset then 1
  else ((env.pack_size_limit : Int) - write_offset).toNat

def usable_delta (env : environment) (s : state n) (entry : object_entry n) : Bool :=
  match entry.delta with
  | none => false
  | some base =>
    if env.pack_size_limit = 0 then true
    -- base was written to another pack
    else if (s.objects base).offset = -1 then false
    -- base already exists in this pack, or could end up in another one
    else (s.objects base).offset ≠ 0

/-- The copy to take over as it is. -/
def to_reuse (env : environment) (entry : object_entry n) (usable_delta : Bool) :
    Option packed_copy :=
  if ¬ env.reuse_object then none
  else
    match entry.in_pack with
    | none => none
    | some p =>
      if entry.type = .OBJ_REF_DELTA ∨ entry.type = .OBJ_OFS_DELTA then
        if usable_delta then some p else none
      -- pack has delta which is unusable
      else if entry.type ≠ p.in_pack_type then none
      -- we want to pack afresh
      else if entry.delta.isSome then none
      else some p

def delta_type (env : environment) (s : state n) (base : Fin n) : object_type :=
  if env.allow_ofs_delta ∧ (s.objects base).offset ≠ 0 then .OBJ_OFS_DELTA else .OBJ_REF_DELTA

/-- Writes the header, the base and the data; `none` where the pack would go
over its limit. -/
def put_object (s : state n) (entry : object_entry n) (limit : Nat) (type : object_type)
    (size : Nat) (data : Bytes) : Except death (Option (representation n × Bytes)) :=
  let header := encode_in_pack_object_header type size
  match type with
  | .OBJ_OFS_DELTA =>
    match entry.delta with
    | none => .error .null_delta
    | some base =>
      let ofs := entry.offset - (s.objects base).offset
      let dheader := encode_varint ofs.toNat
      if limit ≠ 0 ∧ limit ≤ header.length + dheader.length + data.length + 20 then .ok none
      else .ok (some (.ofs_delta base ofs, header ++ dheader ++ data))
  | .OBJ_REF_DELTA =>
    match entry.delta with
    | none => .error .null_delta
    | some base =>
      if limit ≠ 0 ∧ limit ≤ header.length + 20 + data.length + 20 then .ok none
      else .ok (some (.ref_delta base, header ++ (s.objects base).sha1.toList ++ data))
  | .whole kind =>
    if limit ≠ 0 ∧ limit ≤ header.length + data.length + 20 then .ok none
    else .ok (some (.whole kind, header ++ data))

def get_delta (env : environment) (s : state n) (entry : object_entry n) (base : Fin n) :
    Except death Bytes :=
  match env.read_sha1_file entry.sha1 with
  | none => .error (.unable_to_read entry.sha1)
  | some (_, buf) =>
    match env.read_sha1_file (s.objects base).sha1 with
    | none => .error (.unable_to_read (s.objects base).sha1)
    | some (_, base_buf) =>
      match env.diff_delta base_buf buf with
      | none => .error (.delta_size_changed buf base_buf entry.delta_size)
      | some delta_buf =>
        if delta_buf.length ≠ entry.delta_size then
          .error (.delta_size_changed buf base_buf entry.delta_size)
        else .ok delta_buf

/-- The data as it is written: `z_delta_size` bytes that were compressed
already, or compressed now. -/
def compressed (env : environment) (entry : object_entry n) (buf : Bytes) : Bytes :=
  if entry.z_delta_size ≠ 0 then buf.take entry.z_delta_size else env.do_compress buf

/-- What `write_object` leaves of the entry, and what it wrote. -/
abbrev written (n : Nat) := object_entry n × Option (representation n × Bytes)

def put_whole (env : environment) (s : state n) (entry : object_entry n) (limit : Nat) :
    Except death (written n) :=
  match env.read_sha1_file entry.sha1 with
  | none => .error (.unable_to_read entry.sha1)
  | some (kind, buf) =>
    -- make sure no cached delta data remains
    let entry := { entry with delta_data := none, z_delta_size := 0 }
    (put_object s entry limit (.whole kind) buf.length (compressed env entry buf)).map
      (fun out => (entry, out))

def put_delta (env : environment) (s : state n) (entry : object_entry n) (base : Fin n)
    (limit : Nat) : Except death (written n) :=
  match entry.delta_data with
  | some buf =>
    let entry := { entry with delta_data := none }
    (put_object s entry limit (delta_type env s base) entry.delta_size
      (compressed env entry buf)).map (fun out => (entry, out))
  | none =>
    match get_delta env s entry base with
    | .error d => .error d
    | .ok buf =>
      (put_object s entry limit (delta_type env s base) entry.delta_size
        (compressed env entry buf)).map (fun out => (entry, out))

/-- From `no_reuse:` on. -/
def no_reuse (env : environment) (s : state n) (entry : object_entry n) (usable_delta : Bool)
    (limit : Nat) : Except death (written n) :=
  match usable_delta, entry.delta with
  | true, some base => put_delta env s entry base limit
  | _, _ => put_whole env s entry limit

/-- The copy in the pack is not what its index says. -/
def corrupt (env : environment) (entry : object_entry n) (p : packed_copy) : Bool :=
  !env.pack_to_stdout &&
    ((1 < p.index_version && env.check_pack_crc p) ||
      (p.index_version == 1 && env.check_pack_inflate p entry.size))

/-- The type that a copy is written with. -/
def reused_type (env : environment) (s : state n) (entry : object_entry n) : object_type :=
  match entry.delta with
  | some base => delta_type env s base
  | none => entry.type

def write_object (env : environment) (s : state n) (entry : object_entry n) (write_offset : Int) :
    Except death (written n) :=
  let limit := limit env s write_offset
  let usable_delta := usable_delta env s entry
  match to_reuse env entry usable_delta with
  | none => no_reuse env s entry usable_delta limit
  | some p =>
    if corrupt env entry p then no_reuse env s entry usable_delta limit
    else
      (put_object s entry limit (reused_type env s entry) entry.size
        (p.bytes.drop p.in_pack_header_size)).map (fun out => (entry, out))

/-! ## The order -/

inductive write_one_status where
  | WRITE_ONE_SKIP
  | WRITE_ONE_BREAK
  | WRITE_ONE_WRITTEN
  | WRITE_ONE_RECURSIVE
  deriving DecidableEq

/-- The end of `write_one`, when the base is written. -/
def write_out (env : environment) (s : state n) (e : Fin n) :
    Except death (write_one_status × state n) :=
  let s := s.set_offset e s.offset
  match write_object env s (s.objects e) s.offset with
  | .error d => .error d
  | .ok (entry, none) => .ok (.WRITE_ONE_BREAK, s.set_entry e { entry with offset := 0 })
  | .ok (entry, some (representation, bytes)) =>
    if 2 ^ 63 - 1 < s.offset + bytes.length then .error (.pack_too_large s.offset bytes.length)
    else
      .ok (.WRITE_ONE_WRITTEN,
        { s.set_entry e entry with
          offset := s.offset + bytes.length
          written_list := s.written_list ++ [e]
          pack := s.pack ++ [⟨e, s.offset, representation, bytes⟩] })

/-- `none` when the recursion goes deeper than `fuel`. -/
def write_one (env : environment) : Nat → state n → Fin n →
    Option (Except death (write_one_status × state n))
  | 0, _, _ => none
  | fuel + 1, s, e =>
    let entry := s.objects e
    if entry.offset = 1 then some (.ok (.WRITE_ONE_RECURSIVE, s))
    -- offset is non zero if object is written already.
    else if entry.offset ≠ 0 ∨ entry.preferred_base then some (.ok (.WRITE_ONE_SKIP, s))
    else
      match entry.delta with
      | none => some (write_out env s e)
      | some base =>
        match write_one env fuel (s.set_offset e 1) base with
        | none => none
        | some (.error d) => some (.error d)
        | some (.ok (.WRITE_ONE_RECURSIVE, s)) =>
          -- we cannot depend on this one
          some (write_out env (s.set_entry e { s.objects e with delta := none }) e)
        | some (.ok (.WRITE_ONE_BREAK, s)) => some (.ok (.WRITE_ONE_BREAK, s.set_offset e 0))
        | some (.ok (_, s)) => some (write_out env s e)

/-- The loop of `write_pack_file` over `write_order`, with what is left of the
order after a break. -/
def write_loop (env : environment) (fuel : Nat) : List (Fin n) → state n →
    Option (Except death (List (Fin n) × state n))
  | [], s => some (.ok ([], s))
  | e :: order, s =>
    match write_one env fuel s e with
    | none => none
    | some (.error d) => some (.error d)
    | some (.ok (.WRITE_ONE_BREAK, s)) => some (.ok (e :: order, s))
    | some (.ok (_, s)) => write_loop env fuel order s

/-- Behind the pack header, before the first object. -/
def start (objects : Fin n → object_entry n) : state n :=
  { objects := objects, offset := 12, written_list := [], pack := [] }

end git.pack_objects
