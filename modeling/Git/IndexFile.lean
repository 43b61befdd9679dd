-- The index file: how `read-cache.c` writes it and reads it. The SHA-1 of a
-- byte string and the payloads of the extensions are parameters.
import Git.Lib.BigEndian
import Git.StatMatch
import Git.Varint

open big_endian

namespace git

/-! ## Words in network byte order -/

def htonl (x : BitVec 32) : Bytes := put 4 x.toNat

def htons (x : BitVec 16) : Bytes := put 2 x.toNat

/-- The word at a pointer, and the bytes after it. -/
def ntohl (p : Bytes) : Option (BitVec 32 × Bytes) := word 4 p

def ntohs (p : Bytes) : Option (BitVec 16 × Bytes) := word 2 p

/-- The 20 bytes at a pointer, and the bytes after them. -/
def sha1_at (p : Bytes) : Option (Sha1 × Bytes) :=
  if h : 20 ≤ p.length then some (⟨(p.take 20).toArray, by simp [h]⟩, p.drop 20) else none

@[simp] theorem length_htonl (x : BitVec 32) : (htonl x).length = 4 := length_put 4 _

@[simp] theorem length_htons (x : BitVec 16) : (htons x).length = 2 := length_put 2 _

@[simp] theorem ntohl_htonl (x : BitVec 32) (rest : Bytes) :
    ntohl (htonl x ++ rest) = some (x, rest) := word_put 4 x rest

@[simp] theorem ntohs_htons (x : BitVec 16) (rest : Bytes) :
    ntohs (htons x ++ rest) = some (x, rest) := word_put 2 x rest

@[simp] theorem sha1_at_append (sha1 : Sha1) (rest : Bytes) :
    sha1_at (sha1.toList ++ rest) = some (sha1, rest) := by
  have h20 : sha1.toList.length = 20 := by simp
  have hle : 20 ≤ (sha1.toList ++ rest).length := by
    rw [List.length_append]
    omega
  unfold sha1_at
  rw [dif_pos hle, List.drop_append_of_le_length (by omega), List.drop_eq_nil_of_le (by omega)]
  simp only [List.nil_append, Option.some.injEq, Prod.mk.injEq, and_true]
  apply Vector.toList_inj.mp
  simp [Vector.toList]

/-! ## The file on its way out -/

def WRITE_BUFFER_SIZE : Nat := 8192

/-- The bytes in the file, those that the SHA-1 context was given, and those
that wait in the write buffer. -/
structure index_writer where
  fd : Bytes
  context : Bytes
  write_buffer : Bytes

/-- The functions and the disk that the writing and the reading rest on.
`takes` tells if the file can come to hold these bytes. -/
structure index_env where
  cfg : config
  wt : worktree
  sha1 : Bytes → Sha1
  takes : Bytes → Bool
  cache_tree_write : cache_tree → Bytes
  cache_tree_read : Bytes → Option cache_tree
  resolve_undo_write : List (Bytes × Option resolve_undo_info) → Bytes
  resolve_undo_read : Bytes → Option (List (Bytes × Option resolve_undo_info))

-- In this part `none` is an error return, or an allocation at which git dies.

def write_in_full (env : index_env) (w : index_writer) (buf : Bytes) : Option index_writer :=
  if env.takes (w.fd ++ buf) then some { w with fd := w.fd ++ buf } else none

def ce_write_flush (env : index_env) (w : index_writer) : Option index_writer :=
  if w.write_buffer = [] then some w
  else
    match write_in_full env { w with context := w.context ++ w.write_buffer } w.write_buffer with
    | none => none
    | some w => some { w with write_buffer := [] }

/-- The loop of `ce_write`. Each turn takes a byte at least. -/
def ce_write_from (env : index_env) : Nat → index_writer → Bytes → Option index_writer
  | 0, w, _ => some w
  | turns + 1, w, data =>
    if data = [] then some w
    else
      let room := WRITE_BUFFER_SIZE - w.write_buffer.length
      let w := { w with write_buffer := w.write_buffer ++ data.take room }
      if w.write_buffer.length = WRITE_BUFFER_SIZE then
        match ce_write_flush env w with
        | none => none
        | some w => ce_write_from env turns w (data.drop room)
      else ce_write_from env turns w (data.drop room)

def ce_write (env : index_env) (w : index_writer) (data : Bytes) : Option index_writer :=
  ce_write_from env data.length w data

def ce_flush (env : index_env) (w : index_writer) : Option index_writer :=
  let left := w.write_buffer
  let w := { w with write_buffer := [], context := w.context ++ left }
  -- Flush first if not enough space for SHA1 signature
  if WRITE_BUFFER_SIZE < left.length + 20 then
    match write_in_full env w left with
    | none => none
    | some w => write_in_full env w (env.sha1 w.context).toList
  else write_in_full env w (left ++ (env.sha1 w.context).toList)

/-! ## Entries on disk -/

/-- What comes before the name of an entry. -/
def copy_cache_entry_to_ondisk (ce : cache_entry) : Bytes :=
  htonl ce.ce_ctime.sec ++ (htonl ce.ce_ctime.nsec ++ (htonl ce.ce_mtime.sec ++
    (htonl ce.ce_mtime.nsec ++ (htonl ce.ce_dev ++ (htonl ce.ce_ino ++ (htonl ce.ce_mode ++
    (htonl ce.ce_uid ++ (htonl ce.ce_gid ++ (htonl ce.ce_size ++ (ce.sha1.toList ++
    (htons (ce.ce_flags.setWidth 16) ++
    (if ce.has CE_EXTENDED then
      htons (((ce.ce_flags &&& CE_EXTENDED_FLAGS) >>> 16).setWidth 16) else []))))))))))))

/-- The offset of `name` in the struct of the entry. -/
def ondisk_offset (ce : cache_entry) : Nat := if ce.has CE_EXTENDED then 64 else 62

/-- `(offset + len + 8) & ~7` -/
def ondisk_ce_size (ce : cache_entry) : Nat :=
  (ondisk_offset ce + ce_namelen ce + 8) / 8 * 8

/-- A size that is an `int`. `xcalloc` dies of a negative one. -/
def xcalloc (size : Nat) : Option Nat := if size < 2 ^ 31 then some size else none

/-- How far the name goes along with the previous one. -/
def common_length : Bytes → Bytes → Nat
  | a :: name, b :: previous => if a = b then common_length name previous + 1 else 0
  | _, _ => 0

/-- The name as `ce_write_entry` leaves it on disk: padded, or with what it
shares with the previous name left out. -/
def ondisk_name (ce : cache_entry) : Option Bytes → Bytes
  | none =>
    ce.name.take (ce_namelen ce) ++
      List.replicate (ondisk_ce_size ce - ondisk_offset ce - ce_namelen ce) 0
  | some previous_name =>
    let common := common_length ce.name previous_name
    let to_remove := previous_name.length - common
    encode_varint to_remove ++ ((ce.name.drop common).take (ce_namelen ce - common) ++ [0])

/-- The name before the next entry, by `strbuf_splice`. -/
def next_previous (ce : cache_entry) : Option Bytes → Option Bytes
  | none => none
  | some previous_name =>
    let common := common_length ce.name previous_name
    some (previous_name.take common ++ (ce.name.drop common).take (ce_namelen ce - common))

def ce_write_entry (env : index_env) (w : index_writer) (ce : cache_entry)
    (previous_name : Option Bytes) : Option index_writer :=
  let ondisk := copy_cache_entry_to_ondisk ce ++ ondisk_name ce previous_name
  match xcalloc ondisk.length with
  | none => none
  | some _ => ce_write env w ondisk

/-! ## `write_index` -/

/-- Reduce extended entries if possible. -/
def reduce_extended (ce : cache_entry) : cache_entry :=
  let ce := ce.clear CE_EXTENDED
  if ce.has CE_EXTENDED_FLAGS then ce.mark CE_EXTENDED else ce

/-- The entries as they are in core afterwards, and the file so far. -/
def write_entries (env : index_env) (istate : index_state) :
    index_writer → Option Bytes → List cache_entry → Option (List cache_entry × index_writer)
  | w, _, [] => some ([], w)
  | w, previous_name, ce :: cache =>
    if ce.has CE_REMOVE then
      match write_entries env istate w previous_name cache with
      | none => none
      | some (cache, w) => some (ce :: cache, w)
    else
      let smudged :=
        if !ce_uptodate ce && is_racy_timestamp istate ce then
          ce_smudge_racily_clean_entry env.cfg env.wt ce
        else some ce
      match smudged with
      | none => none
      | some ce =>
        match ce_write_entry env w ce previous_name with
        | none => none
        | some w =>
          match write_entries env istate w (next_previous ce previous_name) cache with
          | none => none
          | some (cache, w) => some (ce :: cache, w)

def CACHE_SIGNATURE : BitVec 32 := 0x44495243
def CACHE_EXT_TREE : BitVec 32 := 0x54524545
def CACHE_EXT_RESOLVE_UNDO : BitVec 32 := 0x52455543
def INDEX_FORMAT_DEFAULT : BitVec 32 := 3

def write_index_ext_header (env : index_env) (w : index_writer) (ext sz : BitVec 32) :
    Option index_writer :=
  match ce_write env w (htonl ext) with
  | none => none
  | some w => ce_write env w (htonl sz)

/-- The extension for `payload`, if there is one. -/
def write_extension {α : Type} (env : index_env) (w : index_writer) (ext : BitVec 32)
    (write : α → Bytes) : Option α → Option index_writer
  | none => some w
  | some payload =>
    match write_index_ext_header env w ext (unsigned_int (write payload).length) with
    | none => none
    | some w => ce_write env w (write payload)

/-- The version to write: version 3 is demoted to version 2 when the latter
suffices. -/
def hdr_version (istate : index_state) (extended : Bool) : BitVec 32 :=
  let version := if istate.version = 0 then INDEX_FORMAT_DEFAULT else istate.version
  if version = 3 ∨ version = 2 then (if extended then 3 else 2) else version

/-- Writes with an empty write buffer to an empty file. The answer is the
index in core afterwards and the file. `st` is what `fstat` says of the file
in the end. -/
def write_index (env : index_env) (st : Option cache_time) (istate : index_state) :
    Option (index_state × Bytes) := do
  let cache := istate.cache.map reduce_extended
  let removed := cache.countP (·.has CE_REMOVE)
  let extended := cache.any (·.has CE_EXTENDED_FLAGS)
  let istate := { istate with cache := cache, version := hdr_version istate extended }
  let hdr := htonl CACHE_SIGNATURE ++
    (htonl istate.version ++ htonl (unsigned_int (cache.length - removed)))
  let w ← ce_write env ⟨[], [], []⟩ hdr
  let (cache, w) ← write_entries env istate w (if istate.version = 4 then some [] else none) cache
  let istate := { istate with cache := cache }
  let w ← write_extension env w CACHE_EXT_TREE env.cache_tree_write istate.cache_tree
  let w ← write_extension env w CACHE_EXT_RESOLVE_UNDO env.resolve_undo_write istate.resolve_undo
  let w ← ce_flush env w
  let timestamp ← st
  pure ({ istate with timestamp := timestamp }, w.fd)

/-! ## `read_index_from` -/

/-- Where `read_index_from` dies. -/
inductive read_error where
  /-- "index file smaller than expected" -/
  | too_small
  /-- "index file corrupt" -/
  | corrupt
  /-- "malformed name field in the index" -/
  | malformed_name
  /-- "Unknown index entry format" -/
  | unknown_format (extended_flags : BitVec 32)
  /-- A pointer went past the end of the mapping. -/
  | past_end
  deriving DecidableEq, Repr

/-- A read that has to stay in the mapping. -/
def in_mapping {α : Type} : Option α → Except read_error α
  | none => .error .past_end
  | some a => .ok a

/-- The bytes up to the NUL, and what comes after it. -/
def c_string : Bytes → Option (Bytes × Bytes)
  | [] => none
  | c :: p =>
    if c = 0 then some ([], p)
    else
      match c_string p with
      | none => none
      | some (s, rest) => some (c :: s, rest)

/-- Strips bytes off the end of `name` and appends others. The answer is the
name and the number of bytes read. -/
def expand_name_field (name cp_ : Bytes) : Except read_error (Bytes × Nat) := do
  let (len, cp) ← in_mapping (decode_varint cp_)
  if name.length < len then .error .malformed_name
  else
    let (s, ep) ← in_mapping (c_string cp)
    pure (name.take (name.length - len) ++ s, cp_.length - ep.length)

/-- The name in v3 and earlier: `len` bytes, or up to the NUL if `len` is
CE_NAMEMASK. -/
def name_of_length (len : Nat) (name : Bytes) : Except read_error Bytes :=
  if len = 0x0fff then in_mapping ((c_string name).map (·.1))
  else if name.length < len then .error .past_end
  else .ok (name.take len)

/-- The fields of the entry at `ondisk`, with the bytes at its name. The name
of the entry is empty yet. -/
def cache_entry_from_ondisk (ondisk : Bytes) : Option (cache_entry × Bytes) := do
  let (ctime_sec, p) ← ntohl ondisk
  let (ctime_nsec, p) ← ntohl p
  let (mtime_sec, p) ← ntohl p
  let (mtime_nsec, p) ← ntohl p
  let (dev, p) ← ntohl p
  let (ino, p) ← ntohl p
  let (mode, p) ← ntohl p
  let (uid, p) ← ntohl p
  let (gid, p) ← ntohl p
  let (size, p) ← ntohl p
  let (sha1, p) ← sha1_at p
  let (flags, p) ← ntohs p
  pure ({ ce_ctime := ⟨ctime_sec, ctime_nsec⟩, ce_mtime := ⟨mtime_sec, mtime_nsec⟩,
          ce_dev := dev, ce_ino := ino, ce_mode := mode, ce_uid := uid, ce_gid := gid,
          ce_size := size, ce_flags := flags.setWidth 32, sha1 := sha1, name := [] }, p)

/-- The flags with the second flag word, if there is one, and the bytes after
it. -/
def read_extended_flags (flags : BitVec 32) (p : Bytes) :
    Except read_error (BitVec 32 × Bytes) :=
  if flags &&& CE_EXTENDED ≠ 0 then do
    let (flags2, p) ← in_mapping (ntohs p)
    let extended_flags := flags2.setWidth 32 <<< 16
    -- We do not yet understand any bit out of CE_EXTENDED_FLAGS
    if extended_flags &&& ~~~CE_EXTENDED_FLAGS ≠ 0 then .error (.unknown_format extended_flags)
    else pure (flags ||| extended_flags, p)
  else pure (flags, p)

/-- The entry at `ondisk`, its size on disk, and the name for the entry after
it. -/
def create_from_disk (ondisk : Bytes) (previous_name : Option Bytes) :
    Except read_error (cache_entry × Nat × Option Bytes) := do
  let (ce, p) ← in_mapping (cache_entry_from_ondisk ondisk)
  let len := (ce.ce_flags &&& CE_NAMEMASK).toNat
  let (flags, name) ← read_extended_flags ce.ce_flags p
  match previous_name with
  | none =>
    -- v3 and earlier
    let s ← name_of_length len name
    let ce := { ce with ce_flags := flags, name := s }
    pure (ce, ondisk_ce_size ce, none)
  | some previous_name =>
    let (s, consumed) ← expand_name_field previous_name name
    pure ({ ce with ce_flags := flags, name := s },
      (ondisk.length - name.length) + consumed, some s)

/-- The loop over the entries. The answer is the index and the offset of what
follows. -/
def read_entries (mmap : Bytes) :
    Nat → index_state → Nat → Option Bytes → Except read_error (index_state × Nat)
  | 0, istate, src_offset, _ => .ok (istate, src_offset)
  | left + 1, istate, src_offset, previous_name => do
    let (ce, consumed, previous_name) ← create_from_disk (mmap.drop src_offset) previous_name
    let istate := { istate with cache := istate.cache ++ [add_name_hash istate ce] }
    read_entries mmap left istate (src_offset + consumed) previous_name

/-- The first byte of an extension that can be ignored is in A..Z. -/
def read_index_extension (env : index_env) (istate : index_state) (ext : BitVec 32)
    (data : Bytes) : Except read_error index_state :=
  if ext = CACHE_EXT_TREE then .ok { istate with cache_tree := env.cache_tree_read data }
  else if ext = CACHE_EXT_RESOLVE_UNDO then
    .ok { istate with resolve_undo := env.resolve_undo_read data }
  else if ext >>> 24 < 0x41 ∨ 0x5a < ext >>> 24 then .error .corrupt
  else .ok istate

/-- `while (src_offset <= mmap_size - 20 - 8)`. Each turn takes 8 bytes at
least. -/
def read_extensions (env : index_env) (mmap : Bytes) :
    Nat → index_state → Nat → Except read_error index_state
  | 0, istate, _ => .ok istate
  | turns + 1, istate, src_offset =>
    if mmap.length - 20 - 8 < src_offset then .ok istate
    else do
      let (ext, p) ← in_mapping (ntohl (mmap.drop src_offset))
      let (extsize, data) ← in_mapping (ntohl p)
      let istate ← read_index_extension env istate ext (data.take extsize.toNat)
      read_extensions env mmap turns istate (src_offset + 8 + extsize.toNat)

/-- The version and the number of entries, of a header that is good. -/
def verify_hdr (env : index_env) (mmap : Bytes) : Except read_error (BitVec 32 × BitVec 32) := do
  let (hdr_signature, p) ← in_mapping (ntohl mmap)
  let (version, p) ← in_mapping (ntohl p)
  let (hdr_entries, _) ← in_mapping (ntohl p)
  if hdr_signature ≠ CACHE_SIGNATURE then .error .corrupt
  else if version < 2 ∨ 4 < version then .error .corrupt
  else if (env.sha1 (mmap.take (mmap.length - 20))).toList ≠ mmap.drop (mmap.length - 20) then
    .error .corrupt
  else pure (version, hdr_entries)

/-- Up to the extensions: the index and the offset of what follows the
entries. -/
def read_entry_section (env : index_env) (istate : index_state) (mmap : Bytes) :
    Except read_error (index_state × Nat) :=
  if mmap.length < 12 + 20 then .error .too_small
  else do
    let (version, hdr_entries) ← verify_hdr env mmap
    let istate := { istate with version := version, cache := [], initialized := true }
    read_entries mmap hdr_entries.toNat istate 12 (if version = 4 then some [] else none)

/-- `file` is what is at the path and its mtime, or `none`. -/
def read_index_from (env : index_env) (istate : index_state) (file : Option (Bytes × cache_time)) :
    Except read_error index_state :=
  if istate.initialized then .ok istate
  else
    let istate := { istate with timestamp := ⟨0, 0⟩ }
    match file with
    | none => .ok istate
    | some (mmap, st_mtime) => do
      let (istate, src_offset) ← read_entry_section env istate mmap
      read_extensions env mmap mmap.length { istate with timestamp := st_mtime } src_offset

end git
