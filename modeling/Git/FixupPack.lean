-- The last step of writing a pack, `fixup_pack_header_footer` of `pack-write.c`: the object
-- count goes into the header, and the digest of the whole file behind its end.
import Git.BlockSha1

namespace git.pack_write

abbrev off_t := BitVec 64

/-! ## The file -/

/-- An open file. `reads` has the calls of `xread` that are still to come: how many bytes
each of them gets at most, or `none` for an error. -/
structure open_file where
  bytes : Bytes
  pos : Nat
  reads : Nat → Option Nat

/-- What goes into the buffer. A read before the end of the file gets a byte or more. -/
def xread (fd : open_file) (len : Nat) : Option (Bytes × open_file) :=
  (fd.reads 0).map fun most =>
    let buf := (fd.bytes.drop fd.pos).take (min len (max 1 most))
    (buf, { fd with pos := fd.pos + buf.length, reads := fun i => fd.reads (i + 1) })

/-- The loop of `read_in_full`, of no more turns than `count`. -/
def read_loop : Nat → open_file → Nat → Option (Bytes × open_file)
  | 0, fd, _ => some ([], fd)
  | turns + 1, fd, count =>
    if count = 0 then some ([], fd)
    else
      match xread fd count with
      | none => none
      | some (loaded, fd) =>
        if loaded = [] then some ([], fd)
        else
          (read_loop turns fd (count - loaded.length)).map fun (rest, fd) => (loaded ++ rest, fd)

def read_in_full (fd : open_file) (count : Nat) : Option (Bytes × open_file) :=
  read_loop count fd count

/-- `lseek(fd, 0, SEEK_SET)` -/
def rewind (fd : open_file) : open_file := { fd with pos := 0 }

def write_or_die (fd : open_file) (buf : Bytes) : open_file :=
  { fd with
    bytes := fd.bytes.take fd.pos ++ buf ++ fd.bytes.drop (fd.pos + buf.length)
    pos := fd.pos + buf.length }

/-! ## The function -/

/-- The highest `bits` bits. -/
def MSB (x : off_t) (bits : Nat) : off_t := x &&& BitVec.allOnes 64 <<< (64 - bits)

/-- The variables of the loop. -/
structure checksums where
  new_sha1_ctx : blk_SHA_CTX
  old_sha1_ctx : blk_SHA_CTX
  aligned_sz : Int
  partial_pack_offset : off_t

def buf_sz : Int := 8 * 1024

/-- How much the next `xread` asks for, as a `size_t`. -/
def next_read (partial_pack_sha1 : Option Sha1) (s : checksums) : Nat :=
  let m :=
    if partial_pack_sha1.isSome ∧ s.partial_pack_offset.toInt < s.aligned_sz then
      s.partial_pack_offset.toInt
    else s.aligned_sz
  (BitVec.ofInt 64 m).toNat

/-- The loop body after the read. -/
def checksum_piece (pack_name : String) (partial_pack_sha1 : Option Sha1) (buf : Bytes)
    (s : checksums) : Except String checksums :=
  let aligned_sz := s.aligned_sz - buf.length
  let s :=
    { s with
      new_sha1_ctx := blk_SHA1_Update s.new_sha1_ctx buf
      aligned_sz := if aligned_sz = 0 then buf_sz else aligned_sz }
  match partial_pack_sha1 with
  | none => .ok s
  | some partial_sha1 =>
    let old_sha1_ctx := blk_SHA1_Update s.old_sha1_ctx buf
    let partial_pack_offset := s.partial_pack_offset - BitVec.ofNat 64 buf.length
    if partial_pack_offset ≠ 0 then .ok { s with old_sha1_ctx, partial_pack_offset }
    else if blk_SHA1_Final old_sha1_ctx ≠ partial_sha1.toList then
      .error ("Unexpected checksum for " ++ pack_name ++ " (disk corruption?)")
    else
      -- the remainder of the pack, with an offset big enough not to matter anymore
      .ok { s with
        old_sha1_ctx := blk_SHA1_Init old_sha1_ctx
        partial_pack_offset := ~~~partial_pack_offset - MSB (~~~partial_pack_offset) 1 }

theorem xread_some {fd fd' : open_file} {len : Nat} {buf : Bytes}
    (h : xread fd len = some (buf, fd')) :
    ∃ most, fd.reads 0 = some most ∧ buf = (fd.bytes.drop fd.pos).take (min len (max 1 most)) ∧
      fd' = { fd with pos := fd.pos + buf.length, reads := fun i => fd.reads (i + 1) } := by
  obtain ⟨most, hmost, h⟩ := Option.map_eq_some_iff.mp h
  obtain ⟨rfl, rfl⟩ := Prod.mk.inj h
  exact ⟨most, hmost, rfl, rfl⟩

/-- `for (;;)`: up to the end of the file. (`die_errno` also tells the error of the call.) -/
def checksum_loop (pack_name : String) (partial_pack_sha1 : Option Sha1) (fd : open_file)
    (s : checksums) : Except String (open_file × checksums) :=
  match _h : xread fd (next_read partial_pack_sha1 s) with
  | none => .error ("Failed to checksum '" ++ pack_name ++ "'")
  | some (buf, fd') =>
    if _hbuf : buf = [] then .ok (fd', s)
    else
      match checksum_piece pack_name partial_pack_sha1 buf s with
      | .error e => .error e
      | .ok s' => checksum_loop pack_name partial_pack_sha1 fd' s'
termination_by fd.bytes.length - fd.pos
decreasing_by
  obtain ⟨most, -, hread, rfl⟩ := xread_some _h
  have hpos := List.length_pos_iff.mpr _hbuf
  have hle : buf.length ≤ (fd.bytes.drop fd.pos).length := by
    rw [hread]
    exact List.length_take_le' _ _
  rw [List.length_drop] at hle
  simp only
  omega

/-- `sizeof(struct pack_header)`: the signature, the version and the number of objects. -/
def header_size : Nat := 12

/-- The header with another `hdr_entries`. -/
def with_entries (hdr : Bytes) (object_count : BitVec 32) : Bytes :=
  hdr.take 8 ++ put_be32 object_count

structure fixed_pack where
  bytes : Bytes
  new_pack_sha1 : Bytes
  partial_pack_sha1 : Option Bytes

/-- The contexts start uninitialised. -/
def fixup_pack_header_footer (pack_fd : open_file) (pack_name : String) (object_count : BitVec 32)
    (partial_pack_sha1 : Option Sha1) (partial_pack_offset : off_t)
    (old_sha1_ctx new_sha1_ctx : blk_SHA_CTX) : Except String fixed_pack :=
  match read_in_full (rewind pack_fd) header_size with
  | none => .error ("Unable to reread header of '" ++ pack_name ++ "'")
  | some (hdr, pack_fd) =>
    if hdr.length ≠ header_size then .error ("Unable to reread header of '" ++ pack_name ++ "'")
    else
      let new_hdr := with_entries hdr object_count
      (checksum_loop pack_name partial_pack_sha1 (write_or_die (rewind pack_fd) new_hdr)
        { old_sha1_ctx := blk_SHA1_Update (blk_SHA1_Init old_sha1_ctx) hdr
          new_sha1_ctx := blk_SHA1_Update (blk_SHA1_Init new_sha1_ctx) new_hdr
          aligned_sz := buf_sz - header_size
          partial_pack_offset := partial_pack_offset - BitVec.ofNat 64 header_size }).map
        fun (pack_fd, s) =>
          let new_pack_sha1 := blk_SHA1_Final s.new_sha1_ctx
          { bytes := (write_or_die pack_fd new_pack_sha1).bytes
            new_pack_sha1 := new_pack_sha1
            partial_pack_sha1 := partial_pack_sha1.map fun _ => blk_SHA1_Final s.old_sha1_ctx }

/-! ## Reading -/

/-- No call gives an error: they may all be short. -/
def Reliable (fd : open_file) : Prop := ∀ i, fd.reads i ≠ none

theorem xread_reliable {fd : open_file} (h : Reliable fd) (len : Nat) :
    ∃ buf fd', xread fd len = some (buf, fd') ∧ Reliable fd' ∧ fd'.bytes = fd.bytes ∧
      fd'.pos = fd.pos + buf.length ∧ buf = (fd.bytes.drop fd.pos).take buf.length ∧
      buf.length ≤ len ∧ (buf = [] → len = 0 ∨ fd.bytes.length ≤ fd.pos) := by
  obtain ⟨most, hmost⟩ := Option.ne_none_iff_exists'.mp (h 0)
  have hread : xread fd len = some ((fd.bytes.drop fd.pos).take (min len (max 1 most)),
      { fd with
        pos := fd.pos + ((fd.bytes.drop fd.pos).take (min len (max 1 most))).length
        reads := fun i => fd.reads (i + 1) }) := by
    unfold xread
    rw [hmost]
    rfl
  refine ⟨_, _, hread, fun i => h (i + 1), rfl, rfl, ?_, ?_, ?_⟩
  · rw [List.length_take, ← List.take_eq_take_min]
  · rw [List.length_take]
    omega
  · intro hnil
    have hlen := congrArg List.length hnil
    rw [List.length_take, List.length_drop, List.length_nil] at hlen
    omega

theorem read_loop_reliable (turns : Nat) : ∀ (fd : open_file) (count : Nat), count ≤ turns →
    Reliable fd → ∃ fd', read_loop turns fd count = some ((fd.bytes.drop fd.pos).take count, fd') ∧
      Reliable fd' ∧ fd'.bytes = fd.bytes := by
  induction turns with
  | zero =>
    intro fd count hcount h
    obtain rfl : count = 0 := by omega
    exact ⟨fd, rfl, h, rfl⟩
  | succ turns ih =>
    intro fd count hcount h
    unfold read_loop
    by_cases hzero : count = 0
    · rw [if_pos hzero, hzero]
      exact ⟨fd, rfl, h, rfl⟩
    rw [if_neg hzero]
    obtain ⟨buf, fd', hread, hrel, hbytes, hpos, hbuf, hle, hend⟩ := xread_reliable h count
    rw [hread]
    simp only
    by_cases hnil : buf = []
    · rw [if_pos hnil]
      have hdone : (fd.bytes.drop fd.pos).take count = [] := by
        rw [List.drop_eq_nil_of_le ((hend hnil).resolve_left hzero), List.take_nil]
      rw [hdone]
      exact ⟨fd', rfl, hrel, hbytes⟩
    · rw [if_neg hnil]
      have hsome := List.length_pos_iff.mpr hnil
      obtain ⟨last, hrest, hlast, hsame⟩ := ih fd' (count - buf.length) (by omega) hrel
      refine ⟨last, ?_, hlast, hsame.trans hbytes⟩
      have hcount : count = buf.length + (count - buf.length) := by omega
      rw [hrest, hbytes, hpos, Option.map_some, ← List.drop_drop]
      conv_rhs => rw [hcount, List.take_add, ← hbuf]

/-! ## The digests on the way -/

/-- The pack with another object count in its header. -/
def updated (file : Bytes) (object_count : BitVec 32) : Bytes :=
  with_entries (file.take header_size) object_count ++ file.drop header_size

/-- The digest of the old content up to `partial_pack_offset` is on its way. -/
structure Before (file : Bytes) (partial_pack_offset pos : Nat) (s : checksums) : Prop where
  place : pos < partial_pack_offset
  ctx : Absorbed s.old_sha1_ctx (file.take pos)
  offset : s.partial_pack_offset = BitVec.ofNat 64 (partial_pack_offset - pos)

/-- It was the given one, and the digest of the remainder is on its way. -/
structure After (file : Bytes) (partial_sha1 : Sha1) (partial_pack_offset pos : Nat)
    (s : checksums) : Prop where
  place : partial_pack_offset ≤ pos
  right : fips_180.sha1 (file.take partial_pack_offset) = partial_sha1.toList
  ctx : Absorbed s.old_sha1_ctx ((file.drop partial_pack_offset).take (pos - partial_pack_offset))
  offset : s.partial_pack_offset = BitVec.ofNat 64 (2 ^ 63 - 1 - (pos - partial_pack_offset))

structure Running (file : Bytes) (object_count : BitVec 32) (partial_sha1 : Sha1)
    (partial_pack_offset : Nat) (fd : open_file) (s : checksums) : Prop where
  reads : Reliable fd
  bytes : fd.bytes = updated file object_count
  header : header_size ≤ fd.pos
  inside : fd.pos ≤ file.length
  aligned : 0 < s.aligned_sz ∧ s.aligned_sz ≤ buf_sz
  new : Absorbed s.new_sha1_ctx ((updated file object_count).take fd.pos)
  old : Before file partial_pack_offset fd.pos s ∨
    After file partial_sha1 partial_pack_offset fd.pos s

theorem toInt_ofNat_small {n : Nat} (h : n < 2 ^ 63) : (BitVec.ofNat 64 n).toInt = n := by
  have hn : (BitVec.ofNat 64 n).toNat = n := by
    rw [BitVec.toNat_ofNat]
    omega
  rw [BitVec.toInt_eq_toNat_of_lt (by omega), hn]

theorem length_put_be32 (v : BitVec 32) : (put_be32 v).length = 4 :=
  big_endian.length_put 4 _

theorem length_with_entries {file : Bytes} (h : header_size ≤ file.length)
    (object_count : BitVec 32) :
    (with_entries (file.take header_size) object_count).length = header_size := by
  unfold with_entries header_size at *
  rw [List.length_append, length_put_be32, List.length_take, List.length_take]
  omega

theorem length_updated {file : Bytes} (h : header_size ≤ file.length) (object_count : BitVec 32) :
    (updated file object_count).length = file.length := by
  unfold updated
  rw [List.length_append, length_with_entries h, List.length_drop]
  omega

/-- Only the header differs. -/
theorem drop_updated {file : Bytes} (h : header_size ≤ file.length) (object_count : BitVec 32)
    {pos : Nat} (hpos : header_size ≤ pos) :
    (updated file object_count).drop pos = file.drop pos := by
  unfold updated
  rw [List.drop_append, length_with_entries h, List.drop_eq_nil_of_le, List.nil_append,
    List.drop_drop]
  · congr 1
    omega
  · rw [length_with_entries h]
    exact hpos

variable {file : Bytes} {object_count : BitVec 32} {partial_sha1 : Sha1}
  {partial_pack_offset : Nat} {fd : open_file} {s : checksums}

/-- The reads stop at the offset, and are never empty. -/
theorem next_read_spec (h : Running file object_count partial_sha1 partial_pack_offset fd s)
    (hoffset : header_size < partial_pack_offset) (hfile : file.length < 2 ^ 63)
    (hinside : partial_pack_offset ≤ file.length) :
    0 < next_read (some partial_sha1) s ∧ (next_read (some partial_sha1) s : Int) ≤ s.aligned_sz ∧
      (fd.pos < partial_pack_offset →
        next_read (some partial_sha1) s ≤ partial_pack_offset - fd.pos) := by
  obtain ⟨hlow, hhigh⟩ := h.aligned
  unfold buf_sz at hhigh
  have hin := h.inside
  have hof (m : Int) (h0 : 0 < m) (h1 : m ≤ 8192) : ((BitVec.ofInt 64 m).toNat : Int) = m := by
    rw [BitVec.toNat_ofInt]
    omega
  -- how far the offset is away
  obtain ⟨left, hleft, hpos, hsmall, hbefore⟩ : ∃ left : Nat,
      s.partial_pack_offset.toInt = left ∧ 0 < left ∧ left < 2 ^ 63 ∧
        (fd.pos < partial_pack_offset → left = partial_pack_offset - fd.pos) := by
    rcases h.old with hold | hold
    · have := hold.place
      refine ⟨partial_pack_offset - fd.pos, ?_, by omega, by omega, fun _ => rfl⟩
      rw [hold.offset, toInt_ofNat_small (by omega)]
    · have := hold.place
      unfold header_size at hoffset
      refine ⟨2 ^ 63 - 1 - (fd.pos - partial_pack_offset), ?_, by omega, by omega,
        fun h => by omega⟩
      rw [hold.offset, toInt_ofNat_small (by omega)]
  unfold next_read
  rw [hleft]
  simp only [Option.isSome_some, true_and]
  split_ifs with hlt
  · have := hof left (by omega) (by omega)
    refine ⟨by omega, by omega, fun h => ?_⟩
    have := hbefore h
    omega
  · have := hof s.aligned_sz (by omega) (by omega)
    refine ⟨by omega, by omega, fun h => ?_⟩
    have := hbefore h
    omega

theorem largest_off_t : ~~~(0 : off_t) - MSB (~~~0) 1 = BitVec.ofNat 64 (2 ^ 63 - 1 - 0) := by
  decide

/-- The `die` of a partial checksum that is not the given one. -/
def unexpected (pack_name : String) : String :=
  "Unexpected checksum for " ++ pack_name ++ " (disk corruption?)"

theorem take_more {bs buf : Bytes} {pos : Nat} (h : buf = (bs.drop pos).take buf.length) :
    bs.take pos ++ buf = bs.take (pos + buf.length) := by
  rw [List.take_add, ← h]

/-- One turn: either the offset is reached and the digest is wrong, or the digests go on. -/
theorem checksum_piece_spec (pack_name : String)
    (h : Running file object_count partial_sha1 partial_pack_offset fd s)
    (hoffset : header_size < partial_pack_offset) (hfile : file.length < 2 ^ 63)
    (hinside : partial_pack_offset ≤ file.length) {fd' : open_file} {buf : Bytes}
    (hrel : Reliable fd') (hbytes : fd'.bytes = fd.bytes) (hpos : fd'.pos = fd.pos + buf.length)
    (hbuf : buf = (fd.bytes.drop fd.pos).take buf.length) (hsome : buf ≠ [])
    (hle : buf.length ≤ next_read (some partial_sha1) s) :
    (checksum_piece pack_name (some partial_sha1) buf s = .error (unexpected pack_name) ∧
      fips_180.sha1 (file.take partial_pack_offset) ≠ partial_sha1.toList) ∨
    ∃ s', checksum_piece pack_name (some partial_sha1) buf s = .ok s' ∧
      Running file object_count partial_sha1 partial_pack_offset fd' s' := by
  obtain ⟨-, haligned, hstop⟩ := next_read_spec h hoffset hfile hinside
  have hlen := List.length_pos_iff.mpr hsome
  have hheader : header_size ≤ file.length := by omega
  have hold : buf = (file.drop fd.pos).take buf.length := by
    rw [h.bytes, drop_updated hheader object_count h.header] at hbuf
    exact hbuf
  have hend : fd.pos + buf.length ≤ file.length := by
    have := congrArg List.length hold
    rw [List.length_take, List.length_drop] at this
    omega
  -- what does not depend on the offset
  have hnew : Absorbed (blk_SHA1_Update s.new_sha1_ctx buf)
      ((updated file object_count).take fd'.pos) := by
    rw [h.bytes] at hbuf
    rw [hpos, ← take_more hbuf]
    exact blk_SHA1_Update_absorbed h.new buf
  have hsize : 0 < (if s.aligned_sz - buf.length = 0 then buf_sz else s.aligned_sz - buf.length) ∧
      (if s.aligned_sz - buf.length = 0 then buf_sz else s.aligned_sz - buf.length) ≤ buf_sz := by
    have := h.aligned
    unfold buf_sz at *
    split_ifs <;> omega
  have hrunning (s' : checksums)
      (hctx : s'.new_sha1_ctx = blk_SHA1_Update s.new_sha1_ctx buf)
      (hsz : s'.aligned_sz =
        if s.aligned_sz - buf.length = 0 then buf_sz else s.aligned_sz - buf.length)
      (hside : Before file partial_pack_offset fd'.pos s' ∨
        After file partial_sha1 partial_pack_offset fd'.pos s') :
      Running file object_count partial_sha1 partial_pack_offset fd' s' := by
    refine ⟨hrel, hbytes.trans h.bytes, ?_, ?_, ?_, ?_, hside⟩
    · have := h.header
      omega
    · omega
    · rw [hsz]
      exact hsize
    · rw [hctx]
      exact hnew
  unfold header_size at hoffset
  unfold checksum_piece
  simp only
  rcases h.old with hside | hside
  · have hplace := hside.place
    have hto := hstop hplace
    have hoff : s.partial_pack_offset - BitVec.ofNat 64 buf.length =
        BitVec.ofNat 64 (partial_pack_offset - fd'.pos) := by
      rw [hside.offset]
      apply BitVec.eq_of_toNat_eq
      simp only [BitVec.toNat_sub, BitVec.toNat_ofNat]
      omega
    have hctx : Absorbed (blk_SHA1_Update s.old_sha1_ctx buf) (file.take fd'.pos) := by
      rw [hpos, ← take_more hold]
      exact blk_SHA1_Update_absorbed hside.ctx buf
    rw [hoff]
    by_cases hreached : fd'.pos = partial_pack_offset
    · have hzero : BitVec.ofNat 64 (partial_pack_offset - fd'.pos) = 0 := by
        rw [hreached, Nat.sub_self]
        rfl
      have hfinal : blk_SHA1_Final (blk_SHA1_Update s.old_sha1_ctx buf) =
          fips_180.sha1 (file.take partial_pack_offset) := by
        rw [hreached] at hctx
        refine blk_SHA1_Final_spec hctx ?_
        rw [List.length_take]
        omega
      rw [if_neg (not_not.mpr hzero), hfinal, hzero]
      by_cases hright : fips_180.sha1 (file.take partial_pack_offset) = partial_sha1.toList
      · rw [if_neg (not_not.mpr hright)]
        refine Or.inr ⟨_, rfl, hrunning _ rfl rfl (Or.inr ⟨hreached.ge, hright, ?_, ?_⟩)⟩
        · rw [hreached, Nat.sub_self, List.take_zero]
          exact blk_SHA1_Init_absorbed _
        · rw [hreached, Nat.sub_self]
          exact largest_off_t
      · rw [if_pos hright]
        exact Or.inl ⟨rfl, hright⟩
    · have hmore : BitVec.ofNat 64 (partial_pack_offset - fd'.pos) ≠ 0 := by
        intro hzero
        have := congrArg BitVec.toNat hzero
        rw [BitVec.toNat_ofNat, Nat.mod_eq_of_lt (by omega)] at this
        have hz : (0 : off_t).toNat = 0 := rfl
        omega
      rw [if_pos hmore]
      exact Or.inr ⟨_, rfl, hrunning _ rfl rfl (Or.inl ⟨by omega, hctx, rfl⟩)⟩
  · have hplace := hside.place
    have hoff : s.partial_pack_offset - BitVec.ofNat 64 buf.length =
        BitVec.ofNat 64 (2 ^ 63 - 1 - (fd'.pos - partial_pack_offset)) := by
      rw [hside.offset]
      apply BitVec.eq_of_toNat_eq
      simp only [BitVec.toNat_sub, BitVec.toNat_ofNat]
      omega
    have hctx : Absorbed (blk_SHA1_Update s.old_sha1_ctx buf)
        ((file.drop partial_pack_offset).take (fd'.pos - partial_pack_offset)) := by
      have hrest : buf = ((file.drop partial_pack_offset).drop
          (fd.pos - partial_pack_offset)).take buf.length := by
        rw [List.drop_drop, Nat.add_sub_cancel' hplace]
        exact hold
      have hpast : fd'.pos - partial_pack_offset = fd.pos - partial_pack_offset + buf.length := by
        omega
      rw [hpast, ← take_more hrest]
      exact blk_SHA1_Update_absorbed hside.ctx buf
    -- the offset is parked too far away to be reached
    have hmore : BitVec.ofNat 64 (2 ^ 63 - 1 - (fd'.pos - partial_pack_offset)) ≠ 0 := by
      intro hzero
      have := congrArg BitVec.toNat hzero
      rw [BitVec.toNat_ofNat, Nat.mod_eq_of_lt (by omega)] at this
      have hz : (0 : off_t).toNat = 0 := rfl
      omega
    rw [hoff, if_pos hmore]
    exact Or.inr ⟨_, rfl, hrunning _ rfl rfl (Or.inr ⟨by omega, hside.right, hctx, rfl⟩)⟩

/-- The whole loop: up to the end of the file, or to a wrong digest. -/
theorem checksum_loop_spec (pack_name : String) (hoffset : header_size < partial_pack_offset)
    (hfile : file.length < 2 ^ 63) (hinside : partial_pack_offset ≤ file.length) (left : Nat) :
    ∀ (fd : open_file) (s : checksums), fd.bytes.length - fd.pos = left →
      Running file object_count partial_sha1 partial_pack_offset fd s →
      (checksum_loop pack_name (some partial_sha1) fd s = .error (unexpected pack_name) ∧
        fips_180.sha1 (file.take partial_pack_offset) ≠ partial_sha1.toList) ∨
      ∃ fd' s', checksum_loop pack_name (some partial_sha1) fd s = .ok (fd', s') ∧
        Running file object_count partial_sha1 partial_pack_offset fd' s' ∧
        fd'.pos = file.length := by
  induction left using Nat.strong_induction_on with
  | _ left ih =>
    intro fd s hleft h
    have hheader : header_size ≤ file.length := by omega
    have hlength : fd.bytes.length = file.length := by
      rw [h.bytes, length_updated hheader]
    obtain ⟨buf, fd', hread, hrel, hbytes, hpos, hbuf, hle, hend⟩ :=
      xread_reliable h.reads (next_read (some partial_sha1) s)
    have hsome := (next_read_spec h hoffset hfile hinside).1
    unfold checksum_loop
    split
    · rename_i hnone
      rw [hread] at hnone
      cases hnone
    · rename_i buf₁ fd₁ hread₁
      rw [hread] at hread₁
      obtain ⟨rfl, rfl⟩ := Prod.mk.inj (Option.some.inj hread₁)
      by_cases hnil : buf = []
      · rw [dif_pos hnil]
        rw [hnil, List.length_nil, Nat.add_zero] at hpos
        have hat : fd'.pos = file.length := by
          have := (hend hnil).resolve_left (by omega)
          have := h.inside
          omega
        refine Or.inr ⟨fd', s, rfl, ⟨hrel, hbytes.trans h.bytes, ?_, ?_, h.aligned, ?_, ?_⟩, hat⟩
        · exact hpos ▸ h.header
        · exact hpos ▸ h.inside
        · exact hpos ▸ h.new
        · exact hpos ▸ h.old
      · rw [dif_neg hnil]
        have hlen := List.length_pos_iff.mpr hnil
        have hroom := congrArg List.length hbuf
        rw [List.length_take, List.length_drop] at hroom
        rcases checksum_piece_spec pack_name h hoffset hfile hinside hrel hbytes hpos hbuf hnil hle
          with ⟨herror, hwrong⟩ | ⟨s', hok, hnext⟩
        · rw [herror]
          exact Or.inl ⟨rfl, hwrong⟩
        · rw [hok]
          simp only
          refine ih _ ?_ fd' s' rfl hnext
          rw [hbytes, hpos]
          omega

/-! ## The whole function -/

theorem header_written {file : Bytes} (h : header_size ≤ file.length) (object_count : BitVec 32)
    {fd : open_file} (hbytes : fd.bytes = file) :
    (write_or_die (rewind fd) (with_entries (file.take header_size) object_count)).bytes =
      updated file object_count ∧
    (write_or_die (rewind fd) (with_entries (file.take header_size) object_count)).pos =
      header_size := by
  unfold write_or_die rewind updated
  simp only [hbytes, List.take_zero, List.nil_append, Nat.zero_add, length_with_entries h]
  exact ⟨trivial, trivial⟩

/-- **A partial checksum is checked and replaced**: whatever the reads return, the function
dies when the first bytes of the pack are not those of the checksum. Otherwise it changes the
object count, appends the digest of the result, and gives the digest of the remainder. -/
theorem fixup_partial_checksum (file : Bytes) (pos : Nat) (short : Nat → Nat) (pack_name : String)
    (object_count : BitVec 32) (partial_pack_sha1 : Sha1) (partial_pack_offset : Nat)
    (old_sha1_ctx new_sha1_ctx : blk_SHA_CTX) (hoffset : header_size < partial_pack_offset)
    (hinside : partial_pack_offset ≤ file.length) (hfile : file.length < 2 ^ 63) :
    fixup_pack_header_footer ⟨file, pos, fun i => some (short i)⟩ pack_name object_count
        (some partial_pack_sha1) (BitVec.ofNat 64 partial_pack_offset) old_sha1_ctx new_sha1_ctx =
      if fips_180.sha1 (file.take partial_pack_offset) = partial_pack_sha1.toList then
        .ok
          { bytes := updated file object_count ++ fips_180.sha1 (updated file object_count)
            new_pack_sha1 := fips_180.sha1 (updated file object_count)
            partial_pack_sha1 := some (fips_180.sha1 (file.drop partial_pack_offset)) }
      else .error (unexpected pack_name) := by
  have hheader : header_size ≤ file.length := by omega
  unfold fixup_pack_header_footer
  obtain ⟨fd, hread, hrel, hbytes⟩ := read_loop_reliable header_size
    (rewind ⟨file, pos, fun i => some (short i)⟩) header_size (le_refl _) (fun _ => nofun)
  have hhdr : read_in_full (rewind ⟨file, pos, fun i => some (short i)⟩) header_size =
      some (file.take header_size, fd) := hread
  rw [hhdr]
  simp only
  rw [if_neg (by rw [List.length_take]; omega)]
  obtain ⟨hwritten, hat⟩ := header_written hheader object_count
    (show fd.bytes = file from hbytes)
  generalize hfd : write_or_die (rewind fd) (with_entries (file.take header_size) object_count) =
    start at hwritten hat ⊢
  have hstart : Running file object_count partial_pack_sha1 partial_pack_offset start
      { old_sha1_ctx := blk_SHA1_Update (blk_SHA1_Init old_sha1_ctx) (file.take header_size)
        new_sha1_ctx := blk_SHA1_Update (blk_SHA1_Init new_sha1_ctx)
          (with_entries (file.take header_size) object_count)
        aligned_sz := buf_sz - header_size
        partial_pack_offset := BitVec.ofNat 64 partial_pack_offset -
          BitVec.ofNat 64 header_size } := by
    have hreads : start.reads = fd.reads := by
      rw [← hfd]
      rfl
    refine ⟨fun i => hreads ▸ hrel i, hwritten, hat.ge, hat ▸ hheader,
      (by decide : (0 : Int) < buf_sz - header_size ∧ buf_sz - header_size ≤ buf_sz), ?_,
      Or.inl ⟨hat ▸ hoffset, ?_, ?_⟩⟩
    · have htake : (updated file object_count).take start.pos =
          with_entries (file.take header_size) object_count := by
        unfold updated
        rw [hat, List.take_left' (length_with_entries hheader object_count)]
      rw [htake]
      exact blk_SHA1_Update_absorbed (blk_SHA1_Init_absorbed _) _
    · rw [hat]
      exact blk_SHA1_Update_absorbed (blk_SHA1_Init_absorbed _) _
    · rw [hat]
      unfold header_size at *
      apply BitVec.eq_of_toNat_eq
      simp only [BitVec.toNat_sub, BitVec.toNat_ofNat]
      omega
  rcases checksum_loop_spec pack_name hoffset hfile hinside _ start _ rfl hstart
    with ⟨herror, hwrong⟩ | ⟨last, s, hok, hrun, hend⟩
  · rw [herror, if_neg hwrong]
    rfl
  · rcases hrun.old with hside | hside
    · have := hside.place
      omega
    have hlength := length_updated hheader object_count
    have hnew : blk_SHA1_Final s.new_sha1_ctx = fips_180.sha1 (updated file object_count) := by
      have hctx := hrun.new
      rw [hend, List.take_of_length_le (by omega)] at hctx
      exact blk_SHA1_Final_spec hctx (by omega)
    have hold : blk_SHA1_Final s.old_sha1_ctx =
        fips_180.sha1 (file.drop partial_pack_offset) := by
      have hctx := hside.ctx
      rw [hend, List.take_of_length_le (by rw [List.length_drop])] at hctx
      refine blk_SHA1_Final_spec hctx ?_
      rw [List.length_drop]
      omega
    have happend : (write_or_die last (fips_180.sha1 (updated file object_count))).bytes =
        updated file object_count ++ fips_180.sha1 (updated file object_count) := by
      unfold write_or_die
      simp only
      rw [hrun.bytes, hend, List.take_of_length_le (by omega),
        List.drop_eq_nil_of_le (by omega), List.append_nil]
    rw [hok, if_pos hside.right]
    simp only [Except.map, hnew, hold, happend, Option.map_some]

/-- The thirteenth byte is the first one after the header. -/
theorem a_checksum_of_thirteen_bytes :
    fixup_pack_header_footer ⟨List.replicate 20 7, 5, fun i => some (i % 3)⟩ "p" 1
        (some (Vector.replicate 20 0)) (BitVec.ofNat 64 13)
        ⟨0, Vector.replicate 5 0, Vector.replicate 64 0⟩
        ⟨0, Vector.replicate 5 0, Vector.replicate 64 0⟩ =
      if fips_180.sha1 ((List.replicate 20 7).take 13) = (Vector.replicate 20 0).toList then
        .ok
          { bytes := updated (List.replicate 20 7) 1 ++
              fips_180.sha1 (updated (List.replicate 20 7) 1)
            new_pack_sha1 := fips_180.sha1 (updated (List.replicate 20 7) 1)
            partial_pack_sha1 := some (fips_180.sha1 ((List.replicate 20 7).drop 13)) }
      else .error (unexpected "p") :=
  fixup_partial_checksum (List.replicate 20 7) 5 (fun i => i % 3) "p" 1 (Vector.replicate 20 0) 13
    _ _ (by decide) (by decide) (by decide)

end git.pack_write
