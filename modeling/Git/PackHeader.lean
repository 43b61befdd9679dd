-- The header of an entry of a pack: `encode_in_pack_object_header` of
-- `pack-write.c` and the distance that `write_object` puts after it, and the
-- two readers of `sha1_file.c`.
import Git.WriteObject

open git.pack_objects (encode_size_from type_bits)

namespace git.pack_header

/-! ## The writer -/

def OBJ_COMMIT : Int := 1
def OBJ_OFS_DELTA : Int := 6
def OBJ_REF_DELTA : Int := 7

/-- `none`: `die("bad type %d")`. -/
def encode_in_pack_object_header (type : Int) (size : Nat) : Option Bytes :=
  if type < OBJ_COMMIT ∨ OBJ_REF_DELTA < type then none
  else some (encode_size_from (16 * type.toNat ||| (size &&& 15)) (size / 16))

/-! ## The readers -/

/-- The loop of `unpack_object_header_buffer` after the byte `c`: the size and
the bytes used, both 0 for a bad header. `none`: past the end of the buffer. -/
def unpack_size_from (len : Nat) (c : UInt8) (size shift used : Nat) : Bytes → Option (Nat × Nat)
  | [] =>
    if c &&& 0x80 = 0 then some (size, used)
    else if len ≤ used ∨ 64 ≤ shift then some (0, 0)
    else none
  | c' :: buf =>
    if c &&& 0x80 = 0 then some (size, used)
    else if len ≤ used ∨ 64 ≤ shift then some (0, 0)
    else
      unpack_size_from len c' ((size + (c' &&& 0x7f).toNat * 2 ^ shift % 2 ^ 64) % 2 ^ 64)
        (shift + 7) (used + 1) buf

structure object_header where
  used : Nat
  type : Nat
  size : Nat
  deriving DecidableEq, Repr

/-- `len` is what may be read of `buf`, as far as the caller knows. -/
def unpack_object_header_buffer (buf : Bytes) (len : Nat) : Option object_header :=
  match buf with
  | [] => none
  | c :: buf =>
    (unpack_size_from len c (c &&& 15).toNat 4 1 buf).map
      fun (size, used) => ⟨used, (c >>> 4 &&& 7).toNat, size⟩

/-- What becomes of a read of the base. -/
inductive base_info (α : Type) where
  | read (result : α)
  /-- `return 0`, with `curpos` as it was -/
  | out_of_bound
  /-- `die("I am totally screwed")` -/
  | totally_screwed
  /-- A byte is read that the window does not have. -/
  | past_the_window
  deriving DecidableEq, Repr

/-- `MSB(x, 7)` -/
def msb_7 (x : BitVec 64) : BitVec 64 := x &&& BitVec.allOnes 64 <<< 57

/-- The loop of `get_delta_base` after the byte `c`: the distance, as an
`off_t`, and the bytes used. -/
def distance_from (c : UInt8) (base_offset : BitVec 64) (used : Nat) :
    Bytes → base_info (BitVec 64 × Nat)
  | [] =>
    if c &&& 128 = 0 then .read (base_offset, used)
    else if base_offset + 1 = 0 ∨ msb_7 (base_offset + 1) ≠ 0 then .out_of_bound
    else .past_the_window
  | c' :: buf =>
    if c &&& 128 = 0 then .read (base_offset, used)
    else if base_offset + 1 = 0 ∨ msb_7 (base_offset + 1) ≠ 0 then .out_of_bound
    else
      distance_from c' (((base_offset + 1) <<< 7) + BitVec.ofNat 64 (c' &&& 127).toNat)
        (used + 1) buf

/-- The offset of the base and the new `curpos`. `base` is what the window
has from `curpos` on. -/
def get_delta_base (find_pack_entry_one : Bytes → Int) (base : Bytes) (curpos : Int) (type : Int)
    (delta_obj_offset : Int) : base_info (Int × Int) :=
  if type = OBJ_OFS_DELTA then
    match base with
    | [] => .past_the_window
    | c :: buf =>
      match distance_from c (BitVec.ofNat 64 (c &&& 127).toNat) 1 buf with
      | .read (base_offset, used) =>
        let base_offset := delta_obj_offset - base_offset.toInt
        if base_offset ≤ 0 ∨ delta_obj_offset ≤ base_offset then .out_of_bound
        else .read (base_offset, curpos + used)
      | .out_of_bound => .out_of_bound
      | .totally_screwed => .totally_screwed
      | .past_the_window => .past_the_window
  else if type = OBJ_REF_DELTA then
    if base.length < 20 then .past_the_window
    else
      -- The base entry _must_ be in the same pack
      .read (find_pack_entry_one (base.take 20), curpos + 20)
  else .totally_screwed

/-! ## The size -/

theorem low_7 (c : UInt8) : (c &&& 0x7f).toNat = c.toNat % 128 := by
  rw [UInt8.toNat_and]
  exact Nat.and_two_pow_sub_one_eq_mod c.toNat 7

theorem top_bit_clear (c : UInt8) : c &&& 0x80 = 0 ↔ c.toNat < 128 := by
  rw [← top_bit c.toNat c.toNat_lt, ← UInt8.toNat_inj, UInt8.toNat_and]
  rfl

/-- `c | 0x80` for a digit `c` -/
theorem more_byte {c : Nat} (h : c < 128) : (UInt8.ofNat (c ||| 0x80)).toNat = 128 + c := by
  have hlt : c < 2 ^ 7 := h
  have hor := Nat.two_pow_add_eq_or_of_lt hlt 1
  rw [Nat.mul_one] at hor
  rw [Nat.or_comm, ← hor, UInt8.toNat_ofNat']
  omega

/-- The reader, after the first byte that the writer makes of `c` and `size`,
adds up `size`. -/
theorem unpack_encoded (c size acc shift used len : Nat) (hc : c < 128)
    (hfit : acc + size * 2 ^ shift < 2 ^ 64)
    (hlen : used + (encode_size_from c size).length ≤ len + 1) :
    ∃ b tail, encode_size_from c size = b :: tail ∧ b.toNat % 128 = c ∧
      ∀ rest, unpack_size_from len b acc shift used (tail ++ rest) =
        some (acc + size * 2 ^ shift, used + tail.length) := by
  induction size using Nat.strong_induction_on generalizing c acc shift used with
  | _ size ih =>
    rw [encode_size_from] at hlen ⊢
    by_cases h0 : size = 0
    · subst h0
      rw [if_pos rfl]
      have hb : (UInt8.ofNat c).toNat = c := by
        rw [UInt8.toNat_ofNat']
        omega
      refine ⟨UInt8.ofNat c, [], rfl, by omega, fun rest => ?_⟩
      have hclear : UInt8.ofNat c &&& 0x80 = 0 := (top_bit_clear _).mpr (by omega)
      cases rest with
      | nil => simp [unpack_size_from, hclear]
      | cons d rest => simp [unpack_size_from, hclear]
    · rw [if_neg h0] at hlen ⊢
      have hlow : size &&& 0x7f = size % 128 := Nat.and_two_pow_sub_one_eq_mod size 7
      rw [hlow] at hlen ⊢
      rw [List.length_cons] at hlen
      have hpow : 0 < 2 ^ shift := Nat.two_pow_pos shift
      have hshift : shift < 64 := by
        by_contra hge
        have h1 : 2 ^ 64 ≤ 2 ^ shift := Nat.pow_le_pow_right (by omega) (by omega)
        have h2 : 1 * 2 ^ shift ≤ size * 2 ^ shift := Nat.mul_le_mul_right _ (by omega)
        omega
      -- The next seven bits, and what is left above them.
      have hsplit : size * 2 ^ shift =
          size % 128 * 2 ^ shift + size / 128 * 2 ^ (shift + 7) := by
        conv_lhs => rw [← Nat.mod_add_div size 128]
        rw [Nat.pow_add]
        ring
      have hacc : (acc + size % 128 * 2 ^ shift % 2 ^ 64) % 2 ^ 64 =
          acc + size % 128 * 2 ^ shift := by
        rw [Nat.mod_eq_of_lt (a := size % 128 * 2 ^ shift) (by omega)]
        exact Nat.mod_eq_of_lt (by omega)
      obtain ⟨b, tail, henc, hb, hread⟩ := ih (size / 128) (by omega) (size % 128)
        (acc + size % 128 * 2 ^ shift) (shift + 7) (used + 1) (Nat.mod_lt _ (by omega))
        (by omega) (by omega)
      refine ⟨UInt8.ofNat (c ||| 0x80), b :: tail, ?_, ?_, fun rest => ?_⟩
      · rw [henc]
      · rw [more_byte hc]
        omega
      · have hset : ¬UInt8.ofNat (c ||| 0x80) &&& 0x80 = 0 := by
          rw [top_bit_clear, more_byte hc]
          omega
        have hgo : ¬(len ≤ used ∨ 64 ≤ shift) := by
          rw [henc, List.length_cons] at hlen
          omega
        rw [List.cons_append, unpack_size_from, if_neg hset, if_neg hgo, low_7, hb, hacc, hread]
        rw [hsplit, List.length_cons]
        congr 2 <;> omega

theorem encode_size_from_length (k c size : Nat) (h : size < 2 ^ (7 * k)) :
    (encode_size_from c size).length ≤ k + 1 := by
  induction k generalizing c size with
  | zero =>
    have : size = 0 := by omega
    rw [encode_size_from, if_pos this]
    exact Nat.le_refl _
  | succ k ih =>
    rw [encode_size_from]
    split
    · simp
    · have hpow : 2 ^ (7 * (k + 1)) = 2 ^ (7 * k) * 128 := by
        rw [Nat.mul_succ, Nat.pow_add]
      have := ih (size &&& 0x7f) (size / 128) (Nat.div_lt_of_lt_mul (by omega))
      rw [List.length_cons]
      omega

/-- A header is read back, whatever follows it. -/
theorem unpack_encode_header {type : Int} {size : Nat} (hsize : size < 2 ^ 64) {hdr : Bytes}
    (h : encode_in_pack_object_header type size = some hdr) {len : Nat}
    (hlen : hdr.length ≤ len) (rest : Bytes) :
    unpack_object_header_buffer (hdr ++ rest) len = some ⟨hdr.length, type.toNat, size⟩ := by
  unfold encode_in_pack_object_header OBJ_COMMIT OBJ_REF_DELTA at h
  split_ifs at h with htype
  obtain rfl := Option.some.inj h
  have hlow : size &&& 15 = size % 16 := Nat.and_two_pow_sub_one_eq_mod size 4
  have hmod : size % 16 < 2 ^ 4 := Nat.mod_lt _ (by omega)
  have hor : 16 * type.toNat ||| (size &&& 15) = 16 * type.toNat + size % 16 := by
    rw [hlow, ← Nat.two_pow_add_eq_or_of_lt hmod]
  rw [hor] at hlen ⊢
  obtain ⟨b, tail, henc, hb, hread⟩ := unpack_encoded (16 * type.toNat + size % 16) (size / 16)
    (size % 16) 4 1 len (by omega) (by omega) (by omega)
  have hsize15 : (b &&& 15).toNat = size % 16 := by
    rw [UInt8.toNat_and]
    have : b.toNat &&& 15 = b.toNat % 16 := Nat.and_two_pow_sub_one_eq_mod b.toNat 4
    exact this.trans (by omega)
  have htype7 : (b >>> 4 &&& 7).toNat = type.toNat := by
    rw [UInt8.toNat_and, UInt8.toNat_shiftRight]
    have : b.toNat >>> 4 &&& 7 = b.toNat / 16 % 8 := by
      rw [Nat.shiftRight_eq_div_pow]
      exact Nat.and_two_pow_sub_one_eq_mod _ 3
    exact this.trans (by omega)
  rw [henc, List.cons_append]
  unfold unpack_object_header_buffer
  simp only [hsize15, htype7, hread, Option.map_some, List.length_cons]
  congr 2 <;> omega

/-! ## The distance -/

theorem msb_7_of_lt {x : BitVec 64} (h : x.toNat < 2 ^ 57) : msb_7 x = 0 := by
  unfold msb_7
  ext i hi
  simp only [BitVec.getElem_and, BitVec.getElem_shiftLeft]
  by_cases h57 : i < 57
  · simp [h57]
  · have hx : x.getLsbD i = false :=
      Nat.testBit_lt_two_pow (h.trans_le (Nat.pow_le_pow_right (by omega) (by omega)))
    rw [← BitVec.getLsbD_eq_getElem hi, hx]
    simp

/-- The bytes that the writer puts before the last digit `c` of `value` lead
the reader to `c`, with `value` read. -/
theorem distance_encoded (value : Nat) (c : UInt8) (buf : Bytes) (hlt : value < 2 ^ 63)
    (hc : c.toNat % 128 = value % 128) :
    ∃ b tail, encode_varint_from value (c :: buf) = b :: tail ∧
      distance_from b (BitVec.ofNat 64 (b &&& 127).toNat) 1 tail =
        distance_from c (BitVec.ofNat 64 value) (1 + tail.length - buf.length) buf := by
  induction value using Nat.strong_induction_on generalizing c buf with
  | _ value ih =>
    rw [encode_varint_from]
    by_cases h0 : value / 128 = 0
    · rw [if_pos h0]
      have hval : (c &&& 127).toNat = value := by
        rw [low_7]
        omega
      refine ⟨c, buf, rfl, ?_⟩
      rw [hval, Nat.add_sub_cancel]
    · rw [if_neg h0]
      have hbyte := continued_byte (value / 128 - 1)
      generalize UInt8.ofNat (128 ||| ((value / 128 - 1) &&& 127)) = c' at hbyte ⊢
      obtain ⟨b, tail, henc, hread⟩ := ih (value / 128 - 1) (by omega) c' (c :: buf) (by omega)
        (by omega)
      refine ⟨b, tail, henc, ?_⟩
      have hset : ¬c' &&& 128 = 0 := by
        rw [top_bit_clear]
        omega
      have hnext : BitVec.ofNat 64 (value / 128 - 1) + 1 = BitVec.ofNat 64 (value / 128) := by
        apply BitVec.eq_of_toNat_eq
        have hone : (1 : BitVec 64).toNat = 1 := rfl
        rw [BitVec.toNat_add, hone]
        simp only [BitVec.toNat_ofNat]
        omega
      have hfits : ¬(BitVec.ofNat 64 (value / 128) = 0 ∨
          msb_7 (BitVec.ofNat 64 (value / 128)) ≠ 0) := by
        rw [msb_7_of_lt (by rw [BitVec.toNat_ofNat]; omega)]
        rintro (hz | hz)
        · have := congrArg BitVec.toNat hz
          rw [BitVec.toNat_ofNat] at this
          simp only [BitVec.ofNat_eq_ofNat, BitVec.toNat_ofNat] at this
          omega
        · exact hz rfl
      have hdigit : BitVec.ofNat 64 (value / 128) <<< 7 + BitVec.ofNat 64 (c &&& 127).toNat =
          BitVec.ofNat 64 value := by
        apply BitVec.eq_of_toNat_eq
        rw [BitVec.toNat_add, BitVec.toNat_shiftLeft, Nat.shiftLeft_eq, low_7]
        simp only [BitVec.toNat_ofNat]
        omega
      rw [hread, distance_from, if_neg hset, hnext, if_neg hfits, hdigit, List.length_cons]
      have hlen := le_length_encode_varint_from (value / 128 - 1) (c' :: c :: buf)
      rw [henc] at hlen
      simp only [List.length_cons] at hlen
      congr 1
      omega

theorem ofNat_toInt {v : Nat} (h : v < 2 ^ 63) : (BitVec.ofNat 64 v).toInt = v := by
  rw [BitVec.toInt_eq_toNat_of_lt]
  · rw [BitVec.toNat_ofNat, Nat.mod_eq_of_lt (by omega)]
  · rw [BitVec.toNat_ofNat]
    omega

/-- A distance is read back, whatever follows it. -/
theorem get_delta_base_encoded (find_pack_entry_one : Bytes → Int) {offset base_offset : Int}
    (hbase : 0 < base_offset) (hlt : base_offset < offset) (hoff : offset < 2 ^ 63)
    (rest : Bytes) (curpos : Int) :
    get_delta_base find_pack_entry_one (encode_varint (offset - base_offset).toNat ++ rest) curpos
        OBJ_OFS_DELTA offset =
      .read (base_offset, curpos + (encode_varint (offset - base_offset).toNat).length) := by
  obtain ⟨value, hvalue⟩ : ∃ v : Nat, offset - base_offset = v :=
    ⟨(offset - base_offset).toNat, by omega⟩
  rw [hvalue, Int.toNat_natCast]
  have hlast := last_byte value
  obtain ⟨b, tail, henc, hread⟩ := distance_encoded value (UInt8.ofNat (value &&& 127)) rest
    (by omega) (by omega)
  have happ : encode_varint value ++ rest =
      encode_varint_from value (UInt8.ofNat (value &&& 127) :: rest) := by
    rw [encode_varint, encode_varint_from_append, List.singleton_append]
  have hlen : (encode_varint value).length + rest.length = 1 + tail.length := by
    rw [← List.length_append, happ, henc, List.length_cons, Nat.add_comm]
  have hused : 1 + tail.length - rest.length = (encode_varint value).length := by omega
  have hclear : UInt8.ofNat (value &&& 127) &&& 128 = 0 := (top_bit_clear _).mpr (by omega)
  have hdone : distance_from (UInt8.ofNat (value &&& 127)) (BitVec.ofNat 64 value)
      (encode_varint value).length rest =
        .read (BitVec.ofNat 64 value, (encode_varint value).length) := by
    cases rest with
    | nil => rw [distance_from, if_pos hclear]
    | cons d rest => rw [distance_from, if_pos hclear]
  unfold get_delta_base
  rw [if_pos rfl, happ, henc]
  simp only [hread, hused, hdone, ofNat_toInt (show value < 2 ^ 63 by omega)]
  have hin : ¬(offset - (value : Int) ≤ 0 ∨ offset ≤ offset - (value : Int)) := by omega
  rw [if_neg hin]
  congr 2
  omega

/-! ## The round trip -/

/-- The header of an entry and the distance to its base are read back from
the bytes written for them, and no byte more is used. -/
theorem pack_header_reads_back (type : Int) (size : Nat) (hsize : size < 2 ^ 64) (hdr : Bytes)
    (henc : encode_in_pack_object_header type size = some hdr) (offset base_offset : Int)
    (hbase : 0 < base_offset) (hlt : base_offset < offset) (hoff : offset < 2 ^ 63)
    (rest : Bytes) (len : Nat) (hlen : hdr.length ≤ len) (curpos : Int)
    (find_pack_entry_one : Bytes → Int) :
    let dheader := encode_varint (offset - base_offset).toNat
    (∃ h, unpack_object_header_buffer (hdr ++ dheader ++ rest) len = some h ∧
      h.type = type ∧ h.size = size ∧ h.used = hdr.length ∧
      get_delta_base find_pack_entry_one ((hdr ++ dheader ++ rest).drop h.used)
          (curpos + h.used) OBJ_OFS_DELTA offset =
        .read (base_offset, curpos + hdr.length + dheader.length)) ∧
    hdr.length ≤ 10 ∧ dheader.length ≤ 10 := by
  intro dheader
  have hdlen : dheader.length ≤ 9 :=
    length_encode_varint_from 8 (offset - base_offset).toNat _ (by omega)
  have hhdr := unpack_encode_header hsize henc hlen (dheader ++ rest)
  have hrange : 1 ≤ type ∧ hdr.length ≤ 10 := by
    unfold encode_in_pack_object_header OBJ_COMMIT OBJ_REF_DELTA at henc
    split_ifs at henc with htype
    obtain rfl := Option.some.inj henc
    exact ⟨by omega, encode_size_from_length 9 _ _ (by omega)⟩
  refine ⟨⟨_, by rw [List.append_assoc]; exact hhdr, ?_, rfl, rfl, ?_⟩, hrange.2, by omega⟩
  · exact Int.toNat_of_nonneg (by omega)
  · rw [List.append_assoc, List.drop_left]
    exact get_delta_base_encoded find_pack_entry_one hbase hlt hoff rest _

/-- A delta of 300 bytes at offset 1000, against the object at offset 12. -/
theorem pack_header_reads_back_delta :
    let dheader := encode_varint 988
    (∃ h, unpack_object_header_buffer ([0xec, 0x12] ++ dheader ++ [0x78]) 20 = some h ∧
      h.type = OBJ_OFS_DELTA ∧ h.size = 300 ∧ h.used = 2 ∧
      get_delta_base (fun _ => 0) (([0xec, 0x12] ++ dheader ++ [0x78]).drop h.used)
          (1000 + h.used) OBJ_OFS_DELTA 1000 = .read (12, 1000 + 2 + dheader.length)) ∧
    2 ≤ 10 ∧ dheader.length ≤ 10 :=
  pack_header_reads_back OBJ_OFS_DELTA 300 (by decide) [0xec, 0x12] (by decide +kernel) 1000 12
    (by decide) (by decide) (by decide) [0x78] 20 (by decide) 1000 (fun _ => 0)

end git.pack_header
