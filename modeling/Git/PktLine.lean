-- The packets of `pkt-line.c`: each line behind its length, which is four hex digits and counts
-- these digits too.
import Git.Sha1Hex
import Git.Lib.Overwrite

namespace git.pkt_line

open git.hex (hexval)
open git.convert (hexdigit)
open overwrite (write_at write_at_append)

/-- What the four digits say; `none` for -1. -/
def packet_length (linelen : Bytes) : Option Nat :=
  (linelen.take 4).foldlM (fun len c => (hexval c).map (16 * len + ·)) 0

/-! ## A packet out of a buffer -/

/-- The buffer from `src_buf` on; `src_len` is the length of what is left, a `size_t`. -/
structure source where
  src_buf : Nat
  src : Bytes
  src_len_lt : src.length < 2 ^ 64

def source.skip (s : source) (n : Nat) : source where
  src_buf := s.src_buf + n
  src := s.src.drop n
  src_len_lt := by
    rw [List.length_drop]
    exact lt_of_le_of_lt (Nat.sub_le _ _) s.src_len_lt

/-- `none`: it dies for want of memory, or reads what is not there. -/
def strbuf_add (out data : Bytes) (len : UInt64) : Option Bytes :=
  if len.toNat ≤ data.length then some (out ++ data.take len.toNat) else none

def packet_get_line (out : Bytes) (s : source) : Option (Int × Bytes × source) :=
  if s.src.length < 4 then some (-1, out, s)
  else
    match packet_length s.src with
    | none => some (-1, out, s)
    | some len =>
      if len = 0 then some (0, out, s.skip 4)
      else if s.src.length < len then some (-2, out, s)
      else
        let s := s.skip 4
        let len : Int := len - 4
        -- the length becomes a `size_t`
        (strbuf_add out s.src (.ofInt len)).map fun out => (len, out, s.skip len.toNat)

/-! ## Packets of a stream -/

/-- `%04x`, of what has four digits. -/
def hex_length (n : Nat) : Bytes :=
  [hexdigit (n / 4096 % 16), hexdigit (n / 256 % 16), hexdigit (n / 16 % 16), hexdigit (n % 16)]

def packet_flush : Bytes := hex_length 0

/-- `none`: the other end hung up. -/
def safe_read (fd : Bytes) (size : Nat) : Option (Bytes × Bytes) :=
  if size ≤ fd.length then some (fd.take size, fd.drop size) else none

/-- The length of the line, which is put at `place` of the buffer, the buffer, and what is left
of the stream. `none`: it dies. -/
def packet_read_line (fd buf : Bytes) (place size : Nat) : Option (Nat × Bytes × Bytes) := do
  let (linelen, fd) ← safe_read fd 4
  let len ← packet_length linelen
  if len = 0 then return (0, buf, fd)
  -- as an unsigned number, the length less 4 is too large below 4
  if len < 4 ∨ size ≤ len - 4 then none
  else
    let (line, fd) ← safe_read fd (len - 4)
    let buf ← write_at buf place line
    let buf ← write_at buf (place + (len - 4)) [0]
    return (len - 4, buf, fd)

theorem safe_read_length {fd line rest : Bytes} {size : Nat}
    (h : safe_read fd size = some (line, rest)) : rest.length + size = fd.length := by
  unfold safe_read at h
  split at h
  · cases h
    rw [List.length_drop]
    omega
  · cases h

/-- Each line takes its length from the stream. -/
theorem packet_read_line_lt {fd buf buf' rest : Bytes} {place size len : Nat}
    (h : packet_read_line fd buf place size = some (len, buf', rest)) :
    rest.length < fd.length := by
  unfold packet_read_line at h
  obtain ⟨⟨linelen, fd₁⟩, hread, h⟩ := Option.bind_eq_some_iff.mp h
  obtain ⟨n, -, h⟩ := Option.bind_eq_some_iff.mp h
  have hfour := safe_read_length hread
  dsimp only at h
  split_ifs at h with hzero hbad
  · cases h
    omega
  · obtain ⟨⟨line, fd₂⟩, hline, h⟩ := Option.bind_eq_some_iff.mp h
    obtain ⟨buf₁, -, h⟩ := Option.bind_eq_some_iff.mp h
    obtain ⟨buf₂, -, h⟩ := Option.bind_eq_some_iff.mp h
    cases h
    have := safe_read_length hline
    dsimp only
    omega

theorem packet_length_hex {n : Nat} (h : n < 65536) : packet_length (hex_length n) = some n := by
  unfold packet_length hex_length
  rw [List.take_of_length_le (by rfl)]
  simp only [List.foldlM_cons, List.foldlM_nil, git.hex.hexval_hexdigit (Nat.mod_lt _ (by decide)),
    Option.map_some, Option.bind_eq_bind, Option.bind_some]
  show some _ = some _
  congr 1
  omega

theorem safe_read_append {line : Bytes} (rest : Bytes) {size : Nat} (h : line.length = size) :
    safe_read (line ++ rest) size = some (line, rest) := by
  rw [safe_read, if_pos (by rw [List.length_append]; omega), ← h, List.take_left, List.drop_left]

/-- A line that fits is read back out of its packet. -/
theorem packet_read_line_packet {line front old back : Bytes} (rest : Bytes) {place size : Nat}
    (hsize : line.length < size) (hlen : line.length + 4 < 65536) (hplace : front.length = place)
    (hold : old.length = line.length + 1) :
    packet_read_line (hex_length (line.length + 4) ++ line ++ rest) (front ++ old ++ back) place
        size =
      some (line.length, front ++ (line ++ [0]) ++ back, rest) := by
  have hdigits : safe_read (hex_length (line.length + 4) ++ line ++ rest) 4 =
      some (hex_length (line.length + 4), line ++ rest) := by
    rw [List.append_assoc]
    exact safe_read_append _ rfl
  have hline : safe_read (line ++ rest) (line.length + 4 - 4) = some (line, rest) :=
    safe_read_append rest rfl
  have hsplit : front ++ old ++ back =
      front ++ old.take line.length ++ (old.drop line.length ++ back) := by
    rw [List.append_assoc, List.append_assoc, ← List.append_assoc (old.take _),
      List.take_append_drop]
  have hwrite : write_at (front ++ old ++ back) place line =
      some (front ++ line ++ (old.drop line.length ++ back)) := by
    rw [hsplit]
    exact write_at_append hplace (by rw [List.length_take]; omega)
  have hend : write_at (front ++ line ++ (old.drop line.length ++ back))
      (place + (line.length + 4 - 4)) [0] = some (front ++ line ++ [0] ++ back) := by
    rw [← List.append_assoc (front ++ line)]
    refine write_at_append ?_ ?_
    · rw [List.length_append]
      omega
    · rw [List.length_drop, List.length_singleton]
      omega
  unfold packet_read_line
  rw [hdigits]
  simp only [Option.bind_eq_bind, Option.bind_some, packet_length_hex hlen]
  rw [if_neg (by omega), if_neg (by omega), hline, Option.bind_some, hwrite, Option.bind_some,
    hend, Option.bind_some, ← List.append_assoc front]
  rfl

theorem packet_read_line_flush (buf rest : Bytes) (place size : Nat) :
    packet_read_line (packet_flush ++ rest) buf place size = some (0, buf, rest) := by
  have hread : safe_read (hex_length 0 ++ rest) 4 = some (hex_length 0, rest) :=
    safe_read_append rest rfl
  unfold packet_read_line packet_flush
  rw [hread]
  simp only [Option.bind_eq_bind, Option.bind_some, packet_length_hex (by decide : 0 < 65536)]
  rfl

/-! ## Lines from one end to the other -/

/-- `format_packet`, for a line of the format. `none`: it dies. -/
def format_packet (line : Bytes) : Option Bytes :=
  if 1000 - 4 ≤ line.length then none else some (hex_length (line.length + 4) ++ line)

/-- A `packet_write` for each line, and a `packet_flush`. -/
def write_lines : List Bytes → Option Bytes
  | [] => some packet_flush
  | line :: lines => do
    let packet ← format_packet line
    let packets ← write_lines lines
    return packet ++ packets

/-- The loop of `get_remote_heads`: the lines up to one of no length, and what is left of the
stream. -/
def read_lines : Nat → Bytes → Bytes → Option (List Bytes × Bytes)
  | 0, _, _ => none
  | turns + 1, fd, buf => do
    let (len, buf, fd) ← packet_read_line fd buf 0 1000
    if len = 0 then return ([], fd)
    let (lines, fd) ← read_lines turns fd buf
    return (buf.take len :: lines, fd)

/-- **The lines that are written reach the other end**, where none of them is empty, and what
comes behind the flush is still there. -/
theorem lines_reach_the_other_end {lines : List Bytes} (hne : ∀ line ∈ lines, line ≠ []) :
    ∀ {out : Bytes}, write_lines lines = some out → ∀ {buf : Bytes}, buf.length = 1000 →
      ∀ {turns : Nat}, lines.length < turns → ∀ rest,
        read_lines turns (out ++ rest) buf = some (lines, rest) := by
  induction lines with
  | nil =>
    intro out hout buf _ turns hturns rest
    obtain ⟨turns, rfl⟩ := Nat.exists_eq_add_of_lt hturns
    cases hout
    rw [read_lines, packet_read_line_flush]
    rfl
  | cons line lines ih =>
    intro out hout buf hbuf turns hturns rest
    obtain ⟨packet, hpacket, hout⟩ := Option.bind_eq_some_iff.mp hout
    obtain ⟨packets, hpackets, hout⟩ := Option.bind_eq_some_iff.mp hout
    cases hout
    unfold format_packet at hpacket
    split_ifs at hpacket with hlong
    cases hpacket
    obtain ⟨turns, rfl⟩ : ∃ n, turns = n + 1 := ⟨turns - 1, by omega⟩
    have hread : packet_read_line (hex_length (line.length + 4) ++ line ++ (packets ++ rest))
        ([] ++ buf.take (line.length + 1) ++ buf.drop (line.length + 1)) 0 1000 = _ :=
      packet_read_line_packet (packets ++ rest) (by omega) (by omega) rfl
        (by rw [List.length_take]; omega)
    simp only [List.nil_append, List.take_append_drop, List.append_assoc] at hread
    have hrest : read_lines turns (packets ++ rest)
        (line ++ ([0] ++ buf.drop (line.length + 1))) = some (lines, rest) :=
      ih (fun l hl => hne l (List.mem_cons_of_mem _ hl)) hpackets (by simp; omega)
        (by simpa using hturns) rest
    have hline : line.length ≠ 0 := (List.length_pos_iff.mpr (hne line List.mem_cons_self)).ne'
    rw [read_lines, List.append_assoc, List.append_assoc, hread]
    simp only [Option.bind_eq_bind, Option.bind_some, if_neg hline, hrest, List.take_left]
    rfl

theorem two_lines_reach_the_other_end : ∃ out, write_lines [[104], [105]] = some out ∧
    read_lines 3 (out ++ [7]) (List.replicate 1000 0) = some ([[104], [105]], [7]) :=
  ⟨_, rfl, lines_reach_the_other_end (by decide) rfl (List.length_replicate ..) (by decide) [7]⟩

/-! ## A packet out of a buffer: what the call gives -/

/-- The call comes back, and either changes nothing or takes one packet. -/
def TakesPacket (out : Bytes) (s : source) : Prop :=
  ∃ ret out' s', packet_get_line out s = some (ret, out', s') ∧
    s'.src_buf + s'.src.length = s.src_buf + s.src.length ∧
    ((ret = -1 ∨ ret = -2) ∧ out' = out ∧ s' = s ∨
      ∃ linelen payload, s.src = linelen ++ payload ++ s'.src ∧ linelen.length = 4 ∧
        out' = out ++ payload ∧ ret = payload.length ∧
        (packet_length linelen = some (4 + payload.length) ∨
          packet_length linelen = some 0 ∧ payload = []))

theorem packet_length_take (linelen rest : Bytes) (h : linelen.length = 4) :
    packet_length (linelen ++ rest) = packet_length linelen := by
  unfold packet_length
  rw [← h, List.take_left, List.take_length]

theorem hexval_lt {c : UInt8} {n : Nat} (h : hexval c = some n) : n < 16 := by
  unfold hexval at h
  split_ifs at h with h1 h2 h3
  · obtain rfl := Option.some.inj h
    have := UInt8.le_iff_toNat_le.mp h1.2
    simp at this
    omega
  · obtain rfl := Option.some.inj h
    have := UInt8.le_iff_toNat_le.mp h2.2
    simp at this
    omega
  · obtain rfl := Option.some.inj h
    have := UInt8.le_iff_toNat_le.mp h3.2
    simp at this
    omega

theorem foldlM_digits_lt {digits : Bytes} {a n : Nat}
    (h : digits.foldlM (fun len c => (hexval c).map (16 * len + ·)) a = some n) :
    n < 16 ^ digits.length * (a + 1) := by
  induction digits generalizing a with
  | nil =>
    cases h
    simp
  | cons c digits ih =>
    rw [List.foldlM_cons] at h
    obtain ⟨b, hb, hrest⟩ := Option.bind_eq_some_iff.mp h
    obtain ⟨d, hd, rfl⟩ := Option.map_eq_some_iff.mp hb
    have hlt := hexval_lt hd
    calc n < 16 ^ digits.length * (16 * a + d + 1) := ih hrest
      _ ≤ 16 ^ digits.length * (16 * (a + 1)) := Nat.mul_le_mul_left _ (by omega)
      _ = 16 ^ (c :: digits).length * (a + 1) := by
        rw [List.length_cons, pow_succ, Nat.mul_assoc]

theorem packet_length_lt {linelen : Bytes} {len : Nat} (h : packet_length linelen = some len) :
    len < 65536 := by
  have hlt := foldlM_digits_lt h
  have hlen : (linelen.take 4).length ≤ 4 := by
    rw [List.length_take]
    exact Nat.min_le_left _ _
  calc len < 16 ^ (linelen.take 4).length * (0 + 1) := hlt
    _ ≤ 65536 := by
      rw [Nat.mul_one]
      exact Nat.pow_le_pow_right (by decide) hlen

theorem source.skip_keeps (s : source) {n : Nat} (h : n ≤ s.src.length) :
    (s.skip n).src_buf + (s.skip n).src.length = s.src_buf + s.src.length := by
  unfold source.skip
  dsimp only
  rw [List.length_drop]
  omega

theorem source.skip_skip (s : source) (m n : Nat) : (s.skip m).skip n = s.skip (m + n) := by
  unfold source.skip
  simp only [List.drop_drop, Nat.add_assoc]

theorem toNat_ofInt (x : Int) : ((UInt64.ofInt x).toNat : Int) = x % 2 ^ 64 := by
  unfold UInt64.ofInt
  rw [UInt64.toNat_ofNat']
  have := Int.emod_nonneg x (b := 2 ^ 64) (by decide)
  have := Int.emod_lt_of_pos x (b := 2 ^ 64) (by decide)
  omega

/-- A length of 4 and more that fits is that of a packet. -/
theorem packet_get_line_packet {out : Bytes} {s : source} {len : Nat}
    (hlen : packet_length s.src = some len) (hfour : 4 ≤ len) (hfits : len ≤ s.src.length) :
    packet_get_line out s =
      some ((len : Int) - 4, out ++ (s.src.drop 4).take (len - 4), s.skip len) := by
  have hmore : ¬ s.src.length < 4 := by omega
  have hsize : (UInt64.ofInt ((len : Int) - 4)).toNat = len - 4 := by
    have hlt := packet_length_lt hlen
    have hmod := toNat_ofInt ((len : Int) - 4)
    rw [Int.emod_eq_of_lt (by omega) (by omega)] at hmod
    omega
  have hskip : ((len : Int) - 4).toNat = len - 4 := by omega
  have hadd : 4 + (len - 4) = len := by omega
  have hroom : len - 4 ≤ (s.skip 4).src.length := by
    rw [source.skip, List.length_drop]
    omega
  unfold packet_get_line
  rw [if_neg hmore, hlen]
  dsimp only
  rw [if_neg (by omega), if_neg (by omega), strbuf_add, hsize, if_pos hroom, Option.map_some,
    source.skip_skip, hskip, hadd]
  rfl

/-- A length of 1 to 3 is never the end of it. -/
theorem packet_get_line_short {out : Bytes} {s : source} {len : Nat} (hmore : 4 ≤ s.src.length)
    (hlen : packet_length s.src = some len) (hpos : 0 < len) (hshort : len < 4) :
    packet_get_line out s = none := by
  have hsize : ¬ (UInt64.ofInt ((len : Int) - 4)).toNat ≤ (s.skip 4).src.length := by
    have hlt := s.src_len_lt
    have hmod := toNat_ofInt ((len : Int) - 4)
    rw [← Int.add_emod_right, Int.emod_eq_of_lt (by omega) (by omega)] at hmod
    rw [source.skip, List.length_drop]
    omega
  unfold packet_get_line
  rw [if_neg (by omega), hlen]
  dsimp only
  rw [if_neg (by omega), if_neg (by omega), strbuf_add, if_neg hsize]
  rfl

/-- A call gives up or takes a packet just where no length of 1 to 3 is announced. -/
theorem takes_packet_iff (out : Bytes) (s : source) :
    TakesPacket out s ↔
      ¬ (4 ≤ s.src.length ∧ ∃ len, packet_length s.src = some len ∧ 0 < len ∧ len < 4) := by
  constructor
  · rintro ⟨ret, out', s', hret, -⟩ ⟨hmore, len, hlen, hpos, hshort⟩
    rw [packet_get_line_short hmore hlen hpos hshort] at hret
    cases hret
  · intro hnot
    by_cases hmore : s.src.length < 4
    · refine ⟨-1, out, s, ?_, rfl, Or.inl ⟨Or.inl rfl, rfl, rfl⟩⟩
      rw [packet_get_line, if_pos hmore]
    · have hsplit : s.src = s.src.take 4 ++ s.src.drop 4 := (List.take_append_drop 4 _).symm
      have htake : (s.src.take 4).length = 4 := List.length_take_of_le (Nat.le_of_not_lt hmore)
      cases hlen : packet_length s.src with
      | none =>
        refine ⟨-1, out, s, ?_, rfl, Or.inl ⟨Or.inl rfl, rfl, rfl⟩⟩
        rw [packet_get_line, if_neg hmore, hlen]
      | some len =>
        have hdigits : packet_length (s.src.take 4) = some len := by
          rw [← packet_length_take _ (s.src.drop 4) htake, ← hsplit, hlen]
        rcases Nat.eq_zero_or_pos len with rfl | hpos
        · refine ⟨0, out, s.skip 4, ?_, s.skip_keeps (Nat.le_of_not_lt hmore),
            Or.inr ⟨s.src.take 4, [], ?_, htake, (List.append_nil out).symm, rfl,
              Or.inr ⟨hdigits, rfl⟩⟩⟩
          · rw [packet_get_line, if_neg hmore, hlen]
            rfl
          · rw [List.append_nil]
            exact hsplit
        · have hfour : 4 ≤ len := by
            by_contra hshort
            exact hnot ⟨Nat.le_of_not_lt hmore, len, hlen, hpos, Nat.lt_of_not_le hshort⟩
          by_cases hfits : len ≤ s.src.length
          · have hpayload : ((s.src.drop 4).take (len - 4)).length = len - 4 := by
              rw [List.length_take, List.length_drop]
              omega
            refine ⟨_, _, _, packet_get_line_packet hlen hfour hfits, s.skip_keeps hfits,
              Or.inr ⟨s.src.take 4, (s.src.drop 4).take (len - 4), ?_, htake, rfl, ?_,
                Or.inl ?_⟩⟩
            · have hrest : (s.skip len).src = (s.src.drop 4).drop (len - 4) := by
                rw [source.skip, List.drop_drop, Nat.add_sub_of_le hfour]
              rw [hrest, List.append_assoc, List.take_append_drop, List.take_append_drop]
            · rw [hpayload]
              omega
            · rw [hdigits, hpayload]
              congr 1
              omega
          · refine ⟨-2, out, s, ?_, rfl, Or.inl ⟨Or.inr rfl, rfl, rfl⟩⟩
            rw [packet_get_line, if_neg hmore, hlen]
            dsimp only
            rw [if_neg (by omega), if_pos (Nat.lt_of_not_le hfits)]

/-- A length of 1 is not turned away. -/
theorem a_length_of_one_dies : ¬ ∀ out s, TakesPacket out s := by
  intro h
  obtain ⟨ret, out', s', hret, -⟩ := h [] ⟨0, [48, 48, 48, 49], by decide⟩
  have hnone : (packet_get_line [] ⟨0, [48, 48, 48, 49], by decide⟩).isNone = true := by
    decide +kernel
  rw [hret] at hnone
  cases hnone

end git.pkt_line
