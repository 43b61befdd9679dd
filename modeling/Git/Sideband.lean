-- The bands of `sideband.c`: data and messages in one stream of packets, the messages with a
-- prefix before each line and, behind it, a suffix that clears the rest of the screen's line.
import Git.PktLine
import Git.Lib.Digits
import Git.Lib.Turns

namespace git.sideband

open git.pkt_line (packet_read_line packet_read_line_lt hex_length)
open git.convert (LF CR)
open overwrite (read_at write_at)

abbrev SPACE : UInt8 := 32

/-- `remote:` -/
def PREFIX : Bytes := [114, 101, 109, 111, 116, 101, 58]

def ANSI_SUFFIX : Bytes := [27, 91, 75]
def DUMB_SUFFIX : Bytes := List.replicate 8 SPACE

def FIX_SIZE : Nat := 10
def LARGE_PACKET_MAX : Nat := 65520
def SIDEBAND_PROTOCOL_ERROR : Int := -2
def SIDEBAND_REMOTE_ERROR : Int := -1

abbrev pf : Nat := 7

/-! ## The sender -/

/-- The data is sent in packets; `none` if that takes more turns. A band below 0 is left out. -/
def send_sideband (band : Int) (packet_max : Nat) : Nat → Bytes → Option Bytes
  | 0, _ => none
  | turns + 1, p =>
    if p = [] then some []
    else
      -- the size goes into an unsigned int
      let n := p.length % 2 ^ 32
      let n := if packet_max - 5 < n then packet_max - 5 else n
      let hdr :=
        if 0 ≤ band then hex_length (n + 5) ++ [UInt8.ofNat band.toNat] else hex_length (n + 4)
      (send_sideband band packet_max turns (p.drop n)).map (hdr ++ p.take n ++ ·)

/-! ## The receiver -/

/-- What is kept from one packet to the next: the buffer, whether the last text did not end its
line, and what went to the standard error. -/
structure terminal where
  buf : Bytes
  skip_pf : Bool
  err : Bytes

def is_break (c : UInt8) : Bool := c = LF || c = CR

/-- Look for a line break from `brk` on: the length up to it, 0 where there is none. -/
def find_break (b : Bytes) (len brk : Nat) : Option Nat :=
  if len ≤ brk then some 0
  else
    match b[brk]? with
    | none => none
    | some c => if is_break c then some (brk + 1) else find_break b len (brk + 1)
  termination_by len - brk

/-- `%.*s` of what lies in the buffer. -/
def printed (text : Bytes) : Bytes := text.takeWhile (· ≠ 0)

/-- Print the text up to its line break, with the suffix before the break. What the suffix
covers is put back behind it. -/
def put_suffix (suffix buf : Bytes) (b brk : Nat) : Option (Bytes × Bytes) := do
  let sf := suffix.length
  let save ← read_at buf (b + brk) sf
  let last ← read_at buf (b + brk - 1) 1
  let buf ← write_at buf (b + brk + sf - 1) last
  let buf ← write_at buf (b + brk - 1) suffix
  let text ← read_at buf b (brk + sf)
  let buf ← write_at buf (b + brk) save
  return (printed text, buf)

/-- The `memmove` to the place behind the prefix. -/
def move_rest (buf : Bytes) (place len : Nat) : Option Bytes :=
  (read_at buf place len).bind (write_at buf (pf + 1))

/-- One turn of the loop over the lines of a packet; with the length that is left of it. -/
def line_turn (suffix : Bytes) (s : terminal) (len : Nat) : Option (terminal × Nat) :=
  let b := if s.skip_pf then pf + 1 else 0
  let start := if s.skip_pf then 0 else pf + 1
  let len := len + start
  (find_break (s.buf.drop b) len start).bind fun brk =>
    if (if s.skip_pf then 0 else pf + 1 + 1) < brk then
      (put_suffix suffix s.buf b brk).bind fun (text, buf) =>
        (move_rest buf (b + brk) (len - brk)).map fun buf =>
          (⟨buf, false, s.err ++ text⟩, len - brk)
    else
      let l := if brk ≠ 0 then brk else len
      (read_at s.buf b l).bind fun text =>
        (move_rest s.buf (b + brk) (len - l)).map fun buf =>
          (⟨buf, brk = 0, s.err ++ printed text⟩, len - l)

theorem find_break_bounds {b : Bytes} {len brk r : Nat} (h : find_break b len brk = some r) :
    r = 0 ∨ brk < r ∧ r ≤ len := by
  induction brk using find_break.induct b len with
  | case1 brk hle =>
    rw [find_break, if_pos hle] at h
    exact Or.inl (Option.some.inj h).symm
  | case2 brk hle hread =>
    rw [find_break, if_neg hle, hread] at h
    cases h
  | case3 brk hle c hread hc =>
    rw [find_break, if_neg hle, hread] at h
    simp only [hc, if_true] at h
    obtain rfl := Option.some.inj h
    omega
  | case4 brk hle c hread hc ih =>
    rw [find_break, if_neg hle, hread] at h
    simp only [hc, if_false, Bool.false_eq_true] at h
    have := ih h
    omega

theorem line_turn_left {suffix : Bytes} {s t : terminal} {len left : Nat}
    (h : line_turn suffix s len = some (t, left)) : left = 0 ∨ left < len := by
  unfold line_turn at h
  obtain ⟨brk, hbrk, h⟩ := Option.bind_eq_some_iff.mp h
  have hbounds := find_break_bounds hbrk
  generalize (if s.skip_pf = true then 0 else pf + 1) = start at h hbounds
  generalize (if s.skip_pf = true then 0 else pf + 1 + 1) = least at h
  generalize (if s.skip_pf = true then pf + 1 else 0) = b at h
  split at h
  · obtain ⟨⟨text, buf⟩, -, h⟩ := Option.bind_eq_some_iff.mp h
    obtain ⟨buf, -, h⟩ := Option.map_eq_some_iff.mp h
    cases h
    omega
  · obtain ⟨text, -, h⟩ := Option.bind_eq_some_iff.mp h
    obtain ⟨buf, -, h⟩ := Option.map_eq_some_iff.mp h
    cases h
    split
    · omega
    · omega

/-- The loop over the lines of a packet, of which `len` bytes are left. -/
def lines_loop (suffix : Bytes) (s : terminal) (len : Nat) : Option terminal :=
  match _h : line_turn suffix s len with
  | none => none
  | some (t, left) => if _hleft : left = 0 then some t else lines_loop suffix t left
  termination_by len
  decreasing_by exact (line_turn_left _h).resolve_left _hleft

/-- What `recv_sideband` returns and has written, and what it leaves of the stream. -/
structure received where
  ret : Int
  out : Bytes
  err : Bytes
  rest : Bytes
  deriving DecidableEq

/-- The loop over the packets. `none`: it dies, or a byte outside the buffer is touched. -/
def recv_loop (me suffix : Bytes) (in_stream : Bytes) (s : terminal) (out : Bytes) :
    Option received :=
  match _h : packet_read_line in_stream s.buf pf LARGE_PACKET_MAX with
  | none => none
  | some (len, buf, rest) =>
    if len = 0 then some ⟨0, out, s.err, rest⟩
    else
      -- a length is not negative, so there is a band
      match read_at buf pf 1 with
      | some [band] =>
        let len := len - 1
        if band = 3 then do
          let buf ← write_at buf pf [SPACE]
          let buf ← write_at buf (pf + 1 + len) [0]
          return ⟨SIDEBAND_REMOTE_ERROR, out, s.err ++ printed buf ++ [LF], rest⟩
        else if band = 2 then
          match (write_at buf pf [SPACE]).bind fun buf =>
              lines_loop suffix { s with buf } len with
          | none => none
          | some t => recv_loop me suffix rest t out
        else if band = 1 then
          match read_at buf (pf + 1) len with
          | none => none
          | some data => recv_loop me suffix rest { s with buf } (out ++ data)
        else
          -- `: protocol error: bad band #`
          some ⟨SIDEBAND_PROTOCOL_ERROR, out, s.err ++ me ++
            [58, 32, 112, 114, 111, 116, 111, 99, 111, 108, 32, 101, 114, 114, 111, 114, 58, 32,
              98, 97, 100, 32, 98, 97, 110, 100, 32, 35] ++
            digit_text.write 10 band.toNat ++ [LF], rest⟩
      | _ => none
  termination_by in_stream.length
  decreasing_by
    · exact packet_read_line_lt _h
    · exact packet_read_line_lt _h

/-- The suffix for a terminal; `dumb` is one of those without an escape sequence. -/
def suffix_for (term : Option Bytes) : Bytes :=
  if term.any (· ≠ [100, 117, 109, 98]) then ANSI_SUFFIX else DUMB_SUFFIX

/-- `term` is the variable TERM; `buf` is what lies in the buffer behind the prefix. -/
def recv_sideband (me : Bytes) (term : Option Bytes) (buf in_stream : Bytes) : Option received :=
  recv_loop me (suffix_for term) in_stream ⟨PREFIX ++ buf, false, []⟩ []

end git.sideband
