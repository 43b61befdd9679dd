-- The svndiff0 applier of `vcs-svn/svndiff.c`, and the view of the preimage that slides over
-- a file of `vcs-svn/sliding_window.c`.
import Git.Quote

namespace git.svndiff

open git.quote

/-- The errors, after their texts; and what must not happen. -/
inductive error where
  | unexpected_end_of_file
  | unrecognized_file_type
  | unexpected_end_of_instructions
  | unrepresentable_offset
  | unrepresentable_length
  | copies_source_data_outside_view
  | copies_from_the_future
  | copies_unavailable_inline_data
  | unrecognized_instruction
  | does_not_copy_all_inline_data
  | incorrect_postimage_length
  | delta_preimage_ends_early
  | window_slides_left
  /-- An integer of 2^63 or more, where the reader is one that tells. -/
  | too_large
  | assertion
  | out_of_bounds
  deriving DecidableEq

/-- What is left of a file that is read once, and how much of it belongs to the delta. -/
structure line_buffer where
  file : Bytes
  len : Nat

structure sliding_view where
  file : Bytes
  off : Nat
  width : Nat
  /-- -1 means unlimited. -/
  max_off : Int
  buf : Bytes

/-- How an integer is kept when a digit was added to it. -/
abbrev keeping := Nat → Except error Nat

/-- In 64 bits. -/
def uintmax : keeping := fun n => .ok (n % 2 ^ 64)

/-- Without loss, or not at all. -/
def below_off_max : keeping := fun n => if n < 2 ^ 63 then .ok n else .error .too_large

section

variable (keep : keeping)

/-! ## Reading the delta -/

def read_chunk (delta : line_buffer) (len : Nat) : Except error (Bytes × line_buffer) :=
  if delta.len < len ∨ delta.file.length < len then .error .unexpected_end_of_file
  else .ok (delta.file.take len, ⟨delta.file.drop len, delta.len - len⟩)

def read_magic (delta : line_buffer) : Except error line_buffer := do
  let (sb, delta) ← read_chunk delta 4
  if sb = [83, 86, 78, 0] then return delta else .error .unrecognized_file_type

/-- The loop of `read_int`, with the value so far. -/
def read_int (rv : Nat) : Bytes → Nat → Except error (Nat × line_buffer)
  | ch :: file, len + 1 => do
    let rv ← keep (rv * 128 + ch.toNat % 128)
    if 128 ≤ ch.toNat then read_int rv file len else return (rv, ⟨file, len⟩)
  | _, _ => .error .unexpected_end_of_file

def read_offset (delta : line_buffer) : Except error (Nat × line_buffer) := do
  let (val, delta) ← read_int keep 0 delta.file delta.len
  if 2 ^ 63 ≤ val then .error .unrepresentable_offset else return (val, delta)

def read_length (delta : line_buffer) : Except error (Nat × line_buffer) := do
  let (val, delta) ← read_int keep 0 delta.file delta.len
  if 2 ^ 64 ≤ val then .error .unrepresentable_length else return (val, delta)

/-! ## Instructions -/

/-- The loop of `parse_int`: the value, and the instructions from `*buf` on. -/
def parse_int (rv : Nat) : Bytes → Except error (Nat × Bytes)
  | [] => .error .unexpected_end_of_instructions
  | ch :: buf => do
    let rv ← keep (rv * 128 + ch.toNat % 128)
    if 128 ≤ ch.toNat then parse_int rv buf else return (rv, buf)

def copyfrom_source (view : sliding_view) (instructions : Bytes) (nbytes : Nat) (out : Bytes) :
    Except error (Bytes × Bytes) := do
  let (offset, instructions) ← parse_int keep 0 instructions
  if 2 ^ 64 ≤ offset + nbytes ∨ view.width < offset + nbytes then
    .error .copies_source_data_outside_view
  else if view.buf.length < offset + nbytes then .error .out_of_bounds
  else return (instructions, out ++ (view.buf.drop offset).take nbytes)

/-- `for (; nbytes > 0; nbytes--)`. -/
def copy_bytes (offset : Nat) : Nat → Bytes → Except error Bytes
  | 0, out => .ok out
  | nbytes + 1, out =>
    match out[offset]? with
    | none => .error .out_of_bounds
    | some c => copy_bytes (offset + 1) nbytes (out ++ [c])

def copyfrom_target (instructions : Bytes) (nbytes : Nat) (out : Bytes) :
    Except error (Bytes × Bytes) := do
  let (offset, instructions) ← parse_int keep 0 instructions
  if out.length ≤ offset then .error .copies_from_the_future
  else
    let out ← copy_bytes offset nbytes out
    return (instructions, out)

def copyfrom_data (data : Bytes) (data_pos nbytes : Nat) (out : Bytes) :
    Except error (Nat × Bytes) :=
  if 2 ^ 64 ≤ data_pos + nbytes ∨ data.length < data_pos + nbytes then
    .error .copies_unavailable_inline_data
  else .ok (data_pos + nbytes, out ++ (data.drop data_pos).take nbytes)

/-- The first byte, its operand, and the instructions behind them. -/
def parse_first_operand : Bytes → Except error (Nat × Nat × Bytes)
  | [] => .error .out_of_bounds
  | ch :: buf =>
    if ch.toNat % 64 ≠ 0 then .ok (ch.toNat / 64, ch.toNat % 64, buf)
    else do
      let (nbytes, buf) ← parse_int keep 0 buf
      return (ch.toNat / 64, nbytes, buf)

/-- The instructions that are left, `data_pos` and the output. -/
def execute_one_instruction (view : sliding_view) (data instructions : Bytes) (data_pos : Nat)
    (out : Bytes) : Except error (Bytes × Nat × Bytes) := do
  let (instruction, nbytes, instructions) ← parse_first_operand keep instructions
  match instruction with
  | 0 =>
    let (instructions, out) ← copyfrom_source keep view instructions nbytes out
    return (instructions, data_pos, out)
  | 1 =>
    let (instructions, out) ← copyfrom_target keep instructions nbytes out
    return (instructions, data_pos, out)
  | 2 =>
    let (data_pos, out) ← copyfrom_data data data_pos nbytes out
    return (instructions, data_pos, out)
  | _ => .error .unrecognized_instruction

/-- The loop of `apply_window_in_core`, for no more instructions than bytes. -/
def run_instructions (view : sliding_view) (data : Bytes) :
    Nat → Bytes → Nat → Bytes → Except error Bytes
  | _, [], data_pos, out =>
    if data_pos ≠ data.length then .error .does_not_copy_all_inline_data else .ok out
  | 0, _ :: _, _, _ => .error .out_of_bounds
  | left + 1, c :: instructions, data_pos, out => do
    let (instructions, data_pos, out) ←
      execute_one_instruction keep view data (c :: instructions) data_pos out
    run_instructions view data left instructions data_pos out

/-! ## The preimage -/

def check_offset_overflow (offset len : Nat) : Except error Unit :=
  if 2 ^ 63 ≤ len then .error .unrepresentable_length
  else if 2 ^ 63 ≤ offset + len then .error .unrepresentable_offset
  else .ok ()

def skip_or_whine (file : Bytes) (gap : Nat) : Except error Bytes :=
  if file.length < gap then .error .delta_preimage_ends_early else .ok (file.drop gap)

def read_to_fill_or_whine (file buf : Bytes) (width : Nat) : Except error (Bytes × Bytes) :=
  let buf' := buf ++ file.take (width - buf.length)
  if buf'.length ≠ width then .error .delta_preimage_ends_early
  else .ok (file.drop (width - buf.length), buf')

/-- Move the overlapping region into place, or seek ahead to skip the gap. -/
def move_overlap (view : sliding_view) (off : Nat) : Except error (Bytes × Bytes) :=
  let file_offset := view.off + view.buf.length
  if off < file_offset then .ok (view.file, view.buf.drop (off - view.off))
  else (skip_or_whine view.file (off - file_offset)).map fun file => (file, [])

/-- What is already read may be more than the view. -/
def fill_view (file buf : Bytes) (width : Nat) : Except error (Bytes × Bytes) :=
  if width < buf.length then .ok (file, buf) else read_to_fill_or_whine file buf width

def move_window (view : sliding_view) (off width : Nat) : Except error sliding_view :=
  if view.buf.length < view.width ∨ 2 ^ 63 ≤ view.off + view.buf.length then .error .assertion
  else do
    check_offset_overflow off width
    if off < view.off ∨ off + width < view.off + view.width then .error .window_slides_left
    else if 0 ≤ view.max_off ∧ view.max_off < off + width then .error .delta_preimage_ends_early
    else
      let (file, buf) ← move_overlap view off
      let (file, buf) ← fill_view file buf width
      return { view with file := file, buf := buf, off := off, width := width }

/-! ## Windows -/

def apply_one_window (delta : line_buffer) (view : sliding_view) :
    Except error (Bytes × line_buffer) := do
  let (out_len, delta) ← read_length keep delta
  let (instructions_len, delta) ← read_length keep delta
  let (data_len, delta) ← read_length keep delta
  let (instructions, delta) ← read_chunk delta instructions_len
  let (data, delta) ← read_chunk delta data_len
  let out ← run_instructions keep view data instructions.length instructions 0 []
  if out.length ≠ out_len then .error .incorrect_postimage_length else return (out, delta)

/-- The loop of `svndiff0_apply`, for no more windows than bytes: what is written to the
postimage. -/
def apply_windows : Nat → line_buffer → sliding_view → Bytes → Except error Bytes
  | left, delta, view, postimage =>
    if delta.len = 0 then .ok postimage
    else
      match left with
      | 0 => .error .out_of_bounds
      | left + 1 => do
        let (pre_off, delta) ← read_offset keep delta
        let (pre_len, delta) ← read_length keep delta
        let view ← move_window view pre_off pre_len
        let (out, delta) ← apply_one_window keep delta view
        apply_windows left delta view (postimage ++ out)

def svndiff0_apply (delta : line_buffer) (view : sliding_view) : Except error Bytes := do
  let delta ← read_magic delta
  apply_windows keep delta.len delta view []

end

end git.svndiff
