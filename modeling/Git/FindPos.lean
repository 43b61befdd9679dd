-- Where a fragment goes, of `builtin/apply.c`: the test of one position, and the search
-- that goes out from the line the fragment names.
import Git.FuzzyMatch

namespace git.fragment

open git.quote git.header_name git.ws git.fuzzy_match

inductive ws_error_action where
  | nowarn_ws_error
  | warn_on_ws_error
  | die_on_ws_error
  | correct_ws_error
  deriving DecidableEq

inductive ws_ignore where
  | ignore_ws_none
  | ignore_ws_change
  deriving DecidableEq

/-- The options of the command, and those of the fragment. -/
structure context where
  ws_error_action : ws_error_action
  ws_ignore_action : ws_ignore
  ws_rule : Nat
  match_beginning : Bool
  match_end : Bool

/-- How a fragment matches: as it is, or with the text that takes the place of the preimage
and the length that the postimage then has (0: it is updated in place). -/
inductive accepted where
  | exact
  | update_pre_post_images (fixed_buf : Bytes) (postlen : UInt64)
  deriving DecidableEq

/-! ## One position -/

/-- The length of the preimage before the end of the file, where the fragment fits. -/
def preimage_limit (ctx : context) (img preimage : image) (try_lno : Nat) : Option Nat :=
  if preimage.nr + try_lno ≤ img.nr then
    if ctx.match_end && preimage.nr + try_lno ≠ img.nr then none else some preimage.nr
  else if ctx.ws_error_action = .correct_ws_error && has ctx.ws_rule WS_BLANK_AT_EOF then
    some (img.nr - try_lno)
  else none

/-- Quick hash check, of each line of the preimage beside that of the file. -/
def quick_check (pairs : List (line × line)) : Bool :=
  pairs.all fun (pre, line) => !line.LINE_PATCHED && pre.hash = line.hash

def exact_match (ctx : context) (img preimage : image) (pos : Nat) : Bool :=
  (if ctx.match_end then pos + preimage.len = img.len else pos + preimage.len ≤ img.len) &&
    (img.buf.drop pos).take preimage.len = preimage.buf

/-- What lies outside the two buffers reads as a NUL here: after it there is one. -/
def memory_of (img : image) : memory := ⟨img.buf, some ()⟩

/-- Line by line, with the true length of the target, the length of the preimage, and that of
the postimage. -/
def fuzzy_lines (img preimage : image) (pos : Nat) :
    List (line × line) → Nat → Nat → UInt64 → Option (Nat × Nat × UInt64)
  | [], imgoff, preoff, postlen => some (imgoff, preoff, postlen)
  | (pre, line) :: pairs, imgoff, preoff, postlen =>
    if fuzzy_matchlines (memory_of img) (pos + imgoff) line.len (memory_of preimage) preoff
        pre.len =
        some true then
      fuzzy_lines img preimage pos pairs (imgoff + line.len) (preoff + pre.len)
        (if pre.LINE_COMMON then postlen + (line.len.toUInt64 - pre.len.toUInt64) else postlen)
    else none

def fuzzy_match (img preimage postimage : image) (pos limit : Nat)
    (pairs : List (line × line)) : Option accepted :=
  match fuzzy_lines img preimage pos pairs 0 0 postimage.len.toUInt64 with
  | none => none
  | some (imgoff, preoff, postlen) =>
    let beyond :=
      (preimage.buf.drop preoff).take ((preimage.line.drop limit).map line.len).sum
    if beyond.all isspace then
      some (.update_pre_post_images ((img.buf.drop pos).take imgoff ++ beyond) postlen)
    else none

/-- Each line with whitespace errors corrected on both sides. `orig` and `target` are the rests
of the two texts; the result is the text so far, and the rest of the preimage. -/
def fixed_lines (ws_rule : Nat) :
    List (line × line) → Bytes → Bytes → Bytes → Option (Bytes × Bytes)
  | [], orig, _, fixed => some (fixed, orig)
  | (pre, line) :: pairs, orig, target, fixed =>
    let pre_fixed := (ws_fix_copy (orig.take pre.len) ws_rule).1
    let tgtfix := (ws_fix_copy (target.take line.len) ws_rule).1
    if tgtfix = pre_fixed then
      fixed_lines ws_rule pairs (orig.drop pre.len) (target.drop line.len) (fixed ++ pre_fixed)
    else none

/-- The lines of the preimage beyond the end of the file: these must be blank. -/
def blank_lines (ws_rule : Nat) : List line → Bytes → Bytes → Option Bytes
  | [], _, fixed => some fixed
  | pre :: lines, orig, fixed =>
    let line_fixed := (ws_fix_copy (orig.take pre.len) ws_rule).1
    if line_fixed.all isspace then
      blank_lines ws_rule lines (orig.drop pre.len) (fixed ++ line_fixed)
    else none

def fixed_match (ctx : context) (img preimage : image) (pos limit : Nat)
    (pairs : List (line × line)) : Option accepted :=
  match fixed_lines ctx.ws_rule pairs preimage.buf (img.buf.drop pos) [] with
  | none => none
  | some (fixed, orig) =>
    (blank_lines ctx.ws_rule (preimage.line.drop limit) orig fixed).map fun fixed =>
      .update_pre_post_images fixed 0

/-- `match_fragment`; `none` for 0. -/
def match_fragment (ctx : context) (img preimage postimage : image) (pos try_lno : Nat) :
    Option accepted :=
  match preimage_limit ctx img preimage try_lno with
  | none => none
  | some limit =>
    if ctx.match_beginning && try_lno ≠ 0 then none
    else
      let pairs := (preimage.line.take limit).zip (img.line.drop try_lno)
      if !quick_check pairs then none
      else if limit = preimage.nr && exact_match ctx img preimage pos then some .exact
      -- there must be one non-blank context line before the end of the file
      else if limit ≠ preimage.nr &&
          (preimage.buf.take ((preimage.line.take limit).map line.len).sum).all isspace then none
      else if ctx.ws_ignore_action = .ignore_ws_change then
        fuzzy_match img preimage postimage pos limit pairs
      else if ctx.ws_error_action ≠ .correct_ws_error then none
      else fixed_match ctx img preimage pos limit pairs

/-! ## The search -/

/-- The line to start from. The comparison is unsigned: a negative line is past the end. -/
def start_line (ctx : context) (img preimage : image) (line : Int) : Nat :=
  let line :=
    if ctx.match_beginning then 0
    else if ctx.match_end then (img.nr : Int) - preimage.nr
    else line
  if line < 0 ∨ (img.nr : Int) < line then img.nr else line.toNat

/-- The sum of the lengths of the lines before. -/
def offset (img : image) (lno : Nat) : Nat := ((img.line.take lno).map line.len).sum

/-- The length of a line of the table. -/
def line_len (img : image) (lno : Nat) : Nat := ((img.line[lno]?).map line.len).getD 0

/-- The variables of the loop. -/
structure cursor (img : image) where
  i : Nat
  backwards : Nat
  backwards_lno : Nat
  forwards : Nat
  forwards_lno : Nat
  pos : Nat
  try_lno : Nat
  inside : forwards_lno ≤ img.nr

/-- `again`: the next position to try, on the side that the parity of `i` says, or on the
other one where that is at its end. -/
def again {img : image} (s : cursor img) : Option (cursor img) :=
  if _hend : s.backwards_lno = 0 ∧ s.forwards_lno = img.nr then none
  else if _hback : s.i % 2 = 1 then
    if _hfirst : s.backwards_lno = 0 then again { s with i := s.i + 1 }
    else
      let lno := s.backwards_lno - 1
      let off := s.backwards - line_len img lno
      some { s with
        backwards := off, backwards_lno := lno, pos := off, try_lno := lno, i := s.i + 1 }
  else if hlast : s.forwards_lno = img.nr then again { s with i := s.i + 1 }
  else
    let lno := s.forwards_lno + 1
    let off := s.forwards + line_len img s.forwards_lno
    have hinside : lno ≤ img.nr := Nat.lt_of_le_of_ne s.inside hlast
    some { s with
      forwards := off, forwards_lno := lno, pos := off, try_lno := lno, i := s.i + 1
      inside := hinside }
  termination_by
    if s.i % 2 = 1 ∧ s.backwards_lno = 0 ∨ s.i % 2 = 0 ∧ s.forwards_lno = img.nr then 1 else 0
  decreasing_by
    -- the other side is not at its end
    · rw [if_neg, if_pos (Or.inl ⟨_hback, _hfirst⟩)]
      · exact Nat.one_pos
      · omega
    · rw [if_neg, if_pos (Or.inr ⟨by omega, hlast⟩)]
      · exact Nat.one_pos
      · omega

/-- The lines that are still to be tried. -/
def cursor.left {img : image} (s : cursor img) : Nat :=
  s.backwards_lno + (img.nr - s.forwards_lno)

theorem again_left {img : image} {s t : cursor img} (h : again s = some t) : t.left < s.left := by
  induction s using again.induct with
  | case1 s hend =>
    rw [again, dif_pos hend] at h
    cases h
  | case2 s hend hback hfirst ih =>
    rw [again, dif_neg hend, dif_pos hback, dif_pos hfirst] at h
    exact ih h
  | case3 s hend hback hfirst =>
    rw [again, dif_neg hend, dif_pos hback, dif_neg hfirst] at h
    cases h
    unfold cursor.left
    dsimp only
    omega
  | case4 s hend hback hlast ih =>
    rw [again, dif_neg hend, dif_neg hback, dif_pos hlast] at h
    exact ih h
  | case5 s hend hback hlast =>
    rw [again, dif_neg hend, dif_neg hback, dif_neg hlast] at h
    have hinside := s.inside
    cases h
    unfold cursor.left
    dsimp only
    omega

/-- The loop; `none` for -1. -/
def find_pos_loop (ctx : context) (img preimage postimage : image) (s : cursor img) :
    Option (Nat × accepted) :=
  match match_fragment ctx img preimage postimage s.pos s.try_lno with
  | some how => some (s.try_lno, how)
  | none =>
    match _h : again s with
    | none => none
    | some t => find_pos_loop ctx img preimage postimage t
  termination_by s.left
  decreasing_by exact again_left _h

theorem start_line_le (ctx : context) (img preimage : image) (line : Int) :
    start_line ctx img preimage line ≤ img.nr := by
  unfold start_line
  dsimp only
  split_ifs <;> omega

/-- Where the search begins. -/
def start (ctx : context) (img preimage : image) (line : Int) : cursor img :=
  let lno := start_line ctx img preimage line
  let off := offset img lno
  { i := 0, backwards := off, backwards_lno := lno, forwards := off, forwards_lno := lno,
    pos := off, try_lno := lno, inside := start_line_le ctx img preimage line }

def find_pos (ctx : context) (img preimage postimage : image) (line : Int) :
    Option (Nat × accepted) :=
  find_pos_loop ctx img preimage postimage (start ctx img preimage line)

end git.fragment
