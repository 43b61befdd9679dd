-- The whitespace rules of `ws.c`: what a line is checked for, and how it is fixed.
import Git.ApplyHeaderName

namespace git.ws

open git.quote git.header_name

abbrev CR : UInt8 := 13

def WS_BLANK_AT_EOL : Nat := 0o100
def WS_SPACE_BEFORE_TAB : Nat := 0o200
def WS_INDENT_WITH_NON_TAB : Nat := 0o400
def WS_CR_AT_EOL : Nat := 0o1000
def WS_BLANK_AT_EOF : Nat := 0o2000
def WS_TAB_IN_INDENT : Nat := 0o4000
def WS_TAB_WIDTH_MASK : Nat := 0o77

def ws_tab_width (rule : Nat) : Nat := rule &&& WS_TAB_WIDTH_MASK

/-- `ws_rule & bit` as a condition. -/
def has (ws_rule bit : Nat) : Bool := ws_rule &&& bit ≠ 0

/-- The bytes without those at the end that are white space. -/
def strip_trailing (line : Bytes) : Bytes := line.rdropWhile isspace

/-! ## The check -/

/-- How the loop over the indent ends: `i`, `written` and `result`. -/
structure indent where
  i : Nat
  written : Nat
  result : Nat

def check_indentation (ws_rule : Nat) : Bytes → indent → indent
  | [], s => s
  | c :: line, s =>
    if c = SPACE then check_indentation ws_rule line { s with i := s.i + 1 }
    else if c ≠ TAB then s
    else
      let result :=
        if has ws_rule WS_SPACE_BEFORE_TAB && s.written < s.i then s.result ||| WS_SPACE_BEFORE_TAB
        else if has ws_rule WS_TAB_IN_INDENT then s.result ||| WS_TAB_IN_INDENT
        else s.result
      check_indentation ws_rule line { i := s.i + 1, written := s.i + 1, result := result }

/-- The line without its newline, and without the carriage return that the rule allows. -/
def checked_part (line : Bytes) (ws_rule : Nat) : Bytes :=
  let line := if line.getLast? = some LF then line.dropLast else line
  if has ws_rule WS_CR_AT_EOL && line.getLast? = some CR then line.dropLast else line

/-- `ws_check_emit_1` without a stream. -/
def ws_check (line : Bytes) (ws_rule : Nat) : Nat :=
  let line := checked_part line ws_rule
  let upto := if has ws_rule WS_BLANK_AT_EOL then strip_trailing line else line
  let result := if upto.length < line.length then WS_BLANK_AT_EOL else 0
  let s := check_indentation ws_rule upto { i := 0, written := 0, result := result }
  if has ws_rule WS_INDENT_WITH_NON_TAB && ws_tab_width ws_rule ≤ s.i - s.written then
    s.result ||| WS_INDENT_WITH_NON_TAB
  else s.result

/-! ## The fix -/

/-- What the loop over the indent finds: `last_tab_in_indent` and `last_space_in_indent` as the
lengths that end with these bytes, 0 for the -1 of the source. -/
structure leading where
  i : Nat
  tab_end : Nat
  space_end : Nat
  need_fix_leading_space : Bool

def scan_leading (ws_rule : Nat) : Bytes → leading → leading
  | [], s => s
  | ch :: src, s =>
    if ch = TAB then
      scan_leading ws_rule src
        { s with
          i := s.i + 1
          tab_end := s.i + 1
          need_fix_leading_space := s.need_fix_leading_space ||
            (has ws_rule WS_SPACE_BEFORE_TAB && 0 < s.space_end) }
    else if ch = SPACE then
      -- `i - last_tab_in_indent` is one more than the spaces since then
      scan_leading ws_rule src
        { s with
          i := s.i + 1
          space_end := s.i + 1
          need_fix_leading_space := s.need_fix_leading_space ||
            (has ws_rule WS_INDENT_WITH_NON_TAB &&
              ws_tab_width ws_rule ≤ s.i + 1 - s.tab_end) }
    else s

/-- Strip the funny spaces, updating them to tab as needed. -/
def spaces_to_tabs (width : Nat) : Bytes → Nat → Bytes
  | [], consecutive_spaces => List.replicate consecutive_spaces SPACE
  | ch :: src, consecutive_spaces =>
    if ch ≠ SPACE then ch :: spaces_to_tabs width src 0
    else if consecutive_spaces + 1 = width then TAB :: spaces_to_tabs width src 0
    else spaces_to_tabs width src (consecutive_spaces + 1)

/-- Expand tabs into spaces: each up to the next multiple of the width. -/
def tabs_to_spaces (width : Nat) : Bytes → Nat → Bytes
  | [], _ => []
  | ch :: src, written =>
    if ch = TAB then
      List.replicate (width - written % width) SPACE ++
        tabs_to_spaces width src (written + (width - written % width))
    else ch :: tabs_to_spaces width src (written + 1)

/-- The indent, as it is written, the rest, and whether the indent was fixed. -/
def fix_leading (src : Bytes) (ws_rule : Nat) : Bytes × Bytes × Bool :=
  let s := scan_leading ws_rule src ⟨0, 0, 0, false⟩
  if s.need_fix_leading_space then
    let last :=
      if has ws_rule WS_INDENT_WITH_NON_TAB then
        if s.tab_end < s.space_end then s.space_end else s.tab_end
      else s.tab_end
    (spaces_to_tabs (ws_tab_width ws_rule) (src.take last) 0, src.drop last, true)
  else if has ws_rule WS_TAB_IN_INDENT && 0 < s.tab_end then
    (tabs_to_spaces (ws_tab_width ws_rule) (src.take s.tab_end) 0, src.drop s.tab_end, true)
  else ([], src, false)

/-- The text before the trailing white space, what is added to the tail again, and whether
anything was stripped. -/
def fix_trailing (src : Bytes) (ws_rule : Nat) : Bytes × Bytes × Bool :=
  if has ws_rule WS_BLANK_AT_EOL then
    let (body, tail) :=
      if src.getLast? = some LF then
        if src.dropLast.getLast? = some CR then
          (src.dropLast.dropLast, if has ws_rule WS_CR_AT_EOL then [CR, LF] else [LF])
        else (src.dropLast, [LF])
      else (src, [])
    (strip_trailing body, tail, (strip_trailing body).length < body.length)
  else (src, [], false)

/-- `ws_fix_copy`: what is added to `dst`, and whether it counts as an error. -/
def ws_fix_copy (src : Bytes) (ws_rule : Nat) : Bytes × Bool :=
  let (body, tail, stripped) := fix_trailing src ws_rule
  let (start, rest, fixed) := fix_leading body ws_rule
  (start ++ rest ++ tail, stripped || fixed)

end git.ws
