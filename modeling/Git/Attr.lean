-- Attributes of paths: `attr.c`. The rules of all sources are kept on a stack, which follows
-- the paths that are asked about.
import Git.Exclude

namespace git.gitattributes

open compat

/-! ## Attributes -/

/-- What a rule sets an attribute to. `ATTR__UNKNOWN` is `none` of these. -/
inductive attr_value
  | ATTR__TRUE
  | ATTR__FALSE
  | ATTR__UNSET
  | value (s : Bytes)
  deriving DecidableEq, Repr

structure git_attr where
  name : Bytes
  attr_nr : Nat
  deriving DecidableEq, Repr

/-- What does a matched pattern decide? -/
structure attr_state where
  attr : git_attr
  setto : attr_value

/-- The union `u`, which `is_macro` tells apart. -/
inductive match_kind
  | pattern (pattern : Bytes)
  | macro_attr (attr : git_attr)

structure match_attr where
  u : match_kind
  state : List attr_state

structure attr_stack where
  origin : Option Bytes
  attrs : List match_attr

/-- The static variables. The names are those of the hash table, in the order of their numbers;
the top of the stack comes first. -/
structure process where
  attrs : List Bytes
  check_all_attr : Nat → Option attr_value
  attr_stack : List attr_stack

def process.start : process := ⟨[], fun _ => none, []⟩

/-- The counter. -/
def process.attr_nr (p : process) : Nat := p.attrs.length

def DASH : UInt8 := 45
def BANG : UInt8 := 33
def EQUALS : UInt8 := 61
def HASH : UInt8 := 35
def NEWLINE : UInt8 := 10

def attr_char (ch : UInt8) : Bool :=
  ch == DASH || ch == 46 || ch == 95 || (48 ≤ ch && ch ≤ 57) || (97 ≤ ch && ch ≤ 122) ||
    (65 ≤ ch && ch ≤ 90)

def invalid_attr_name (name : Bytes) : Bool :=
  name.isEmpty || name.head? == some DASH || !name.all attr_char

/-- The attribute of a good name, which gets a number when it is new. -/
def git_attr_internal (p : process) (name : Bytes) : process × git_attr :=
  if name ∈ p.attrs then (p, ⟨name, p.attrs.idxOf name⟩)
  else
    ({ p with
        attrs := p.attrs ++ [name]
        check_all_attr := Function.update p.check_all_attr p.attr_nr none },
      ⟨name, p.attr_nr⟩)

/-- `none` is NULL. -/
def git_attr_of (p : process) (name : Bytes) : Option (process × git_attr) :=
  if name ∈ p.attrs then some (git_attr_internal p name)
  else if invalid_attr_name name then none
  else some (git_attr_internal p name)

/-! ## Lines -/

/-- `" \t\r\n"` -/
def blank (c : UInt8) : Bool := c == 32 || c == 9 || c == 13 || c == 10

def until_blank (s : Bytes) : Bytes := s.takeWhile fun c => !blank c

/-- The words of a line. -/
def words (s : Bytes) : List Bytes := (s.splitOnP blank).filter fun word => word ≠ []

/-- The name and the state that a word says, in both passes; `none` for a name that is not
valid. -/
def parse_attr (word : Bytes) : Option (Bytes × attr_value) :=
  let equals := word.dropWhile (· ≠ EQUALS)
  let name := word.takeWhile (· ≠ EQUALS)
  let marked := word.head? = some DASH ∨ word.head? = some BANG
  let name := if marked then name.tail else name
  if invalid_attr_name name then none
  else if marked then
    some (name, if word.head? = some DASH then .ATTR__FALSE else .ATTR__UNSET)
  else if equals = [] then some (name, .ATTR__TRUE)
  else some (name, .value equals.tail)

/-- What a rule is for: a pattern, or a macro by its name. -/
inductive rule_kind
  | pattern (pattern : Bytes)
  | macro_name (name : Bytes)
  deriving DecidableEq

/-- A line, before its names get numbers. -/
structure rule where
  kind : rule_kind
  states : List (Bytes × attr_value)

def ATTRIBUTE_MACRO_PREFIX : Bytes := "[attr]".toUTF8.toList

def parse_attr_line (line : Bytes) (macro_ok : Bool) : Option rule :=
  let cp := line.dropWhile blank
  if cp = [] ∨ cp.head? = some HASH then none
  else
    let name := until_blank cp
    let states := (words (cp.drop name.length)).mapM parse_attr
    if ATTRIBUTE_MACRO_PREFIX.length < name.length ∧ ATTRIBUTE_MACRO_PREFIX <+: name then
      if !macro_ok then none
      else
        let name := name.drop ATTRIBUTE_MACRO_PREFIX.length
        if invalid_attr_name name then none
        else states.map fun states => ⟨.macro_name name, states⟩
    else states.map fun states => ⟨.pattern name, states⟩

/-- The second pass over the states: the names get their numbers. -/
def fill_states (p : process) : List (Bytes × attr_value) → process × List attr_state
  | [] => (p, [])
  | (name, setto) :: states =>
    let (p, attr) := git_attr_internal p name
    let (p, rest) := fill_states p states
    (p, ⟨attr, setto⟩ :: rest)

def fill_match_attr (p : process) (r : rule) : process × match_attr :=
  match r.kind with
  | .pattern pattern =>
    let (p, state) := fill_states p r.states
    (p, ⟨.pattern pattern, state⟩)
  | .macro_name name =>
    let (p, attr) := git_attr_internal p name
    let (p, state) := fill_states p r.states
    (p, ⟨.macro_attr attr, state⟩)

/-! ## Sources -/

/-- `handle_attr_line` for each line. -/
def handle_attr_lines (p : process) (macro_ok : Bool) : List Bytes → process × List match_attr
  | [] => (p, [])
  | line :: lines =>
    match parse_attr_line line macro_ok with
    | none => handle_attr_lines p macro_ok lines
    | some r =>
      let (p, a) := fill_match_attr p r
      let (p, rest) := handle_attr_lines p macro_ok lines
      (p, a :: rest)

/-- What a `fgets` into 2048 bytes takes. -/
def fgets_length (buf : Bytes) : Nat := min 2047 ((buf.takeWhile (· ≠ NEWLINE)).length + 1)

/-- The strings that come one after the other. -/
def fgets_lines : Nat → Bytes → List Bytes
  | 0, _ => []
  | fuel + 1, buf =>
    if buf = [] then []
    else
      dir.cstring (buf.take (fgets_length buf)) :: fgets_lines fuel (buf.drop (fgets_length buf))

def file_lines (buf : Bytes) : List Bytes := fgets_lines buf.length buf

/-- The lines of a blob, up to its first zero byte. -/
def index_lines (buf : Bytes) : List Bytes := (dir.cstring buf).splitOnP (· = NEWLINE)

inductive git_attr_direction
  | GIT_ATTR_CHECKIN
  | GIT_ATTR_CHECKOUT
  | GIT_ATTR_INDEX
  deriving DecidableEq

/-- Where rules come from, and the settings. -/
structure sources where
  /-- `$(prefix)/etc/gitattributes`, unless it is left out. -/
  etc_gitattributes : Option Bytes
  /-- The file of `core.attributesfile`. -/
  attributes_file : Option Bytes
  /-- `$GIT_DIR/info/attributes` -/
  info_attributes : Option Bytes
  open_file : Bytes → Option Bytes
  read_index_data : Bytes → Option Bytes
  is_bare_repository : Bool
  direction : git_attr_direction
  ignore_case : Bool

def builtin_attr : List Bytes := ["[attr]binary -diff -text".toUTF8.toList]

def GITATTRIBUTES_FILE : Bytes := ".gitattributes".toUTF8.toList

/-- The lines of `read_attr`. -/
def attr_lines (src : sources) (path : Bytes) : List Bytes :=
  let from_file := (src.open_file path).map file_lines
  let from_index := (src.read_index_data path).map index_lines
  match src.direction with
  | .GIT_ATTR_CHECKOUT => (from_index <|> from_file).getD []
  | .GIT_ATTR_CHECKIN => (from_file <|> from_index).getD []
  | .GIT_ATTR_INDEX => from_index.getD []

/-- The element for these lines goes on top. -/
def push_elem (p : process) (origin : Option Bytes) (macro_ok : Bool) (lines : List Bytes) :
    process :=
  let (p, attrs) := handle_attr_lines p macro_ok lines
  { p with attr_stack := ⟨origin, attrs⟩ :: p.attr_stack }

/-- An element only for a file that is there. -/
def push_file (p : process) (file : Option Bytes) : process :=
  match file with
  | none => p
  | some buf => push_elem p none true (file_lines buf)

/-- Are there files by directory? -/
def sources.by_directory (src : sources) : Bool :=
  !src.is_bare_repository || src.direction == .GIT_ATTR_INDEX

def bootstrap_attr_stack (src : sources) (p : process) : process :=
  if p.attr_stack ≠ [] then p
  else
    let p := push_elem p none true builtin_attr
    let p := push_file p src.etc_gitattributes
    let p := push_file p src.attributes_file
    let p :=
      if src.by_directory then push_elem p (some []) true (attr_lines src GITATTRIBUTES_FILE)
      else p
    push_elem p none true ((src.info_attributes.map file_lines).getD [])

/-! ## The stack for a path -/

/-- Where the last slash is, or 0. -/
def dirlen (path : Bytes) : Nat := dir.base_length path - 1

/-- Pop the ones from directories that are not the prefix of the path. -/
def pop_dirs (path : Bytes) : List attr_stack → List attr_stack
  | [] => []
  | elem :: prev =>
    match elem.origin with
    | none => elem :: prev
    | some origin =>
      if origin.length ≤ dirlen path ∧ path.take origin.length = origin ∧
          (origin = [] ∨ path[origin.length]? = some SLASH) then elem :: prev
      else pop_dirs path prev

/-- The next slash behind `len`, or else the last one. -/
def next_dir (path : Bytes) (len : Nat) : Nat :=
  (dir.strchr_slash (path.take (dirlen path)) (len + 1)).getD (dirlen path)

/-- Read from parent directories and push them down. `none` where the assertion fails. -/
def push_dirs (src : sources) (path : Bytes) : Nat → process → Option process
  | 0, p => some p
  | turns + 1, p =>
    match p.attr_stack.head?.bind (·.origin) with
    | none => none
    | some origin =>
      if dirlen path ≤ origin.length then some p
      else
        let dir := path.take (next_dir path origin.length)
        push_dirs src path turns
          (push_elem p (some dir) false (attr_lines src (dir ++ SLASH :: GITATTRIBUTES_FILE)))

/-- Each turn pushes a longer directory. -/
def prepare_attr_stack (src : sources) (path : Bytes) (p : process) : Option process :=
  let p := bootstrap_attr_stack src p
  match p.attr_stack with
  | [] => none
  | info :: prev =>
    let p := { p with attr_stack := pop_dirs path prev }
    let pushed := if src.by_directory then push_dirs src path (dirlen path + 1) p else some p
    pushed.map fun p => { p with attr_stack := info :: p.attr_stack }

/-! ## Filling in values -/

def path_matches (src : sources) (pathname pattern base : Bytes) : Bool :=
  if SLASH ∉ pattern then
    -- match basename
    fnmatch pattern (pathname.reverse.takeWhile (· ≠ SLASH)).reverse ⟨false, src.ignore_case⟩
  else
    let pattern := if pattern.head? = some SLASH then pattern.tail else pattern
    if pathname.length < base.length ∨ (base ≠ [] ∧ pathname[base.length]? ≠ some SLASH) ∨
        pathname.take base.length ≠ base then false
    else
      fnmatch pattern (pathname.drop (if base ≠ [] then base.length + 1 else 0))
        ⟨true, src.ignore_case⟩

/-- The values of `check_all_attr`, and how many are unknown. -/
structure checking where
  value : Nat → Option attr_value
  rem : Nat

/-- The macro of that number that is found first. -/
def macro_of (attr_nr : Nat) : List attr_stack → Option match_attr
  | [] => none
  | stk :: prev =>
    match stk.attrs.reverse.find? (fun ma =>
      match ma.u with
      | .macro_attr attr => attr.attr_nr == attr_nr
      | .pattern _ => false) with
    | some a => some a
    | none => macro_of attr_nr prev

/-- `fill_one` and `macroexpand_one`. `none` where they call each other deeper than that. -/
def fill_one (stack : List attr_stack) : Nat → match_attr → checking → Option checking
  | 0, _, _ => none
  | depth + 1, a, c =>
    a.state.reverse.foldlM (fun c state =>
      if c.rem = 0 then some c
      else if c.value state.attr.attr_nr ≠ none then some c
      else
        let c : checking :=
          ⟨Function.update c.value state.attr.attr_nr (some state.setto), c.rem - 1⟩
        -- `macroexpand_one`
        if state.setto ≠ .ATTR__TRUE then some c
        else
          match macro_of state.attr.attr_nr stack with
          | none => some c
          | some a => fill_one stack depth a c) c

/-- One element of the stack. -/
def fill (src : sources) (stack : List attr_stack) (depth : Nat) (path : Bytes)
    (stk : attr_stack) (c : checking) : Option checking :=
  stk.attrs.reverse.foldlM (fun c a =>
    if c.rem = 0 then some c
    else
      match a.u with
      | .macro_attr _ => some c
      | .pattern pattern =>
        if path_matches src path pattern (stk.origin.getD []) then fill_one stack depth a c
        else some c) c

/-- No more values are filled in than there are attributes. -/
def collect_all_attrs (src : sources) (path : Bytes) (p : process) : Option process := do
  let p ← prepare_attr_stack src path p
  let c ← p.attr_stack.foldlM (fun c stk =>
    if c.rem = 0 then some c
    else fill src p.attr_stack (p.attr_nr + 1) path stk c) ⟨fun _ => none, p.attr_nr⟩
  pure { p with check_all_attr := c.value }

def git_check_attr (src : sources) (p : process) (path : Bytes) (check : List git_attr) :
    Option (process × List attr_value) :=
  (collect_all_attrs src path p).map fun p =>
    (p, check.map fun a => (p.check_all_attr a.attr_nr).getD .ATTR__UNSET)

end git.gitattributes
