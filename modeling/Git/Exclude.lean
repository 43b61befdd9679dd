-- The exclude patterns of `dir.c`: they are kept on a stack by directory, which
-- follows the paths that are asked about.
import Git.Fnmatch

namespace git.dir

open compat

abbrev PATH_MAX : Nat := 4096

/-! ## Strings -/

abbrev NEWLINE : UInt8 := 10
abbrev CR : UInt8 := 13
abbrev BANG : UInt8 := 33
abbrev HASH : UInt8 := 35
abbrev BRACE : UInt8 := 123

/-- A string ends at a zero byte. -/
def cstring (buf : Bytes) : Bytes := buf.takeWhile fun c => c ≠ 0

/-- Where the first slash is, at `k` or behind. -/
def strchr_slash (s : Bytes) (k : Nat) : Option Nat :=
  ((s.drop k).findIdx? fun c => c = SLASH).map fun i => k + i

/-- Up to the last slash, and with it. -/
def base_length (pathname : Bytes) : Nat :=
  pathname.length - (pathname.reverse.takeWhile fun c => c ≠ SLASH).length

inductive dtype
  | DT_UNKNOWN
  | DT_DIR
  | DT_REG
  | DT_LNK
  deriving DecidableEq

/-- What comes of opening and reading a file. -/
inductive file
  | missing
  | unreadable
  | buffer (buf : Bytes)

/-- What is around: the files of the work tree and of the index, and `core.ignorecase`. -/
structure surroundings where
  ignore_case : Bool
  open_file : Bytes → file
  read_skip_worktree_file_from_index : Bytes → Option Bytes
  get_dtype : Bytes → dtype

def strcmp_icase (w : surroundings) (a b : Bytes) : Bool :=
  if w.ignore_case then a.map tolower = b.map tolower else a = b

def strncmp_icase (w : surroundings) (a b : Bytes) (count : Nat) : Bool :=
  strcmp_icase w (a.take count) (b.take count)

def fnmatch_icase (w : surroundings) (pattern string : Bytes) (pathname : Bool) : Bool :=
  fnmatch pattern string ⟨pathname, w.ignore_case⟩

/-! ## Patterns -/

def no_wildcard (string : Bytes) : Bool :=
  string.all fun c => c ≠ STAR ∧ c ≠ QUESTION ∧ c ≠ BRACKET ∧ c ≠ BRACE ∧ c ≠ ESCAPE

/-- The base of a pattern is a string, or the buffer that all directories share. -/
inductive base_pointer
  | string (s : Bytes)
  | basebuf

/-- The string it points to, with the buffer as it is. -/
def base_pointer.deref (basebuf : Bytes) : base_pointer → Bytes
  | .string s => s
  | .basebuf => basebuf

/-- A pattern, with the flags that `add_exclude` gave it. -/
structure exclude where
  pattern : Bytes
  base : base_pointer
  baselen : Nat
  to_exclude : Bool
  EXC_FLAG_MUSTBEDIR : Bool
  EXC_FLAG_NODIR : Bool
  EXC_FLAG_NOWILDCARD : Bool
  EXC_FLAG_ENDSWITH : Bool
  nodir : EXC_FLAG_NODIR = decide (SLASH ∉ pattern)
  nowildcard : EXC_FLAG_NOWILDCARD = no_wildcard pattern
  endswith : EXC_FLAG_ENDSWITH = (pattern.head? = some STAR && no_wildcard pattern.tail)

def add_exclude (string : Bytes) (base : base_pointer) (baselen : Nat) (which : List exclude) :
    List exclude :=
  let to_exclude : Bool := string.head? ≠ some BANG
  let string := if string.head? = some BANG then string.tail else string
  let mustbedir : Bool := string.getLast? = some SLASH
  let string := if mustbedir then string.dropLast else string
  which ++ [⟨string, base, baselen, to_exclude, mustbedir, decide (SLASH ∉ string),
    no_wildcard string, string.head? = some STAR && no_wildcard string.tail, rfl, rfl, rfl⟩]

/-- The loop over the buffer; `entry` is the line so far. -/
def add_entries (base : base_pointer) (baselen : Nat) :
    Bytes → Bytes → List exclude → List exclude
  | _, [], which => which
  | entry, c :: buf, which =>
    if c = NEWLINE then
      if entry ≠ [] ∧ entry.head? ≠ some HASH then
        let entry := if entry.getLast? = some CR then entry.dropLast else entry
        add_entries base baselen [] buf (add_exclude (cstring entry) base baselen which)
      else add_entries base baselen [] buf which
    else add_entries base baselen (entry ++ [c]) buf which

/-- `none` where it returns -1. -/
def add_excludes_from_file_to_list (w : surroundings) (fname : Bytes) (base : base_pointer)
    (baselen : Nat) (which : List exclude) (check_index : Bool) : Option (List exclude) :=
  match w.open_file fname with
  | .missing =>
    if check_index then
      (w.read_skip_worktree_file_from_index fname).map fun buf =>
        if buf = [] then which
        else
          add_entries base baselen []
            (if buf.getLast? = some NEWLINE then buf else buf ++ [NEWLINE]) which
    else none
  | .unreadable => none
  | .buffer buf =>
    if buf = [] then some which else some (add_entries base baselen [] (buf ++ [NEWLINE]) which)

/-! ## The stack of directories -/

structure exclude_stack where
  baselen : Nat
  exclude_ix : Nat

structure dir_struct where
  exclude_per_dir : Option Bytes
  EXC_CMDL : List exclude
  EXC_DIRS : List exclude
  EXC_FILE : List exclude
  /-- The last pushed first. -/
  stack : List exclude_stack
  basebuf : Bytes

/-- Pop the ones that are not the prefix of the path being checked. -/
def pop_excludes (base : Bytes) (baselen : Nat) (basebuf : Bytes) :
    List exclude_stack → List exclude → List exclude_stack × List exclude
  | [], el => ([], el)
  | stk :: prev, el =>
    if stk.baselen ≤ baselen ∧ basebuf.take stk.baselen = base.take stk.baselen then
      (stk :: prev, el)
    else pop_excludes base baselen basebuf prev (el.take stk.exclude_ix)

/-- Read one directory, whose part of the path ends at `cp`. -/
def push_exclude (w : surroundings) (per_dir base : Bytes) (current cp : Nat) (dir : dir_struct) :
    dir_struct :=
  let fname := dir.basebuf.take current ++ (base.take cp).drop current ++ per_dir
  { dir with
    EXC_DIRS :=
      (add_excludes_from_file_to_list w fname .basebuf cp dir.EXC_DIRS true).getD dir.EXC_DIRS
    stack := ⟨cp, dir.EXC_DIRS.length⟩ :: dir.stack
    basebuf := fname }

/-- Read from the parent directories and push them down. `none`: it dies. -/
def push_excludes (w : surroundings) (per_dir base : Bytes) (baselen : Nat) :
    Nat → dir_struct → Option dir_struct
  | 0, dir => some dir
  | fuel + 1, dir =>
    match dir.stack with
    | [] => push_excludes w per_dir base baselen fuel (push_exclude w per_dir base 0 0 dir)
    | stk :: _ =>
      if baselen ≤ stk.baselen then some dir
      else
        (strchr_slash base (stk.baselen + 1)).bind fun slash =>
          push_excludes w per_dir base baselen fuel
            (push_exclude w per_dir base stk.baselen (slash + 1) dir)

/-- Each turn pushes a directory whose part of the path is longer. -/
def prep_exclude (w : surroundings) (dir : dir_struct) (base : Bytes) (baselen : Nat) :
    Option dir_struct :=
  match dir.exclude_per_dir with
  | none => some dir
  | some per_dir =>
    -- too long a path -- ignore
    if PATH_MAX ≤ baselen + per_dir.length then some dir
    else
      let (stack, el) := pop_excludes base baselen dir.basebuf dir.stack dir.EXC_DIRS
      (push_excludes w per_dir base baselen (baselen + 2)
          { dir with EXC_DIRS := el, stack := stack }).map fun dir =>
        { dir with basebuf := dir.basebuf.take baselen }

/-! ## Asking -/

def match_exclude (w : surroundings) (basebuf pathname basename : Bytes) (x : exclude) : Bool :=
  if x.EXC_FLAG_NODIR then
    if x.EXC_FLAG_NOWILDCARD then strcmp_icase w x.pattern basename
    else if x.EXC_FLAG_ENDSWITH then
      x.pattern.length - 1 ≤ pathname.length &&
        strcmp_icase w (x.pattern.drop 1)
          (pathname.drop (pathname.length + 1 - x.pattern.length))
    else fnmatch_icase w x.pattern basename false
  else
    let exclude := if x.pattern.head? = some SLASH then x.pattern.tail else x.pattern
    if pathname.length < x.baselen ∨
        (x.baselen ≠ 0 ∧ pathname[x.baselen - 1]? ≠ some SLASH) ∨
        !strncmp_icase w pathname (x.base.deref basebuf) x.baselen then false
    else if x.EXC_FLAG_NOWILDCARD then strcmp_icase w exclude (pathname.drop x.baselen)
    else fnmatch_icase w exclude (pathname.drop x.baselen) true

/-- The loop over the list, which comes here last pattern first; `none` for undecided. -/
def excluded_from_list (w : surroundings) (basebuf pathname basename : Bytes) :
    List exclude → dtype → Option Bool × dtype
  | [], dtype => (none, dtype)
  | x :: el, dtype =>
    let dtype :=
      if x.EXC_FLAG_MUSTBEDIR ∧ dtype = .DT_UNKNOWN then w.get_dtype pathname else dtype
    if x.EXC_FLAG_MUSTBEDIR ∧ dtype ≠ .DT_DIR then
      excluded_from_list w basebuf pathname basename el dtype
    else if match_exclude w basebuf pathname basename x then (some x.to_exclude, dtype)
    else excluded_from_list w basebuf pathname basename el dtype

/-- The loop over the three lists. -/
def excluded_from_lists (w : surroundings) (basebuf pathname basename : Bytes) :
    List (List exclude) → dtype → Bool × dtype
  | [], dtype => (false, dtype)
  | el :: lists, dtype =>
    match excluded_from_list w basebuf pathname basename el.reverse dtype with
    | (some verdict, dtype) => (verdict, dtype)
    | (none, dtype) => excluded_from_lists w basebuf pathname basename lists dtype

/-- `none`: it dies. -/
def excluded (w : surroundings) (dir : dir_struct) (pathname : Bytes) (dtype_p : dtype) :
    Option ((Bool × dtype) × dir_struct) :=
  (prep_exclude w dir pathname (base_length pathname)).map fun dir =>
    (excluded_from_lists w dir.basebuf pathname (pathname.drop (base_length pathname))
      [dir.EXC_CMDL, dir.EXC_DIRS, dir.EXC_FILE] dtype_p, dir)

end git.dir
