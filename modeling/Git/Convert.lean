-- How `convert.c` converts a blob when it is checked out and a file when it is
-- checked in: the CRLF rules, which look at statistics, and the ident keyword.
import Git.CacheEntry

namespace git.convert

abbrev LF : UInt8 := 10
abbrev CR : UInt8 := 13
/-- The byte `'$'`. -/
abbrev DOLLAR : UInt8 := 36

/-! ## Configuration and attributes -/

inductive crlf_action where
  | CRLF_GUESS | CRLF_BINARY | CRLF_TEXT | CRLF_INPUT | CRLF_CRLF | CRLF_AUTO
  deriving DecidableEq, Repr

inductive eol where
  | EOL_UNSET | EOL_CRLF | EOL_LF
  deriving DecidableEq, Repr

inductive auto_crlf where
  | AUTO_CRLF_FALSE | AUTO_CRLF_TRUE | AUTO_CRLF_INPUT
  deriving DecidableEq, Repr

inductive safe_crlf where
  | SAFE_CRLF_FALSE | SAFE_CRLF_FAIL | SAFE_CRLF_WARN
  deriving DecidableEq, Repr

/-- `core.autocrlf`, `core.eol`, and what the build took for `EOL_NATIVE`. -/
structure config where
  auto_crlf : auto_crlf
  core_eol : eol
  EOL_NATIVE : eol

inductive attr_value where
  | ATTR_TRUE | ATTR_FALSE | ATTR_UNSET
  | value (s : String)
  deriving DecidableEq, Repr

structure path_attrs where
  crlf : attr_value
  ident : attr_value
  eol : attr_value
  text : attr_value

/-- A path without a filter driver. -/
structure conv_attrs where
  crlf_action : crlf_action
  eol_attr : eol
  ident : Bool
  deriving DecidableEq, Repr

open crlf_action eol auto_crlf safe_crlf attr_value

def git_path_check_crlf : attr_value → crlf_action
  | ATTR_TRUE => CRLF_TEXT
  | ATTR_FALSE => CRLF_BINARY
  | ATTR_UNSET => CRLF_GUESS
  | value "input" => CRLF_INPUT
  | value "auto" => CRLF_AUTO
  | value _ => CRLF_GUESS

def git_path_check_eol : attr_value → eol
  | value "lf" => EOL_LF
  | value "crlf" => EOL_CRLF
  | _ => EOL_UNSET

def git_path_check_ident (check : attr_value) : Bool := check == ATTR_TRUE

def input_crlf_action (text_attr : crlf_action) (eol_attr : eol) : crlf_action :=
  if text_attr = CRLF_BINARY then CRLF_BINARY
  else if eol_attr = EOL_LF then CRLF_INPUT
  else if eol_attr = EOL_CRLF then CRLF_CRLF
  else text_attr

/-- The attributes of the path, or `none` where they cannot be read. -/
def convert_attrs : Option path_attrs → conv_attrs
  | some ccheck =>
    { crlf_action :=
        if git_path_check_crlf ccheck.text = CRLF_GUESS then git_path_check_crlf ccheck.crlf
        else git_path_check_crlf ccheck.text
      ident := git_path_check_ident ccheck.ident
      eol_attr := git_path_check_eol ccheck.eol }
  | none => { crlf_action := CRLF_GUESS, eol_attr := EOL_UNSET, ident := false }

def output_eol (cfg : config) : crlf_action → eol
  | CRLF_BINARY => EOL_UNSET
  | CRLF_CRLF => EOL_CRLF
  | CRLF_INPUT => EOL_LF
  | action =>
    if action = CRLF_GUESS ∧ cfg.auto_crlf = AUTO_CRLF_FALSE then EOL_UNSET
    else if cfg.auto_crlf = AUTO_CRLF_TRUE then EOL_CRLF
    else if cfg.auto_crlf = AUTO_CRLF_INPUT then EOL_LF
    else if cfg.core_eol = EOL_UNSET then cfg.EOL_NATIVE
    else cfg.core_eol

/-! ## Statistics -/

/-- The counters are `unsigned`. -/
@[ext] structure text_stat where
  nul : BitVec 32
  cr : BitVec 32
  lf : BitVec 32
  crlf : BitVec 32
  printable : BitVec 32
  nonprintable : BitVec 32
  deriving DecidableEq, Repr

/-- One turn of the loop of `gather_stats`; `next` is the byte after `c`, if there is one. -/
def count_byte (c : UInt8) (next : Option UInt8) (stats : text_stat) : text_stat :=
  if c = CR then
    { stats with
      cr := stats.cr + 1
      crlf := if next = some LF then stats.crlf + 1 else stats.crlf }
  else if c = LF then { stats with lf := stats.lf + 1 }
  else if c = 127 then { stats with nonprintable := stats.nonprintable + 1 }
  else if c < 32 then
    -- BS, HT, ESC and FF
    if c = 8 ∨ c = 9 ∨ c = 27 ∨ c = 12 then { stats with printable := stats.printable + 1 }
    else
      { stats with
        nul := if c = 0 then stats.nul + 1 else stats.nul
        nonprintable := stats.nonprintable + 1 }
  else { stats with printable := stats.printable + 1 }

def gather_loop : Bytes → text_stat → text_stat
  | [], stats => stats
  | c :: buf, stats => gather_loop buf (count_byte c buf.head? stats)

/-- An EOF (`'\032'`) at the end does not count as nonprintable. -/
def gather_stats (buf : Bytes) : text_stat :=
  let stats := gather_loop buf ⟨0, 0, 0, 0, 0, 0⟩
  if buf.getLast? = some 26 then { stats with nonprintable := stats.nonprintable - 1 } else stats

def is_binary (stats : text_stat) : Bool :=
  stats.nul != 0 || stats.printable >>> 7 < stats.nonprintable

/-! ## CRLF -/

/-- The actions that look at the content first. -/
def guesses (action : crlf_action) : Bool := action == CRLF_AUTO || action == CRLF_GUESS

/-- The message that `check_safe_crlf` dies with; a warning changes nothing. -/
def check_safe_crlf (cfg : config) (path : String) (action : crlf_action) (stats : text_stat)
    (checksafe : safe_crlf) : Except String Unit :=
  if checksafe ≠ SAFE_CRLF_FAIL then .ok ()
  else if output_eol cfg action = EOL_LF then
    if stats.crlf ≠ 0 then .error ("CRLF would be replaced by LF in " ++ path ++ ".") else .ok ()
  else if output_eol cfg action = EOL_CRLF then
    if stats.lf ≠ stats.crlf then .error ("LF would be replaced by CRLF in " ++ path) else .ok ()
  else .ok ()

/-- `index` is the content that the index has for the path, its own or that of stage 2. -/
def has_cr_in_index (index : Option Bytes) : Bool := index.any fun data => data.contains CR

/-- A CR goes where an LF follows it. -/
def strip_crlf : Bytes → Bytes
  | [] => []
  | c :: src =>
    if c = CR ∧ src.head? = some LF then strip_crlf src else c :: strip_crlf src

/-- What `crlf_to_git` writes to its buffer, or `none` where it returns 0. -/
def crlf_to_git (cfg : config) (path : String) (index : Option Bytes) (src : Bytes)
    (action : crlf_action) (checksafe : safe_crlf) : Except String (Option Bytes) :=
  if action = CRLF_BINARY ∨ action = CRLF_GUESS ∧ cfg.auto_crlf = AUTO_CRLF_FALSE ∨ src = [] then
    .ok none
  else
    let stats := gather_stats src
    if guesses action ∧ (stats.cr ≠ stats.crlf ∨ is_binary stats) then .ok none
    -- the new safer autocrlf handling
    else if action = CRLF_GUESS ∧ has_cr_in_index index then .ok none
    else
      (check_safe_crlf cfg path action stats checksafe).bind fun _ =>
        if stats.cr = 0 then .ok none
        -- a guess has rejected a lone CR, so all of them can go
        else if guesses action then .ok (some (src.filter (· ≠ CR)))
        else .ok (some (strip_crlf src))

/-- An LF without a CR before it gets one; `prev` is the byte before. -/
def add_cr (prev : UInt8) : Bytes → Bytes
  | [] => []
  | c :: src =>
    if c = LF ∧ prev ≠ CR then CR :: LF :: add_cr c src else c :: add_cr c src

/-- What `crlf_to_worktree` writes to its buffer, or `none` where it returns 0. -/
def crlf_to_worktree (cfg : config) (src : Bytes) (action : crlf_action) : Option Bytes :=
  if src = [] ∨ output_eol cfg action ≠ EOL_CRLF then none
  else
    let stats := gather_stats src
    if stats.lf = 0 then none
    else if stats.lf = stats.crlf then none
    else if action = CRLF_GUESS ∧ (stats.cr ≠ 0 ∨ stats.crlf ≠ 0) then none
    else if guesses action ∧ (stats.cr ≠ stats.crlf ∨ is_binary stats) then none
    else some (add_cr 0 src)

/-! ## Ident -/

/-- The text before the first `c`, and the text after it. -/
def memchr (c : UInt8) : Bytes → Option (Bytes × Bytes)
  | [] => none
  | d :: src =>
    if d = c then some ([], src) else (memchr c src).map fun (before, after) => (d :: before, after)

def hexdigit (n : Nat) : UInt8 := if n < 10 then .ofNat (48 + n) else .ofNat (87 + n)

def sha1_to_hex (sha1 : Sha1) : Bytes :=
  sha1.toList.flatMap fun b => [hexdigit (b.toNat / 16), hexdigit (b.toNat % 16)]

/-- The inner loop of `count_ident`: up to a closing dollar sign, in which case the
keyword counts, or up to the end of the line. -/
def skip_keyword : Bytes → Bool × Bytes
  | [] => (false, [])
  | ch :: cp =>
    if ch = DOLLAR then (true, cp) else if ch = LF then (false, cp) else skip_keyword cp

/-- What `count_ident` does after a dollar sign. -/
def count_ident_rest (loop : Bytes → Nat) (cp : Bytes) : Nat :=
  if cp.length < 3 then 0
  else
    match cp with
    | 73 :: 100 :: ch :: rest =>
      if ch = DOLLAR then loop rest + 1
      else if ch ≠ 58 then loop rest
      else loop (skip_keyword rest).2 + if (skip_keyword rest).1 then 1 else 0
    | _ => loop cp

/-- The loop of `count_ident`, for a text no longer than `fuel`. -/
def count_ident_loop : Nat → Bytes → Nat
  | 0, _ => 0
  | _, [] => 0
  | fuel + 1, ch :: cp =>
    if ch ≠ DOLLAR then count_ident_loop fuel cp
    else count_ident_rest (count_ident_loop fuel) cp

def count_ident (src : Bytes) : Nat := count_ident_loop src.length src

/-- The loop that `ident_to_git` and `ident_to_worktree` share: run to the next dollar sign
and go on as `rest` says, for a text no longer than `fuel`. -/
def at_dollars (rest : (Bytes → Bytes) → Bytes → Bytes) : Nat → Bytes → Bytes
  | 0, src => src
  | fuel + 1, src =>
    match memchr DOLLAR src with
    | none => src
    | some (before, src) => before ++ DOLLAR :: rest (at_dollars rest fuel) src

/-- What `ident_to_git` does after a dollar sign. -/
def ident_to_git_rest (loop : Bytes → Bytes) (src : Bytes) : Bytes :=
  match src with
  | 73 :: 100 :: 58 :: keyword_on =>
    match memchr DOLLAR keyword_on with
    | none => src
    | some (keyword, after) =>
      -- a line break before the next dollar
      if keyword.contains LF then loop src else 73 :: 100 :: DOLLAR :: loop after
  | _ => loop src

def ident_to_git_loop (src : Bytes) : Bytes := at_dollars ident_to_git_rest src.length src

def ident_to_git (src : Bytes) (ident : Bool) : Option Bytes :=
  if !ident || count_ident src = 0 then none else some (ident_to_git_loop src)

/-- `"Id: " sha1 " $"`. -/
def expanded_id (sha1 : Sha1) : Bytes := [73, 100, 58, 32] ++ sha1_to_hex sha1 ++ [32, DOLLAR]

/-- A space in a keyword, after its first byte and before its last one, is probably an
id from some other versioning system. (The search of an empty keyword runs past it, and
what it finds there does not count.) -/
def foreign_keyword (keyword : Bytes) : Bool := (keyword.drop 1).dropLast.contains 32

/-- What `ident_to_worktree` does after a dollar sign. -/
def ident_to_worktree_rest (sha1 : Sha1) (loop : Bytes → Bytes) (src : Bytes) : Bytes :=
  match src with
  | 73 :: 100 :: ch :: rest =>
    if ch = DOLLAR then expanded_id sha1 ++ loop rest
    else if ch = 58 then
      match memchr DOLLAR rest with
      -- incomplete keyword, no more '$'
      | none => src
      | some (keyword, after) =>
        if keyword.contains LF || foreign_keyword keyword then loop src
        else expanded_id sha1 ++ loop after
    else loop src
  | _ => loop src

def ident_to_worktree_loop (sha1 : Sha1) (src : Bytes) : Bytes :=
  at_dollars (ident_to_worktree_rest sha1) src.length src

def ident_to_worktree (hash_sha1_file : Bytes → Sha1) (src : Bytes) (ident : Bool) :
    Option Bytes :=
  if !ident then none
  else if count_ident src = 0 then none
  else some (ident_to_worktree_loop (hash_sha1_file src) src)

/-! ## Both -/

/-- What `convert_to_git` leaves in `dst`, or `none` where it returns 0. -/
def convert_to_git (cfg : config) (path : String) (index : Option Bytes) (ca : conv_attrs)
    (src : Bytes) (checksafe : safe_crlf) : Except String (Option Bytes) :=
  let action := input_crlf_action ca.crlf_action ca.eol_attr
  (crlf_to_git cfg path index src action checksafe).map fun dst =>
    (ident_to_git (dst.getD src) ca.ident).or dst

/-- What `convert_to_working_tree` leaves in `dst`, or `none` where it returns 0. -/
def convert_to_working_tree (cfg : config) (hash_sha1_file : Bytes → Sha1) (ca : conv_attrs)
    (src : Bytes) : Option Bytes :=
  let dst := ident_to_worktree hash_sha1_file src ca.ident
  let action := input_crlf_action ca.crlf_action ca.eol_attr
  (crlf_to_worktree cfg (dst.getD src) action).or dst

end git.convert
