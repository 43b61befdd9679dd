-- The references of `refs.c`: the loose files and packed-refs, how a name resolves, and how
-- a reference is deleted.
import Git.CacheEntry

namespace git.refs

/-! ## Names -/

/-- A control character, a space or one of `~ ^ : \ * ? [`, or DEL. -/
def bad_ref_char (ch : UInt8) : Bool :=
  ch ≤ 32 || ch == 127 || [126, 94, 58, 92, 42, 63, 91].contains ch

/-- The loop of `check_refname_component`: no `..` and no `@` with a brace behind it. -/
def component_chars : UInt8 → Bytes → Bool
  | _, [] => true
  | last, ch :: cp =>
    !(bad_ref_char ch || last == 46 && ch == 46 || last == 64 && ch == 123) &&
      component_chars ch cp

/-- Without the flags for a dot or a wildcard. It may not end with `.lock`. -/
def check_refname_component (refname : Bytes) : Bool :=
  component_chars 0 refname && !refname.isEmpty && refname.head? != some 46 &&
    !([46, 108, 111, 99, 107] : Bytes).isSuffixOf refname

/-- Whether the function returns 0. -/
def check_refname_format (refname : Bytes) (ALLOW_ONELEVEL : Bool) : Bool :=
  let components := refname.splitOn SLASH
  components.all check_refname_component && refname.getLast? != some 46 &&
    (ALLOW_ONELEVEL || 2 ≤ components.length)

/-- One of the names exactly matches the leading components of the other. -/
def names_conflict : Bytes → Bytes → Bool
  | [], [] => false
  | [], d :: _ => d == SLASH
  | c :: _, [] => c == SLASH
  | c :: refname1, d :: refname2 => if c = d then names_conflict refname1 refname2 else false

/-! ## The store -/

/-- What a loose file says. -/
inductive ref_file where
  | symref (target : Bytes)
  | object (sha1 : Sha1)
  | broken
  deriving DecidableEq

structure packed_ref where
  refname : Bytes
  sha1 : Sha1

/-- The files under the git directory, and the entries of packed-refs. `is_refname_available`
keeps the names apart. -/
structure ref_store where
  loose : List (Bytes × ref_file)
  packed : List packed_ref
  apart : ∀ file ∈ loose, ∀ entry ∈ packed, names_conflict file.1 entry.refname = false

inductive path_status where
  | file (f : ref_file)
  | directory
  | ENOTDIR
  | ENOENT

def is_below (dir path : Bytes) : Bool := (dir ++ [SLASH]).isPrefixOf path

/-- The directories are those with a file below. -/
def ref_store.lstat (refs : ref_store) (path : Bytes) : path_status :=
  match refs.loose.find? (·.1 == path) with
  | some file => .file file.2
  | none =>
    if refs.loose.any (is_below path ·.1) then .directory
    else if refs.loose.any (is_below ·.1 path) then .ENOTDIR
    else .ENOENT

def find_ref (refs : ref_store) (refname : Bytes) : Option Sha1 :=
  (refs.packed.find? (·.refname == refname)).map (·.sha1)

def null_sha1 : Sha1 := Vector.replicate 20 0

structure ref_flag where
  REF_ISSYMREF : Bool
  REF_ISPACKED : Bool
  REF_ISBROKEN : Bool

/-- The loop of `resolve_ref_unsafe`, of no more than `depth` turns. -/
def resolve_loop (refs : ref_store) (reading : Bool) :
    Nat → Bytes → ref_flag → Option (Bytes × Sha1) × ref_flag
  | 0, _, flag => (none, flag)
  | depth + 1, refname, flag =>
    match refs.lstat refname with
    | .ENOENT =>
      match find_ref refs refname with
      | some sha1 => (some (refname, sha1), { flag with REF_ISPACKED := true })
      | none => if reading then (none, flag) else (some (refname, null_sha1), flag)
    | .directory => (none, flag)
    | .ENOTDIR => (none, flag)
    | .file (.symref target) =>
      if check_refname_format target true then
        resolve_loop refs reading depth target { flag with REF_ISSYMREF := true }
      else (none, { flag with REF_ISSYMREF := true, REF_ISBROKEN := true })
    | .file (.object sha1) => (some (refname, sha1), flag)
    | .file .broken => (none, { flag with REF_ISBROKEN := true })

def MAXDEPTH : Nat := 5

def resolve_ref_unsafe (refs : ref_store) (refname : Bytes) (reading : Bool) :
    Option (Bytes × Sha1) × ref_flag :=
  if check_refname_format refname true then
    resolve_loop refs reading MAXDEPTH refname ⟨false, false, false⟩
  else (none, ⟨false, false, false⟩)

/-- The object that a name stands for, as `read_ref` gives it. -/
def read_ref (refs : ref_store) (refname : Bytes) : Option Sha1 :=
  ( resolve_ref_unsafe refs refname true).1.map (·.2)

/-! ## Deleting -/

def is_refname_available (refs : ref_store) (refname : Bytes) : Bool :=
  !refs.packed.any (names_conflict refname ·.refname)

/-- The name that is locked, if the old value is the expected one. -/
def verify_lock (refs : ref_store) (ref_name : Bytes) (old_sha1 : Sha1) (mustexist : Bool) :
    Option Bytes :=
  match ( resolve_ref_unsafe refs ref_name mustexist).1 with
  | none => none
  | some (_, sha1) => if sha1 ≠ old_sha1 then none else some ref_name

/-- Without `REF_NODEREF`: the name that is locked, and the type. -/
def lock_ref_sha1_basic (refs : ref_store) (refname : Bytes) (old_sha1 : Option Sha1) :
    Option Bytes × ref_flag :=
  let mustexist := old_sha1.any (· != null_sha1)
  match resolve_ref_unsafe refs refname mustexist with
  | (none, type) => (none, type)
  | (some (ref_name, sha1), type) =>
    if sha1 = null_sha1 ∧ !is_refname_available refs ref_name then (none, type)
    else
      match old_sha1 with
      | none => (some ref_name, type)
      | some old_sha1 => (verify_lock refs ref_name old_sha1 mustexist, type)

/-- The object database, and the calls that fail. -/
structure surroundings where
  has_sha1_file : Sha1 → Bool
  unlink_fails : Bool
  packed_lock_fails : Bool
  commit_fails : Bool

/-- `unlink_or_warn`: a file that is not there is no error to `delete_ref`. -/
def unlink_ref (w : surroundings) (refs : ref_store) (path : Bytes) : BitVec 32 × ref_store :=
  match refs.lstat path with
  | .file _ =>
    if w.unlink_fails then (1, refs)
    else
      (0, {
        loose := refs.loose.filter (·.1 != path)
        packed := refs.packed
        apart := fun file hfile => refs.apart file (List.mem_of_mem_filter hfile) })
  | .ENOENT => (0, refs)
  | .directory => (1, refs)
  | .ENOTDIR => (1, refs)

/-- `do_one_ref` does not hand on an entry without an object. -/
def repack_without_ref (w : surroundings) (refs : ref_store) (refname : Bytes) :
    BitVec 32 × ref_store :=
  if find_ref refs refname = none then (0, refs)
  else if w.packed_lock_fails then (-1, refs)
  else if w.commit_fails then (-1, refs)
  else
    (0, {
      loose := refs.loose
      packed := refs.packed.filter fun entry =>
        w.has_sha1_file entry.sha1 && entry.refname != refname
      apart := fun file hfile entry hentry =>
        refs.apart file hfile entry (List.mem_of_mem_filter hentry) })

def delete_ref (w : surroundings) (refs : ref_store) (refname : Bytes) (sha1 : Option Sha1)
    (REF_NODEREF : Bool) : BitVec 32 × ref_store :=
  match lock_ref_sha1_basic refs refname sha1 with
  | (none, _) => (1, refs)
  | (some ref_name, flag) =>
    let (ret, refs) :=
      if !flag.REF_ISPACKED || flag.REF_ISSYMREF then
        unlink_ref w refs (if REF_NODEREF then refname else ref_name)
      else (0, refs)
    let (repacked, refs) := repack_without_ref w refs refname
    (ret ||| repacked, refs)

end git.refs
