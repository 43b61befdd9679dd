-- Renaming a reference, `rename_ref` of `refs.c`, with the moves of its reflog and the steps that
-- undo it where one of the calls fails.
import Git.DeleteRef
import Git.ReflogWrite

namespace git.rename

open git.refs (ref_store packed_ref ref_flag null_sha1 names_conflict resolve_ref_unsafe read_ref
  HEAD)
open git.reflog (ident)

/-- The references, and the files under `logs/`. -/
structure store where
  refs : ref_store
  logs : Bytes → Option Bytes

/-! ## The calls that fail -/

structure delete_failures where
  unlink : Bool
  packed_lock : Bool
  commit : Bool
  unlink_log : Bool

/-- The log that cannot be made, or opened, or only takes so many bytes. -/
structure log_failures where
  setup : Bool
  opening : Bool
  written : Option Nat

structure write_failures where
  write : Bool
  log : log_failures
  orig_log : log_failures
  head_log : log_failures
  commit : Bool

/-- A `rename` that finds a directory in its way, which can be removed or not, or fails for
another reason. -/
inductive attempt where
  | in_the_way (removed : Bool)
  | failed

/-- What fails, step by step. -/
structure failures where
  log_to_tmp : Bool
  delete_old : delete_failures
  delete_new : delete_failures
  delete_new_EISDIR : Bool
  remove_new_directories : Bool
  log_directories : Bool
  tmp_to_new : List attempt
  lock_new : Bool
  write_new : write_failures
  lock_old : Bool
  write_old : write_failures
  log_to_old : Bool

/-- The rest of the repository: the objects, and whether `parse_object` finds a commit, the
reflogs that are symbolic links, the committer, and the setting of `core.logallrefupdates`. -/
structure surroundings where
  has_sha1_file : Sha1 → Bool
  parse_object : Sha1 → Option Bool
  S_ISLNK : Bytes → Bool
  who : ident
  log_all_ref_updates : Bool

/-! ## Reflogs -/

/-- `"refs/.tmp-renamed-log"` -/
def TMP_RENAMED_LOG : Bytes :=
  [114, 101, 102, 115, 47, 46, 116, 109, 112, 45, 114, 101, 110, 97, 109, 101, 100, 45, 108, 111,
    103]

/-- `"refs/"` -/
def REFS : Bytes := [114, 101, 102, 115, 47]

/-- `"refs/heads/"` -/
def REFS_HEADS : Bytes := REFS ++ [104, 101, 97, 100, 115, 47]

/-- `"refs/remotes/"` -/
def REFS_REMOTES : Bytes := REFS ++ [114, 101, 109, 111, 116, 101, 115, 47]

/-- `"refs/notes/"` -/
def REFS_NOTES : Bytes := REFS ++ [110, 111, 116, 101, 115, 47]

/-- The names for which `log_ref_setup` makes a log. -/
def gets_log (refname : Bytes) : Bool :=
  REFS_HEADS.isPrefixOf refname || REFS_REMOTES.isPrefixOf refname ||
    REFS_NOTES.isPrefixOf refname || refname == HEAD

/-- Whether it returns 0, and the logs. -/
def log_ref_write (w : surroundings) (f : log_failures) (log_all_ref_updates : Bool)
    (logs : Bytes → Option Bytes) (refname : Bytes) (old_sha1 new_sha1 : Sha1) (msg : Bytes) :
    Bool × (Bytes → Option Bytes) :=
  if f.setup then (false, logs)
  else
    match (logs refname).or (if log_all_ref_updates && gets_log refname then some [] else none) with
    | none => (true, logs)
    | some log =>
      if f.opening then (true, Function.update logs refname (some log))
      else
        let (result, text) := git.reflog.log_ref_write log old_sha1 new_sha1 w.who msg
        match f.written with
        | none => (result = 0, Function.update logs refname (some text))
        | some written =>
          (false, Function.update logs refname (some (text.take (log.length + written))))

/-- `rename` of a log that is there. -/
def rename_log (logs : Bytes → Option Bytes) (oldpath newpath : Bytes) : Bytes → Option Bytes :=
  fun path =>
    if path = newpath then logs oldpath else if path = oldpath then none else logs path

/-- The attempts at one rename, behind the label `retry`: whether it comes off in the end. -/
def retry : List attempt → Bool
  | [] => true
  | .failed :: _ => false
  | .in_the_way removed :: more => removed && retry more

/-! ## Locking, writing and deleting -/

def is_refname_available (refname oldrefname : Bytes) (existing : List Bytes) : Bool :=
  !existing.any fun existingrefname =>
    existingrefname != oldrefname && names_conflict refname existingrefname

structure ref_lock where
  ref_name : Bytes
  orig_ref_name : Bytes
  old_sha1 : Sha1
  force_write : Bool

/-- Without an old value and without flags. -/
def lock_ref_sha1_basic (fails : Bool) (refs : ref_store) (refname : Bytes) : Option ref_lock :=
  match (git.refs.lock_ref_sha1_basic refs refname none).1,
    ( resolve_ref_unsafe refs refname false).1 with
  | some ref_name, some (_, sha1) =>
    if fails then none else some ⟨ref_name, refname, sha1, sha1 = null_sha1⟩
  | _, _ => none

def is_branch (refname : Bytes) : Bool := refname == HEAD || REFS_HEADS.isPrefixOf refname

/-- The loose file takes its place. The names in a store are apart, so that none is in the way
of it. -/
def commit_ref (refs : ref_store) (ref_name : Bytes) (sha1 : Sha1) : Option ref_store :=
  if h : ∀ entry ∈ refs.packed, names_conflict ref_name entry.refname = false then
    some {
      loose := (ref_name, .object sha1) :: refs.loose.filter (·.1 != ref_name)
      packed := refs.packed
      apart := by
        intro file hfile entry hentry
        rcases List.mem_cons.mp hfile with rfl | hfile
        · exact h entry hentry
        · exact refs.apart file (List.mem_of_mem_filter hfile) entry hentry }
  else none

/-- The update of the log of `HEAD`, where `HEAD` is on the reference. -/
def log_head (w : surroundings) (f : log_failures) (log_all_ref_updates : Bool) (refs : ref_store)
    (logs : Bytes → Option Bytes) (lock : ref_lock) (sha1 : Sha1) (logmsg : Bytes) :
    Bytes → Option Bytes :=
  if lock.orig_ref_name = HEAD then logs
  else
    match resolve_ref_unsafe refs HEAD true with
    | (some (head_ref, _), head_flag) =>
      if head_flag.REF_ISSYMREF ∧ head_ref = lock.ref_name then
        (log_ref_write w f log_all_ref_updates logs HEAD lock.old_sha1 sha1 logmsg).2
      else logs
    | (none, _) => logs

/-- The log of the reference that is written and, behind a symbolic reference, the one of the name
that was asked for. -/
def log_names (w : surroundings) (f : write_failures) (log_all_ref_updates : Bool)
    (logs : Bytes → Option Bytes) (lock : ref_lock) (sha1 : Sha1) (logmsg : Bytes) :
    Bool × (Bytes → Option Bytes) :=
  match log_ref_write w f.log log_all_ref_updates logs lock.ref_name lock.old_sha1 sha1 logmsg with
  | (false, logs) => (false, logs)
  | (true, logs) =>
    if lock.ref_name ≠ lock.orig_ref_name then
      log_ref_write w f.orig_log log_all_ref_updates logs lock.orig_ref_name lock.old_sha1 sha1
        logmsg
    else (true, logs)

/-- Whether it returns 0, and the store. -/
def write_ref_sha1 (w : surroundings) (f : write_failures) (log_all_ref_updates : Bool)
    (s : store) (lock : ref_lock) (sha1 : Sha1) (logmsg : Bytes) : Bool × store :=
  if !lock.force_write && lock.old_sha1 = sha1 then (true, s)
  else
    match w.parse_object sha1 with
    | none => (false, s)
    | some is_commit =>
      if !is_commit && is_branch lock.ref_name then (false, s)
      else if f.write then (false, s)
      else
        match log_names w f log_all_ref_updates s.logs lock sha1 logmsg with
        | (false, logs) => (false, { s with logs := logs })
        | (true, logs) =>
          let logs := log_head w f.head_log log_all_ref_updates s.refs logs lock sha1 logmsg
          match if f.commit then none else commit_ref s.refs lock.ref_name sha1 with
          | none => (false, { s with logs := logs })
          | some refs => (true, ⟨refs, logs⟩)

/-- With `REF_NODEREF`: whether it returns 0, and the store. -/
def delete_ref (w : surroundings) (f : delete_failures) (s : store) (refname : Bytes)
    (sha1 : Sha1) : Bool × store :=
  match git.refs.lock_ref_sha1_basic s.refs refname (some sha1) with
  | (none, _) => (false, s)
  | (some ref_name, _) =>
    let (ret, refs) := git.refs.delete_ref ⟨w.has_sha1_file, f.unlink, f.packed_lock, f.commit⟩
      s.refs refname (some sha1) true
    let logs := if f.unlink_log then s.logs else Function.update s.logs ref_name none
    (ret = 0, ⟨refs, logs⟩)

/-! ## Renaming -/

/-- `goto rollback`, with `logmoved`. -/
abbrev Rollback : Type := Bool × store

def delete_old (w : surroundings) (f : failures) (oldrefname : Bytes) (orig_sha1 : Sha1)
    (s : store) : Except Rollback store :=
  let (ok, s) := delete_ref w f.delete_old s oldrefname orig_sha1
  if ok then .ok s else .error (false, s)

def delete_new (w : surroundings) (f : failures) (newrefname : Bytes) (s : store) :
    Except Rollback store :=
  match read_ref s.refs newrefname with
  | none => .ok s
  | some sha1 =>
    let (ok, s) := delete_ref w f.delete_new s newrefname sha1
    if ok then .ok s
    else if f.delete_new_EISDIR && !f.remove_new_directories then .ok s
    else .error (false, s)

def log_to_new (f : failures) (newrefname : Bytes) (log : Bool) (s : store) :
    Except Rollback store :=
  if log then
    if f.log_directories then .error (false, s)
    else if retry f.tmp_to_new then
      .ok { s with logs := rename_log s.logs TMP_RENAMED_LOG newrefname }
    else .error (false, s)
  else .ok s

def write_new (w : surroundings) (f : failures) (newrefname : Bytes) (orig_sha1 : Sha1)
    (log : Bool) (logmsg : Bytes) (s : store) : Except Rollback store :=
  match lock_ref_sha1_basic f.lock_new s.refs newrefname with
  | none => .error (log, s)
  | some lock =>
    let lock := { lock with force_write := true, old_sha1 := orig_sha1 }
    let (ok, s) := write_ref_sha1 w f.write_new w.log_all_ref_updates s lock orig_sha1 logmsg
    if ok then .ok s else .error (log, s)

/-- From the label `rollback` on. -/
def put_back (w : surroundings) (f : failures) (oldrefname : Bytes) (orig_sha1 : Sha1)
    (s : store) : store :=
  match lock_ref_sha1_basic f.lock_old s.refs oldrefname with
  | none => s
  | some lock =>
    (write_ref_sha1 w f.write_old false s { lock with force_write := true } orig_sha1 []).2

/-- From the label `rollbacklog` on. -/
def put_log_back (f : failures) (oldrefname newrefname : Bytes) (log logmoved : Bool)
    (s : store) : store :=
  if f.log_to_old then s
  else if logmoved then { s with logs := rename_log s.logs newrefname oldrefname }
  else if log then { s with logs := rename_log s.logs TMP_RENAMED_LOG oldrefname }
  else s

def log_to_tmp (oldrefname : Bytes) (s : store) : store :=
  if (s.logs oldrefname).isSome then
    { s with logs := rename_log s.logs oldrefname TMP_RENAMED_LOG }
  else s

/-- From the deletion of the old reference on. -/
def move_ref (w : surroundings) (f : failures) (oldrefname newrefname : Bytes) (orig_sha1 : Sha1)
    (log : Bool) (logmsg : Bytes) (s : store) : Except Rollback store := do
  let s ← delete_old w f oldrefname orig_sha1 s
  let s ← delete_new w f newrefname s
  let s ← log_to_new f newrefname log s
  write_new w f newrefname orig_sha1 log logmsg s

def rename_ref (w : surroundings) (f : failures) (s : store)
    (oldrefname newrefname logmsg : Bytes) : Int × store :=
  let log := (s.logs oldrefname).isSome
  if log && w.S_ISLNK oldrefname then (-1, s)
  else
    match resolve_ref_unsafe s.refs oldrefname true with
    | (symref, flag) =>
      if flag.REF_ISSYMREF then (-1, s)
      else
        match symref with
        | none => (-1, s)
        | some (_, orig_sha1) =>
          if !is_refname_available newrefname oldrefname (s.refs.packed.map (·.refname)) then
            (1, s)
          else if !is_refname_available newrefname oldrefname
              ((s.refs.loose.map (·.1)).filter (REFS.isPrefixOf ·)) then (1, s)
          else if log && f.log_to_tmp then (-1, s)
          else
            match move_ref w f oldrefname newrefname orig_sha1 log logmsg
                (log_to_tmp oldrefname s) with
            | .ok s => (0, s)
            | .error (logmoved, s) =>
              (1, put_log_back f oldrefname newrefname log logmoved
                (put_back w f oldrefname orig_sha1 s))

end git.rename
