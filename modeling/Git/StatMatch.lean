-- What `lstat` says about a path, held against the entry that the index has
-- for it (`read-cache.c`, built without USE_NSEC and USE_STDEV).
import Git.ReadCache

namespace git

/-! ## The work tree -/

structure stat where
  st_mode : BitVec 32
  st_mtime : Int
  st_mtime_nsec : Nat
  st_ctime : Int
  st_ctime_nsec : Nat
  st_dev : Nat
  st_ino : Nat
  st_uid : Nat
  st_gid : Nat
  st_size : Nat
  deriving DecidableEq, Repr

/-- A path that `lstat` finds. -/
structure worktree_file where
  st : stat
  /-- The bytes of the file or of the link, when they can be read. -/
  data : Option Bytes
  /-- What HEAD of the repository in the directory resolves to. -/
  head : Option Sha1

/-- `core.*` settings that the comparison reads. -/
structure config where
  trust_executable_bit : Bool
  trust_ctime : Bool
  has_symlinks : Bool
  assume_unchanged : Bool
  deriving DecidableEq, Repr

/-- The files by their names, the object names of contents (`index_fd`) and
the objects that can be read (`read_sha1_file`). -/
structure worktree where
  lstat : Bytes → Option worktree_file
  hash_blob : Bytes → Sha1
  read_sha1_file : Sha1 → Option Bytes

/-- The name of the empty blob. -/
def EMPTY_BLOB_SHA1_BIN : Sha1 :=
  #v[0xe6, 0x9d, 0xe2, 0x9b, 0xb2, 0xd1, 0xd6, 0x43, 0x4b, 0x8b,
     0x29, 0xae, 0x77, 0x5a, 0xd8, 0xc2, 0xe4, 0x8c, 0x53, 0x91]

def is_empty_blob_sha1 (sha1 : Sha1) : Bool := sha1 == EMPTY_BLOB_SHA1_BIN

def MTIME_CHANGED : BitVec 32 := 0x0001
def CTIME_CHANGED : BitVec 32 := 0x0002
def OWNER_CHANGED : BitVec 32 := 0x0004
def MODE_CHANGED : BitVec 32 := 0x0008
def INODE_CHANGED : BitVec 32 := 0x0010
def DATA_CHANGED : BitVec 32 := 0x0020
def TYPE_CHANGED : BitVec 32 := 0x0040

/-- A cast to `unsigned int`. -/
def unsigned_int (n : Nat) : BitVec 32 := BitVec.ofNat 32 n

/-- The cast of a `time_t` to `unsigned int`. -/
def unsigned_time (t : Int) : BitVec 32 := BitVec.ofInt 32 t

def fill_stat_cache_info (cfg : config) (ce : cache_entry) (st : stat) : cache_entry :=
  let ce := { ce with
    ce_ctime := ⟨unsigned_time st.st_ctime, unsigned_int st.st_ctime_nsec⟩
    ce_mtime := ⟨unsigned_time st.st_mtime, unsigned_int st.st_mtime_nsec⟩
    ce_dev := unsigned_int st.st_dev
    ce_ino := unsigned_int st.st_ino
    ce_uid := unsigned_int st.st_uid
    ce_gid := unsigned_int st.st_gid
    ce_size := unsigned_int st.st_size }
  let ce := if cfg.assume_unchanged then ce.mark CE_VALID else ce
  if S_ISREG st.st_mode then ce_mark_uptodate ce else ce

/-! ## The comparison

The functions of this part say true for a difference. -/

def ce_compare_data (wt : worktree) (ce : cache_entry) (f : worktree_file) : Bool :=
  match f.data with
  | none => true
  | some data => wt.hash_blob data != ce.sha1

def ce_compare_link (wt : worktree) (ce : cache_entry) (f : worktree_file) : Bool :=
  match f.data, wt.read_sha1_file ce.sha1 with
  | some link, some buffer => buffer != link
  | _, _ => true

/-- A repository that was never populated always matches. -/
def ce_compare_gitlink (ce : cache_entry) (f : worktree_file) : Bool :=
  match f.head with
  | none => false
  | some sha1 => sha1 != ce.sha1

def ce_modified_check_fs (wt : worktree) (ce : cache_entry) (f : worktree_file) : BitVec 32 :=
  if S_ISREG f.st.st_mode then
    if ce_compare_data wt ce f then DATA_CHANGED else 0
  else if S_ISLNK f.st.st_mode then
    if ce_compare_link wt ce f then DATA_CHANGED else 0
  else if S_ISDIR f.st.st_mode && S_ISGITLINK ce.ce_mode then
    if ce_compare_gitlink ce f then DATA_CHANGED else 0
  else TYPE_CHANGED

/-- The bits for times, owner, inode and size. -/
def stat_changed (cfg : config) (ce : cache_entry) (st : stat) : BitVec 32 :=
  (if ce.ce_mtime.sec ≠ unsigned_time st.st_mtime then MTIME_CHANGED else 0) |||
  (if cfg.trust_ctime ∧ ce.ce_ctime.sec ≠ unsigned_time st.st_ctime then CTIME_CHANGED else 0) |||
  (if ce.ce_uid ≠ unsigned_int st.st_uid ∨ ce.ce_gid ≠ unsigned_int st.st_gid then
    OWNER_CHANGED else 0) |||
  (if ce.ce_ino ≠ unsigned_int st.st_ino then INODE_CHANGED else 0) |||
  (if ce.ce_size ≠ unsigned_int st.st_size then DATA_CHANGED else 0) |||
  -- Racily smudged entry?
  (if ce.ce_size = 0 ∧ ¬ is_empty_blob_sha1 ce.sha1 then DATA_CHANGED else 0)

/-- `none` for an entry of a mode that no entry has, at which git dies. -/
def ce_match_stat_basic (cfg : config) (ce : cache_entry) (f : worktree_file) :
    Option (BitVec 32) :=
  if ce.has CE_REMOVE then some (MODE_CHANGED ||| DATA_CHANGED ||| TYPE_CHANGED)
  else if S_ISREG ce.ce_mode then
    some ((if ¬ S_ISREG f.st.st_mode then TYPE_CHANGED else 0) |||
      (if cfg.trust_executable_bit ∧ 0o100 &&& (ce.ce_mode ^^^ f.st.st_mode) ≠ 0 then
        MODE_CHANGED else 0) |||
      stat_changed cfg ce f.st)
  else if S_ISLNK ce.ce_mode then
    some ((if ¬ S_ISLNK f.st.st_mode ∧ (cfg.has_symlinks ∨ ¬ S_ISREG f.st.st_mode) then
        TYPE_CHANGED else 0) |||
      stat_changed cfg ce f.st)
  else if S_ISGITLINK ce.ce_mode then
    -- We ignore most of the st_xxx fields for gitlinks
    some (if ¬ S_ISDIR f.st.st_mode then TYPE_CHANGED
      else if ce_compare_gitlink ce f then DATA_CHANGED else 0)
  else none

def is_racy_timestamp (istate : index_state) (ce : cache_entry) : Bool :=
  !S_ISGITLINK ce.ce_mode && istate.timestamp.sec != 0 &&
    istate.timestamp.sec ≤ ce.ce_mtime.sec

/-- The `CE_MATCH_*` bits of the option word. -/
structure match_option where
  ignore_valid : Bool
  racy_is_dirty : Bool
  ignore_skip_worktree : Bool
  deriving DecidableEq, Repr

def ie_match_stat (cfg : config) (wt : worktree) (istate : index_state) (ce : cache_entry)
    (f : worktree_file) (options : match_option) : Option (BitVec 32) :=
  if !options.ignore_skip_worktree && ce_skip_worktree ce then some 0
  else if !options.ignore_valid && ce.has CE_VALID then some 0
  else if ce.has CE_INTENT_TO_ADD then some (DATA_CHANGED ||| TYPE_CHANGED ||| MODE_CHANGED)
  else
    match ce_match_stat_basic cfg ce f with
    | none => none
    | some changed =>
      if changed = 0 ∧ is_racy_timestamp istate ce then
        if options.racy_is_dirty then some DATA_CHANGED
        else some (ce_modified_check_fs wt ce f)
      else some changed

def ie_modified (cfg : config) (wt : worktree) (istate : index_state) (ce : cache_entry)
    (f : worktree_file) (options : match_option) : Option (BitVec 32) :=
  match ie_match_stat cfg wt istate ce f options with
  | none => none
  | some changed =>
    if changed = 0 then some 0
    else if changed &&& (MODE_CHANGED ||| TYPE_CHANGED) ≠ 0 then some changed
    -- Immediately after read-tree or update-index --cacheinfo, the length
    -- field is zero, and DATA_CHANGED cannot be trusted.
    else if changed &&& DATA_CHANGED ≠ 0 ∧ (S_ISGITLINK ce.ce_mode ∨ ce.ce_size ≠ 0) then
      some changed
    else
      let changed_fs := ce_modified_check_fs wt ce f
      if changed_fs ≠ 0 then some (changed ||| changed_fs) else some 0

/-- `none` where git dies. -/
def ce_smudge_racily_clean_entry (cfg : config) (wt : worktree) (ce : cache_entry) :
    Option cache_entry :=
  match wt.lstat ce.name with
  | none => some ce
  | some f =>
    match ce_match_stat_basic cfg ce f with
    | none => none
    | some changed =>
      if changed ≠ 0 then some ce
      -- This is "racily clean"; smudge it.
      else if ce_modified_check_fs wt ce f ≠ 0 then some { ce with ce_size := 0 }
      else some ce

/-- The stat fields match what `lstat` says, and the content is another. -/
def racily_clean (cfg : config) (wt : worktree) (ce : cache_entry) : Bool :=
  match wt.lstat ce.name with
  | none => false
  | some f => ce_match_stat_basic cfg ce f == some 0 && ce_modified_check_fs wt ce f != 0

/-- A smudge sets the size of a racily clean entry to 0. -/
theorem smudge_spec {cfg : config} {wt : worktree} {ce ce' : cache_entry}
    (h : ce_smudge_racily_clean_entry cfg wt ce = some ce') :
    ce' = if racily_clean cfg wt ce then { ce with ce_size := 0 } else ce := by
  unfold ce_smudge_racily_clean_entry at h
  unfold racily_clean
  cases hf : wt.lstat ce.name with
  | none =>
    simp only [hf, Option.some.injEq] at h
    simp [h]
  | some f =>
    simp only [hf] at h
    cases hm : ce_match_stat_basic cfg ce f with
    | none => simp [hm] at h
    | some changed =>
      simp only [hm] at h
      split_ifs at h with h0 h1
      · simp_all
      · have h0 : changed = 0 := not_not.mp h0
        simp_all
      · simp_all

end git
