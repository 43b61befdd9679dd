-- The merge functions of `unpack-trees.c`: what they put into the resulting
-- index for a path, and the checks that they make before.
import Git.StatMatch

namespace git.unpack_trees

inductive unpack_trees_error_types where
  | ERROR_WOULD_OVERWRITE
  | ERROR_NOT_UPTODATE_FILE
  | ERROR_NOT_UPTODATE_DIR
  | ERROR_NOT_UPTODATE_SUBMODULE
  | ERROR_WOULD_LOSE_UNTRACKED_OVERWRITTEN
  | ERROR_WOULD_LOSE_UNTRACKED_REMOVED
  | ERROR_BIND_OVERLAP
  | ERROR_SPARSE_NOT_UPTODATE_FILE
  | ERROR_WOULD_LOSE_ORPHANED_OVERWRITTEN
  | ERROR_WOULD_LOSE_ORPHANED_REMOVED
  deriving DecidableEq, Repr

open unpack_trees_error_types

/-- What a look for untracked files tells: the entries of a directory that
gives way to the file, and the paths that it rejects. -/
structure absent_check where
  ok : Bool
  removed : List cache_entry
  rejected : List (unpack_trees_error_types × Bytes)

/-- The options, the work tree and the index that the functions read.
`check_absent` is `verify_absent_1` from `check_leading_path` on, and
`lstat_enoent` tells if a failed `lstat` says that there is no such file. -/
structure unpack_trees_options where
  reset : Bool
  update : Bool
  index_only : Bool
  gently : Bool
  aggressive : Bool
  skip_sparse_checkout : Bool
  recurse_submodules : Bool
  cfg : config
  wt : worktree
  src_index : index_state
  lstat_enoent : Bytes → Bool
  is_submodule_checkout_safe : Bytes → Sha1 → Bool
  is_submodule_modified : Bytes → Bool
  check_absent : cache_entry → unpack_trees_error_types → absent_check

/-- What the functions write: the entries for the resulting index in the order
in which they are added, the paths that the cache-tree loses, the rejected
paths, and `nontrivial_merge`. -/
structure unpacked where
  result : List cache_entry
  invalidated : List Bytes
  unpack_rejects : List (unpack_trees_error_types × Bytes)
  nontrivial_merge : Bool

/-- The entries of a path, one a tree. `df_conflict_entry` stands for a directory. -/
inductive stage_entry where
  | null
  | df_conflict_entry
  | entry (ce : cache_entry)

/-- The entry that marks a directory is zeroed memory. -/
def df_conflict : cache_entry :=
  { ce_ctime := ⟨0, 0⟩, ce_mtime := ⟨0, 0⟩, ce_dev := 0, ce_ino := 0, ce_mode := 0, ce_uid := 0,
    ce_gid := 0, ce_size := 0, ce_flags := 0, sha1 := Vector.replicate 20 0, name := [] }

/-- The pointer: `none` is NULL. -/
def stage_entry.pointer : stage_entry → Option cache_entry
  | .null => none
  | .df_conflict_entry => some df_conflict
  | .entry ce => some ce

/-- `!stages[i] || stages[i] == o->df_conflict_entry` -/
def stage_entry.missing : stage_entry → Bool
  | .entry _ => false
  | _ => true

/-- The pointer, with a directory taken for NULL. -/
def stage_entry.file : stage_entry → Option cache_entry
  | .entry ce => some ce
  | _ => none

/-- The same file, or none on both sides. -/
def same (a b : Option cache_entry) : Bool :=
  match a, b with
  | none, none => true
  | some a, some b =>
    if (a.ce_flags ||| b.ce_flags) &&& CE_CONFLICTED ≠ 0 then false
    else a.ce_mode == b.ce_mode && a.sha1 == b.sha1
  | _, _ => false

/-! ## Additions and rejections -/

/-- `add_index_entry` of `o->result` is the append. -/
def add_entry (o : unpacked) (ce : cache_entry) (set clear : BitVec 32) : unpacked :=
  let clear := clear ||| (CE_HASHED ||| CE_UNHASHED)
  let set := if set &&& CE_REMOVE ≠ 0 then set ||| CE_WT_REMOVE else set
  { o with result := o.result ++ [(ce.clear clear).mark set] }

def add_rejected_path (o : unpacked) (e : unpack_trees_error_types) (path : Bytes) : unpacked :=
  { o with unpack_rejects := o.unpack_rejects ++ [(e, path)] }

/-- `o->gently ? -1 : add_rejected_path(o, e, path)` -/
def reject (opts : unpack_trees_options) (o : unpacked) (e : unpack_trees_error_types)
    (path : Bytes) : unpacked := if opts.gently then o else add_rejected_path o e path

def invalidate_ce_path (ce : cache_entry) (o : unpacked) : unpacked :=
  { o with invalidated := o.invalidated ++ [ce.name] }

/-- Keeps the hash state and the name of `dst`. -/
def copy_cache_entry (dst src : cache_entry) : cache_entry :=
  { src with
    name := dst.name
    ce_flags := (src.ce_flags &&& ~~~CE_STATE_MASK) ||| (dst.ce_flags &&& CE_STATE_MASK) }

/-! ## Checks of the work tree -/

/-- An entry of a mode that no entry has, at which git dies, counts as changed. -/
def changed (opts : unpack_trees_options) (ce : cache_entry) (f : worktree_file) : Bool :=
  ie_match_stat opts.cfg opts.wt opts.src_index ce f
    { ignore_valid := true, racy_is_dirty := false, ignore_skip_worktree := true } != some 0

/-- The end of a check that found no `return 0`: nothing of the file is lost
where `lstat` finds none. -/
def lost_unless_enoent (opts : unpack_trees_options) (ce : cache_entry) : Bool :=
  (opts.wt.lstat ce.name).isNone && opts.lstat_enoent ce.name

def verify_uptodate_1 (opts : unpack_trees_options) (ce : cache_entry) : Bool :=
  if opts.index_only then true
  -- CE_VALID and CE_SKIP_WORKTREE cheat, we better check again
  else if !(ce.has CE_VALID || ce_skip_worktree ce) && (opts.reset || ce.has CE_UPTODATE) then true
  else
    match opts.wt.lstat ce.name with
    | some f =>
      if !changed opts ce f then
        !S_ISGITLINK ce.ce_mode || !opts.recurse_submodules ||
          (if ce_stage ce ≠ 0 then opts.is_submodule_checkout_safe ce.name ce.sha1
          else !opts.is_submodule_modified ce.name)
      else S_ISGITLINK ce.ce_mode && !opts.recurse_submodules
    | none => lost_unless_enoent opts ce

def verify_uptodate (opts : unpack_trees_options) (ce : cache_entry) : Bool :=
  (!opts.skip_sparse_checkout && ce.has CE_NEW_SKIP_WORKTREE) || verify_uptodate_1 opts ce

def verify_uptodate_submodule (opts : unpack_trees_options) (old new : cache_entry) : Bool :=
  if opts.index_only || (!(old.has CE_VALID || ce_skip_worktree old) &&
      (opts.reset || old.has CE_UPTODATE)) then true
  else
    match opts.wt.lstat old.name with
    | some f =>
      if !changed opts old f then
        !S_ISGITLINK old.ce_mode || !opts.recurse_submodules ||
          opts.is_submodule_checkout_safe new.name new.sha1
      else S_ISGITLINK old.ce_mode && !opts.recurse_submodules
    | none => lost_unless_enoent opts old

def verify_absent (opts : unpack_trees_options) (ce : cache_entry)
    (error_type : unpack_trees_error_types) : absent_check :=
  if !opts.skip_sparse_checkout && ce.has CE_NEW_SKIP_WORKTREE then ⟨true, [], []⟩
  else if opts.index_only || opts.reset || !opts.update then ⟨true, [], []⟩
  else opts.check_absent ce error_type

/-- The entries of a directory that gives way get `CE_REMOVE`. -/
def absent_checked (o : unpacked) (check : absent_check) : unpacked :=
  let o := check.removed.foldl (fun o ce => add_entry o ce CE_REMOVE 0) o
  { o with unpack_rejects := o.unpack_rejects ++ check.rejected }

/-! ## The entry of a path -/

def merged_entry (opts : unpack_trees_options) (o : unpacked) (merge : cache_entry) :
    Option cache_entry → Int × unpacked
  | none =>
    let merge := merge.mark CE_NEW_SKIP_WORKTREE
    let check := verify_absent opts merge ERROR_WOULD_LOSE_UNTRACKED_OVERWRITTEN
    let o := absent_checked o check
    if !check.ok then (-1, o)
    else (1, add_entry (invalidate_ce_path merge o) merge (CE_UPDATE ||| CE_ADDED) CE_STAGEMASK)
  | some old =>
    if !old.has CE_CONFLICTED then
      -- See if we can re-use the old CE directly?
      if same (some old) (some merge) then
        (1, add_entry o (copy_cache_entry merge old) 0 CE_STAGEMASK)
      else
        let update := CE_UPDATE ||| (old.ce_flags &&& (CE_SKIP_WORKTREE ||| CE_NEW_SKIP_WORKTREE))
        if S_ISGITLINK old.ce_mode || S_ISGITLINK merge.ce_mode then
          if !verify_uptodate_submodule opts old merge then
            (-1, reject opts o ERROR_NOT_UPTODATE_SUBMODULE old.name)
          else (1, add_entry (invalidate_ce_path old o) merge update CE_STAGEMASK)
        else if !verify_uptodate opts old then
          (-1, reject opts o ERROR_NOT_UPTODATE_FILE old.name)
        else (1, add_entry (invalidate_ce_path old o) merge update CE_STAGEMASK)
    -- Previously unmerged entry left as an existence marker
    else (1, add_entry (invalidate_ce_path old o) merge CE_UPDATE CE_STAGEMASK)

def deleted_entry (opts : unpack_trees_options) (o : unpacked) (ce : cache_entry) :
    Option cache_entry → Int × unpacked
  | none =>
    let check := verify_absent opts ce ERROR_WOULD_LOSE_UNTRACKED_REMOVED
    let o := absent_checked o check
    if !check.ok then (-1, o) else (0, o)
  | some old =>
    if !old.has CE_CONFLICTED && !verify_uptodate opts old then
      (-1, reject opts o ERROR_NOT_UPTODATE_FILE old.name)
    else (1, invalidate_ce_path ce (add_entry o ce CE_REMOVE 0))

def keep_entry (o : unpacked) (ce : cache_entry) : Int × unpacked := (1, add_entry o ce 0 0)

/-! ## Three-way merge -/

/-- `stages[0]`, those before `stages[head_idx]`, and the last two. -/
structure merge_stages where
  index : stage_entry
  ancestors : List stage_entry
  head : stage_entry
  remote : stage_entry

/-- The last of the ancestors that is the same as `ce`, counted from `i`;
`found` where none is. -/
def last_match (ce : Option cache_entry) : Nat → Nat → List stage_entry → Nat
  | _, found, [] => found
  | i, found, stage :: stages =>
    last_match ce (i + 1) (if same stage.pointer ce then i else found) stages

/-- The local variables of `threeway_merge`. -/
structure merge_case where
  index : Option cache_entry
  ancestors : List stage_entry
  head : Option cache_entry
  remote : Option cache_entry
  head_match : Nat
  remote_match : Nat
  df_conflict_head : Bool
  df_conflict_remote : Bool
  any_anc_missing : Bool
  no_anc_exists : Bool

def stage_entry.is_df_conflict : stage_entry → Bool
  | .df_conflict_entry => true
  | _ => false

def merge_stages.case (stages : merge_stages) : merge_case :=
  let head := stages.head.file
  let remote := stages.remote.file
  { index := stages.index.pointer, ancestors := stages.ancestors, head := head, remote := remote
    -- First, if there's a #16 situation, note that to prevent #13 and #14.
    head_match := if !same remote head then last_match head 1 0 stages.ancestors else 0
    remote_match := if !same remote head then last_match remote 1 0 stages.ancestors else 0
    df_conflict_head := stages.head.is_df_conflict
    df_conflict_remote := stages.remote.is_df_conflict
    any_anc_missing := stages.ancestors.any stage_entry.missing
    no_anc_exists := stages.ancestors.all stage_entry.missing }

/-- The first ancestor that is a file. -/
def first_ancestor (ancestors : List stage_entry) : Option cache_entry :=
  ancestors.findSome? stage_entry.file

/-- `merged_entry` of a pointer that is not NULL. -/
def merged_pointer (opts : unpack_trees_options) (o : unpacked) (merge old : Option cache_entry) :
    Int × unpacked :=
  match merge with
  | some merge => merged_entry opts o merge old
  | none => (-1, o)

/-- `reject_merge` of the index entry. -/
def reject_merge (opts : unpack_trees_options) (o : unpacked) (index : Option cache_entry) :
    Int × unpacked :=
  match index with
  | some ce => (-1, reject opts o ERROR_WOULD_OVERWRITE ce.name)
  | none => (-1, o)

/-- Deleted in both; deleted in one and unchanged in the other. -/
def merge_case.deletes (c : merge_case) : Bool :=
  (c.head.isNone && c.remote.isNone) ||
    (c.head.isNone && c.remote.isSome && c.remote_match != 0) ||
    (c.remote.isNone && c.head.isSome && c.head_match != 0)

/-- The "aggressive" deletion. The first of index and head is the path that must be
absent when it is not deleted in head. -/
def delete_path (opts : unpack_trees_options) (o : unpacked) (c : merge_case) : Int × unpacked :=
  match c.index, c.head with
  | some index, _ => deleted_entry opts o index (some index)
  | none, some head =>
    let check := verify_absent opts head ERROR_WOULD_LOSE_UNTRACKED_REMOVED
    let o := absent_checked o check
    if !check.ok then (-1, o) else (0, o)
  | none, none => (0, o)

/-- Adds what the pointer points to, and counts it. -/
def keep_pointer (kept : Int × unpacked) (ce : Option cache_entry) : Int × unpacked :=
  match ce with
  | none => kept
  | some ce =>
    let (one, o) := keep_entry kept.2 ce
    (kept.1 + one, o)

/-- The "no merge" cases #2, #3, #4, #6, #7, #9, #10, #11 and #16. -/
def keep_stages (o : unpacked) (c : merge_case) : Int × unpacked :=
  let kept := (0, { o with nontrivial_merge := true })
  let kept :=
    if c.head_match = 0 ∨ c.remote_match = 0 then keep_pointer kept (first_ancestor c.ancestors)
    else kept
  keep_pointer (keep_pointer kept c.head) c.remote

/-- "No merge" requires the index to be up-to-date. -/
def no_merge (opts : unpack_trees_options) (o : unpacked) (c : merge_case) : Int × unpacked :=
  match c.index with
  | some ce =>
    if !verify_uptodate opts ce then (-1, reject opts o ERROR_NOT_UPTODATE_FILE ce.name)
    else keep_stages o c
  | none => keep_stages o c

def threeway_merge (opts : unpack_trees_options) (o : unpacked) (stages : merge_stages) :
    Int × unpacked :=
  let c := stages.case
  -- #14, #14ALT, #2ALT
  if c.remote.isSome && !c.df_conflict_head && c.head_match != 0 && c.remote_match == 0 then
    if c.index.isSome && !same c.index c.remote && !same c.index c.head then
      reject_merge opts o c.index
    else merged_pointer opts o c.remote c.index
  -- If we have an entry in the index cache, then we want to make sure that it matches head.
  else if c.index.isSome && !same c.index c.head then reject_merge opts o c.index
  -- #5ALT, #15
  else if c.head.isSome && same c.head c.remote then merged_pointer opts o c.head c.index
  -- #13, #3ALT
  else if c.head.isSome && !c.df_conflict_remote && c.remote_match != 0 && c.head_match == 0 then
    merged_pointer opts o c.head c.index
  -- #1
  else if c.head.isNone && c.remote.isNone && c.any_anc_missing then (0, o)
  else if opts.aggressive && c.deletes then delete_path opts o c
  -- Added in both, identically.
  else if opts.aggressive && c.no_anc_exists && c.head.isSome && c.remote.isSome &&
      same c.head c.remote then
    merged_pointer opts o c.head c.index
  else no_merge opts o c

end git.unpack_trees
