-- How entries come by their stat fields: `add_to_index` and `refresh_index`
-- (`read-cache.c`), without core.ignorecase and without what they print.
import Git.StatMatch

namespace git

/-! ## Adding a file -/

/-- A loop over the slashes at the end of a path. -/
def strip_slashes (path : Bytes) : Bytes := path.rdropWhile (· == SLASH)

/-- A hash chain has the entries of one name; those of `CE_UNHASHED` are out. -/
def index_name_exists (istate : index_state) (name : Bytes) : Option cache_entry :=
  istate.cache.find? fun ce => !ce.has CE_UNHASHED && ce.name == name

def index_name_pos_also_unmerged (istate : index_state) (path : Bytes) : Option cache_entry :=
  match index_name_pos istate path (BitVec.ofNat 32 path.length) with
  | .found pos => istate.cache[pos]?
  | .absent pos =>
    match istate.cache[pos]? with
    | none => none
    | some ce =>
      if ce.name ≠ path then none
      -- order of preference: stage 2, 1, 3
      else
        match istate.cache[pos + 1]? with
        | none => some ce
        | some next =>
          if ce_stage ce = 1 ∧ ce_stage next = 2 ∧ next.name = path then some next else some ce

def ce_mode_from_stat (cfg : config) (ce : Option cache_entry) (mode : BitVec 32) : BitVec 32 :=
  match ce with
  | some ce =>
    if !cfg.has_symlinks && S_ISREG mode && S_ISLNK ce.ce_mode then ce.ce_mode
    else if !cfg.trust_executable_bit && S_ISREG mode then
      if S_ISREG ce.ce_mode then ce.ce_mode else create_ce_mode 0o666
    else create_ce_mode mode
  | none =>
    if !cfg.trust_executable_bit && S_ISREG mode then create_ce_mode 0o666
    else create_ce_mode mode

/-- `none` when the file or the link cannot be read, or HEAD does not resolve. -/
def index_path (wt : worktree) (f : worktree_file) : Option Sha1 :=
  if S_ISREG f.st.st_mode then f.data.map wt.hash_blob
  else if S_ISLNK f.st.st_mode then f.data.map wt.hash_blob
  else if S_ISDIR f.st.st_mode then f.head
  else none

/-- The `ADD_CACHE_*` flags that `add_to_index` reads. -/
structure add_flags where
  pretend : Bool
  intent : Bool

/-- The entry before it gets a mode and an object name. -/
def entry_for (cfg : config) (path : Bytes) (f : worktree_file) (intent_only : Bool) :
    cache_entry :=
  let ce := { new_entry 0 (Vector.replicate 20 0) path 0 with
    ce_mode := 0
    ce_flags := BitVec.ofNat 32 path.length }
  if intent_only then ce.mark CE_INTENT_TO_ADD else fill_stat_cache_info cfg ce f.st

/-- `ce_mark_uptodate` and `CE_ADDED` for the entries that are `alias_ce`. -/
def nothing_changed (istate : index_state) (alias_ce : cache_entry) : index_state :=
  { istate with
    cache := istate.cache.map fun ce =>
      if ce = alias_ce then
        (if !S_ISGITLINK ce.ce_mode then ce_mark_uptodate ce else ce).mark CE_ADDED
      else ce }

def add_to_index_option (intent_only : Bool) : add_option :=
  { OK_TO_ADD_OR_REPLACE with new_only := intent_only }

/-- The flag is the return value: true for 0, false for an error. `none` where git dies. -/
def add_to_index (cfg : config) (wt : worktree) (istate : index_state) (path : Bytes)
    (f : worktree_file) (flags : add_flags) : Option (index_state × Bool) :=
  if !S_ISREG f.st.st_mode && !S_ISLNK f.st.st_mode && !S_ISDIR f.st.st_mode then
    some (istate, false)
  else
    let path := if S_ISDIR f.st.st_mode then strip_slashes path else path
    let mode :=
      if cfg.trust_executable_bit && cfg.has_symlinks then create_ce_mode f.st.st_mode
      else ce_mode_from_stat cfg (index_name_pos_also_unmerged istate path) f.st.st_mode
    let ce := { entry_for cfg path f flags.intent with ce_mode := mode }
    let alias_ce := (index_name_exists istate path).filter (ce_stage · = 0)
    let changed := alias_ce.map fun alias_ce =>
      ie_match_stat cfg wt istate alias_ce f
        { ignore_valid := true, racy_is_dirty := true, ignore_skip_worktree := true }
    match alias_ce, changed with
    | some _, some none => none
    | some alias_ce, some (some 0) => some (nothing_changed istate alias_ce, true)
    | _, _ =>
      match (if flags.intent then some EMPTY_BLOB_SHA1_BIN else index_path wt f) with
      | none => some (istate, false)
      | some sha1 =>
        let ce := { ce with sha1 := sha1 }.mark CE_ADDED
        if flags.pretend then some (istate, true)
        else some (add_index_entry istate ce (add_to_index_option flags.intent))

/-! ## Refreshing -/

/-- What `refresh_cache_ent` returns. -/
inductive refreshed where
  /-- The entry itself, which may have been marked. -/
  | same (ce : cache_entry)
  | updated (ce : cache_entry)
  /-- NULL for a file that is not there. -/
  | missing
  /-- NULL with EINVAL. -/
  | modified

/-- The copy of an unmodified entry with the stat fields of the file. -/
def refresh_copy (cfg : config) (ce : cache_entry) (st : stat) (options : match_option) :
    cache_entry :=
  let updated := fill_stat_cache_info cfg ce st
  -- leave CE_VALID bit alone
  if !options.ignore_valid && cfg.assume_unchanged && !ce.has CE_VALID then
    updated.clear CE_VALID
  else updated

/-- `none` where git dies. -/
def refresh_cache_ent (cfg : config) (wt : worktree) (istate : index_state) (ce : cache_entry)
    (options : match_option) : Option refreshed :=
  if ce_uptodate ce then some (.same ce)
  else if !options.ignore_skip_worktree && ce_skip_worktree ce then
    some (.same (ce_mark_uptodate ce))
  else if !options.ignore_valid && ce.has CE_VALID then some (.same (ce_mark_uptodate ce))
  else
    match wt.lstat ce.name with
    | none => some .missing
    | some f =>
      match ie_match_stat cfg wt istate ce f options, ie_modified cfg wt istate ce f options with
      | some changed, some modified =>
        if changed = 0 ∧
            ¬ (options.ignore_valid ∧ cfg.assume_unchanged ∧ ce.has CE_VALID = false) then
          some (.same (if S_ISGITLINK ce.ce_mode then ce else ce_mark_uptodate ce))
        else if modified ≠ 0 then some .modified
        else some (.updated (refresh_copy cfg ce f.st options))
      | _, _ => none

/-- The `REFRESH_*` flags. -/
structure refresh_flags where
  really : Bool
  unmerged : Bool
  quiet : Bool
  ignore_missing : Bool
  ignore_submodules : Bool

/-- The entries, if they changed, and if there were errors. -/
structure refresh_result where
  cache : List cache_entry
  cache_changed : Bool
  has_errors : Bool

/-- The loop of `refresh_index`; `skip` is a name whose entries it has run over. -/
def refresh_entries (cfg : config) (wt : worktree) (istate : index_state) (flags : refresh_flags)
    (pathspec : Bytes → Bool) : Option Bytes → List cache_entry → Option refresh_result
  | _, [] => some ⟨[], false, false⟩
  | skip, ce :: cache =>
    let keep (skip : Option Bytes) (errors : Bool) :=
      (refresh_entries cfg wt istate flags pathspec skip cache).map fun r =>
        { r with cache := ce :: r.cache, has_errors := errors || r.has_errors }
    let replace (ce : cache_entry) (changed errors : Bool) :=
      (refresh_entries cfg wt istate flags pathspec none cache).map fun r =>
        ⟨ce :: r.cache, changed || r.cache_changed, errors || r.has_errors⟩
    if skip = some ce.name then keep skip false
    else if flags.ignore_submodules && S_ISGITLINK ce.ce_mode then keep none false
    else if ce_stage ce ≠ 0 then keep (some ce.name) (!flags.unmerged)
    else if !pathspec ce.name then keep none false
    else
      match refresh_cache_ent cfg wt istate ce
          { ignore_valid := flags.really, racy_is_dirty := false, ignore_skip_worktree := false } with
      | none => none
      | some (.same ce) => replace ce false false
      | some (.updated ce) => replace (add_name_hash istate ce) true false
      | some .missing => keep none (!flags.ignore_missing && !flags.quiet)
      | some .modified =>
        -- the index is not valid anymore
        if flags.really then replace (ce.clear CE_VALID) true (!flags.quiet)
        else keep none (!flags.quiet)

/-- The flag is the return value: true for errors. -/
def refresh_index (cfg : config) (wt : worktree) (istate : index_state) (flags : refresh_flags)
    (pathspec : Bytes → Bool) : Option (index_state × Bool) :=
  (refresh_entries cfg wt istate flags pathspec none istate.cache).map fun r =>
    ({ istate with cache := r.cache, cache_changed := istate.cache_changed || r.cache_changed },
      r.has_errors)

end git
