-- How `builtin/apply.c` checks a list of patches in core, with a table of the paths
-- that it has touched, and writes the results out in two phases.
import Git.CacheEntry

namespace git.apply

/-! ## Modes -/

theorem create_ce_mode_idem (mode : BitVec 32) :
    create_ce_mode (create_ce_mode mode) = create_ce_mode mode := by
  have hreg : ∀ m : BitVec 32, create_ce_mode (S_IFREG ||| ce_permissions m) =
      S_IFREG ||| ce_permissions m := by
    intro m
    unfold ce_permissions
    split_ifs
    · decide
    · decide
  by_cases hlnk : S_ISLNK mode = true
  · have h : create_ce_mode mode = S_IFLNK := if_pos hlnk
    rw [h]
    decide
  · by_cases hlink : (S_ISDIR mode || S_ISGITLINK mode) = true
    · have h : create_ce_mode mode = S_IFGITLINK := by
        unfold create_ce_mode
        rw [if_neg hlnk, if_pos hlink]
      rw [h]
      decide
    · have h : create_ce_mode mode = S_IFREG ||| ce_permissions mode := by
        unfold create_ce_mode
        rw [if_neg hlnk, if_neg hlink]
      rw [h, hreg]

theorem create_ce_mode_ne_zero (mode : BitVec 32) : create_ce_mode mode ≠ 0 := by
  unfold create_ce_mode ce_permissions
  split_ifs <;> decide

/-- A mode that is not given counts as the one of a new file. -/
theorem create_ce_mode_default (mode : BitVec 32) :
    create_ce_mode (if mode = 0 then S_IFREG ||| 0o644 else mode) = create_ce_mode mode := by
  split_ifs with h
  · rw [h]
    decide
  · rfl

/-! ## Files and patches -/

/-- What the index or the disk has for a path, with a mode that an entry can have. -/
structure blob where
  mode : BitVec 32
  buf : Bytes
  canonical : create_ce_mode mode = mode
  deriving DecidableEq

def blob_of (mode : BitVec 32) (buf : Bytes) : blob where
  mode := create_ce_mode mode
  buf := buf
  canonical := create_ce_mode_idem mode

abbrev path_map := AList fun _ : Bytes => blob

/-- What a run of apply changes. A directory is there when a path is below it. -/
structure apply_state where
  work_tree : path_map
  active_cache : path_map

/-- The options that decide which of the two a run looks at. -/
structure apply_opts where
  check_index : Bool
  cached : Bool
  cached_checks : cached = true → check_index = true

/-- A patch of one path. Its fragments are kept as the function from a preimage to a
result; `is_new` and `is_delete` are -1 where the patch does not say. -/
structure patch where
  new_name : Option Bytes
  old_name : Option Bytes
  old_mode : BitVec 32
  new_mode : BitVec 32
  is_new : Int
  is_delete : Int
  apply_fragments : Bytes → Option Bytes
  result : Bytes

/-- The name that `check_patch` reports. -/
def patch.name (p : patch) : Bytes := p.old_name.getD (p.new_name.getD [])

/-! ## The table of touched paths -/

/-- `item->util` of the table. -/
inductive path_status where
  | patched (patch : patch)
  | PATH_TO_BE_DELETED
  | PATH_WAS_DELETED

abbrev filename_table := AList fun _ : Bytes => path_status

def in_fn_table (fn_table : filename_table) (name : Option Bytes) : Option path_status :=
  name.bind fun name => fn_table.lookup name

def to_be_deleted : Option path_status → Bool
  | some .PATH_TO_BE_DELETED => true
  | _ => false

def was_deleted : Option path_status → Bool
  | some .PATH_WAS_DELETED => true
  | _ => false

def add_to_fn_table (fn_table : filename_table) (p : patch) : filename_table :=
  match p.new_name with
  | some new_name => fn_table.insert new_name (.patched p)
  | none =>
    match p.old_name with
    | some old_name => fn_table.insert old_name .PATH_WAS_DELETED
    | none => fn_table

def prepare_fn_table : filename_table → List patch → filename_table
  | fn_table, [] => fn_table
  | fn_table, p :: next =>
    match p.new_name, p.old_name with
    | none, some old_name =>
      prepare_fn_table (fn_table.insert old_name .PATH_TO_BE_DELETED) next
    | _, _ => prepare_fn_table fn_table next

/-! ## Writing -/

/-- A file stands where the path needs a directory, or a directory where it needs a file. -/
def df_conflict (paths : path_map) (path : Bytes) : Bool :=
  paths.keys.any fun other =>
    (other ++ [SLASH]).isPrefixOf path || (path ++ [SLASH]).isPrefixOf other

/-- `symlink` refuses an empty target; one with a NUL, which it would cut, is left out. -/
def try_create_file (work_tree : path_map) (path : Bytes) (mode : BitVec 32) (buf : Bytes) :
    Option path_map :=
  if df_conflict work_tree path then none
  else if S_ISLNK mode && (buf.isEmpty || buf.contains 0) then none
  else some (work_tree.insert path (blob_of mode buf))

/-- A file in the way is replaced by a rename over it. -/
def create_one_file (o : apply_opts) (s : apply_state) (path : Bytes) (mode : BitVec 32)
    (buf : Bytes) : Option apply_state :=
  if o.cached then some s
  else (try_create_file s.work_tree path mode buf).map fun work_tree => { s with work_tree }

def add_index_file (o : apply_opts) (s : apply_state) (path : Bytes) (mode : BitVec 32)
    (buf : Bytes) : Option apply_state :=
  if !o.check_index then some s
  else if df_conflict s.active_cache path then none
  else some { s with active_cache := s.active_cache.insert path (blob_of mode buf) }

def create_file (o : apply_opts) (s : apply_state) (p : patch) : Option apply_state :=
  match p.new_name with
  | none => some s
  | some path =>
    let mode := if p.new_mode = 0 then S_IFREG ||| 0o644 else p.new_mode
    (create_one_file o s path mode p.result).bind fun s =>
      add_index_file o s path mode p.result

/-- A file that is not there is no error. -/
def remove_file (o : apply_opts) (s : apply_state) (p : patch) : apply_state :=
  match p.old_name with
  | none => s
  | some old_name =>
    { work_tree := if o.cached then s.work_tree else s.work_tree.erase old_name
      active_cache := if o.check_index then s.active_cache.erase old_name else s.active_cache }

/-- Phase zero is to remove, phase one is to create. -/
def write_out_one_result (o : apply_opts) (s : apply_state) (p : patch) (phase : Nat) :
    Option apply_state :=
  if 0 < p.is_delete then
    some (if phase = 0 then remove_file o s p else s)
  else if 0 < p.is_new then
    if phase = 1 then create_file o s p else some s
  else if phase = 0 then some (remove_file o s p)
  else if phase = 1 then create_file o s p
  else some s

def write_out_phase (o : apply_opts) (phase : Nat) : apply_state → List patch → Option apply_state
  | s, [] => some s
  | s, l :: next =>
    (write_out_one_result o s l phase).bind fun s => write_out_phase o phase s next

def write_out_results (o : apply_opts) (s : apply_state) (list : List patch) :
    Option apply_state :=
  (write_out_phase o 0 s list).bind fun s => write_out_phase o 1 s list

/-! ## Checking -/

/-- The preimage that a patch is checked against, and the patch with what is known then. -/
structure preimage where
  s : apply_state
  patch : patch
  buf : Bytes

/-- The label `is_new`: the patch creates its path after all. -/
def turned_new (p : patch) : patch :=
  { p with is_new := 1, is_delete := 0, old_name := none }

/-- The rest of `check_preimage`, once `st_mode` is known. -/
def settle_modes (p : patch) (st_mode : BitVec 32) : Option patch :=
  let is_new := if p.is_new < 0 then 0 else p.is_new
  let old_mode := if p.old_mode = 0 then st_mode else p.old_mode
  if (st_mode ^^^ old_mode) &&& S_IFMT ≠ 0 then none
  else
    let new_mode :=
      if p.new_mode = 0 ∧ p.is_delete = 0 then st_mode else p.new_mode
    some { p with is_new, old_mode, new_mode }

/-- The file on disk that a patch changes: one that the index has and the disk lacks is
checked out first. Then it must match its entry. -/
def checked_out (o : apply_opts) (s : apply_state) (old_name : Bytes) (ce : blob) :
    Option (apply_state × blob) :=
  (match s.work_tree.lookup old_name with
    | some file => some (s, file)
    | none => (create_one_file o s old_name ce.mode ce.buf).map fun s =>
        (s, blob_of ce.mode ce.buf)).bind fun (s, file) =>
      if create_ce_mode file.mode = ce.mode ∧ file.buf = ce.buf then some (s, file) else none

/-- The preimage of a path that no patch before has touched. -/
def untouched_preimage (o : apply_opts) (s : apply_state) (p : patch) (old_name : Bytes) :
    Option preimage :=
  -- `lstat` says ENOTDIR below a file; a directory is no file to be patched
  if !o.cached && df_conflict s.work_tree old_name then none
  else if o.check_index then
    match s.active_cache.lookup old_name with
    | none => if p.is_new < 0 then some ⟨s, turned_new p, []⟩ else none
    | some ce =>
      if o.cached then (settle_modes p ce.mode).map fun p => ⟨s, p, ce.buf⟩
      else (checked_out o s old_name ce).bind fun (s, file) =>
        (settle_modes p (create_ce_mode file.mode)).map fun p => ⟨s, p, file.buf⟩
  else
    match s.work_tree.lookup old_name with
    | none => if p.is_new < 0 then some ⟨s, turned_new p, []⟩ else none
    | some file =>
      (settle_modes p (create_ce_mode file.mode)).map fun p => ⟨s, p, file.buf⟩

/-- `check_preimage`, with the bytes that `apply_data` reads for the same path. -/
def check_preimage (o : apply_opts) (fn_table : filename_table) (s : apply_state)
    (p : patch) : Option preimage :=
  match p.old_name with
  | none => some ⟨s, p, []⟩
  | some old_name =>
    if 0 < p.is_new then none
    else
      match in_fn_table fn_table old_name with
      | some .PATH_WAS_DELETED => none
      | some (.patched tpatch) =>
        (settle_modes p tpatch.new_mode).map fun p => ⟨s, p, tpatch.result⟩
      | some .PATH_TO_BE_DELETED => untouched_preimage o s p old_name
      | none => untouched_preimage o s p old_name

/-- `check_to_create_blob`. -/
def may_create_blob (s : apply_state) (new_name : Bytes) (ok_if_exists : Bool) : Bool :=
  (s.work_tree.lookup new_name).isNone || ok_if_exists

/-- The part of `check_patch` that is about a new file. -/
def check_to_create (o : apply_opts) (fn_table : filename_table) (s : apply_state)
    (p : patch) : Option patch :=
  let tpatch := in_fn_table fn_table p.new_name
  let ok_if_exists := was_deleted tpatch || to_be_deleted tpatch
  match p.new_name with
  | none => some p
  | some new_name =>
    if ¬ 0 < p.is_new then some p
    else if o.check_index && (s.active_cache.lookup new_name).isSome && !ok_if_exists then none
    else if !o.cached && !may_create_blob s new_name ok_if_exists then none
    else some (if p.new_mode = 0 then { p with new_mode := S_IFREG ||| 0o644 } else p)

/-- The part of `check_patch` that is about the type of a file that stays. -/
def check_new_mode (p : patch) : Option patch :=
  match p.new_name, p.old_name with
  | some _, some _ =>
    let new_mode := if p.new_mode = 0 then p.old_mode else p.new_mode
    if (p.old_mode ^^^ new_mode) &&& S_IFMT ≠ 0 then none
    else some { p with new_mode }
  | _, _ => some p

/-- The modes of a subproject, or of the directory that it is on disk. -/
def is_subproject (mode : BitVec 32) : Bool := S_ISGITLINK mode || S_ISDIR mode

/-- Apply the fragments to the preimage; the result stays in the patch and the table.
Patches of subprojects are left out here, and fail. -/
def apply_data (fn_table : filename_table) (p : patch) (buf : Bytes) :
    Option (filename_table × patch) :=
  if is_subproject p.old_mode || is_subproject p.new_mode then none
  else
    (p.apply_fragments buf).bind fun result =>
      let p := { p with result }
      if 0 < p.is_delete && !result.isEmpty then none
      else some (add_to_fn_table fn_table p, p)

def check_patch (o : apply_opts) (fn_table : filename_table) (s : apply_state) (p : patch) :
    Option (filename_table × apply_state × patch) :=
  (check_preimage o fn_table s p).bind fun pre =>
    (check_to_create o fn_table pre.s pre.patch).bind fun p =>
      (check_new_mode p).bind fun p =>
        (apply_data fn_table p pre.buf).map fun (fn_table, p) => (fn_table, pre.s, p)

/-- The loop of `check_patch_list`, up to the first patch that does not apply. -/
def check_patches (o : apply_opts) : filename_table → apply_state → List patch →
    Option (apply_state × List patch)
  | _, s, [] => some (s, [])
  | fn_table, s, p :: next =>
    (check_patch o fn_table s p).bind fun (fn_table, s, p) =>
      (check_patches o fn_table s next).map fun (s, list) => (s, p :: list)

def check_patch_list (o : apply_opts) (s : apply_state) (list : List patch) :
    Option (apply_state × List patch) :=
  check_patches o (prepare_fn_table ∅ list) s list

end git.apply
