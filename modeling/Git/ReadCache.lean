-- The in-core index: lookup, removal and insertion of entries
-- (`read-cache.c`), with the resolve-undo records that a removal leaves
-- (`resolve-undo.c`).
import Git.CacheTree

open bsearch

namespace git

/-! ## The index -/

/-- The modes and names of the three stages that a path had. -/
structure resolve_undo_info where
  mode : Vector (BitVec 32) 3
  sha1 : Vector Sha1 3
  deriving DecidableEq, Repr

structure index_state where
  cache : List cache_entry
  version : BitVec 32
  cache_changed : Bool
  resolve_undo : Option (List (Bytes × Option resolve_undo_info))
  cache_tree : Option cache_tree
  timestamp : cache_time
  name_hash_initialized : Bool
  initialized : Bool

/-- An index that nothing was read into. -/
def index_state.empty : index_state where
  cache := []
  version := 0
  cache_changed := false
  resolve_undo := none
  cache_tree := none
  timestamp := ⟨0, 0⟩
  name_hash_initialized := false
  initialized := false

def index_state.cache_nr (istate : index_state) : Nat := istate.cache.length

/-! ## Resolve-undo records -/

def strcmp (a b : Bytes) : Ordering :=
  if memcmp a b (min a.length b.length) ≠ .eq then memcmp a b (min a.length b.length)
  else if a.length < b.length then .lt
  else if b.length < a.length then .gt
  else .eq

/-- `string_list_insert`: the list with an item for `string`, and its place. -/
def string_list_insert {α : Type} (list : List (Bytes × Option α)) (string : Bytes) :
    List (Bytes × Option α) × Nat :=
  match search (fun item => strcmp string item.1) list with
  | .found pos => (list, pos)
  | .absent pos => (list.insertIdx pos (string, none), pos)

/-- The record of `ce` at its stage, in the item of its name. -/
def record_lost (resolve_undo : List (Bytes × Option resolve_undo_info)) (ce : cache_entry) :
    List (Bytes × Option resolve_undo_info) :=
  let (list, pos) := string_list_insert resolve_undo ce.name
  let zeroed := ⟨Vector.replicate 3 0, Vector.replicate 3 (Vector.replicate 20 0)⟩
  let ui : resolve_undo_info := (list[pos]?.bind (·.2)).getD zeroed
  list.set pos (ce.name, some
    { mode := ui.mode.setIfInBounds (ce_stage ce - 1) ce.ce_mode
      sha1 := ui.sha1.setIfInBounds (ce_stage ce - 1) ce.sha1 })

def record_resolve_undo (istate : index_state) (ce : cache_entry) : index_state :=
  if ce_stage ce = 0 then istate
  else { istate with resolve_undo := some (record_lost (istate.resolve_undo.getD []) ce) }

/-! ## Entries in their places -/

/-- The flags after `add_name_hash`. The hash chains stay out of the model. -/
def add_name_hash (istate : index_state) (ce : cache_entry) : cache_entry :=
  let ce := ce.clear CE_UNHASHED
  if istate.name_hash_initialized then ce.mark CE_HASHED else ce

def set_index_entry (istate : index_state) (nr : Nat) (ce : cache_entry) : index_state :=
  { istate with cache := istate.cache.set nr (add_name_hash istate ce) }

def replace_index_entry (istate : index_state) (nr : Nat) (ce : cache_entry) : index_state :=
  { set_index_entry istate nr ce with cache_changed := true }

/-- The place of a name and its stage. `namelen` is the flags word, of which
the length and the stage count. -/
def index_name_pos (istate : index_state) (name : Bytes) (namelen : BitVec 32) : Pos :=
  search (fun ce => cache_name_compare name namelen ce.name ce.ce_flags) istate.cache

/-- Removes entry `pos`. The flag tells if there is an entry at `pos` still. -/
def remove_index_entry_at (istate : index_state) (pos : Nat) : index_state × Bool :=
  match istate.cache[pos]? with
  | none => (istate, false)
  | some ce =>
    let istate := record_resolve_undo istate ce
    let istate := { istate with cache_changed := true, cache := istate.cache.eraseIdx pos }
    (istate, decide (pos < istate.cache_nr))

def remove_marked_cache_entries (istate : index_state) : index_state :=
  { istate with
    cache := istate.cache.filter (fun ce => !ce.has CE_REMOVE)
    cache_changed := true }

/-- `while (pos < cache_nr && !strcmp(cache[pos]->name, path)) remove`. Each
turn takes one entry out. -/
def remove_all_named (path : Bytes) (pos : Nat) : Nat → index_state → index_state
  | 0, istate => istate
  | turns + 1, istate =>
    match istate.cache[pos]? with
    | none => istate
    | some ce =>
      if ce.name = path then remove_all_named path pos turns (remove_index_entry_at istate pos).1
      else istate

def remove_file_from_index (istate : index_state) (path : Bytes) : index_state :=
  let pos := (index_name_pos istate path (BitVec.ofNat 32 path.length)).val
  let istate := { istate with cache_tree := cache_tree_invalidate_path istate.cache_tree path }
  remove_all_named path pos istate.cache_nr istate

def ce_same_name (a b : cache_entry) : Bool :=
  ce_namelen b == ce_namelen a && a.name.take (ce_namelen a) == b.name.take (ce_namelen a)

/-! ## Paths that the index takes -/

/-- A component ends here. -/
def at_end : Bytes → Bool
  | [] => true
  | c :: _ => c == SLASH

/-- What may follow a leading `'.'`: not `.`, `..` or `.git`. -/
def verify_dotfile (rest : Bytes) : Bool :=
  if at_end rest then false
  else
    match rest with
    | 103 :: 105 :: 116 :: rest => !at_end rest
    | 46 :: rest => !at_end rest
    | _ => true

/-- The loop of `verify_path`. `inside` tells that a component starts here. -/
def verify_path_from : Bool → Bytes → Bool
  | true, [] => false
  | true, c :: path =>
    if (c == 46 && !verify_dotfile path) || c == SLASH then false
    else verify_path_from false path
  | false, [] => true
  | false, c :: path => verify_path_from (c == SLASH) path

def verify_path (path : Bytes) : Bool := verify_path_from true path

/-- A zeroed entry that is given its name, stage, mode and object name. -/
def new_entry (mode : BitVec 32) (sha1 : Sha1) (path : Bytes) (stage : Nat) : cache_entry where
  ce_ctime := ⟨0, 0⟩
  ce_mtime := ⟨0, 0⟩
  ce_dev := 0
  ce_ino := 0
  ce_mode := create_ce_mode mode
  ce_uid := 0
  ce_gid := 0
  ce_size := 0
  ce_flags := create_ce_flags path.length stage
  sha1 := sha1
  name := path

/-- Without `refresh`. -/
def make_cache_entry (mode : BitVec 32) (sha1 : Sha1) (path : Bytes) (stage : Nat) :
    Option cache_entry :=
  if !verify_path path then none else some (new_entry mode sha1 path stage)

/-! ## Files and directories of one name -/

/-- The loop of `has_file_name` from `pos`. Each turn takes a step or takes
an entry out. The flag is the return value: true for -1. -/
def has_file_name_from (ce : cache_entry) (ok_to_replace : Bool) :
    Nat → index_state → Nat → Bool → index_state × Bool
  | 0, istate, _, retval => (istate, retval)
  | turns + 1, istate, pos, retval =>
    match istate.cache[pos]? with
    | none => (istate, retval)
    | some p =>
      if ce_namelen p ≤ ce_namelen ce then (istate, retval)
      else if p.name.take (ce_namelen ce) ≠ ce.name.take (ce_namelen ce) then (istate, retval)
      else if ce_stage p ≠ ce_stage ce then
        has_file_name_from ce ok_to_replace turns istate (pos + 1) retval
      else if p.name[ce_namelen ce]? ≠ some SLASH then
        has_file_name_from ce ok_to_replace turns istate (pos + 1) retval
      else if p.has CE_REMOVE then
        has_file_name_from ce ok_to_replace turns istate (pos + 1) retval
      else if !ok_to_replace then (istate, true)
      else has_file_name_from ce ok_to_replace turns (remove_index_entry_at istate pos).1 pos true

/-- Do we have another file that has the beginning components being a proper
superset of the name we're trying to add? -/
def has_file_name (istate : index_state) (ce : cache_entry) (pos : Nat) (ok_to_replace : Bool) :
    index_state × Bool :=
  has_file_name_from ce ok_to_replace (istate.cache_nr - pos) istate pos false

/-- The places of the slashes of a name, from its end. -/
def slashes (name : Bytes) : List Nat :=
  ((List.range name.length).filter (fun i => name[i]? == some SLASH)).reverse

/-- The scan of `has_dir_name` for an entry that matches the subdirectory
`name[0..len]` already, at the stage, and is not to be removed. -/
def matches_subdirectory (name : Bytes) (len stage : Nat) : List cache_entry → Bool
  | [] => false
  | p :: rest =>
    if ce_namelen p ≤ len || p.name[len]? != some SLASH || p.name.take len != name.take len then
      false
    else if ce_stage p == stage && !p.has CE_REMOVE then true
    else matches_subdirectory name len stage rest

/-- The loop of `has_dir_name` over the leading directories, the longest
first. The flag is the return value: true for -1. -/
def has_dir_name_from (ce : cache_entry) (ok_to_replace : Bool) :
    List Nat → index_state → Bool → index_state × Bool
  | [], istate, retval => (istate, retval)
  | len :: lens, istate, retval =>
    let pos := index_name_pos istate ce.name (create_ce_flags len (ce_stage ce))
    match pos, (istate.cache[pos.val]?.map (·.has CE_REMOVE)) with
    | .found pos, some false =>
      if !ok_to_replace then (istate, true)
      else has_dir_name_from ce ok_to_replace lens (remove_index_entry_at istate pos).1 true
    | pos, _ =>
      if matches_subdirectory ce.name len (ce_stage ce) (istate.cache.drop pos.val) then
        (istate, retval)
      else has_dir_name_from ce ok_to_replace lens istate retval

/-- Do we have another file with a pathname that is a proper subset of the
name we're trying to add? -/
def has_dir_name (istate : index_state) (ce : cache_entry) (ok_to_replace : Bool) :
    index_state × Bool :=
  has_dir_name_from ce ok_to_replace (slashes (ce.name.take (ce_namelen ce))) istate false

def check_file_directory_conflict (istate : index_state) (ce : cache_entry) (pos : Nat)
    (ok_to_replace : Bool) : index_state × Bool :=
  -- When ce is an "I am going away" entry, we allow it to be added
  if ce.has CE_REMOVE then (istate, false)
  else
    let (istate, retval) := has_file_name istate ce pos ok_to_replace
    let (istate, retval') := has_dir_name istate ce ok_to_replace
    (istate, retval || retval')

/-! ## Insertion -/

/-- The `ADD_CACHE_*` bits of the option word. -/
structure add_option where
  ok_to_add : Bool
  ok_to_replace : Bool
  skip_dfcheck : Bool
  just_append : Bool
  new_only : Bool
  deriving DecidableEq, Repr

/-- `while (ce_same_name(cache[pos], ce)) remove`, which sets `ok_to_add`. -/
def remove_same_name (ce : cache_entry) (pos : Nat) :
    Nat → index_state → Bool → index_state × Bool
  | 0, istate, ok_to_add => (istate, ok_to_add)
  | turns + 1, istate, ok_to_add =>
    match istate.cache[pos]? with
    | none => (istate, ok_to_add)
    | some p =>
      if ce_same_name p ce then
        let (istate, more) := remove_index_entry_at istate pos
        if more then remove_same_name ce pos turns istate true else (istate, true)
      else (istate, ok_to_add)

/-- What `add_index_entry_with_check` returns. -/
inductive check_result where
  /-- 0: an entry with the name and the stage was there. -/
  | done
  /-- -1 -/
  | error
  /-- `pos + 1`: the entry goes to `pos`. -/
  | insert_at (pos : Nat)
  deriving DecidableEq, Repr

def add_index_entry_with_check (istate : index_state) (ce : cache_entry) (option : add_option) :
    index_state × check_result :=
  let istate := { istate with cache_tree := cache_tree_invalidate_path istate.cache_tree ce.name }
  match index_name_pos istate ce.name ce.ce_flags with
  | .found pos =>
    -- existing match? Just replace it.
    (if option.new_only then istate else replace_index_entry istate pos ce, .done)
  | .absent pos =>
    -- Inserting a merged entry ("stage 0") into the index will always
    -- replace all non-merged entries..
    let (istate, ok_to_add) :=
      if ce_stage ce = 0 then remove_same_name ce pos istate.cache_nr istate option.ok_to_add
      else (istate, option.ok_to_add)
    if !ok_to_add then (istate, .error)
    else if !verify_path ce.name then (istate, .error)
    else if option.skip_dfcheck then (istate, .insert_at pos)
    else
      let (istate, conflict) := check_file_directory_conflict istate ce pos option.ok_to_replace
      if !conflict then (istate, .insert_at pos)
      else if !option.ok_to_replace then (istate, .error)
      else (istate, .insert_at (index_name_pos istate ce.name ce.ce_flags).val)

/-- The flag is the return value: true for 0, false for an error. -/
def add_index_entry (istate : index_state) (ce : cache_entry) (option : add_option) :
    index_state × Bool :=
  let (istate, ret) :=
    if option.just_append then (istate, .insert_at istate.cache_nr)
    else add_index_entry_with_check istate ce option
  match ret with
  | .done => (istate, true)
  | .error => (istate, false)
  | .insert_at pos =>
    ({ istate with
        cache := istate.cache.insertIdx pos (add_name_hash istate ce)
        cache_changed := true }, true)

def OK_TO_ADD_OR_REPLACE : add_option where
  ok_to_add := true
  ok_to_replace := true
  skip_dfcheck := false
  just_append := false
  new_only := false

/-- The entry that takes the place of `old` under its new name: no hash
state, and the length of the new name. The stage stays. -/
def renamed (old : cache_entry) (new_name : Bytes) : cache_entry :=
  { old with
    ce_flags := (old.ce_flags &&& ~~~(CE_STATE_MASK ||| CE_NAMEMASK)) |||
      create_ce_flags new_name.length 0
    name := new_name }

def rename_index_entry_at (istate : index_state) (nr : Nat) (new_name : Bytes) : index_state :=
  match istate.cache[nr]? with
  | none => istate
  | some old =>
    let istate := { istate with
      cache_tree := cache_tree_invalidate_path istate.cache_tree old.name }
    let istate := (remove_index_entry_at istate nr).1
    (add_index_entry istate (renamed old new_name) OK_TO_ADD_OR_REPLACE).1

end git
