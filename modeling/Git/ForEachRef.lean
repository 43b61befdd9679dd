-- Walking the references: the trees of the loose and of the packed references of `refs.c`, which
-- are read and sorted where a walk comes to them, and `do_for_each_ref`, which merges the two.
import Git.ReadCache
import Git.PackRefs

namespace git.for_each_ref

open git.refs (ref_flag null_sha1)
open git.refname (check_refname_format LOCK)
open git.packed_refs (packed_entry)
open bsearch (search Pos)

/-! ## The trees -/

/-- What `readdir` and `stat` find in a directory on the disk. -/
inductive node where
  | file (d_name : Bytes)
  | directory (d_name : Bytes) (nodes : List node)
  | unreadable (d_name : Bytes)

def node.d_name : node → Bytes
  | .file d_name => d_name
  | .directory d_name _ => d_name
  | .unreadable d_name => d_name

structure ref_value where
  sha1 : Sha1
  flag : ref_flag

structure ref_dir (α : Type) where
  entries : List α
  /-- So many entries at the front are sorted by name. -/
  sorted : Nat

/-- A directory that is not read yet stands with what the disk has in it. -/
inductive ref_entry where
  | value (name : Bytes) (u : ref_value)
  | subdir (name : Bytes) (u : ref_dir ref_entry)
  | incomplete (name : Bytes) (nodes : List node)

def ref_entry.name : ref_entry → Bytes
  | .value name _ => name
  | .subdir name _ => name
  | .incomplete name _ => name

/-- What the walk asks of the rest of the repository: the submodule, or no name for the main
repository, the values of references, and which objects there are. -/
structure surroundings where
  name : Bytes
  read_ref_full : Bytes → Option Sha1 × ref_flag
  resolve_gitlink_ref : Bytes → Option Sha1
  has_sha1_file : Sha1 → Bool

def create_ref_entry (refname : Bytes) (u : ref_value) : Option ref_entry :=
  if check_refname_format refname ⟨true, false, true⟩ then some (.value refname u) else none

def add_entry_to_dir (dir : ref_dir ref_entry) (entry : ref_entry) : ref_dir ref_entry :=
  { dir with entries := dir.entries ++ [entry] }

/-! ## Reading a directory -/

def has_extension (filename ext : Bytes) : Bool :=
  decide (ext.length < filename.length) && ext.isSuffixOf filename

def skipped (d_name : Bytes) : Bool := d_name.head? == some 46 || has_extension d_name LOCK

/-- The value of a file: one that does not resolve is broken. -/
def loose_value (w : surroundings) (refname : Bytes) : ref_value :=
  if w.name ≠ [] then
    match w.resolve_gitlink_ref refname with
    | some sha1 => ⟨sha1, ⟨false, false, false⟩⟩
    | none => ⟨null_sha1, ⟨false, false, true⟩⟩
  else
    match w.read_ref_full refname with
    | (some sha1, flag) => ⟨sha1, flag⟩
    | (none, flag) => ⟨null_sha1, { flag with REF_ISBROKEN := true }⟩

def read_loose_refs (w : surroundings) (dirname : Bytes) :
    List node → ref_dir ref_entry → Option (ref_dir ref_entry)
  | [], dir => some dir
  | de :: nodes, dir =>
    if skipped de.d_name then read_loose_refs w dirname nodes dir
    else
      match de with
      | .unreadable _ => read_loose_refs w dirname nodes dir
      | .directory d_name below =>
        let refname := dirname ++ d_name ++ [SLASH]
        read_loose_refs w dirname nodes (add_entry_to_dir dir (.incomplete refname below))
      | .file d_name => do
        let refname := dirname ++ d_name
        let entry ← create_ref_entry refname (loose_value w refname)
        read_loose_refs w dirname nodes (add_entry_to_dir dir entry)

def get_ref_dir (w : surroundings) : ref_entry → Option (ref_dir ref_entry)
  | .value _ _ => none
  | .subdir _ u => some u
  | .incomplete name nodes => read_loose_refs w name nodes ⟨[], 0⟩

/-! ## Sorting and searching -/

/-- It dies at two entries of one name that are not one reference. -/
def is_dup_ref (ref1 ref2 : ref_entry) : Option Bool :=
  if strcmp ref1.name ref2.name ≠ .eq then some false
  else
    match ref1, ref2 with
    | .value _ u1, .value _ u2 => if u1.sha1 = u2.sha1 then some true else none
    | _, _ => none

def remove_duplicates : Option ref_entry → List ref_entry → Option (List ref_entry)
  | _, [] => some []
  | last, entry :: entries => do
    let dup ← match last with
      | none => some false
      | some last => is_dup_ref last entry
    if dup then remove_duplicates last entries
    else (entry :: ·) <$> remove_duplicates (some entry) entries

def ref_entry_cmp (one two : ref_entry) : Ordering := strcmp one.name two.name

def sort_ref_dir (dir : ref_dir ref_entry) : Option (ref_dir ref_entry) :=
  if dir.sorted = dir.entries.length then some dir
  else do
    let entries ← remove_duplicates none
      (dir.entries.mergeSort (fun one two => ref_entry_cmp one two != .gt))
    some ⟨entries, entries.length⟩

/-- The directory, sorted, and where the entry is in it. -/
def search_ref_dir (dir : ref_dir ref_entry) (refname : Bytes) :
    Option (ref_dir ref_entry × Pos) :=
  if dir.entries = [] then some (dir, .absent 0)
  else do
    let dir ← sort_ref_dir dir
    some (dir, search (fun entry => strcmp refname entry.name) dir.entries)

/-- The directory, and where its subdirectory is: with `mkdir`, a new one if need be. -/
def search_for_subdir (dir : ref_dir ref_entry) (subdirname : Bytes) (mkdir : Bool) :
    Option (ref_dir ref_entry × Option Nat) := do
  match ← search_ref_dir dir subdirname with
  | (dir, .found pos) => some (dir, some pos)
  | (dir, .absent _) =>
    if mkdir then
      some (add_entry_to_dir dir (.subdir subdirname ⟨[], 0⟩), some dir.entries.length)
    else some (dir, none)

/-- `find_containing_dir` without `mkdir`, from the directory of this name: it goes down the
components but the last one. -/
def find_containing_dir (w : surroundings) (dirname : Bytes) :
    List Bytes → ref_dir ref_entry → Option (Option (ref_dir ref_entry))
  | component :: next :: more, dir => do
    let subdirname := dirname ++ component ++ [SLASH]
    let (dir, pos) ← search_for_subdir dir subdirname false
    match pos.bind (dir.entries[·]?) with
    | none => some none
    | some entry =>
      let subdir ← get_ref_dir w entry
      find_containing_dir w subdirname (next :: more) subdir
  | _, dir => some (some dir)

/-- `find_containing_dir` with `mkdir`, and the entry put into the directory that it finds. -/
def add_ref (w : surroundings) (ref : ref_entry) (dirname : Bytes) :
    List Bytes → ref_dir ref_entry → Option (ref_dir ref_entry)
  | component :: next :: more, dir => do
    let subdirname := dirname ++ component ++ [SLASH]
    let (dir, pos) ← search_for_subdir dir subdirname true
    let pos ← pos
    let entry ← dir.entries[pos]?
    let subdir ← get_ref_dir w entry
    let subdir ← add_ref w ref subdirname (next :: more) subdir
    some { dir with entries := dir.entries.set pos (.subdir subdirname subdir) }
  | _, dir => some (add_entry_to_dir dir ref)

/-! ## The cache -/

/-- A store is read when it is asked for the first time. -/
structure ref_cache where
  packed : Option (ref_dir ref_entry)
  loose : Option (ref_dir ref_entry)

/-- What is on the disk: the entries of the packed-refs file, and the directory `refs/`. -/
structure disk where
  packed : List packed_entry
  loose : List node

def REFS : Bytes := [114, 101, 102, 115, 47]

def packed_value (entry : packed_entry) : ref_value := ⟨entry.sha1, ⟨false, true, false⟩⟩

def read_packed_refs (w : surroundings) :
    List packed_entry → ref_dir ref_entry → Option (ref_dir ref_entry)
  | [], dir => some dir
  | line :: lines, dir => do
    let entry ← create_ref_entry line.refname (packed_value line)
    let dir ← add_ref w entry [] (git.refname.components line.refname) dir
    read_packed_refs w lines dir

def get_packed_refs (w : surroundings) (d : disk) (refs : ref_cache) : Option (ref_dir ref_entry) :=
  match refs.packed with
  | some dir => some dir
  | none => read_packed_refs w d.packed ⟨[], 0⟩

def get_loose_refs (d : disk) (refs : ref_cache) : ref_dir ref_entry :=
  match refs.loose with
  | some dir => dir
  | none => add_entry_to_dir ⟨[], 0⟩ (.incomplete REFS d.loose)

/-! ## Walking -/

/-- What a walk is called with. -/
structure each_ref (σ : Type) where
  base : Bytes
  fn : Bytes → Sha1 → ref_flag → σ → Int × σ
  trim : Nat
  DO_FOR_EACH_INCLUDE_BROKEN : Bool

variable {σ : Type}

def do_one_ref (w : surroundings) (each : each_ref σ) (name : Bytes) (u : ref_value)
    (cb_data : σ) : Int × σ :=
  if ¬ each.base.isPrefixOf name then (0, cb_data)
  else if !each.DO_FOR_EACH_INCLUDE_BROKEN && u.flag.REF_ISBROKEN then (0, cb_data)
  else if !each.DO_FOR_EACH_INCLUDE_BROKEN && !w.has_sha1_file u.sha1 then (0, cb_data)
  else each.fn (name.drop each.trim) u.sha1 u.flag cb_data

/-- The rest of a walk, if the callback did not stop it. -/
def unless_stopped (res : Int × σ) (more : σ → Option (Int × σ)) : Option (Int × σ) :=
  if res.1 ≠ 0 then some res else more res.2

/-- One entry, with the walk over a sorted directory for a subdirectory. -/
def do_one_entry (w : surroundings) (each : each_ref σ)
    (in_dir : List ref_entry → σ → Option (Int × σ)) (entry : ref_entry) (cb_data : σ) :
    Option (Int × σ) :=
  match entry with
  | .value name u => some (do_one_ref w each name u cb_data)
  | _ => do
    let subdir ← sort_ref_dir (← get_ref_dir w entry)
    in_dir subdir.entries cb_data

/-- Two entries of one name, one of each directory. -/
def do_both_entries (w : surroundings) (each : each_ref σ)
    (in_dirs : List ref_entry → List ref_entry → σ → Option (Int × σ)) (e1 e2 : ref_entry)
    (cb_data : σ) : Option (Int × σ) :=
  match e1, e2 with
  -- Both are references: the one from `dir1` is ignored.
  | .value _ _, .value name u => some (do_one_ref w each name u cb_data)
  | .value _ _, _ => none
  | _, .value _ _ => none
  | e1, e2 => do
    let subdir1 ← sort_ref_dir (← get_ref_dir w e1)
    let subdir2 ← sort_ref_dir (← get_ref_dir w e2)
    in_dirs subdir1.entries subdir2.entries cb_data

/-- The entries from `offset` on. Each turn takes one entry, or goes into one. -/
def do_for_each_ref_in_dir (w : surroundings) (each : each_ref σ) :
    Nat → List ref_entry → σ → Option (Int × σ)
  | 0, _, _ => none
  | _ + 1, [], cb_data => some (0, cb_data)
  | turns + 1, entry :: entries, cb_data => do
    let res ← do_one_entry w each (do_for_each_ref_in_dir w each turns) entry cb_data
    unless_stopped res (do_for_each_ref_in_dir w each turns entries)

/-- The entries from `i1` and from `i2` on. -/
def do_for_each_ref_in_dirs (w : surroundings) (each : each_ref σ) :
    Nat → List ref_entry → List ref_entry → σ → Option (Int × σ)
  | 0, _, _, _ => none
  | turns + 1, [], dir2, cb_data => do_for_each_ref_in_dir w each turns dir2 cb_data
  | turns + 1, e1 :: dir1, [], cb_data => do_for_each_ref_in_dir w each turns (e1 :: dir1) cb_data
  | turns + 1, e1 :: dir1, e2 :: dir2, cb_data =>
    match strcmp e1.name e2.name with
    | .eq => do
      let res ← do_both_entries w each (do_for_each_ref_in_dirs w each turns) e1 e2 cb_data
      unless_stopped res (do_for_each_ref_in_dirs w each turns dir1 dir2)
    | .lt => do
      let res ← do_one_entry w each (do_for_each_ref_in_dir w each turns) e1 cb_data
      unless_stopped res (do_for_each_ref_in_dirs w each turns dir1 (e2 :: dir2))
    | .gt => do
      let res ← do_one_entry w each (do_for_each_ref_in_dir w each turns) e2 cb_data
      unless_stopped res (do_for_each_ref_in_dirs w each turns (e1 :: dir1) dir2)

def do_for_each_ref (w : surroundings) (d : disk) (refs : ref_cache) (each : each_ref σ)
    (turns : Nat) (cb_data : σ) : Option (Int × σ) := do
  let find (dir : ref_dir ref_entry) : Option (Option (ref_dir ref_entry)) :=
    if each.base = [] then some (some dir)
    else find_containing_dir w [] (git.refname.components each.base) dir
  let packed_dir ← find (← get_packed_refs w d refs)
  let loose_dir ← find (get_loose_refs d refs)
  match packed_dir, loose_dir with
  | some packed_dir, some loose_dir =>
    let packed_dir ← sort_ref_dir packed_dir
    let loose_dir ← sort_ref_dir loose_dir
    do_for_each_ref_in_dirs w each turns packed_dir.entries loose_dir.entries cb_data
  | some dir, none | none, some dir =>
    let dir ← sort_ref_dir dir
    do_for_each_ref_in_dir w each turns dir.entries cb_data
  | none, none => some (0, cb_data)

end git.for_each_ref
