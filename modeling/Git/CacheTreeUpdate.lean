-- The update of the cache-tree: the check of the index, the walk over its
-- entries, and the tree objects that it writes (`cache-tree.c`).
import Git.ReadCache

open bsearch

namespace git

/-! ## The check -/

/-- `path` and `path/file` stand next to each other. -/
def both_file_and_dir (this_name next_name : Bytes) : Bool :=
  decide (this_name.length < next_name.length) &&
    next_name.take this_name.length == this_name && next_name[this_name.length]? == some SLASH

def next_to_each_other : List cache_entry → Bool
  | a :: b :: rest => both_file_and_dir a.name b.name || next_to_each_other (b :: rest)
  | _ => false

/-- The flag is the return value: true for 0. -/
def verify_cache (cache : List cache_entry) : Bool :=
  cache.all (fun ce => ce_stage ce == 0) && !next_to_each_other cache

/-! ## Objects -/

/-- What an update is given: the `WRITE_TREE_*` flags, the hash of a tree
object, and whether the object database takes a new object. -/
structure write_tree_env where
  missing_ok : Bool
  dryrun : Bool
  hash_tree : Bytes → Sha1
  writes : Bytes → Bool

/-- `has_sha1_file`: the objects in the database. -/
abbrev object_store := Sha1 → Bool

def object_store.add (objects : object_store) (sha1 : Sha1) : object_store :=
  fun s => s == sha1 || objects s

/-- `"%o"` -/
def octal (mode : BitVec 32) : Bytes := (Nat.toDigits 8 mode.toNat).map (fun c => c.toNat.toUInt8)

/-- `"%o %.*s%c"` with mode, name and NUL, and then the object name. -/
def tree_entry (mode : BitVec 32) (name : Bytes) (sha1 : Sha1) : Bytes :=
  octal mode ++ 32 :: name ++ 0 :: sha1.toList

/-! ## The update of one node -/

/-- `strchr(path, '/')`: the name before the first slash. -/
def before_slash (path : Bytes) : Option Bytes :=
  if SLASH ∈ path then some (path.takeWhile (· != SLASH)) else none

/-- The entry is still at the level of `base`. -/
def at_level (base : Bytes) (ce : cache_entry) : Bool :=
  decide (base.length < ce_namelen ce) && ce.name.take base.length == base

/-- What an update of a node leaves: the database, the node, and the number
of its entries, or nothing for -1. -/
structure updated where
  objects : object_store
  it : cache_tree
  count : Option Nat

/-- How a node is updated. `none` stands for a run that does not come back:
`die`, and a loop that takes no entry. -/
abbrev updater := object_store → cache_tree → List cache_entry → Bytes → Option updated

/-- What the walk over the subtrees leaves: `used` are the names that it saw. -/
structure walked where
  objects : object_store
  it : cache_tree
  used : List Bytes
  ok : Bool

/-- Find the subtrees and update them. `skip` entries belong to the last one. -/
def update_subtrees (update : updater) (base : Bytes) :
    List cache_entry → Nat → object_store → cache_tree → List Bytes → Option walked
  | [], _, objects, it, used => some ⟨objects, it, used, true⟩
  | _ :: rest, skip + 1, objects, it, used => update_subtrees update base rest skip objects it used
  | ce :: rest, 0, objects, it, used =>
    if !at_level base ce then some ⟨objects, it, used, true⟩
    else
      match before_slash (ce.name.drop base.length) with
      | none => update_subtrees update base rest 0 objects it used
      | some name =>
        let it := create_subtree it name
        match find_subtree it name with
        | none => none
        | some sub =>
          match update objects sub (ce :: rest) (ce.name.take (base.length + name.length + 1)) with
          | none => none
          | some r =>
            let it := set_subtree it name r.it
            match r.count with
            | none => some ⟨r.objects, it, used, false⟩
            | some 0 => none
            | some (subcnt + 1) =>
              update_subtrees update base rest subcnt r.objects it (name :: used)

-- for the test of what is used
local instance bytes_beq : LawfulBEq Bytes := inferInstance

def discard_unused_subtrees (it : cache_tree) (used : List Bytes) : cache_tree :=
  .mk it.entry_count it.sha1 (it.down.filter (fun sub => decide (sub.1 ∈ used)))

/-- One line of the tree object, and the entries it stands for. -/
structure tree_line where
  mode : BitVec 32
  name : Bytes
  sha1 : Sha1
  entry_count : Nat

/-- The line of the subtree that `ce` is in, or of `ce` itself. `none` for
`die`, and for a subtree that covers no entry. -/
def line_of (base : Bytes) (it : cache_tree) (ce : cache_entry) : Option tree_line :=
  match before_slash (ce.name.drop base.length) with
  | none => some ⟨ce.ce_mode, ce.name.drop base.length, ce.sha1, 1⟩
  | some name =>
    match find_subtree it name with
    | none => none
    | some sub => if 1 ≤ sub.entry_count then some ⟨S_IFDIR, name, sub.sha1, sub.entry_count.toNat⟩
      else none

/-- Write out the tree object for this level: the buffer and the number of
entries, or nothing for an invalid object. -/
def write_level (missing_ok : Bool) (objects : object_store) (base : Bytes) (it : cache_tree) :
    List cache_entry → Nat → Nat → Bytes → Option (Option (Bytes × Nat))
  | [], _, i, buffer => some (some (buffer, i))
  | _ :: rest, skip + 1, i, buffer => write_level missing_ok objects base it rest skip i buffer
  | ce :: rest, 0, i, buffer =>
    if !at_level base ce then some (some (buffer, i))
    else
      match line_of base it ce with
      | none => none
      | some line =>
        if line.mode != S_IFGITLINK && !missing_ok && !objects line.sha1 then some none
        else
          let skip := line.entry_count - 1
          let i := i + line.entry_count
          -- entry being removed or placeholder
          if ce.has (CE_REMOVE ||| CE_INTENT_TO_ADD) then
            write_level missing_ok objects base it rest skip i buffer
          else
            write_level missing_ok objects base it rest skip i
              (buffer ++ tree_entry line.mode line.name line.sha1)

/-- `depth` is more than the slashes of any name. -/
def update_one (env : write_tree_env) : Nat → updater
  | 0, _, _, _, _ => none
  | depth + 1, objects, it, cache, base =>
    if 0 ≤ it.entry_count ∧ objects it.sha1 = true then
      some ⟨objects, it, some it.entry_count.toNat⟩
    else
      match update_subtrees (update_one env depth) base cache 0 objects it [] with
      | none => none
      | some w =>
        if !w.ok then some ⟨w.objects, w.it, none⟩
        else
          let it := discard_unused_subtrees w.it w.used
          match write_level env.missing_ok w.objects base it cache 0 0 [] with
          | none => none
          | some none => some ⟨w.objects, it, none⟩
          | some (some (buffer, i)) =>
            let sha1 := env.hash_tree buffer
            if env.dryrun then some ⟨w.objects, .mk i sha1 it.down, some i⟩
            else if env.writes buffer then
              some ⟨w.objects.add sha1, .mk i sha1 it.down, some i⟩
            else some ⟨w.objects, .mk it.entry_count sha1 it.down, none⟩

/-- More than the slashes of any name. -/
def name_bound (cache : List cache_entry) : Nat :=
  (cache.map (fun ce => ce.name.length)).foldr max 0 + 1

/-- The flag is the return value: true for 0. -/
def cache_tree_update (env : write_tree_env) (objects : object_store) (it : cache_tree)
    (cache : List cache_entry) : Option (object_store × cache_tree × Bool) :=
  if !verify_cache cache then some (objects, it, false)
  else
    (update_one env (name_bound cache) objects it cache []).map fun r =>
      (r.objects, r.it, r.count.isSome)

end git
