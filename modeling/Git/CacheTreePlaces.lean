-- The update of the cache-tree with the places in the array of entries as the `int`s that they
-- are (`cache-tree.c`). The counts that the loops go on by can come from the index file.
import Git.CacheTreeUpdate
import Git.CacheTreeFile

namespace git.index_places

/-- How a run ends. -/
inductive outcome (α : Type) where
  | returns (value : α)
  | dies
  /-- An entry outside of the array was read. -/
  | outside

/-- `none` stands for a run that did not come to its end. -/
abbrev run (α : Type) := Option (outcome α)

/-- `cache[pos]` -/
def entry_at (cache : List cache_entry) (pos : Int) : Option cache_entry :=
  if 0 ≤ pos then cache[pos.toNat]? else none

/-- `i += count - 1`, and then the `i++` of the loop. -/
def next_place (i count : Int) : Int :=
  config.to_int (config.to_int (i + config.to_int (count - 1)) + 1)

/-- What an update of a node leaves: the database, the node, and what it returns. -/
structure updated where
  objects : object_store
  it : cache_tree
  count : Int

/-- How a node is updated, from the entry at `start` on. -/
abbrev updater :=
  object_store → cache_tree → (start entries : Int) → (base : Bytes) → run updated

/-- What the walk over the subtrees leaves. `subcnt` is returned at once when it is below
zero. -/
structure walked where
  objects : object_store
  it : cache_tree
  used : List Bytes
  subcnt : Int

/-- Find the subtrees and update them. -/
def update_subtrees (update : updater) (cache : List cache_entry) (start entries : Int)
    (base : Bytes) : Nat → Int → object_store → cache_tree → List Bytes → run walked
  | 0, _, _, _, _ => none
  | turns + 1, i, objects, it, used =>
    if ¬ i < entries then some (.returns ⟨objects, it, used, 0⟩)
    else
      match entry_at cache (start + i) with
      | none => some .outside
      | some ce =>
        if !at_level base ce then some (.returns ⟨objects, it, used, 0⟩)
        else
          match before_slash (ce.name.drop base.length) with
          | none =>
            update_subtrees update cache start entries base turns (next_place i 1) objects it used
          | some name =>
            let it := create_subtree it name
            match find_subtree it name with
            | none => none
            | some sub =>
              match update objects sub (start + i) (entries - i)
                  (ce.name.take (base.length + name.length + 1)) with
              | none => none
              | some .dies => some .dies
              | some .outside => some .outside
              | some (.returns r) =>
                let it := set_subtree it name r.it
                if r.count < 0 then some (.returns ⟨r.objects, it, used, r.count⟩)
                else
                  update_subtrees update cache start entries base turns (next_place i r.count)
                    r.objects it (name :: used)

/-- One line of the tree object, and how far the loop goes on. -/
structure tree_line where
  mode : BitVec 32
  name : Bytes
  sha1 : Sha1
  entry_count : Int

/-- The line of the subtree that `ce` is in, or of `ce` itself. `none` for `die`. -/
def line_of (base : Bytes) (it : cache_tree) (ce : cache_entry) : Option tree_line :=
  match before_slash (ce.name.drop base.length) with
  | none => some ⟨ce.ce_mode, ce.name.drop base.length, ce.sha1, 1⟩
  | some name => (find_subtree it name).map fun sub => ⟨S_IFDIR, name, sub.sha1, sub.entry_count⟩

/-- Write out the tree object for this level: the buffer and the last value of `i`, or nothing
for an invalid object. -/
def write_level (missing_ok : Bool) (objects : object_store) (cache : List cache_entry)
    (start entries : Int) (base : Bytes) (it : cache_tree) :
    Nat → Int → Bytes → run (Option (Bytes × Int))
  | 0, _, _ => none
  | turns + 1, i, buffer =>
    if ¬ i < entries then some (.returns (some (buffer, i)))
    else
      match entry_at cache (start + i) with
      | none => some .outside
      | some ce =>
        if !at_level base ce then some (.returns (some (buffer, i)))
        else
          match line_of base it ce with
          | none => some .dies
          | some line =>
            if line.mode != S_IFGITLINK && !missing_ok && !objects line.sha1 then
              some (.returns none)
            else
              write_level missing_ok objects cache start entries base it turns
                (next_place i line.entry_count)
                -- entry being removed or placeholder
                (if ce.has (CE_REMOVE ||| CE_INTENT_TO_ADD) then buffer
                else buffer ++ tree_entry line.mode line.name line.sha1)

/-- The end of an update: the tree object is made, and the node is given its count. -/
def finish_level (env : write_tree_env) (objects : object_store) (it : cache_tree)
    (buffer : Bytes) (i : Int) : updated :=
  let sha1 := env.hash_tree buffer
  if env.dryrun then ⟨objects, .mk i sha1 it.down, i⟩
  else if env.writes buffer then ⟨objects.add sha1, .mk i sha1 it.down, i⟩
  else ⟨objects, .mk it.entry_count sha1 it.down, -1⟩

/-- The update of a node that has no tree object. -/
def update_level (env : write_tree_env) (cache : List cache_entry) (turns : Nat)
    (update : updater) : updater := fun objects it start entries base =>
  match update_subtrees update cache start entries base turns 0 objects it [] with
  | none => none
  | some .dies => some .dies
  | some .outside => some .outside
  | some (.returns w) =>
    if w.subcnt < 0 then some (.returns ⟨w.objects, w.it, w.subcnt⟩)
    else
      let it := discard_unused_subtrees w.it w.used
      match write_level env.missing_ok w.objects cache start entries base it turns 0 [] with
      | none => none
      | some .dies => some .dies
      | some .outside => some .outside
      | some (.returns none) => some (.returns ⟨w.objects, it, -1⟩)
      | some (.returns (some (buffer, i))) =>
        some (.returns (finish_level env w.objects it buffer i))

/-- Each loop takes at most `turns`, and the calls stand at most `depth` deep. -/
def update_one (env : write_tree_env) (cache : List cache_entry) (turns : Nat) : Nat → updater
  | 0, _, _, _, _, _ => none
  | depth + 1, objects, it, start, entries, base =>
    if 0 ≤ it.entry_count ∧ objects it.sha1 = true then
      some (.returns ⟨objects, it, it.entry_count⟩)
    else
      update_level env cache turns (update_one env cache turns depth) objects it start entries base

/-- The flag is the return value: true for 0. -/
def cache_tree_update (env : write_tree_env) (turns depth : Nat) (objects : object_store)
    (it : cache_tree) (cache : List cache_entry) : run (object_store × cache_tree × Bool) :=
  if !verify_cache cache then some (.returns (objects, it, false))
  else
    match update_one env cache turns depth objects it 0 cache.length [] with
    | none => none
    | some .dies => some .dies
    | some .outside => some .outside
    | some (.returns r) => some (.returns (r.objects, r.it, decide (0 ≤ r.count)))

end git.index_places
