-- The walk over several trees at once, of `tree-walk.c`: name by name, where a name can be a file
-- in one tree and a directory, which sorts later, in another one.
import Git.TreeOrder

namespace git.tree_walk

/-! ## Entries -/

/-- `path` is where the name is in the buffer of the tree. -/
structure name_entry where
  path : Nat
  name : Bytes
  mode : BitVec 32
  sha1 : Sha1
  deriving DecidableEq

/-- The entries from the current one on; of size 0 when there are none. -/
abbrev tree_desc := List name_entry

/-- What is decoded of a buffer with these lines, one entry after the other. -/
def init_tree_desc (buffer : Nat) : List tree_item → tree_desc
  | [] => []
  | x :: items =>
    ⟨buffer + (octal x.mode).length + 1, x.name, x.mode, x.sha1⟩ ::
      init_tree_desc (buffer + (tree_entry x.mode x.name x.sha1).length) items

/-- `skip` has the entries that were returned early. -/
structure tree_desc_x where
  d : tree_desc
  skip : List Nat

def name_compare (a b : Bytes) : Ordering :=
  let cmp := memcmp a b (min a.length b.length)
  if cmp ≠ .eq then cmp
  else if a.length < b.length then .lt else if b.length < a.length then .gt else .eq

/-- `c < '/'` for a `char`, which is signed. -/
def below_slash (c : UInt8) : Bool := c.toBitVec.slt SLASH.toBitVec

/-- `.gt`: keep looking; `.lt`: `a` cannot appear in the tree. -/
def check_entry_match (a b : Bytes) : Ordering :=
  match name_compare a b with
  | .eq => .eq
  | .gt => .gt
  | .lt =>
    -- `b` comes after `a`; are we looking at case (2)?
    if a.length < b.length ∧ memcmp a b a.length = .eq ∧ below_slash (b[a.length]?.getD 0) then .gt
    else .lt

/-- From `probe` on. -/
def look_ahead (first : Bytes) : tree_desc → Option name_entry
  | [] => none
  | a :: probe =>
    match check_entry_match first a.name with
    | .lt => none
    | .eq => some a
    | .gt => look_ahead first probe

/-- The first entry that was not returned yet. -/
def skip_returned (t : tree_desc_x) : tree_desc_x :=
  { t with d := t.d.dropWhile fun a => a.path ∈ t.skip }

def extended_entry_extract (t : tree_desc_x) (first : Option Bytes) :
    tree_desc_x × Option name_entry :=
  let t := skip_returned t
  match t.d, first with
  | [], _ => (t, none)
  | a :: _, none => (t, some a)
  | a :: _, some first =>
    match check_entry_match first a.name with
    | .lt => (t, none)
    | .eq => (t, some a)
    | .gt => (t, look_ahead first t.d)

def update_extended_entry (t : tree_desc_x) (a : name_entry) : tree_desc_x :=
  if t.d.head?.map name_entry.path = some a.path then { t with d := t.d.tail }
  else { t with skip := a.path :: t.skip }

/-! ## All trees -/

/-- The first of the names, as `name_compare` has them. -/
def pick_first (first : Option Bytes) (e : Option name_entry) : Option Bytes :=
  match e, first with
  | none, _ => first
  | some e, none => some e.name
  | some e, some first => if name_compare e.name first = .lt then some e.name else some first

/-- The bits of the entries with `p`. -/
def bits {n : Nat} (p : name_entry → Bool) (entry : Fin n → Option name_entry) : BitVec 64 :=
  (List.finRange n).foldl
    (fun mask i => if (entry i).any p then mask ||| 1#64 <<< i.val else mask) 0#64

/-- What the callback is called with. -/
structure call (n : Nat) where
  mask : BitVec 64
  dirmask : BitVec 64
  entry : Fin n → Option name_entry

/-- The earliest name, in all trees that have it. -/
def extract_all {n : Nat} (tx : Fin n → tree_desc_x) :
    (Fin n → tree_desc_x) × (Fin n → Option name_entry) :=
  let entry := fun i => (extended_entry_extract (tx i) none).2
  let tx := fun i => (extended_entry_extract (tx i) none).1
  match (List.finRange n).foldl (fun first i => pick_first first (entry i)) none with
  | none => (tx, entry)
  | some first =>
    (fun i => (extended_entry_extract (tx i) (some first)).1,
      -- Cull the ones that are not the earliest
      fun i => (extended_entry_extract (tx i) (some first)).2.filter fun e =>
        name_compare e.name first = .eq)

def call.of_entries {n : Nat} (entry : Fin n → Option name_entry) : call n where
  mask := bits (fun _ => true) entry
  dirmask := bits (fun e => S_ISDIR e.mode) entry
  entry := entry

/-- `update_extended_entry` for the trees of the mask. -/
def update_all {n : Nat} (mask : BitVec 64) (tx : Fin n → tree_desc_x)
    (entry : Fin n → Option name_entry) : Fin n → tree_desc_x :=
  fun i =>
    match entry i with
    | some a => if mask.getLsbD i then update_extended_entry (tx i) a else tx i
    | none => tx i

/-- The loop, of so many turns, without a pathspec: what it returns, and its calls. -/
def traverse_loop {n : Nat} (fn : call n → BitVec 32) (show_all_errors : Bool) :
    Nat → (Fin n → tree_desc_x) → BitVec 32 → Option (BitVec 32 × List (call n))
  | 0, _, _ => none
  | turns + 1, tx, error =>
    let (tx, entry) := extract_all tx
    let c := call.of_entries entry
    if c.mask = 0#64 then some (error, [])
    else
      let ret := fn c
      let error := if ret.slt 0#32 then ret else error
      if ret.slt 0#32 && !show_all_errors then some (error, [c])
      else
        let mask := c.mask &&& ret.signExtend 64
        (traverse_loop fn show_all_errors turns (update_all mask tx entry) error).map fun r =>
          (r.1, c :: r.2)

def traverse_trees {n : Nat} (turns : Nat) (t : Fin n → tree_desc) (fn : call n → BitVec 32)
    (show_all_errors : Bool) : Option (BitVec 32 × List (call n)) :=
  traverse_loop fn show_all_errors turns (fun i => ⟨t i, []⟩) 0#32

/-- `return mask;` in a function that returns an `int`. -/
def full_mask {n : Nat} (c : call n) : BitVec 32 := c.mask.setWidth 32

end git.tree_walk
