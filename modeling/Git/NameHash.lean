-- The hash of the names in the index, of `name-hash.c`: the entries by name, and with
-- `core.ignorecase` each also by the directories it is in.
import Git.Fnmatch
import Git.HashTable
import Git.Lib.Forest

open git.hashes forest

namespace git.index_names

/-! ## The hash of a name -/

/-- Without bit 5 if bit 6 is set. -/
def icase_hash (c : UInt8) : UInt8 := c &&& ~~~((c &&& 0x40) >>> 1)

/-- Of a name of one byte at least. -/
def hash_name (name : Bytes) : UInt32 :=
  name.foldl (fun hash c => hash * 101 + (icase_hash c).toUInt32) 0x123

def toupper (c : UInt8) : UInt8 := if compat.isalpha c then c &&& ~~~0x20 else c

/-! ## The entries -/

/-- Where an entry is. -/
abbrev address := Nat

structure named_entry where
  name : Bytes
  ce_mode : BitVec 32
  named : name ≠ []

/-- What the hash keeps in an entry. -/
structure ce_links where
  CE_HASHED : Bool
  CE_UNHASHED : Bool
  next : Option address
  dir_next : Option address

structure index_state where
  cache : List address
  name_hash_initialized : Bool
  name_hash : hash_table address
  links : address → ce_links

/-- The index before anything is read into it. -/
def no_names : index_state :=
  ⟨[], false, init_hash, fun _ => ⟨false, false, none, none⟩⟩

/-! ## Adding -/

/-- `pos = insert_hash(hash, ce, &istate->name_hash)`, and the entry goes before the one that
is there: `link` says by which of its links. -/
def hash_first (link : Option address → ce_links → ce_links) (hash : UInt32) (ce : address)
    (istate : index_state) : Option index_state :=
  match insert_hash hash ce istate.name_hash with
  | none => none
  | some (name_hash, none) => some { istate with name_hash := name_hash }
  | some (name_hash, some pos) =>
    some { istate with
      links := Function.update istate.links ce
        (link (name_hash.array pos).ptr (istate.links ce))
      name_hash := name_hash.put pos ce }

def hash_by_name (hash : UInt32) (ce : address) (istate : index_state) : Option index_state :=
  hash_first (fun first l => { l with next := first }) hash ce istate

def hash_by_directory (hash : UInt32) (ce : address) (istate : index_state) :
    Option index_state :=
  hash_first (fun first l => { l with dir_next := first }) hash ce istate

/-- What is before the pointer each time that it is behind a slash, after `seen`. -/
def directories (seen : Bytes) : Bytes → List Bytes
  | [] => []
  | c :: ptr =>
    if c = SLASH then (seen ++ [c]) :: directories (seen ++ [c]) ptr
    else directories (seen ++ [c]) ptr

section

variable (entry : address → named_entry) (ignore_case : Bool)

def hash_index_entry_directories (ce : address) (istate : index_state) : Option index_state :=
  (directories [] (entry ce).name).foldlM
    (fun istate dir => hash_by_directory (hash_name dir) ce istate) istate

def hash_index_entry (ce : address) (istate : index_state) : Option index_state :=
  if (istate.links ce).CE_HASHED then some istate
  else do
    let istate := { istate with
      links := Function.update istate.links ce
        { istate.links ce with CE_HASHED := true, next := none, dir_next := none } }
    let istate ← hash_by_name (hash_name (entry ce).name) ce istate
    if ignore_case then hash_index_entry_directories entry ce istate else some istate

def lazy_init_name_hash (istate : index_state) : Option index_state :=
  if istate.name_hash_initialized then some istate
  else do
    let istate ← istate.cache.foldlM (fun istate ce => hash_index_entry entry ignore_case ce istate)
      istate
    some { istate with name_hash_initialized := true }

def add_name_hash (ce : address) (istate : index_state) : Option index_state :=
  let istate := { istate with
    links := Function.update istate.links ce { istate.links ce with CE_UNHASHED := false } }
  if istate.name_hash_initialized then hash_index_entry entry ignore_case ce istate
  else some istate

def remove_name_hash (ce : address) (istate : index_state) : index_state :=
  { istate with
    links := Function.update istate.links ce { istate.links ce with CE_UNHASHED := true } }

/-! ## Looking up -/

/-- Of names of one length. -/
def slow_same_name (name1 name2 : Bytes) : Bool :=
  if name1.length = name2.length then
    (name1.zip name2).all fun c => c.1 = c.2 || toupper c.1 = toupper c.2
  else false

def ends_in_slash (name : Bytes) : Bool := name.getLast? = some SLASH

def same_name (ce_name name : Bytes) (icase : Bool) : Bool :=
  let len := ce_name.length
  let namelen := name.length
  if len = namelen ∧ cache_name_compare name (BitVec.ofNat 32 namelen) ce_name
      (BitVec.ofNat 32 len) = .eq then true
  else if !icase then false
  else if !ends_in_slash name then slow_same_name name ce_name
  else slow_same_name name (ce_name.take (min namelen len))

/-- The walk from `ce` on, of so many turns. `none`: it goes on. -/
def find_entry (istate : index_state) (name : Bytes) (icase : Bool) :
    Nat → Option address → Option (Option address)
  | _, none => some none
  | 0, some _ => none
  | turns + 1, some ce =>
    if !(istate.links ce).CE_UNHASHED && same_name (entry ce).name name icase then some (some ce)
    else find_entry istate name icase turns
      (if icase && ends_in_slash name then (istate.links ce).dir_next else (istate.links ce).next)

/-- `hash_name` does not stop at the end of an empty name. -/
def name_exists (turns : Nat) (istate : index_state) (icase : Bool) (name : Bytes) :
    Nat → Option (Option address)
  | 0 => none
  | namelen + 1 => do
    let name' := name.take (namelen + 1)
    let first ← lookup_hash (hash_name name') istate.name_hash
    let found ← find_entry entry istate name' icase turns first
    match found with
    | some ce => some (some ce)
    | none =>
      -- Might be a submodule.
      if icase && ends_in_slash name' then do
        let found ← name_exists turns istate icase name namelen
        some (found.filter fun ce => S_ISGITLINK (entry ce).ce_mode)
      else some none

def index_name_exists (turns : Nat) (istate : index_state) (name : Bytes) (icase : Bool) :
    Option (index_state × Option address) := do
  let istate ← lazy_init_name_hash entry ignore_case istate
  let ce ← name_exists entry turns istate icase name name.length
  some (istate, ce)

end

end git.index_names
