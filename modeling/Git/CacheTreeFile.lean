-- The cache-tree in the index file: the bytes that `cache_tree_write` makes of it, and how
-- `cache_tree_read` takes them apart (`cache-tree.c`).
import Git.Lib.Digits
import Git.ConfigNumber
import Git.IndexFile

open bsearch digit_text

namespace git

/-! ## Writing -/

/-- What stands between the name of a node and its subtrees. -/
def node_header (entry_count : Int) (sha1 : Sha1) (subtree_nr : Nat) : Bytes :=
  write_int 10 entry_count ++ 32 :: (write 10 subtree_nr ++ 10 ::
    if 0 ≤ entry_count then sha1.toList else [])

mutual

/-- `none` stands for `die`. -/
def write_one : cache_tree → Bytes → Option Bytes
  | .mk entry_count sha1 down, path =>
    (write_down none down).map fun subtrees =>
      path ++ 0 :: (node_header entry_count sha1 down.length ++ subtrees)

/-- The subtrees behind `prev`. -/
def write_down : Option Bytes → List (Bytes × cache_tree) → Option Bytes
  | _, [] => some []
  | prev, (name, sub) :: down =>
    if prev.any fun prev => subtree_name_cmp name prev != .gt then none
    else
      (write_one sub name).bind fun buffer => (write_down (some name) down).map (buffer ++ ·)

end

def cache_tree_write (root : cache_tree) : Option Bytes := write_one root []

/-! ## Reading -/

/-- What `read_one` leaves: the node, with the place that it comes to and the size that is
left there, or NULL, or the end of the program in `die`. -/
inductive read_result where
  | node (it : cache_tree) (buffer : Bytes) (size : Nat)
  | null
  | dies

/-- What is read from: the memory from `buffer` on, of which `size` bytes are the extension. -/
abbrev reader := Bytes → Nat → read_result

/-- `while (size && test(*buf)) { size--; buf++; }`, and then the byte there is skipped.
Nothing where `size` runs out. -/
def skip_past (test : UInt8 → Bool) : Bytes → Nat → Option (Bytes × Nat)
  | _, 0 => none
  | [], _ + 1 => none
  | c :: buf, size + 1 => if test c then skip_past test buf size else some (buf, size)

/-- Read each subtree, and put it under the name that it starts with. -/
def read_subtrees (read : reader) : Nat → cache_tree → reader
  | 0, it, buf, size => .node it buf size
  | subtree_nr + 1, it, buf, size =>
    match read buf size with
    | .node sub buf' size' =>
      let name := buf.takeWhile (· != 0)
      read_subtrees read subtree_nr (set_subtree (create_subtree it name) name sub) buf' size'
    | .null => .null
    | .dies => .dies

/-- The subtrees of a node that was read up to them. A number that is below zero is too
much for `xcalloc`, or differs from the subtrees of the node. -/
def read_down (read : reader) (entry_count : Int) (sha1 : Sha1) (subtree_nr : Int) : reader :=
  fun buf size =>
    match read_subtrees read subtree_nr.toNat (.mk entry_count sha1 []) buf size with
    | .node it buf size => if subtree_nr ≠ it.down.length then .dies else .node it buf size
    | .null => .null
    | .dies => .dies

/-- The object name of a node with a count, and the subtrees. -/
def read_sha1 (read : reader) (entry_count subtree_nr : Int) : reader := fun buf size =>
  if 0 ≤ entry_count then
    if size < 20 then .null
    else
      match sha1_at buf with
      | none => .null
      | some (sha1, buf) => read_down read entry_count sha1 subtree_nr buf (size - 20)
  else read_down read entry_count (Vector.replicate 20 0) subtree_nr buf size

/-- `depth` is more than the nodes that `size` bytes hold. -/
def read_one : Nat → reader
  | 0, _, _ => .null
  | depth + 1, buf, size =>
    match skip_past (· != 0) buf size with
    | none => .null
    | some (buf, size) =>
      match strtol 10 buf with
      | none => .null
      | some (entry_count, cp) =>
        match strtol 10 cp with
        | none => .null
        | some (subtree_nr, _) =>
          match skip_past (fun c => c != 0 && c != 10) buf size with
          | none => .null
          | some (buf, size) =>
            read_sha1 (read_one depth) (config.to_int entry_count) (config.to_int subtree_nr) buf size

def cache_tree_read : reader := fun buffer size =>
  if buffer.head? ≠ some 0 then .null else read_one (size + 1) buffer size

end git
