-- The estimate of what two contents share, of `diffcore-delta.c`: each is cut into chunks
-- at LF or 64 bytes, and the chunks are counted by hash.
import Git.Ws
import Git.Lib.LinearProbing

namespace git.count_changes

open git.quote git.header_name git.ws linear_probing

def INITIAL_HASH_SIZE : Nat := 9

def INITIAL_FREE (sz_log2 : Nat) : Nat := 2 ^ sz_log2 * (sz_log2 - 3) / sz_log2

def HASHBASE : Nat := 107927

structure spanhash where
  hashval : Nat
  cnt : Nat
  deriving DecidableEq

/-- The slots from `2 ^ alloc_log2` on are not there. -/
structure spanhash_top where
  alloc_log2 : Nat
  free : Int
  data : Nat → spanhash

def vacant (h : spanhash) : Bool := h.cnt = 0

/-- A table of `memset` slots. -/
def spanhash_new (alloc_log2 : Nat) : spanhash_top :=
  ⟨alloc_log2, INITIAL_FREE alloc_log2, fun _ => ⟨0, 0⟩⟩

def spanhash_top.put (top : spanhash_top) (i : Nat) (h : spanhash) : spanhash_top :=
  { top with data := Function.update top.data i h }

/-! ## The table -/

/-- One slot of the old table goes to the new one, where its hash is not yet. `none`: the
search does not end. -/
def rehash_slot (new : spanhash_top) (o : spanhash) : Option spanhash_top :=
  if o.cnt = 0 then some new
  else
    let sz := 2 ^ new.alloc_log2
    (probe sz (fun i => vacant (new.data i)) sz (o.hashval &&& (sz - 1))).map fun i =>
      { new.put i o with free := new.free - 1 }

def spanhash_rehash (orig : spanhash_top) : Option spanhash_top :=
  ((List.range (2 ^ orig.alloc_log2)).map orig.data).foldlM rehash_slot
    (spanhash_new (orig.alloc_log2 + 1))

def add_spanhash (top : spanhash_top) (hashval cnt : Nat) : Option spanhash_top :=
  let lim := 2 ^ top.alloc_log2
  let stop := fun i => vacant (top.data i) || (top.data i).hashval = hashval
  match probe lim stop lim (hashval &&& (lim - 1)) with
  | none => none
  | some i =>
    if vacant (top.data i) then
      let top := { top.put i ⟨hashval, cnt⟩ with free := top.free - 1 }
      if top.free < 0 then spanhash_rehash top else some top
    else
      some (top.put i { top.data i with cnt := ((top.data i).cnt + cnt) % 2 ^ 32 })

/-- `spanhash_cmp(a, b) <= 0`: a count of zero compares at the end. -/
def spanhash_le (a b : spanhash) : Bool :=
  if a.cnt = 0 then b.cnt = 0 else if b.cnt = 0 then true else a.hashval ≤ b.hashval

/-! ## The chunks -/

/-- A file's contents, and whether they are text. -/
structure diff_filespec where
  data : Bytes
  is_binary : Bool

def diff_filespec.size (one : diff_filespec) : Nat := one.data.length

/-- The loop over the bytes. -/
def hash_loop (is_text : Bool) : Bytes → Nat → UInt32 → UInt32 → spanhash_top →
    Option spanhash_top
  | [], _, _, _, hash => some hash
  | c :: buf, n, accum1, accum2, hash =>
    -- Ignore CR in CRLF sequence if text
    if is_text && c = CR && buf.head? = some LF then hash_loop is_text buf n accum1 accum2 hash
    else
      let old_1 := accum1
      let accum1 := accum1 <<< 7 ^^^ accum2 >>> 25
      let accum2 := accum2 <<< 7 ^^^ old_1 >>> 25
      let accum1 := accum1 + c.toUInt32
      if n + 1 < 64 ∧ c ≠ LF then hash_loop is_text buf (n + 1) accum1 accum2 hash
      else
        let hashval := (accum1 + accum2 * 0x61).toNat % HASHBASE
        match add_spanhash hash hashval (n + 1) with
        | none => none
        | some hash => hash_loop is_text buf 0 0 0 hash

/-- The counts, sorted. The size is cut to 32 bits. -/
def hash_chars (one : diff_filespec) : Option (List spanhash) :=
  (hash_loop (!one.is_binary) (one.data.take (one.size % 2 ^ 32)) 0 0 0
      (spanhash_new INITIAL_HASH_SIZE)).map fun hash =>
    ((List.range (2 ^ hash.alloc_log2)).map hash.data).mergeSort spanhash_le

/-! ## The comparison -/

/-- The loop over what the source does not have. `none`: it runs over the end. -/
def skip_dst (hashval : Nat) : List spanhash → Nat → Option (List spanhash × Nat)
  | [], _ => none
  | d :: ds, la =>
    if d.cnt ≠ 0 ∧ d.hashval < hashval then skip_dst hashval ds (la + d.cnt) else some (d :: ds, la)

def count_loop : List spanhash → List spanhash → Nat → Nat →
    Option (List spanhash × Nat × Nat)
  | [], _, _, _ => none
  | s :: ss, ds, sc, la =>
    if s.cnt = 0 then some (ds, sc, la)
    else
      match skip_dst s.hashval ds la with
      | none => none
      | some ([], _) => none
      | some (d :: ds, la) =>
        let same := d.cnt ≠ 0 ∧ d.hashval = s.hashval
        let dst_cnt := if same then d.cnt else 0
        let ds := if same then ds else d :: ds
        if s.cnt < dst_cnt then count_loop ss ds (sc + s.cnt) (la + (dst_cnt - s.cnt))
        else count_loop ss ds (sc + dst_cnt) la

/-- What is left of the destination. -/
def add_rest : List spanhash → Nat → Option Nat
  | [], _ => none
  | d :: ds, la => if d.cnt ≠ 0 then add_rest ds (la + d.cnt) else some la

/-- `*src_copied` and `*literal_added`, from contents that have not been counted before. -/
def diffcore_count_changes (src dst : diff_filespec) : Option (Nat × Nat) := do
  let src_count ← hash_chars src
  let dst_count ← hash_chars dst
  let (ds, sc, la) ← count_loop src_count dst_count 0 0
  let la ← add_rest ds la
  return (sc, la)

end git.count_changes
