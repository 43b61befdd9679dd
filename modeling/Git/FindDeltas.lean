-- The search for deltas of `builtin/pack-objects.c`: the window of bases, and
-- what one object of the list does to it.
import Git.WriteObject

namespace git.delta_window

open pack_objects (object_type)

structure object_entry (n : Nat) where
  size : Nat
  /-- The pack that has the object. -/
  in_pack : Option Nat
  in_pack_type : object_type
  type : object_type
  delta : Option (Fin n)
  delta_child : Option (Fin n)
  delta_sibling : Option (Fin n)
  delta_data : Option Bytes
  delta_size : Nat
  z_delta_size : Nat
  preferred_base : Bool

/-- The options, the objects, and the functions of zlib and of the delta code.
An index is known by its size. -/
structure environment (n : Nat) where
  reuse_delta : Bool
  pack_to_stdout : Bool
  window_memory_limit : Nat
  max_delta_cache_size : Nat
  cache_max_small_delta_size : Nat
  read_sha1_file : Fin n → Option Bytes
  create_delta_index : Bytes → Option Nat
  create_delta : Bytes → Bytes → Nat → Option Bytes
  do_compress : Bytes → Bytes

/-- A slot of the window. -/
structure unpacked (n : Nat) where
  entry : Option (Fin n)
  data : Option Bytes
  index : Option Nat
  depth : Nat

structure search (n : Nat) where
  objects : Fin n → object_entry n
  array : Nat → unpacked n
  idx : Nat
  count : Nat
  mem_usage : Nat
  delta_cache_size : Nat

/-- Why the search does not come to its end. -/
inductive stop where
  | cannot_be_read
  | inconsistent_object_length
  /-- `check_delta_limit` went deeper than its fuel. -/
  | no_fuel
  deriving DecidableEq

variable {n : Nat}

/-! ## The deltas of the packs -/

/-- `check_object` for an entry whose delta is reused. -/
def reuse_delta (objects : Fin n → object_entry n) (pair : Fin n × Fin n) :
    Fin n → object_entry n :=
  let (entry, base) := pair
  let objects := Function.update objects entry
    { objects entry with
      type := (objects entry).in_pack_type
      delta := some base
      delta_size := (objects entry).size
      delta_sibling := (objects base).delta_child }
  Function.update objects base { objects base with delta_child := some entry }

/-- `check_delta_limit`, from a child on and over its siblings. -/
def check_children (objects : Fin n → object_entry n) :
    Nat → Option (Fin n) → Nat → Nat → Option Nat
  | 0, _, _, _ => none
  | _ + 1, none, _, m => some m
  | fuel + 1, some child, n, m =>
    match check_children objects fuel (objects child).delta_child (n + 1) (n + 1) with
    | none => none
    | some c => check_children objects fuel (objects child).delta_sibling n (max m c)

def check_delta_limit (objects : Fin n → object_entry n) (fuel : Nat) (me : Fin n) (n : Nat) :
    Option Nat :=
  check_children objects fuel (objects me).delta_child n n

/-! ## The slots -/

/-- The subtraction of an `unsigned long`. -/
def minus (a b : Nat) : Nat := (a + 2 ^ 64 - b % 2 ^ 64) % 2 ^ 64

def plus (a b : Nat) : Nat := (a + b) % 2 ^ 64

def search.set_slot (s : search n) (i : Nat) (slot : unpacked n) : search n :=
  { s with array := Function.update s.array i slot }

/-- Puts what takes `size` bytes into a slot. -/
def search.fill (s : search n) (i : Nat) (slot : unpacked n) (size : Nat) : search n :=
  { s.set_slot i slot with mem_usage := plus s.mem_usage size }

def empty_slot : unpacked n := { entry := none, data := none, index := none, depth := 0 }

/-- The memory that `free_unpacked` gives back. -/
def freed_mem (s : search n) (slot : unpacked n) : Nat :=
  match slot.data, slot.entry with
  | some _, some entry => plus (slot.index.getD 0) (s.objects entry).size
  | _, _ => slot.index.getD 0

def free_unpacked (s : search n) (i : Nat) : search n :=
  { s.set_slot i empty_slot with mem_usage := minus s.mem_usage (freed_mem s (s.array i)) }

/-- Fills the slot with the bytes of its object. `none`: it is a preferred
base that cannot be read. -/
def load (env : environment n) (s : search n) (i : Nat) (entry : Fin n) (optional : Bool) :
    Except stop (Option Bytes × search n) :=
  match (s.array i).data with
  | some data => .ok (some data, s)
  | none =>
    match env.read_sha1_file entry with
    | none => if optional then .ok (none, s) else .error .cannot_be_read
    | some data =>
      if data.length ≠ (s.objects entry).size then .error .inconsistent_object_length
      else
        .ok (some data, s.fill i { s.array i with data := some data } data.length)

/-- Whether the slot has its index now. -/
def load_index (env : environment n) (s : search n) (i : Nat) (data : Bytes) :
    Bool × search n :=
  match (s.array i).index with
  | some _ => (true, s)
  | none =>
    match env.create_delta_index data with
    | none => (false, s)
    | some size => (true, s.fill i { s.array i with index := some size } size)

/-! ## One base -/

/-- The size that a delta must not go over; `none` where it is not worth a try. -/
def max_delta_size (trg src : object_entry n) (trg_depth src_depth max_depth : Nat) : Option Nat :=
  let max_size := if trg.delta.isNone then minus (trg.size / 2) 20 else trg.delta_size
  let ref_depth := if trg.delta.isNone then 1 else trg_depth
  let max_size := max_size * (max_depth - src_depth) % 2 ^ 64 / (max_depth - ref_depth + 1)
  if max_size = 0 then none
  else if max_size ≤ trg.size - src.size then none
  else if trg.size < src.size / 32 then none
  else some max_size

def delta_cacheable (env : environment n) (delta_cache_size src_size trg_size delta_size : Nat) :
    Bool :=
  if env.max_delta_cache_size ≠ 0 ∧ env.max_delta_cache_size < plus delta_cache_size delta_size then
    false
  else if delta_size < env.cache_max_small_delta_size then true
  -- cache delta, if objects are large enough compared to delta size
  else delta_size / 2 ^ 10 < src_size / 2 ^ 20 + trg_size / 2 ^ 21

/-- `trg` becomes a delta against `src_entry`. -/
def record_delta (env : environment n) (s : search n) (trg : Nat) (trg_entry src_entry : Fin n)
    (src_depth : Nat) (delta_buf : Bytes) : search n :=
  let entry := s.objects trg_entry
  let delta_size := delta_buf.length
  let cache :=
    if entry.delta_data.isSome then minus s.delta_cache_size entry.delta_size
    else s.delta_cache_size
  let cacheable :=
    delta_cacheable env cache (s.objects src_entry).size entry.size delta_size
  { s.set_slot trg { s.array trg with depth := src_depth + 1 } with
    objects := Function.update s.objects trg_entry
      { entry with
        delta := some src_entry
        delta_size := delta_size
        delta_data := if cacheable then some delta_buf else none }
    delta_cache_size := if cacheable then plus cache delta_size else cache }

/-- Whether the objects were held against each other when their pack was made. -/
def tried_before (env : environment n) (trg src : object_entry n) : Bool :=
  env.reuse_delta && trg.in_pack.isSome && trg.in_pack == src.in_pack && !src.preferred_base &&
    trg.in_pack_type != .OBJ_REF_DELTA && trg.in_pack_type != .OBJ_OFS_DELTA

def try_delta (env : environment n) (s : search n) (trg src : Nat) (trg_entry src_entry : Fin n)
    (max_depth : Nat) : Except stop (Int × search n) :=
  let src_depth := (s.array src).depth
  -- Don't bother doing diffs between different types
  if (s.objects trg_entry).type ≠ (s.objects src_entry).type then .ok (-1, s)
  else if tried_before env (s.objects trg_entry) (s.objects src_entry) then .ok (0, s)
  -- Let's not bust the allowed depth.
  else if max_depth ≤ src_depth then .ok (0, s)
  else
    match max_delta_size (s.objects trg_entry) (s.objects src_entry) (s.array trg).depth src_depth
      max_depth with
    | none => .ok (0, s)
    | some max_size =>
      match load env s trg trg_entry false with
      | .error d => .error d
      | .ok (none, s) => .ok (0, s)
      | .ok (some trg_data, s) =>
        match load env s src src_entry (s.objects src_entry).preferred_base with
        | .error d => .error d
        | .ok (none, s) => .ok (0, s)
        | .ok (some src_data, s) =>
          match load_index env s src src_data with
          | (false, s) => .ok (0, s)
          | (true, s) =>
            match env.create_delta src_data trg_data max_size with
            | none => .ok (0, s)
            | some delta_buf =>
              -- Prefer only shallower same-sized deltas.
              if (s.objects trg_entry).delta.isSome ∧
                  delta_buf.length = (s.objects trg_entry).delta_size ∧
                  (s.array trg).depth ≤ src_depth + 1 then .ok (0, s)
              else .ok (1, record_delta env s trg trg_entry src_entry src_depth delta_buf)

/-! ## One object of the list -/

/-- Slots are evicted until the memory limit is kept, or one is left. -/
def evict (env : environment n) (window : Nat) : Nat → search n → search n
  | 0, s => s
  | k + 1, s =>
    if env.window_memory_limit ≠ 0 ∧ env.window_memory_limit < s.mem_usage ∧ 1 < s.count then
      let tail := (s.idx + window - s.count) % window
      evict env window k { free_unpacked s tail with count := s.count - 1 }
    else s

/-- `while (--j > 0)` over the other slots, with the best base so far. -/
def try_window (env : environment n) (window : Nat) (entry : Fin n) (max_depth : Nat) :
    Nat → Option Nat → search n → Except stop (Option Nat × search n)
  | 0, best_base, s => .ok (best_base, s)
  | j + 1, best_base, s =>
    let other_idx := s.idx + (j + 1)
    let other_idx := if window ≤ other_idx then other_idx - window else other_idx
    match (s.array other_idx).entry with
    | none => .ok (best_base, s)
    | some m =>
      match try_delta env s s.idx other_idx entry m max_depth with
      | .error d => .error d
      | .ok (ret, s) =>
        if ret < 0 then .ok (best_base, s)
        else if 0 < ret then try_window env window entry max_depth j (some other_idx) s
        else try_window env window entry max_depth j best_base s

/-- Cached delta data is compressed right away. -/
def compress_cached (env : environment n) (s : search n) (entry : Fin n) : search n :=
  match (s.objects entry).delta_data with
  | some delta_data =>
    if env.pack_to_stdout then s
    else
      let z_delta := env.do_compress delta_data
      { s with
        objects := Function.update s.objects entry
          { s.objects entry with
            delta_data := some z_delta
            z_delta_size := z_delta.length }
        delta_cache_size :=
          plus (minus s.delta_cache_size (s.objects entry).delta_size) z_delta.length }
  | none => s

/-- The best base goes from `dst` up to the current slot, `dist` slots on. -/
def move_up (window : Nat) (swap : unpacked n) : Nat → Nat → (Nat → unpacked n) → Nat → unpacked n
  | 0, dst, array => Function.update array dst swap
  | dist + 1, dst, array =>
    let src := (dst + 1) % window
    move_up window swap dist src (Function.update array dst (array src))

def keep_best_base (window : Nat) (s : search n) (best_base : Option Nat) : search n :=
  match best_base with
  | none => s
  | some best_base =>
    let dist := (window + s.idx - best_base) % window
    { s with array := move_up window (s.array best_base) dist best_base s.array }

/-- `next:` -/
def next (window : Nat) (s : search n) : search n :=
  { s with
    idx := if window ≤ s.idx + 1 then 0 else s.idx + 1
    count := if s.count + 1 < window then s.count + 1 else s.count }

/-- The depth that is left for `entry` above the deltas that depend on it. -/
def depth_left (fuel depth : Nat) (s : search n) (entry : Fin n) : Option Int :=
  if (s.objects entry).delta_child.isSome then
    (check_delta_limit s.objects fuel entry 0).map fun (limit : Nat) => (depth : Int) - limit
  else some depth

/-- The slot at `idx` is for `entry` now. -/
def take_slot (env : environment n) (window : Nat) (s : search n) (entry : Fin n) : search n :=
  let s := free_unpacked s s.idx
  let s := s.set_slot s.idx { s.array s.idx with entry := some entry }
  evict env window s.count s

def find_delta (env : environment n) (fuel window depth : Nat) (s : search n) (entry : Fin n) :
    Except stop (search n) :=
  let s := take_slot env window s entry
  -- We do not compute delta to *create* objects we are not going to pack.
  if (s.objects entry).preferred_base then .ok (next window s)
  else
    match depth_left fuel depth s entry with
    | none => .error .no_fuel
    | some max_depth =>
      if (s.objects entry).delta_child.isSome ∧ max_depth ≤ 0 then .ok (next window s)
      else
        match try_window env window entry max_depth.toNat (window - 1) none s with
        | .error d => .error d
        | .ok (best_base, s) =>
          let s := compress_cached env s entry
          if (s.objects entry).delta.isSome then
            -- n is at max depth: leaving it in the window is pointless
            if max_depth.toNat ≤ (s.array s.idx).depth then .ok s
            else .ok (next window (keep_best_base window s best_base))
          else .ok (next window s)

def find_deltas (env : environment n) (fuel window depth : Nat) :
    List (Fin n) → search n → Except stop (search n)
  | [], s => .ok s
  | entry :: list, s =>
    match find_delta env fuel window depth s entry with
    | .error d => .error d
    | .ok s => find_deltas env fuel window depth list s

/-- An empty window. -/
def start (objects : Fin n → object_entry n) (delta_cache_size : Nat) : search n :=
  { objects := objects, array := fun _ => empty_slot, idx := 0, count := 0, mem_usage := 0
    delta_cache_size := delta_cache_size }

end git.delta_window
