-- The order in which `builtin/pack-objects.c` writes the objects: the objects in their
-- recency order up to the first that is tagged, then the tagged ones, the commits and
-- tags, the trees, and at last each family of deltas.
import Git.WriteObject
import Git.Lib.Forest
import Git.Lib.Turns

namespace git.pack_objects

open forest turns

variable {n : Nat}

/-! ## The code -/

/-- `delta_child` and `delta_sibling` of the objects. -/
structure delta_links (n : Nat) where
  delta_child : Fin n → Option (Fin n)
  delta_sibling : Fin n → Option (Fin n)

/-- Mark `e` as the first child of its base. -/
def connect (objects : Fin n → object_entry n) (e : Fin n) (links : delta_links n) :
    delta_links n :=
  match (objects e).delta with
  | none => links
  | some base =>
    { delta_sibling := Function.update links.delta_sibling e (links.delta_child base)
      delta_child := Function.update links.delta_child base (some e) }

/-- Fully connect the network, from the last object to the first. -/
def connected (objects : Fin n → object_entry n) : delta_links n :=
  (List.finRange n).foldr (connect objects) ⟨fun _ => none, fun _ => none⟩

/-- `wo`, and the objects that are in it. -/
structure write_order (n : Nat) where
  wo : List (Fin n)
  filled : Fin n → Bool

def add_to_write_order (s : write_order n) (e : Fin n) : write_order n :=
  if s.filled e then s else ⟨s.wo ++ [e], Function.update s.filled e true⟩

/-- `for (s = e->delta_sibling; s; s = s->delta_sibling)`. Each loop has the number of
turns that it may take; `none` where they are not enough. -/
def add_siblings (links : delta_links n) : Nat → Option (Fin n) → write_order n →
    Option (write_order n)
  | _, none, s => some s
  | 0, some _, _ => none
  | turns + 1, some e, s =>
    add_siblings links turns (links.delta_sibling e) (add_to_write_order s e)

/-- `while (e && !e->delta_sibling) e = e->delta;` -/
def climb (objects : Fin n → object_entry n) (links : delta_links n) :
    Nat → Option (Fin n) → Option (Option (Fin n))
  | _, none => some none
  | 0, some _ => none
  | turns + 1, some e =>
    if (links.delta_sibling e).isSome then some (some e)
    else climb objects links turns (objects e).delta

/-- The loop of `add_descendants_to_write_order`. -/
def add_descendants_from (objects : Fin n → object_entry n) (links : delta_links n) :
    Nat → Bool → Option (Fin n) → write_order n → Option (write_order n)
  | _, _, none, s => some s
  | 0, _, some _, _ => none
  | turns + 1, add_to_order, some e, s =>
    let added :=
      if add_to_order then
        -- add this node and all its siblings
        add_siblings links turns (links.delta_sibling e) (add_to_write_order s e)
      else some s
    added.bind fun s =>
      match links.delta_child e with
      -- drop down a level to add left subtree nodes if possible
      | some child => add_descendants_from objects links turns true (some child) s
      | none =>
        match links.delta_sibling e with
        -- our sibling might have some children, it is next
        | some sibling => add_descendants_from objects links turns false (some sibling) s
        | none =>
          (climb objects links turns (objects e).delta).bind fun e =>
            match e with
            -- done- we hit our original root node
            | none => some s
            -- pass it off to sibling at this level
            | some e => add_descendants_from objects links turns false (links.delta_sibling e) s

def add_descendants_to_write_order (objects : Fin n → object_entry n) (links : delta_links n)
    (turns : Nat) (e : Fin n) (s : write_order n) : Option (write_order n) :=
  add_descendants_from objects links turns true (some e) s

/-- `for (root = e; root->delta; root = root->delta)` -/
def find_root (objects : Fin n → object_entry n) : Nat → Fin n → Option (Fin n)
  | 0, _ => none
  | turns + 1, root =>
    match (objects root).delta with
    | none => some root
    | some base => find_root objects turns base

def add_family_to_write_order (objects : Fin n → object_entry n) (links : delta_links n)
    (turns : Nat) (e : Fin n) (s : write_order n) : Option (write_order n) :=
  (find_root objects turns e).bind fun root =>
    add_descendants_to_write_order objects links turns root s

/-- The original recency order until we see a tagged tip. -/
def add_until_tagged (tagged : Fin n → Bool) : List (Fin n) → write_order n →
    write_order n × List (Fin n)
  | [], s => (s, [])
  | e :: rest, s =>
    if tagged e then (s, e :: rest) else add_until_tagged tagged rest (add_to_write_order s e)

/-- A loop that adds the objects with `P`. -/
def add_those (P : Fin n → Bool) (objects : List (Fin n)) (s : write_order n) : write_order n :=
  objects.foldl (fun s e => if P e then add_to_write_order s e else s) s

def commit_or_tag (objects : Fin n → object_entry n) (e : Fin n) : Bool :=
  (objects e).type = .whole .OBJ_COMMIT || (objects e).type = .whole .OBJ_TAG

def is_tree (objects : Fin n → object_entry n) (e : Fin n) : Bool :=
  (objects e).type = .whole .OBJ_TREE

/-- Finally all the rest in really tight order. -/
def add_families (objects : Fin n → object_entry n) (links : delta_links n) (turns : Nat) :
    List (Fin n) → write_order n → Option (write_order n)
  | [], s => some s
  | e :: rest, s =>
    if s.filled e then add_families objects links turns rest s
    else
      (add_family_to_write_order objects links turns e s).bind
        (add_families objects links turns rest)

/-- `error wo_end`: git dies, since that is not the number of objects. `tagged` are the
objects that `mark_tagged` has marked. -/
def compute_write_order (objects : Fin n → object_entry n) (tagged : Fin n → Bool)
    (turns : Nat) : Option (Except Nat (List (Fin n))) :=
  let links := connected objects
  let (s, rest) := add_until_tagged tagged (List.finRange n) ⟨[], fun _ => false⟩
  let s := add_those tagged rest s
  let s := add_those (commit_or_tag objects) rest s
  let s := add_those (is_tree objects) rest s
  (add_families objects links turns rest s).map fun s =>
    if s.wo.length ≠ n then .error s.wo.length else .ok s.wo

/-! ## What is asked of it -/

/-- The objects before the first that is tagged. -/
def untagged (tagged : Fin n → Bool) : List (Fin n) :=
  (List.finRange n).takeWhile fun e => !tagged e

/-- The objects from there on. -/
def from_tagged (tagged : Fin n → Bool) : List (Fin n) :=
  (List.finRange n).dropWhile fun e => !tagged e

/-- What comes before the families. -/
def before_families (objects : Fin n → object_entry n) (tagged : Fin n → Bool) : List (Fin n) :=
  untagged tagged ++ (from_tagged tagged).filter tagged ++
    (from_tagged tagged).filter (fun e => !tagged e && commit_or_tag objects e) ++
    (from_tagged tagged).filter (fun e => !tagged e && is_tree objects e)

/-- An object that is left for the families. -/
def remaining (objects : Fin n → object_entry n) (tagged : Fin n → Bool) (e : Fin n) : Bool :=
  decide (e ∈ from_tagged tagged) && !tagged e && !commit_or_tag objects e && !is_tree objects e

/-- The deltas against an object, in the recency order. -/
def deltas_of (objects : Fin n → object_entry n) (base : Fin n) : List (Fin n) :=
  (List.finRange n).filter fun e => (objects e).delta = some base

/-- A family: an object that is no delta, and all that is below it, level by level below
each of its members. -/
structure Family (objects : Fin n → object_entry n) (root : Fin n) (below : List (Fin n)) :
    Prop where
  whole : (objects root).delta = none
  levels : Below (deltas_of objects) [root] below
  nodup : (root :: below).Nodup

end git.pack_objects
