-- The revision walk of `revision.c`: tips are taken from the pending objects,
-- commits are walked by date, and what is uninteresting is marked down the
-- history as far as it has been parsed.
import Mathlib

namespace git.revision

/-! ## Objects -/

inductive object (commit tree blob tag : Type)
  | commit (c : commit)
  | tree (t : tree)
  | blob (b : blob)
  | tag (t : tag)
  deriving DecidableEq

/-- What an entry of a tree names; the commit of a gitlink is in no repository here. -/
inductive entry (tree blob : Type)
  | tree (t : tree)
  | blob (b : blob)
  | gitlink

/-- The objects that there are, and those that the repository has. Trees and tags
have a height, as nothing contains its own name. -/
structure object_graph (commit tree blob tag : Type) where
  parents : commit → List commit
  tree_of : commit → tree
  date : commit → Nat
  entries : tree → List (entry tree blob)
  tagged : tag → object commit tree blob tag
  has_sha1_file : object commit tree blob tag → Bool
  tree_height : tree → Nat
  tag_height : tag → Nat
  date_lt : ∀ c, date c < 2 ^ 64
  subtree_lt : ∀ t s, entry.tree s ∈ entries t → tree_height s < tree_height t
  tagged_lt : ∀ t s, tagged t = object.tag s → tag_height s < tag_height t

structure rev_options where
  tag_objects : Bool
  tree_objects : Bool
  blob_objects : Bool
  edge_hint : Bool

/-- The flags of the objects as sets, next to the lists of `rev_info`. -/
structure rev_info (commit tree blob tag : Type) where
  pending : List (object commit tree blob tag)
  commits : List commit
  limited : Bool
  UNINTERESTING : Finset (object commit tree blob tag)
  SEEN : Finset (object commit tree blob tag)
  ADDED : Finset commit
  SHOWN : Finset commit
  parsed : Finset commit

variable {commit tree blob tag : Type} [DecidableEq commit] [DecidableEq tree] [DecidableEq blob]
  [DecidableEq tag]

/-- What a commit has for parents: none before it is parsed. One that is missing and only
counts as parsed has none either. -/
def parents_of (g : object_graph commit tree blob tag) (revs : rev_info commit tree blob tag)
    (c : commit) : List commit :=
  if c ∈ revs.parsed ∧ g.has_sha1_file (.commit c) then g.parents c else []

/-- The date of a commit that counts as parsed. -/
def date_of (g : object_graph commit tree blob tag) (c : commit) : Nat :=
  if g.has_sha1_file (.commit c) then g.date c else 0

/-- `none`: could not read the commit. -/
def parse_commit (g : object_graph commit tree blob tag) (c : commit)
    (revs : rev_info commit tree blob tag) : Option (rev_info commit tree blob tag) :=
  if c ∈ revs.parsed then some revs
  else if g.has_sha1_file (.commit c) then some { revs with parsed := insert c revs.parsed }
  else none

def parse_object (g : object_graph commit tree blob tag) (o : object commit tree blob tag)
    (revs : rev_info commit tree blob tag) : Option (rev_info commit tree blob tag) :=
  match o with
  | .commit c => parse_commit g c revs
  | o => if g.has_sha1_file o then some revs else none

def add_pending_object (o : object commit tree blob tag) (revs : rev_info commit tree blob tag) :
    rev_info commit tree blob tag :=
  { revs with pending := revs.pending ++ [o] }

/-- What the arguments leave: every tip is pending, and a negative one (`true`) is flagged. -/
def add_tips (tips : List (object commit tree blob tag × Bool)) (parsed : Finset commit)
    (limited : Bool) : rev_info commit tree blob tag where
  pending := tips.map Prod.fst
  commits := []
  limited := limited
  UNINTERESTING := ((tips.filter Prod.snd).map Prod.fst).toFinset
  SEEN := ∅
  ADDED := ∅
  SHOWN := ∅
  parsed := parsed

/-! ## What is uninteresting -/

def flag_uninteresting (o : object commit tree blob tag) (revs : rev_info commit tree blob tag) :
    rev_info commit tree blob tag :=
  { revs with UNINTERESTING := insert o revs.UNINTERESTING }

/-- Both loops of `mark_parents_uninteresting` on one stack: the first parent of the commit
goes on top, and the others, each put before the one before, under it. -/
def mark_parents_loop (g : object_graph commit tree blob tag) :
    Nat → List commit → rev_info commit tree blob tag → rev_info commit tree blob tag
  | 0, _, revs => revs
  | _, [], revs => revs
  | fuel + 1, c :: parents, revs =>
    -- a missing commit is just marked parsed
    let revs :=
      if g.has_sha1_file (.commit c) then revs
      else { revs with parsed := insert c revs.parsed }
    if .commit c ∈ revs.UNINTERESTING then mark_parents_loop g fuel parents revs
    else
      let revs := flag_uninteresting (.commit c) revs
      match parents_of g revs c with
      | [] => mark_parents_loop g fuel parents revs
      | first :: rest => mark_parents_loop g fuel (first :: (rest.reverse ++ parents)) revs

/-- Every commit is put on the stack at most once for each child that is flagged. -/
def mark_parents_uninteresting [Fintype commit] (g : object_graph commit tree blob tag)
    (c : commit) (revs : rev_info commit tree blob tag) : rev_info commit tree blob tag :=
  mark_parents_loop g ((g.parents c).length + ∑ d, ((g.parents d).length + 1))
    (parents_of g revs c).reverse revs

/-- For a tree no higher than `n`. -/
def mark_tree_loop (g : object_graph commit tree blob tag) :
    Nat → tree → Finset (object commit tree blob tag) → Finset (object commit tree blob tag)
  | 0, _, flags => flags
  | n + 1, t, flags =>
    if .tree t ∈ flags then flags
    else if g.has_sha1_file (.tree t) then
      (g.entries t).foldl (fun flags e =>
        match e with
        | .tree t => mark_tree_loop g n t flags
        | .blob b => insert (.blob b) flags
        | .gitlink => flags) (insert (.tree t) flags)
    else insert (.tree t) flags

def mark_tree_uninteresting (g : object_graph commit tree blob tag) (t : tree)
    (revs : rev_info commit tree blob tag) : rev_info commit tree blob tag :=
  { revs with UNINTERESTING := mark_tree_loop g (g.tree_height t + 1) t revs.UNINTERESTING }

/-! ## Tips -/

/-- The loop of `handle_commit` over the tags, for a chain no higher than the fuel. `none`: it
dies; without an object: what an uninteresting tag names is missing. -/
def peel_tags (g : object_graph commit tree blob tag) (opt : rev_options) (uninteresting : Bool) :
    Nat → object commit tree blob tag → rev_info commit tree blob tag →
    Option (rev_info commit tree blob tag × Option (object commit tree blob tag))
  | fuel + 1, .tag t, revs =>
    let revs :=
      if opt.tag_objects && !uninteresting then add_pending_object (.tag t) revs else revs
    match parse_object g (g.tagged t) revs with
    | some revs => peel_tags g opt uninteresting fuel (g.tagged t) revs
    | none => if uninteresting then some (revs, none) else none
  | _, o, revs => some (revs, some o)

def tags_above (g : object_graph commit tree blob tag) : object commit tree blob tag → Nat
  | .tag t => g.tag_height t + 1
  | _ => 0

section

variable [Fintype commit]

/-- `none`: it dies. -/
def handle_commit (g : object_graph commit tree blob tag) (opt : rev_options)
    (o : object commit tree blob tag) (revs : rev_info commit tree blob tag) :
    Option (rev_info commit tree blob tag × Option commit) :=
  let uninteresting : Bool := o ∈ revs.UNINTERESTING
  (peel_tags g opt uninteresting (tags_above g o) o revs).bind fun (revs, o) =>
    match o with
    | none => some (revs, none)
    | some (.commit c) =>
      (parse_commit g c revs).map fun revs =>
        if uninteresting then
          ({ mark_parents_uninteresting g c (flag_uninteresting (.commit c) revs) with
             limited := true }, some c)
        else (revs, some c)
    | some (.tree t) =>
      if !opt.tree_objects then some (revs, none)
      else if uninteresting then some (mark_tree_uninteresting g t revs, none)
      else some (add_pending_object (.tree t) revs, none)
    | some (.blob b) =>
      if !opt.blob_objects then some (revs, none)
      else if uninteresting then some (flag_uninteresting (.blob b) revs, none)
      else some (add_pending_object (.blob b) revs, none)
    | some (.tag _) => none

/-- The loop of `prepare_revision_walk` over the tips. -/
def handle_tips (g : object_graph commit tree blob tag) (opt : rev_options) :
    List (object commit tree blob tag) → rev_info commit tree blob tag →
    Option (rev_info commit tree blob tag)
  | [], revs => some revs
  | o :: list, revs =>
    (handle_commit g opt o revs).bind fun (revs, c) =>
      match c with
      | none => handle_tips g opt list revs
      | some c =>
        if .commit c ∈ revs.SEEN then handle_tips g opt list revs
        else
          handle_tips g opt list
            { revs with
              SEEN := insert (.commit c) revs.SEEN
              commits := revs.commits ++ [c] }

/-! ## Walking -/

/-- Behind all commits with the same date. -/
def commit_list_insert_by_date (g : object_graph commit tree blob tag) (item : commit) :
    List commit → List commit
  | [] => [item]
  | p :: list =>
    if date_of g p < date_of g item then item :: p :: list
    else p :: commit_list_insert_by_date g item list

/-- Newest first; the sort is stable. -/
def commit_list_sort_by_date (g : object_graph commit tree blob tag) (list : List commit) :
    List commit :=
  list.mergeSort fun a b => date_of g b ≤ date_of g a

/-- `if (!(p->object.flags & SEEN))`, and then into the list. -/
def add_unseen (g : object_graph commit tree blob tag) (p : commit)
    (s : rev_info commit tree blob tag × List commit) :
    rev_info commit tree blob tag × List commit :=
  if .commit p ∈ s.1.SEEN then s
  else
    ({ s.1 with SEEN := insert (.commit p) s.1.SEEN }, commit_list_insert_by_date g p s.2)

/-- The parents of an uninteresting commit. One that cannot be read is only flagged. -/
def add_uninteresting_parents (g : object_graph commit tree blob tag) :
    List commit → rev_info commit tree blob tag × List commit →
    rev_info commit tree blob tag × List commit
  | [], s => s
  | p :: parents, (revs, list) =>
    let revs := flag_uninteresting (.commit p) revs
    match parse_commit g p revs with
    | none => add_uninteresting_parents g parents (revs, list)
    | some revs =>
      let revs := if parents_of g revs p ≠ [] then mark_parents_uninteresting g p revs else revs
      add_uninteresting_parents g parents (add_unseen g p (revs, list))

/-- The parents of an interesting one. `none` where it returns -1. -/
def add_interesting_parents (g : object_graph commit tree blob tag) :
    List commit → rev_info commit tree blob tag × List commit →
    Option (rev_info commit tree blob tag × List commit)
  | [], s => some s
  | p :: parents, (revs, list) =>
    (parse_commit g p revs).bind fun revs =>
      add_interesting_parents g parents (add_unseen g p (revs, list))

def add_parents_to_list (g : object_graph commit tree blob tag) (c : commit)
    (revs : rev_info commit tree blob tag) (list : List commit) :
    Option (rev_info commit tree blob tag × List commit) :=
  if c ∈ revs.ADDED then some (revs, list)
  else
    let revs := { revs with ADDED := insert c revs.ADDED }
    if .commit c ∈ revs.UNINTERESTING then
      some (add_uninteresting_parents g (parents_of g revs c) (revs, list))
    else add_interesting_parents g (parents_of g revs c) (revs, list)

/-! ## Limiting -/

abbrev SLOP : Nat := 5

def everybody_uninteresting (revs : rev_info commit tree blob tag) (list : List commit) : Bool :=
  list.all fun c => .commit c ∈ revs.UNINTERESTING

def still_interesting (g : object_graph commit tree blob tag)
    (revs : rev_info commit tree blob tag) (src : List commit) (date slop : Nat) : Nat :=
  match src with
  | [] => 0
  | c :: _ =>
    if date < date_of g c then SLOP
    else if !everybody_uninteresting revs src then SLOP
    else slop - 1

/-- The variables of `limit_list`. -/
structure limiting (commit tree blob tag : Type) where
  revs : rev_info commit tree blob tag
  list : List commit
  newlist : List commit
  date : Nat
  slop : Nat

/-- A turn of the loop of `limit_list`, and whether it goes on. -/
def limit_step (g : object_graph commit tree blob tag) (s : limiting commit tree blob tag) :
    Option (limiting commit tree blob tag × Bool) :=
  match s.list with
  | [] => some (s, false)
  | c :: list =>
    (add_parents_to_list g c s.revs list).map fun (revs, list) =>
      if .commit c ∈ revs.UNINTERESTING then
        let revs := mark_parents_uninteresting g c revs
        let slop := still_interesting g revs list s.date s.slop
        ({ s with revs := revs, list := list, slop := slop }, slop ≠ 0)
      else
        ({ s with revs := revs, list := list, newlist := s.newlist ++ [c], date := date_of g c },
          true)

def limit_loop (g : object_graph commit tree blob tag) :
    Nat → limiting commit tree blob tag → Option (limiting commit tree blob tag)
  | 0, s => some s
  | fuel + 1, s =>
    (limit_step g s).bind fun (s, goes_on) => if goes_on then limit_loop g fuel s else some s

/-- Each commit comes into the list at most once. -/
def limit_list (g : object_graph commit tree blob tag) (revs : rev_info commit tree blob tag) :
    Option (rev_info commit tree blob tag) :=
  (limit_loop g (revs.commits.length + Fintype.card commit + 1)
    ⟨revs, revs.commits, [], 2 ^ 64 - 1, SLOP⟩).map fun s => { s.revs with commits := s.newlist }

/-- Without any of the options that sort the commits in another way or rewrite them. -/
def prepare_revision_walk (g : object_graph commit tree blob tag) (opt : rev_options)
    (revs : rev_info commit tree blob tag) : Option (rev_info commit tree blob tag) :=
  (handle_tips g opt revs.pending { revs with pending := [] }).bind fun revs =>
    let revs := { revs with commits := commit_list_sort_by_date g revs.commits }
    if revs.limited then limit_list g revs else some revs

end

end git.revision
