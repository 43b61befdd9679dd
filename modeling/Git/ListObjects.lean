-- Listing objects, as `list-objects.c` does: the commits of a revision walk are
-- shown first, and then what is pending, with all that is in the trees. What
-- is uninteresting is not shown.
import Git.RevisionTips

open Relation

namespace git.list_objects

open revision

variable {commit tree blob tag : Type} [DecidableEq commit] [DecidableEq tree] [DecidableEq blob]
  [DecidableEq tag]

/-- What is listed so far, behind the flags. -/
structure listing (commit tree blob tag : Type) where
  revs : rev_info commit tree blob tag
  shown : List (object commit tree blob tag)

/-- `commit->tree`: there is none before the commit is parsed. -/
def commit_tree (g : object_graph commit tree blob tag) (revs : rev_info commit tree blob tag)
    (c : commit) : Option tree :=
  if c ∈ revs.parsed ∧ g.has_sha1_file (.commit c) then some (g.tree_of c) else none

/-! ## Edges -/

def mark_commit_tree_uninteresting (g : object_graph commit tree blob tag) (c : commit)
    (revs : rev_info commit tree blob tag) : rev_info commit tree blob tag :=
  match commit_tree g revs c with
  | some t => mark_tree_uninteresting g t revs
  | none => revs

/-- The second list holds the edges shown. -/
def mark_edge_parents_uninteresting (g : object_graph commit tree blob tag) (opt : rev_options) :
    List commit → rev_info commit tree blob tag × List commit →
    rev_info commit tree blob tag × List commit
  | [], s => s
  | parent :: parents, (revs, edges) =>
    if .commit parent ∈ revs.UNINTERESTING then
      let revs := mark_commit_tree_uninteresting g parent revs
      if opt.edge_hint ∧ parent ∉ revs.SHOWN then
        mark_edge_parents_uninteresting g opt parents
          ({ revs with SHOWN := insert parent revs.SHOWN }, edges ++ [parent])
      else mark_edge_parents_uninteresting g opt parents (revs, edges)
    else mark_edge_parents_uninteresting g opt parents (revs, edges)

def mark_edges_uninteresting (g : object_graph commit tree blob tag) (opt : rev_options) :
    List commit → rev_info commit tree blob tag × List commit →
    rev_info commit tree blob tag × List commit
  | [], s => s
  | c :: list, (revs, edges) =>
    if .commit c ∈ revs.UNINTERESTING then
      mark_edges_uninteresting g opt list (mark_commit_tree_uninteresting g c revs, edges)
    else
      mark_edges_uninteresting g opt list
        (mark_edge_parents_uninteresting g opt (parents_of g revs c) (revs, edges))

/-! ## Commits -/

/-- `none`: it dies. Without a commit at the end of the list. -/
def get_revision_1 [Fintype commit] (g : object_graph commit tree blob tag) :
    Nat → rev_info commit tree blob tag →
    Option (rev_info commit tree blob tag × Option commit)
  | 0, revs => some (revs, none)
  | fuel + 1, revs =>
    match revs.commits with
    | [] => some (revs, none)
    | c :: list =>
      -- before the list was limited, the parents come in here
      let next := if revs.limited then some (revs, list) else add_parents_to_list g c revs list
      next.bind fun (revs, list) =>
        let revs := { revs with commits := list }
        if c ∈ revs.SHOWN ∨ .commit c ∈ revs.UNINTERESTING then get_revision_1 g fuel revs
        else some (revs, some c)

section

variable [Fintype commit]

/-- A bound on the commits that can still come out of the list. -/
def commits_left (revs : rev_info commit tree blob tag) : Nat :=
  revs.commits.length + Fintype.card commit + 1

def get_revision (g : object_graph commit tree blob tag) (revs : rev_info commit tree blob tag) :
    Option (rev_info commit tree blob tag × Option commit) :=
  (get_revision_1 g (commits_left revs) revs).map fun (revs, c) =>
    match c with
    | some c => ({ revs with SHOWN := insert c revs.SHOWN }, some c)
    | none => (revs, none)

/-- The first loop of `traverse_commit_list`. -/
def show_commits (g : object_graph commit tree blob tag) :
    Nat → listing commit tree blob tag → Option (listing commit tree blob tag)
  | 0, s => some s
  | fuel + 1, s =>
    (get_revision g s.revs).bind fun (revs, c) =>
      match c with
      | none => some { s with revs := revs }
      | some c =>
        let revs := match commit_tree g revs c with
          | some t => add_pending_object (.tree t) revs
          | none => revs
        show_commits g fuel ⟨revs, s.shown ++ [.commit c]⟩

end

/-! ## Trees and files -/

def show_object (o : object commit tree blob tag) (s : listing commit tree blob tag) :
    listing commit tree blob tag :=
  ⟨{ s.revs with SEEN := insert o s.revs.SEEN }, s.shown ++ [o]⟩

def process_blob (opt : rev_options) (b : blob) (s : listing commit tree blob tag) :
    listing commit tree blob tag :=
  if !opt.blob_objects then s
  else if .blob b ∈ s.revs.UNINTERESTING ∨ .blob b ∈ s.revs.SEEN then s
  else show_object (.blob b) s

/-- For a tree no higher than `n`. `none`: a bad tree object. -/
def process_tree (g : object_graph commit tree blob tag) (opt : rev_options) :
    Nat → tree → listing commit tree blob tag → Option (listing commit tree blob tag)
  | 0, _, s => some s
  | n + 1, t, s =>
    if !opt.tree_objects then some s
    else if .tree t ∈ s.revs.UNINTERESTING ∨ .tree t ∈ s.revs.SEEN then some s
    else if g.has_sha1_file (.tree t) then
      (g.entries t).foldlM (fun s e =>
        match e with
        | .tree t => process_tree g opt n t s
        | .blob b => some (process_blob opt b s)
        | .gitlink => some s) (show_object (.tree t) s)
    else none

/-- The second loop of `traverse_commit_list`. `none`: an unknown object. -/
def process_pending (g : object_graph commit tree blob tag) (opt : rev_options) :
    List (object commit tree blob tag) → listing commit tree blob tag →
    Option (listing commit tree blob tag)
  | [], s => some s
  | o :: pending, s =>
    if o ∈ s.revs.UNINTERESTING ∨ o ∈ s.revs.SEEN then process_pending g opt pending s
    else
      match o with
      | .tag t => process_pending g opt pending (show_object (.tag t) s)
      | .tree t =>
        (process_tree g opt (g.tree_height t + 1) t s).bind (process_pending g opt pending)
      | .blob b => process_pending g opt pending (process_blob opt b s)
      | .commit _ => none

section

variable [Fintype commit]

def traverse_commit_list (g : object_graph commit tree blob tag) (opt : rev_options)
    (revs : rev_info commit tree blob tag) : Option (listing commit tree blob tag) :=
  (show_commits g (commits_left revs) ⟨revs, []⟩).bind fun s =>
    process_pending g opt s.revs.pending s

/-- What the callers of `traverse_commit_list` do, and the objects that they are shown. -/
def listed_objects (g : object_graph commit tree blob tag) (opt : rev_options)
    (revs : rev_info commit tree blob tag) : Option (List (object commit tree blob tag)) :=
  (prepare_revision_walk g opt revs).bind fun revs =>
    (traverse_commit_list g opt (mark_edges_uninteresting g opt revs.commits (revs, [])).1).map
      fun s => s.shown

end

end git.list_objects
