-- What is read back of a cache-tree that was written: every name and every count, and the
-- object names of the valid nodes. The names in a path have no NUL in them, and the counts are
-- of type `int`.
import Git.CacheTreeFile
import Git.Coherent

open bsearch digit_text

namespace git

/-! ## Trees that can be stored -/

/-- Every node of the tree. -/
inductive cache_tree.All (P : cache_tree → Prop) : cache_tree → Prop where
  | mk {it : cache_tree} (node : P it) (down : ∀ sub ∈ it.down, cache_tree.All P sub.2) :
      cache_tree.All P it

theorem cache_tree.All.node {P : cache_tree → Prop} {it : cache_tree} (h : it.All P) : P it := by
  cases h; assumption

theorem cache_tree.All.down {P : cache_tree → Prop} {it : cache_tree} (h : it.All P) :
    ∀ sub ∈ it.down, sub.2.All P := by
  cases h; assumption

theorem cache_tree.All.and {P Q : cache_tree → Prop} {it : cache_tree} (h : it.All P)
    (h' : it.All Q) : it.All fun it => P it ∧ Q it := by
  induction h with
  | mk node _ ih => exact .mk ⟨node, h'.node⟩ fun sub hsub => ih sub hsub (h'.down sub hsub)

/-- The subtrees are in their order, under names of directories. -/
structure WellNamed (it : cache_tree) : Prop where
  sorted : it.Sorted
  names : ∀ sub ∈ it.down, 0 ∉ sub.1

/-- The numbers of the node are values of an `int`. -/
structure Ints (it : cache_tree) : Prop where
  low : -2 ^ 31 ≤ it.entry_count
  high : it.entry_count < 2 ^ 31
  subtree_nr : it.down.length < 2 ^ 31

mutual

/-- The tree without the object names of its invalid nodes. -/
def stored_tree : cache_tree → cache_tree
  | .mk entry_count sha1 down =>
    .mk entry_count (if 0 ≤ entry_count then sha1 else Vector.replicate 20 0) (stored_down down)

def stored_down : List (Bytes × cache_tree) → List (Bytes × cache_tree)
  | [] => []
  | (name, sub) :: down => (name, stored_tree sub) :: stored_down down

end

@[simp] theorem length_stored_down (down : List (Bytes × cache_tree)) :
    (stored_down down).length = down.length := by
  induction down with
  | nil => rfl
  | cons sub down ih => rw [stored_down, List.length_cons, List.length_cons, ih]

/-! ## The text of a node -/

theorem skip_past_append {test : UInt8 → Bool} {text : Bytes} (h : ∀ c ∈ text, test c = true)
    {c : UInt8} (hc : test c = false) (rest : Bytes) (size : Nat) :
    skip_past test (text ++ c :: rest) (text.length + (size + 1)) = some (rest, size) := by
  induction text with
  | nil => rw [List.nil_append, List.length_nil, Nat.zero_add, skip_past, if_neg (by simp [hc])]
  | cons d text ih =>
    rw [List.cons_append, List.length_cons, show text.length + 1 + (size + 1) =
      (text.length + (size + 1)) + 1 by omega, skip_past, if_pos (h d List.mem_cons_self)]
    exact ih fun c hc => h c (List.mem_cons_of_mem _ hc)

theorem to_int_of_int {n : Int} (hlow : -2 ^ 31 ≤ n) (hhigh : n < 2 ^ 31) :
    config.to_int n = n := by
  unfold config.to_int
  exact Int.bmod_eq_of_le (by norm_num; omega) (by norm_num; omega)

/-- A digit is neither the end of the name nor the end of the line. -/
theorem not_end_of_digit {c : UInt8} (h : is_digit 10 c = true) : (c != 0 && c != 10) = true := by
  rw [Bool.and_eq_true, bne_iff_ne, bne_iff_ne]
  constructor
  · rintro rfl
    exact absurd h (by decide)
  · rintro rfl
    exact absurd h (by decide)

theorem not_end_of_write_int (n : Int) : ∀ c ∈ write_int 10 n, (c != 0 && c != 10) = true := by
  intro c hc
  unfold write_int at hc
  split at hc
  · rcases List.mem_cons.mp hc with rfl | hc
    · decide
    · exact not_end_of_digit (mem_write (by decide) (by decide) _ c hc)
  · exact not_end_of_digit (mem_write (by decide) (by decide) _ c hc)

/-- The line with the numbers of a node is read, up to what stands behind it. -/
theorem read_one_header {it : cache_tree} (hint : Ints it) {path : Bytes} (hpath : 0 ∉ path)
    (depth : Nat) (rest : Bytes) (size : Nat) :
    read_one (depth + 1)
        (path ++ 0 :: (write_int 10 it.entry_count ++ 32 :: (write 10 it.down.length ++ 10 :: rest)))
        (path.length + 1 + ((write_int 10 it.entry_count).length + 1 +
          ((write 10 it.down.length).length + 1)) + size) =
      read_sha1 (read_one depth) it.entry_count it.down.length rest size := by
  obtain ⟨hlow, hhigh, hnr⟩ := hint
  have hname : ∀ c ∈ path, (c != 0) = true := by
    intro c hc
    rw [bne_iff_ne]
    rintro rfl
    exact hpath hc
  have hskip := skip_past_append hname (c := 0) rfl
    (write_int 10 it.entry_count ++ 32 :: (write 10 it.down.length ++ 10 :: rest))
    ((write_int 10 it.entry_count).length + 1 + ((write 10 it.down.length).length + 1) + size)
  rw [show path.length + ((write_int 10 it.entry_count).length + 1 +
    ((write 10 it.down.length).length + 1) + size + 1) = path.length + 1 +
      ((write_int 10 it.entry_count).length + 1 + ((write 10 it.down.length).length + 1)) + size by
        omega] at hskip
  have hcount : strtol 10 (write_int 10 it.entry_count ++ 32 :: (write 10 it.down.length ++ 10 :: rest)) =
      some (it.entry_count, 32 :: (write 10 it.down.length ++ 10 :: rest)) := by
    refine strtol_write_int (by decide) (by decide) (by omega) (by omega) [] (by simp) ?_
    rintro _ ⟨⟩
    decide
  have hsubtrees : strtol 10 (32 :: (write 10 it.down.length ++ 10 :: rest)) =
      some ((it.down.length : Int), 10 :: rest) := by
    have hwrite : write_int 10 (it.down.length : Int) = write 10 it.down.length := by
      rw [write_int, if_neg (by omega), Int.natAbs_natCast]
    rw [← hwrite]
    refine strtol_write_int (by decide) (by decide) (by omega) (by omega) [32]
      (List.forall_mem_singleton.mpr rfl) ?_
    rintro _ ⟨⟩
    decide
  have hends : ∀ c ∈ write_int 10 it.entry_count ++ 32 :: write 10 it.down.length,
      (c != 0 && c != 10) = true := by
    intro c hc
    rcases List.mem_append.mp hc with hc | hc
    · exact not_end_of_write_int _ c hc
    · rcases List.mem_cons.mp hc with rfl | hc
      · decide
      · exact not_end_of_digit (mem_write (by decide) (by decide) _ c hc)
  have hline := skip_past_append hends (c := 10) rfl rest size
  rw [List.length_append, List.length_cons, List.append_assoc, List.cons_append,
    show (write_int 10 it.entry_count).length + ((write 10 it.down.length).length + 1) + (size + 1) =
      (write_int 10 it.entry_count).length + 1 + ((write 10 it.down.length).length + 1) + size by
        omega] at hline
  rw [read_one, hskip]
  simp only [hcount, hsubtrees, hline, to_int_of_int hlow hhigh,
    to_int_of_int (n := (it.down.length : Int)) (by omega) (by omega)]

/-! ## The subtrees of a node -/

/-- Where the subtree `name` stands. -/
theorem subtree_pos_found {it sub : cache_tree} {name : Bytes} {pre post : List (Bytes × cache_tree)}
    (h : it.Sorted) (hdown : it.down = pre ++ (name, sub) :: post) :
    subtree_pos it name = .found pre.length :=
  search_eq_found h (fun x _ => subtree_name_cmp_compares name x.1) hdown rfl

/-- A subtree behind all others is at the end. -/
theorem subtree_pos_absent {it : cache_tree} {name : Bytes} (h : it.Sorted)
    (hbehind : ∀ a ∈ it.down, ∀ sub, subtree_key a < subtree_key (name, sub)) :
    subtree_pos it name = .absent it.down.length :=
  search_eq_absent h (fun x _ => subtree_name_cmp_compares name x.1) (List.append_nil _).symm
    (fun a ha => hbehind a ha .new) (by simp)

/-- It is appended when it is read. -/
theorem append_subtree {it : cache_tree} {name : Bytes} {sub : cache_tree}
    (h : Ascends subtree_key (it.down ++ [(name, sub)])) :
    set_subtree (create_subtree it name) name sub =
      .mk it.entry_count it.sha1 (it.down ++ [(name, sub)]) := by
  have hsorted : it.Sorted := Ascends.sublist h (List.sublist_append_left _ _)
  have hbehind : ∀ a ∈ it.down, ∀ x : cache_tree, subtree_key a < subtree_key (name, x) := by
    intro a ha x
    exact (List.pairwise_append.mp h).2.2 a ha (name, sub) (List.mem_singleton.mpr rfl)
  have hsorted' : Ascends subtree_key (it.down ++ (name, .new) :: []) :=
    h.replace (subtree_key_eq.mpr rfl)
  have hcreate : create_subtree it name =
      .mk it.entry_count it.sha1 (it.down ++ (name, .new) :: []) := by
    rw [create_subtree, subtree_pos_absent hsorted hbehind]
    simp only [List.insertIdx_length_self]
  have hfound : subtree_pos (.mk it.entry_count it.sha1 (it.down ++ (name, .new) :: [])) name =
      .found it.down.length := subtree_pos_found hsorted' rfl
  rw [hcreate, set_subtree, hfound]
  simp only [cache_tree.entry_count_mk, cache_tree.sha1_mk, cache_tree.down_mk, set_append]

/-- `buffer` is read as the node without the object names of its invalid nodes, wherever it
stands. -/
def ReadsBack (it : cache_tree) (buffer : Bytes) : Prop :=
  ∀ behind size depth, buffer.length < depth →
    read_one depth (buffer ++ behind) (buffer.length + size) = .node (stored_tree it) behind size

/-- The subtrees are written, and read one by one behind those in `it`. -/
theorem read_write_down {down : List (Bytes × cache_tree)} (hsorted : Ascends subtree_key down)
    (hnames : ∀ sub ∈ down, 0 ∉ sub.1)
    (ih : ∀ sub ∈ down, ∀ path, 0 ∉ path → ∃ buffer, write_one sub.2 path = some (path ++ 0 :: buffer) ∧
      ReadsBack sub.2 (path ++ 0 :: buffer))
    (prev : Option Bytes)
    (hprev : ∀ name, prev = some name → ∀ sub ∈ down, subtree_name_cmp sub.1 name = .gt) :
    ∃ buffer, write_down prev down = some buffer ∧
      ∀ it behind size depth, buffer.length < depth → Ascends subtree_key (it.down ++ down) →
        read_subtrees (read_one depth) down.length it (buffer ++ behind) (buffer.length + size) =
          .node (.mk it.entry_count it.sha1 (it.down ++ stored_down down)) behind size := by
  induction down generalizing prev with
  | nil =>
    refine ⟨[], rfl, ?_⟩
    intro it behind size depth _ _
    cases it
    simp [read_subtrees, stored_down]
  | cons sub down ihdown =>
    obtain ⟨name, sub⟩ := sub
    have hname := hnames (name, sub) List.mem_cons_self
    have hbelow := (List.pairwise_cons.mp hsorted).1
    obtain ⟨buffer, hwrite, hread⟩ := ih (name, sub) List.mem_cons_self name hname
    have hnext : ∀ n, some name = some n → ∀ s ∈ down, subtree_name_cmp s.1 n = .gt := by
      rintro _ ⟨⟩ s hs
      exact (subtree_name_cmp_compares s.1 name).eq_gt.mpr (hbelow s hs)
    obtain ⟨rest, hwrites, hreads⟩ := ihdown (List.pairwise_cons.mp hsorted).2
      (fun s hs => hnames s (List.mem_cons_of_mem _ hs))
      (fun s hs => ih s (List.mem_cons_of_mem _ hs)) (some name) hnext
    refine ⟨(name ++ 0 :: buffer) ++ rest, ?_, ?_⟩
    · have hsorted : (prev.any fun prev => subtree_name_cmp name prev != .gt) = false := by
        cases prev with
        | none => rfl
        | some p =>
          rw [Option.any_some, hprev p rfl (name, sub) List.mem_cons_self]
          rfl
      rw [write_down, if_neg (by simp [hsorted]), hwrite, Option.bind_some, hwrites]
      rfl
    · intro it behind size depth hdepth hit
      have hone := hread (rest ++ behind) (rest.length + size) depth
        (by rw [List.length_append] at hdepth; omega)
      have htake : (((name ++ 0 :: buffer) ++ rest) ++ behind).takeWhile (· != 0) = name := by
        rw [List.append_assoc, List.append_assoc, List.takeWhile_append_of_pos,
          List.cons_append, List.takeWhile_cons_of_neg (by decide), List.append_nil]
        intro c hc
        rw [bne_iff_ne]
        rintro rfl
        exact hname hc
      have happend : Ascends subtree_key (it.down ++ [(name, stored_tree sub)] ++ down) := by
        rw [List.append_assoc]
        exact hit.replace (subtree_key_eq.mpr rfl)
      have hset : set_subtree (create_subtree it name) name (stored_tree sub) =
          .mk it.entry_count it.sha1 (it.down ++ [(name, stored_tree sub)]) :=
        append_subtree (Ascends.sublist happend (List.sublist_append_left _ _))
      have hlater := hreads (.mk it.entry_count it.sha1 (it.down ++ [(name, stored_tree sub)])) behind size
        depth (by rw [List.length_append] at hdepth; omega) happend
      rw [List.length_cons, read_subtrees, htake, List.append_assoc,
        show ((name ++ 0 :: buffer) ++ rest).length + size =
          (name ++ 0 :: buffer).length + (rest.length + size) by
            rw [List.length_append, Nat.add_assoc], hone]
      simp only [hset, hlater]
      rw [stored_down]
      simp

/-! ## The whole tree -/

theorem write_one_eq (it : cache_tree) (path : Bytes) :
    write_one it path = (write_down none it.down).map fun subtrees =>
      path ++ 0 :: (node_header it.entry_count it.sha1 it.down.length ++ subtrees) := by
  cases it
  rfl

theorem stored_eq (it : cache_tree) :
    stored_tree it = .mk it.entry_count (if 0 ≤ it.entry_count then it.sha1 else Vector.replicate 20 0)
      (stored_down it.down) := by
  cases it
  rfl

/-- The object name is read where there is a count. -/
theorem read_sha1_stored {read : reader} {it : cache_tree} {subtrees behind : Bytes} {size : Nat}
    (hdown : ∀ sha1, read_down read it.entry_count sha1 it.down.length (subtrees ++ behind)
      (subtrees.length + size) = .node (.mk it.entry_count sha1 (stored_down it.down)) behind size) :
    read_sha1 read it.entry_count it.down.length
        ((if 0 ≤ it.entry_count then it.sha1.toList else []) ++ (subtrees ++ behind))
        ((if 0 ≤ it.entry_count then it.sha1.toList else []).length + (subtrees.length + size)) =
      .node (stored_tree it) behind size := by
  rw [stored_eq, read_sha1]
  by_cases hvalid : 0 ≤ it.entry_count
  · have h20 : it.sha1.toList.length = 20 := by simp
    simp only [if_pos hvalid, h20, sha1_at_append]
    rw [if_neg (by omega), Nat.add_sub_cancel_left]
    exact hdown it.sha1
  · simp only [if_neg hvalid, List.nil_append, List.length_nil, Nat.zero_add]
    exact hdown _

theorem read_write_one {it : cache_tree} (h : it.All fun it => WellNamed it ∧ Ints it) :
    ∀ path, 0 ∉ path → ∃ buffer, write_one it path = some (path ++ 0 :: buffer) ∧
      ReadsBack it (path ++ 0 :: buffer) := by
  induction h with
  | @mk it node _ ih =>
    obtain ⟨⟨hsorted, hnames⟩, hint⟩ := node
    intro path hpath
    obtain ⟨subtrees, hwrite, hread⟩ := read_write_down hsorted hnames ih none
      (by rintro _ ⟨⟩)
    refine ⟨node_header it.entry_count it.sha1 it.down.length ++ subtrees, ?_, ?_⟩
    · rw [write_one_eq, hwrite]
      rfl
    · intro behind size depth hdepth
      obtain ⟨depth, rfl⟩ : ∃ d, depth = d + 1 := ⟨depth - 1, by omega⟩
      have hdown : ∀ sha1, read_down (read_one depth) it.entry_count sha1 it.down.length
          (subtrees ++ behind) (subtrees.length + size) =
            .node (.mk it.entry_count sha1 (stored_down it.down)) behind size := by
        intro sha1
        have hdepth : subtrees.length < depth := by
          simp only [List.length_append, List.length_cons] at hdepth
          omega
        have := hread (.mk it.entry_count sha1 []) behind size depth hdepth hsorted
        rw [read_down, Int.toNat_natCast, this]
        simp
      have hheader := read_one_header hint hpath depth
        ((if 0 ≤ it.entry_count then it.sha1.toList else []) ++ (subtrees ++ behind))
        ((if 0 ≤ it.entry_count then it.sha1.toList else []).length + (subtrees.length + size))
      rw [read_sha1_stored hdown] at hheader
      rw [← hheader]
      unfold node_header
      congr 1
      · simp
      · simp only [List.length_append, List.length_cons]
        omega

/-- What is written is read back, whatever stands behind the extension. -/
theorem cache_tree_read_write {it : cache_tree} (h : it.All fun it => WellNamed it ∧ Ints it) :
    ∃ buffer, cache_tree_write it = some buffer ∧
      ∀ behind, cache_tree_read (buffer ++ behind) buffer.length = .node (stored_tree it) behind 0 := by
  obtain ⟨buffer, hwrite, hread⟩ := read_write_one h [] (by simp)
  refine ⟨[] ++ 0 :: buffer, hwrite, ?_⟩
  intro behind
  exact hread behind 0 _ (Nat.lt_succ_self _)

/-! ## Trees that the code builds -/

/-- A cache-tree that starts as a new node: a subtree is found or made in it, a subtree is
worked on in its place, the tree is updated from an index, whether or not the update comes to
its end, or a path is made invalid. -/
inductive BuiltTree : cache_tree → Prop where
  | new : BuiltTree .new
  | find_subtree {it : cache_tree} {path : Bytes} (h : BuiltTree it) (hpath : 0 ∉ path) :
      BuiltTree (create_subtree it path)
  | down {it sub : cache_tree} {path : Bytes} (h : BuiltTree it) (hsub : BuiltTree sub) :
      BuiltTree (set_subtree it path sub)
  | update {env : write_tree_env} {objects objects' : object_store} {it it' : cache_tree}
      {cache : List cache_entry} {ok : Bool} (h : BuiltTree it) (hnames : ∀ ce ∈ cache, 0 ∉ ce.name)
      (hrun : cache_tree_update env objects it cache = some (objects', it', ok)) : BuiltTree it'
  | invalidate {it it' : cache_tree} {path : Bytes} (h : BuiltTree it)
      (hrun : cache_tree_invalidate_path (some it) path = some it') : BuiltTree it'

theorem all_of_members {it : cache_tree} (hs : it.Sorted)
    (hmem : ∀ sub ∈ it.down, 0 ∉ sub.1 ∧ sub.2.All WellNamed) : it.All WellNamed :=
  .mk ⟨hs, fun sub h => (hmem sub h).1⟩ fun sub h => (hmem sub h).2

theorem cache_tree.All.members {it : cache_tree} (h : it.All WellNamed) :
    ∀ sub ∈ it.down, 0 ∉ sub.1 ∧ sub.2.All WellNamed :=
  fun sub hsub => ⟨h.node.names sub hsub, h.down sub hsub⟩

theorem all_new : cache_tree.new.All WellNamed :=
  all_of_members List.Pairwise.nil (by simp [cache_tree.new])

/-- The subtree that is found or made, and the node with it. -/
theorem cache_tree.All.create {it : cache_tree} (h : it.All WellNamed) {path : Bytes}
    (hpath : 0 ∉ path) : (create_subtree it path).All WellNamed ∧
      ∃ sub, find_subtree (create_subtree it path) path = some sub ∧ sub.All WellNamed := by
  obtain ⟨sub, hs, hfind, -, -, horigin, hmem⟩ := create_subtree_spec h.node.sorted path
  have hsub : sub.All WellNamed := by
    rcases horigin with hin | ⟨rfl, -⟩
    · exact h.down _ hin
    · exact all_new
  refine ⟨all_of_members hs ?_, sub, hfind, hsub⟩
  intro s hs
  rcases (hmem s).mp hs with rfl | ⟨hs, -⟩
  · exact ⟨hpath, hsub⟩
  · exact h.members s hs

theorem cache_tree.All.set {it sub : cache_tree} (h : it.All WellNamed) (path : Bytes)
    (hsub : sub.All WellNamed) : (set_subtree it path sub).All WellNamed := by
  cases hfind : git.find_subtree it path with
  | none =>
    have hsame : set_subtree it path sub = it := by
      unfold set_subtree
      rcases subtree_pos_spec h.node.sorted path with ⟨pre, x, post, hdown, -⟩ | ⟨pre, post, -, hpos, -⟩
      · exact absurd rfl (find_subtree_none h.node.sorted hfind (path, x) (by simp [hdown]))
      · rw [hpos]
    rw [hsame]
    exact h
  | some old =>
    obtain ⟨hs, -, -, hmem⟩ := set_subtree_spec sub h.node.sorted hfind
    refine all_of_members hs ?_
    intro s hs
    rcases (hmem s).mp hs with rfl | ⟨hs, -⟩
    · exact ⟨h.node.names (path, old) ((find_subtree_mem h.node.sorted).mp hfind), hsub⟩
    · exact h.members s hs

theorem cache_tree.All.renumber {it : cache_tree} (h : it.All WellNamed) (entry_count : Int)
    (sha1 : Sha1) : (cache_tree.mk entry_count sha1 it.down).All WellNamed :=
  all_of_members h.node.sorted h.members

theorem cache_tree.All.discard {it : cache_tree} (h : it.All WellNamed) (used : List Bytes) :
    (discard_unused_subtrees it used).All WellNamed := by
  refine all_of_members (Ascends.sublist h.node.sorted List.filter_sublist) ?_
  intro s hs
  exact h.members s (List.mem_of_mem_filter hs)

theorem cache_tree.All.invalidated {it : cache_tree} (h : it.All WellNamed) (path : List Bytes) :
    (git.invalidate it path).All WellNamed := by
  induction path generalizing it with
  | nil => exact h
  | cons name rest ih =>
    by_cases hrest : rest = []
    · subst hrest
      obtain ⟨hs, -, hmem⟩ := invalidate_leaf_spec h.node.sorted name
      exact all_of_members hs fun s hs => h.members s ((hmem s).mp hs).1
    · rw [invalidate_cons _ _ hrest]
      have hsame := h.renumber (-1) it.sha1
      cases hfind : git.find_subtree it name with
      | none => exact hsame
      | some down =>
        exact hsame.set name (ih (h.down _ ((find_subtree_mem h.node.sorted).mp hfind)))

/-! ### The update -/

/-- An update that keeps the names, whatever becomes of it. -/
def KeepsNames (update : updater) : Prop :=
  ∀ objects it cache base r, it.All WellNamed → (∀ ce ∈ cache, 0 ∉ ce.name) →
    update objects it cache base = some r → r.it.All WellNamed

theorem before_slash_names {ce : cache_entry} (hce : 0 ∉ ce.name) {n : Nat} {name : Bytes}
    (h : before_slash (ce.name.drop n) = some name) : 0 ∉ name := by
  obtain ⟨-, rest, hrest⟩ := before_slash_some h
  intro hmem
  refine hce (List.mem_of_mem_drop (i := n) ?_)
  rw [hrest]
  exact List.mem_append_left _ hmem

theorem update_subtrees_names {update : updater} (hupdate : KeepsNames update) {base : Bytes}
    {cache : List cache_entry} (hnames : ∀ ce ∈ cache, 0 ∉ ce.name) :
    ∀ {skip objects it used w}, it.All WellNamed →
      update_subtrees update base cache skip objects it used = some w → w.it.All WellNamed := by
  induction cache with
  | nil =>
    intro skip objects it used w h hrun
    rw [update_subtrees] at hrun
    cases hrun
    exact h
  | cons ce rest ih =>
    have ih := @ih fun e he => hnames e (List.mem_cons_of_mem _ he)
    intro skip objects it used w h hrun
    cases skip with
    | succ skip =>
      rw [update_subtrees] at hrun
      exact ih h hrun
    | zero =>
      rw [update_subtrees] at hrun
      split at hrun
      · cases hrun
        exact h
      · cases hslash : before_slash (ce.name.drop base.length) with
        | none =>
          rw [hslash] at hrun
          exact ih h hrun
        | some name =>
          obtain ⟨hcreated, sub, hfind, hsub⟩ :=
            h.create (before_slash_names (hnames ce List.mem_cons_self) hslash)
          simp only [hslash, hfind] at hrun
          cases hsubrun : update objects sub (ce :: rest)
              (ce.name.take (base.length + name.length + 1)) with
          | none =>
            rw [hsubrun] at hrun
            cases hrun
          | some r =>
            have hset := hcreated.set name (hupdate _ _ _ _ r hsub hnames hsubrun)
            rw [hsubrun] at hrun
            cases hcount : r.count with
            | none =>
              simp only [hcount] at hrun
              cases hrun
              exact hset
            | some subcnt =>
              cases subcnt with
              | zero =>
                simp only [hcount] at hrun
                cases hrun
              | succ subcnt =>
                simp only [hcount] at hrun
                exact ih hset hrun

theorem update_one_names (env : write_tree_env) (depth : Nat) : KeepsNames (update_one env depth) := by
  induction depth with
  | zero =>
    intro objects it cache base r _ _ hrun
    cases hrun
  | succ depth ih =>
    intro objects it cache base r h hnames hrun
    rw [update_one] at hrun
    split at hrun
    · cases hrun
      exact h
    · cases hwalk : update_subtrees (update_one env depth) base cache 0 objects it [] with
      | none =>
        rw [hwalk] at hrun
        cases hrun
      | some w =>
        have hw := update_subtrees_names ih hnames h hwalk
        have hd := hw.discard w.used
        simp only [hwalk] at hrun
        split at hrun
        · cases hrun
          exact hw
        · split at hrun
          · cases hrun
          · cases hrun
            exact hd
          · split at hrun
            · cases hrun
              exact hd.renumber _ _
            · split at hrun
              · cases hrun
                exact hd.renumber _ _
              · cases hrun
                exact hd.renumber _ _

theorem BuiltTree.well_named {it : cache_tree} (h : BuiltTree it) : it.All WellNamed := by
  induction h with
  | new => exact all_new
  | find_subtree _ hpath ih => exact (ih.create hpath).1
  | down _ _ ih ihsub => exact ih.set _ ihsub
  | @update env objects objects' it it' cache ok _ hnames hrun ih =>
    unfold cache_tree_update at hrun
    split at hrun
    · cases hrun
      exact ih
    · obtain ⟨r, hr, heq⟩ := Option.map_eq_some_iff.mp hrun
      cases heq
      exact update_one_names env _ _ _ _ _ r ih hnames hr
  | @invalidate it it' path _ hrun ih =>
    cases hrun
    exact ih.invalidated _

end git
