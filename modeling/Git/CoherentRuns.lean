-- Runs of additions, removals, renames and updates: every node of the
-- cache-tree with a count agrees with the index.
import Git.CoherentUpdate

open bsearch runs

namespace git

/-! ## Nodes -/

/-- `n` is a node of the tree, for the directory `b`. -/
inductive Node : Bytes → cache_tree → Bytes → cache_tree → Prop where
  | here (base : Bytes) (it : cache_tree) : Node base it base it
  | down {base b : Bytes} {it n : cache_tree} {sub : Bytes × cache_tree} (hsub : sub ∈ it.down)
      (hnode : Node (subdir base sub.1) sub.2 b n) : Node base it b n

/-- A node with a count: the entries of its directory stand together, all of
them merged, and there are as many as the count says. Its object name is the
one of their tree object, and all nodes under it have a count. -/
structure NodeAgrees (hash_tree : Bytes → Sha1) (cache : List cache_entry) (base : Bytes)
    (n : cache_tree) : Prop where
  covers : ∃ pre group post, cache = pre ++ group ++ post ∧ (∀ e ∈ pre ++ post, ¬ Within base e) ∧
    (∀ e ∈ group, Within base e ∧ ce_stage e = 0) ∧ n.entry_count = group.length ∧
    ∃ buffer, TreeObject hash_tree base (group.filter written) buffer ∧ n.sha1 = hash_tree buffer
  below : ∀ b m, Node base n b m → 0 ≤ m.entry_count

/-- Every node with a count agrees with the index. -/
def Agrees (hash_tree : Bytes → Sha1) (istate : index_state) : Prop :=
  ∀ it, istate.cache_tree = some it → ∀ base n, Node [] it base n → 0 ≤ n.entry_count →
    NodeAgrees hash_tree istate.cache base n

/-- The subtrees of every node are in their order, and no name has a slash. -/
def Built (istate : index_state) : Prop :=
  ∀ it, istate.cache_tree = some it → ∀ base n, Node [] it base n →
    n.Sorted ∧ ∀ sub ∈ n.down, SLASH ∉ sub.1

theorem sizeOf_sub {it : cache_tree} {sub : Bytes × cache_tree} (h : sub ∈ it.down) :
    sizeOf sub.2 < sizeOf it := by
  obtain ⟨n, s, d⟩ := it
  have hd : sub ∈ d := h
  have h1 := List.sizeOf_lt_of_mem hd
  obtain ⟨name, t⟩ := sub
  simp only [Prod.mk.sizeOf_spec, cache_tree.mk.sizeOf_spec] at h1 ⊢
  omega

theorem Node.trans {base b c : Bytes} {it n m : cache_tree} (h1 : Node base it b n)
    (h2 : Node b n c m) : Node base it c m := by
  induction h1 with
  | here => exact h2
  | down hsub _ ih => exact .down hsub (ih h2)

section Agree
variable {hash_tree : Bytes → Sha1} {istate : index_state} {cache : List cache_entry}
  {base b : Bytes} {it n : cache_tree}

theorem NodeAgrees.covers_node (h : NodeAgrees hash_tree cache base n) :
    Covers hash_tree cache base n := by
  obtain ⟨pre, group, post, hcache, hout, hin, hcount, hobj⟩ := h.covers
  have hnone : ∀ l : List cache_entry, (∀ e ∈ l, ¬ Within base e) → entries_within l base = [] :=
    fun l hl => List.filter_eq_nil_iff.mpr fun e he => by simpa using hl e he
  have hgroup : entries_within cache base = group := by
    rw [hcache, entries_within_append, entries_within_append,
      hnone pre fun e he => hout e (List.mem_append_left _ he),
      hnone post fun e he => hout e (List.mem_append_right _ he), List.nil_append, List.append_nil]
    exact List.filter_eq_self.mpr fun e he => by simpa using (hin e he).1
  rw [← hgroup] at hcount hobj hin
  exact ⟨hcount, fun e he => (hin e he).2, hobj⟩

theorem coherent_of_agrees
    (ha : ∀ b n, Node base it b n → 0 ≤ n.entry_count → NodeAgrees hash_tree cache b n)
    (hb : ∀ b n, Node base it b n → n.Sorted ∧ ∀ sub ∈ n.down, SLASH ∉ sub.1) :
    Coherent hash_tree cache base it := by
  induction hs : sizeOf it using Nat.strong_induction_on generalizing base it with
  | _ size ih =>
    obtain ⟨hsorted, hnames⟩ := hb base it (.here base it)
    refine .mk hsorted hnames (fun hv => (ha base it (.here base it) hv).covers_node) ?_ ?_
    · intro hv sub hsub
      exact (ha base it (.here base it) hv).below _ _ (.down hsub (.here _ _))
    · intro sub hsub
      refine ih (sizeOf sub.2) (by rw [← hs]; exact sizeOf_sub hsub) ?_ ?_ rfl
      · exact fun b n hn => ha b n (.down hsub hn)
      · exact fun b n hn => hb b n (.down hsub hn)

theorem Coherent.node (hn : Node base it b n) (h : Coherent hash_tree cache base it) :
    Coherent hash_tree cache b n := by
  induction hn with
  | here => exact h
  | down hsub _ ih => exact ih (h.down _ hsub)

theorem Coherent.valid_below (hn : Node base it b n) (h : Coherent hash_tree cache base it)
    (hv : 0 ≤ it.entry_count) : 0 ≤ n.entry_count := by
  induction hn with
  | here => exact hv
  | down hsub _ ih => exact ih (h.down _ hsub) (h.valid hv _ hsub)

/-- The elements with `p` stand together when what lies between two of them
has `p` too. -/
theorem filter_together {α : Type*} {p : α → Bool} {l : List α}
    (h : ∀ x y z, [x, y, z].Sublist l → p x = true → p z = true → p y = true) :
    ∃ pre post, l = pre ++ l.filter p ++ post ∧ ∀ e ∈ pre ++ post, p e = false := by
  have hafter : ∀ t : List α, (∀ y z, [y, z].Sublist t → p z = true → p y = true) →
      t.filter p = t.takeWhile p ∧ ∀ e ∈ t.dropWhile p, p e = false := by
    intro t ht
    induction t with
    | nil => simp
    | cons y t ih =>
      have hrest := ih fun y z hyz => ht y z (hyz.trans (List.sublist_cons_self _ _))
      cases hy : p y with
      | true => simpa [hy] using hrest
      | false =>
        have hnone : ∀ e ∈ y :: t, p e = false := by
          intro e he
          rcases List.mem_cons.mp he with rfl | he
          · exact hy
          · by_contra hpe
            have := ht y e (List.Sublist.cons_cons y (List.singleton_sublist.mpr he)) (by simpa using hpe)
            rw [hy] at this
            cases this
        rw [List.takeWhile_cons_of_neg (by simp [hy]), List.dropWhile_cons_of_neg (by simp [hy])]
        exact ⟨List.filter_eq_nil_iff.mpr fun e he => by simp [hnone e he], hnone⟩
  induction l with
  | nil => exact ⟨[], [], rfl, by simp⟩
  | cons x l ih =>
    cases hx : p x with
    | true =>
      obtain ⟨h1, h2⟩ := hafter l fun y z hyz hz => h x y z (List.Sublist.cons_cons x hyz) hx hz
      refine ⟨[], l.dropWhile p, ?_, by simpa using h2⟩
      rw [List.filter_cons_of_pos hx, h1]
      simp
    | false =>
      obtain ⟨pre, post, hl, hout⟩ :=
        ih fun a b c habc => h a b c (habc.trans (List.sublist_cons_self _ _))
      refine ⟨x :: pre, post, ?_, ?_⟩
      · rw [List.filter_cons_of_neg (by simp [hx]), List.cons_append, List.cons_append, ← hl]
      · intro e he
        rcases List.mem_cons.mp he with rfl | he
        · exact hx
        · exact hout e he

/-- In an ordered index the merged entries of a directory stand together. -/
theorem within_together (h : Ordered istate)
    (hm : ∀ e ∈ entries_within istate.cache base, ce_stage e = 0) :
    ∃ pre post, istate.cache = pre ++ entries_within istate.cache base ++ post ∧
      ∀ e ∈ pre ++ post, ¬ Within base e := by
  suffices hbetween : ∀ x y z, [x, y, z].Sublist istate.cache → decide (Within base x) = true →
      decide (Within base z) = true → decide (Within base y) = true by
    obtain ⟨pre, post, hl, hout⟩ := filter_together hbetween
    exact ⟨pre, post, hl, fun e he => by simpa using hout e he⟩
  intro x y z hxyz hx hz
  simp only [decide_eq_true_eq] at hx hz ⊢
  have hmem := fun e he => hxyz.subset (a := e) he
  have hasc := h.ascends.sublist hxyz
  have hxy : x.key < y.key := List.rel_of_pairwise_cons hasc (by simp)
  have hyz : y.key < z.key := List.rel_of_pairwise_cons hasc.of_cons (by simp)
  have hsx := hm x (List.mem_filter.mpr ⟨hmem x (by simp), by simpa using hx⟩)
  have hsz := hm z (List.mem_filter.mpr ⟨hmem z (by simp), by simpa using hz⟩)
  have hxz := hxy.trans hyz
  rw [(h.named x (hmem x (by simp))).key, (h.named z (hmem z (by simp))).key, hsx, hsz,
    Prod.Lex.toLex_lt_toLex] at hxz
  have hlt : x.name.take 0x0fff < z.name.take 0x0fff := by
    rcases hxz with hlt | ⟨_, hlt⟩
    · exact hlt
    · exact absurd hlt (lt_irrefl _)
  have hshort : base.length < 0x0fff := by
    by_contra hlong
    obtain ⟨r, hr⟩ := hx.1
    obtain ⟨r', hr'⟩ := hz.1
    rw [← hr, ← hr', List.take_append_of_le_length (by omega),
      List.take_append_of_le_length (by omega)] at hlt
    exact lt_irrefl _ hlt
  rw [(h.named x (hmem x (by simp))).key, (h.named y (hmem y (by simp))).key] at hxy
  rw [(h.named y (hmem y (by simp))).key, (h.named z (hmem z (by simp))).key] at hyz
  have h1 := Prod.Lex.monotone_fst _ _ hxy.le
  have h2 := Prod.Lex.monotone_fst _ _ hyz.le
  simp only [ofLex_toLex] at h1 h2
  have hpx : base <+: x.name.take 0x0fff := (list_order.prefix_take_iff hshort.le).mpr hx.1
  have hpz : base <+: z.name.take 0x0fff := (list_order.prefix_take_iff hshort.le).mpr hz.1
  have hpy := list_order.prefix_of_between ((list_order.le_of_prefix hpx).trans h1) h2 hpz
  have hpy' := (list_order.prefix_take_iff hshort.le).mp hpy
  refine ⟨hpy', lt_of_le_of_ne hpy'.length_le fun hlen => ?_⟩
  -- the name of `y` is `base`, and the longer name of `x` is not before it
  have hy := hpy'.eq_of_length hlen
  rw [← hy, List.take_of_length_le hshort.le] at h1
  have heq := le_antisymm h1 (list_order.le_of_prefix hpx)
  have := congrArg List.length heq
  rw [List.length_take] at this
  have := hx.2
  omega

theorem agrees_of_coherent (h : Ordered istate) (hc : Coherent hash_tree istate.cache base n)
    (hv : 0 ≤ n.entry_count) : NodeAgrees hash_tree istate.cache base n := by
  obtain ⟨hcount, hmerged, hobj⟩ := hc.covers hv
  obtain ⟨pre, post, hcache, hout⟩ := within_together h hmerged
  refine ⟨⟨pre, _, post, hcache, hout, fun e he => ⟨(mem_of_within he).2, hmerged e he⟩, hcount, hobj⟩,
    fun b m hn => hc.valid_below hn hv⟩

end Agree

/-! ## Runs -/

inductive tree_op where
  | add (ce : cache_entry) (option : add_option)
  | remove_file (path : Bytes)
  | rename (nr : Nat) (new_name : Bytes)
  | update (env : write_tree_env) (objects : object_store)

/-- The callers of `cache_tree_update` give the index a new tree when it has none. -/
def update_index_tree (istate : index_state) (env : write_tree_env) (objects : object_store) :
    index_state :=
  match cache_tree_update env objects (istate.cache_tree.getD .new) istate.cache with
  | none => istate
  | some (_, it, _) => { istate with cache_tree := some it }

def apply_tree_op (istate : index_state) : tree_op → index_state
  | .add ce option => (add_index_entry istate ce option).1
  | .remove_file path => remove_file_from_index istate path
  | .rename nr new_name => rename_index_entry_at istate nr new_name
  | .update env objects => update_index_tree istate env objects

/-- What the callers promise: flags that tell the length of the name, and a
place in the array. All updates hash alike. -/
def AdmitsTree (hash_tree : Bytes → Sha1) (istate : index_state) : tree_op → Prop
  | .add ce _ => Named ce
  | .remove_file _ => True
  | .rename nr _ => nr < istate.cache_nr
  | .update env _ => env.hash_tree = hash_tree

/-- The condition on a step. An addition goes through the check, and puts no
entry in the place of one of another name. An update that gets past
`verify_cache` finds an index that fits, and no half-filled node whose object
is not there. -/
def KeepsTree (istate : index_state) : tree_op → Prop
  | .add ce option => option.just_append = false ∧ NoAlias istate ce
  | .remove_file _ => True
  | .rename nr new_name => ∀ old, istate.cache[nr]? = some old →
      NoAlias (before_rename istate nr old) (renamed old new_name)
  | .update _ objects => verify_cache istate.cache = true → Fits istate.cache ∧
      Whole istate.cache objects [] (istate.cache_tree.getD .new)

theorem tree_step {hash_tree : Bytes → Sha1} {istate : index_state}
    (h : Ordered istate ∧ CoherentIndex hash_tree istate) (o : tree_op)
    (ho : AdmitsTree hash_tree istate o ∧ KeepsTree istate o) :
    Ordered (apply_tree_op istate o) ∧ CoherentIndex hash_tree (apply_tree_op istate o) := by
  obtain ⟨hord, hcoh⟩ := h
  cases o with
  | add ce option =>
    obtain ⟨hn, hj, hno⟩ := ho
    exact ⟨(add_index_entry_adds hord hn hj).ordered hord hn, coherent_add hcoh hord hn hj hno⟩
  | remove_file path =>
    exact ⟨(trims_remove_file istate path).ordered (hord.invalidate_path path),
      coherent_remove_file path hcoh hord⟩
  | rename nr new_name =>
    obtain ⟨hnr, hno⟩ := ho
    have hold := List.getElem?_eq_getElem hnr
    refine ⟨?_, coherent_rename hcoh hord hold (hno _ hold)⟩
    simp only [apply_tree_op]
    rw [rename_eq new_name hold]
    have hord' := (trims_before_rename istate nr _).ordered (hord.invalidate_path istate.cache[nr].name)
    exact (add_index_entry_adds hord' (renamed_named _ _) rfl).ordered hord' (renamed_named _ _)
  | update env objects =>
    obtain ⟨rfl, hfit⟩ := ho
    have hit : Coherent env.hash_tree istate.cache [] (istate.cache_tree.getD .new) := by
      cases ht : istate.cache_tree with
      | none => exact coherent_new _ _ _
      | some it => exact hcoh it ht
    have hres : ∃ objects' it' ok, cache_tree_update env objects (istate.cache_tree.getD .new)
        istate.cache = some (objects', it', ok) ∧ Coherent env.hash_tree istate.cache [] it' := by
      cases hv : verify_cache istate.cache with
      | false => exact ⟨objects, _, false, by rw [cache_tree_update, hv]; rfl, hit⟩
      | true =>
        obtain ⟨o, t, ok, hr, hc, -⟩ :=
          cache_tree_update_spec env objects hord (hfit hv).1 hit (hfit hv).2
        exact ⟨o, t, ok, hr, hc⟩
    obtain ⟨_, it', _, hr, hc⟩ := hres
    have happ : update_index_tree istate env objects = { istate with cache_tree := some it' } := by
      rw [update_index_tree, hr]
    simp only [apply_tree_op, happ]
    refine ⟨⟨hord.ascends, hord.named⟩, ?_⟩
    intro it hit
    cases hit
    exact hc

/-- In every run whose steps meet the condition, the cache-tree agrees with
the index. -/
theorem a_cache_tree_stays_coherent {hash_tree : Bytes → Sha1} {istate istate' : index_state}
    (ho : Ordered istate) (hb : Built istate) (ha : Agrees hash_tree istate)
    (hrun : Run apply_tree_op (fun s o => AdmitsTree hash_tree s o ∧ KeepsTree s o)
      istate istate') : Agrees hash_tree istate' := by
  have hcoh : CoherentIndex hash_tree istate := fun it hit =>
    coherent_of_agrees (ha it hit) (hb it hit)
  obtain ⟨ho', hcoh'⟩ := hrun.keeps (fun s => Ordered s ∧ CoherentIndex hash_tree s)
    (fun _ o hs hoo => tree_step hs o hoo) ⟨ho, hcoh⟩
  intro it hit base n hn hv
  exact agrees_of_coherent ho' ((hcoh' it hit).node hn) hv

/-- Only no entries make an empty tree object. -/
theorem tree_object_empty {hash_tree : Bytes → Sha1} {base : Bytes} {l : List cache_entry}
    (h : TreeObject hash_tree base l []) : l = [] := by
  generalize hb : ([] : Bytes) = buffer at h
  cases h with
  | nil => rfl
  | file hname hrest => simp [tree_entry] at hb
  | dir hname hgroup hout hsub hrest => simp [tree_entry] at hb

/-- A hash that tells the empty tree from the others. -/
def tell_empty (buffer : Bytes) : Sha1 := Vector.replicate 20 (if buffer = [] then 0 else 1)

/-- All objects are in the database, and it takes new ones. -/
def full_env : write_tree_env := ⟨false, false, tell_empty, fun _ => true⟩

theorem no_tree_agrees (hash_tree : Bytes → Sha1) (istate : index_state)
    (h : istate.cache_tree = none) : Built istate ∧ Agrees hash_tree istate := by
  constructor
  · intro it hit
    rw [h] at hit
    cases hit
  · intro it hit
    rw [h] at hit
    cases hit

/-- `a/b` is added and the tree is written. -/
theorem a_written_tree_agrees :
    Agrees tell_empty (apply_tree_op (apply_tree_op index_state.empty
      (.add (file_a_b 0) OK_TO_ADD_OR_REPLACE)) (.update full_env fun _ => true)) := by
  obtain ⟨hb, ha⟩ := no_tree_agrees tell_empty index_state.empty rfl
  refine a_cache_tree_stays_coherent empty_sound.toOrdered hb ha ?_
  have h0 : Run apply_tree_op (fun s o => AdmitsTree tell_empty s o ∧ KeepsTree s o)
      index_state.empty index_state.empty := Run.refl
  have h1 := h0.then (o := .add (file_a_b 0) OK_TO_ADD_OR_REPLACE)
    ⟨new_entry_named _ _ _ (by decide), rfl, by simp [NoAlias, index_state.empty]⟩
  refine h1.then (o := .update full_env fun _ => true) ⟨rfl, fun _ => ?_⟩
  have hc : (apply_tree_op index_state.empty (.add (file_a_b 0) OK_TO_ADD_OR_REPLACE)).cache =
      [file_a_b 0] := by decide
  have ht : (apply_tree_op index_state.empty
      (.add (file_a_b 0) OK_TO_ADD_OR_REPLACE)).cache_tree = none := rfl
  rw [hc, ht]
  refine ⟨⟨by decide, by decide, by decide, ?_⟩, whole_new _ _ _⟩
  intro base name ce group hgroup hita
  have hce : ce ∈ [file_a_b 0] := (mem_of_within (hgroup ▸ List.mem_cons_self)).1
  rw [List.mem_singleton.mp hce] at hita
  exact absurd hita (by decide)

/-- The index with `a/a`, which is only intended, and `a/b`. -/
def intended_first : index_state :=
  index_of [(new_entry 0o100644 (Vector.replicate 20 0) [97, SLASH, 97] 0).mark CE_INTENT_TO_ADD,
    file_a_b 0]

/-- The whole directory `a` is left out of the tree, and `a/b` with it. -/
theorem an_intended_entry_hides_its_directory :
    ∃ (hash_tree : Bytes → Sha1) (istate istate' : index_state),
      Ordered istate ∧ Built istate ∧ Agrees hash_tree istate ∧
        Run apply_tree_op (AdmitsTree hash_tree) istate istate' ∧ ¬ Agrees hash_tree istate' := by
  refine ⟨tell_empty, intended_first,
    apply_tree_op intended_first (.update full_env fun _ => true), ⟨?_, ?_⟩,
    (no_tree_agrees tell_empty _ rfl).1, (no_tree_agrees tell_empty _ rfl).2,
    Run.refl.then (o := tree_op.update full_env fun _ => true) rfl, ?_⟩
  · exact List.pairwise_pair.mpr (by decide)
  · unfold intended_first index_of
    decide
  · intro ha
    obtain ⟨it, hit, hsha, hv⟩ : ∃ it, (apply_tree_op intended_first
        (.update full_env fun _ => true)).cache_tree = some it ∧
        it.sha1 = Vector.replicate 20 0 ∧ 0 ≤ it.entry_count :=
      ⟨_, rfl, by decide, by decide⟩
    obtain ⟨-, -, buffer, hobj, hhash⟩ := (ha it hit [] it (.here _ _) hv).covers_node
    rw [hsha] at hhash
    have hempty : buffer = [] := by
      by_contra hne
      unfold tell_empty at hhash
      rw [if_neg hne] at hhash
      exact absurd hhash (by decide)
    have hwritten : (entries_within (apply_tree_op intended_first
        (.update full_env fun _ => true)).cache []).filter written = [file_a_b 0] := by
      decide
    rw [hwritten, hempty] at hobj
    exact absurd (tree_object_empty hobj) (by simp)

end git
