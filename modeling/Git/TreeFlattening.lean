-- When `cache_tree_update` makes tree objects that hold the entries of the index: the first entry
-- of a directory must speak for all of them.
import Git.TreeLevels

open bsearch

namespace git

/-! ## What is promised -/

def file_of (ce : cache_entry) : tree_file := (ce.name, ce.ce_mode, ce.sha1)

/-- The object of the node is a tree object of the entries of its directory, but for those that
are to be removed and the placeholders. -/
def HoldsKept (hash_tree : Bytes → Sha1) (cache : List cache_entry) (base : Bytes)
    (it : cache_tree) : Prop :=
  ∃ items, it.sha1 = hash_tree (tree_buffer items) ∧ Canonical items ∧
    Flattens hash_tree base items (((entries_within cache base).filter kept).map file_of)

/-- The update comes back, and fails only on objects and on the database. When it does not fail,
the root has a count, and each node with a count holds the entries of its directory. -/
def Builds (env : write_tree_env) (objects : object_store) (it : cache_tree)
    (cache : List cache_entry) : Prop :=
  ∃ objects' it' ok, cache_tree_update env objects it cache = some (objects', it', ok) ∧
    (Unhindered env → ok = true) ∧
    (ok = true → 0 ≤ it'.entry_count ∧ ValidNodes (HoldsKept env.hash_tree cache) cache [] it')

/-- Where the first entry of a directory is to be removed or a placeholder, all its entries are. -/
def FirstDecides (cache : List cache_entry) : Prop :=
  ∀ dir ce group, entries_within cache (dir ++ [SLASH]) = ce :: group → kept ce = false →
    ∀ e ∈ group, kept e = false

/-! ## The lines of a level and its entries -/

section
variable {cache l : List cache_entry} {base : Bytes} {down : List (Bytes × cache_tree)}
  {items : List tree_item}

/-- A line is of an entry, or of a directory with its first entry. -/
theorem Lines.source (h : Lines cache base down l items) : ∀ x ∈ items, ∃ ce ∈ l, kept ce = true ∧
    (before_slash (ce.name.drop base.length) = none ∧ x.name = ce.name.drop base.length ∧
        x.mode = ce.ce_mode ∨
      before_slash (ce.name.drop base.length) = some x.name ∧ x.mode = S_IFDIR ∧
        ∃ group, entries_within cache (subdir base x.name) = ce :: group) := by
  induction h with
  | nil => simp
  | @file ce rest items hname hrest ih =>
    intro x hx
    rcases List.mem_append.mp hx with hx | hx
    · cases hk : kept ce with
      | false => simp [hk] at hx
      | true =>
        rw [hk, if_pos rfl, List.mem_singleton] at hx
        exact ⟨ce, List.mem_cons_self, hk, Or.inl ⟨hname, by rw [hx], by rw [hx]⟩⟩
    · obtain ⟨e, he, hspec⟩ := ih x hx
      exact ⟨e, List.mem_cons_of_mem _ he, hspec⟩
  | @dir name ce group rest sub items hname hgroup hout hsub hrest ih =>
    intro x hx
    rcases List.mem_append.mp hx with hx | hx
    · cases hk : kept ce with
      | false => simp [hk] at hx
      | true =>
        rw [hk, if_pos rfl, List.mem_singleton] at hx
        subst hx
        exact ⟨ce, List.mem_cons_self, hk, Or.inr ⟨hname, rfl, group, hgroup⟩⟩
    · obtain ⟨e, he, hspec⟩ := ih x hx
      exact ⟨e, List.mem_append_right _ he, hspec⟩

theorem Lines.subtree (h : Lines cache base down l items) : ∀ ce ∈ l, ∀ name,
    before_slash (ce.name.drop base.length) = some name → ∃ sub, (name, sub) ∈ down := by
  induction h with
  | nil => simp
  | @file ce rest items hname hrest ih =>
    intro e he name hen
    rcases List.mem_cons.mp he with rfl | he
    · rw [hname] at hen
      cases hen
    · exact ih e he name hen
  | @dir name ce group rest sub items hname hgroup hout hsub hrest ih =>
    intro e he n hen
    rcases List.mem_append.mp he with he | he
    · rw [(mem_of_within (hgroup ▸ he)).2.before_slash (before_slash_some hname).1] at hen
      cases hen
      exact ⟨sub, hsub⟩
    · exact ih e he n hen

theorem Within.name_eq {ce : cache_entry} (h : Within base ce) :
    ce.name = base ++ ce.name.drop base.length := by
  obtain ⟨r, hr⟩ := h.1
  rw [← hr, List.drop_left]

/-- Where a line sorts: before the name of its entry, or at it. -/
theorem Lines.entry (h : Lines cache base down l items) (hin : ∀ e ∈ l, Within base e)
    (hfiles : ∀ e ∈ l, S_ISDIR e.ce_mode = false) (hcstring : ∀ e ∈ l, (0 : UInt8) ∉ e.name) :
    ∀ x ∈ items, SLASH ∉ x.name ∧ (0 : UInt8) ∉ x.name ∧ ∃ e ∈ l, ∃ q, e.name = base ++ q ∧
      sort_name x.name x.mode <+: q ∧ (S_ISDIR x.mode = false → q = sort_name x.name x.mode) := by
  intro x hx
  obtain ⟨ce, hce, -, hspec⟩ := h.source x hx
  have hn := (hin ce hce).name_eq
  have hzero : (0 : UInt8) ∉ ce.name.drop base.length :=
    fun h0 => hcstring ce hce (List.mem_of_mem_drop h0)
  rcases hspec with ⟨hnone, hname, hmode⟩ | ⟨hsome, hmode, -⟩
  · have hsort : sort_name x.name x.mode = ce.name.drop base.length := by
      rw [sort_name, hmode, hfiles ce hce, hname]
      rfl
    rw [hsort, hname]
    exact ⟨before_slash_none.mp hnone, hzero, ce, hce, _, hn, List.prefix_rfl, fun _ => rfl⟩
  · obtain ⟨hslash, rest, hrest⟩ := before_slash_some hsome
    rw [hrest] at hzero
    have hsort : sort_name x.name x.mode = x.name ++ [SLASH] := by
      rw [sort_name, hmode]
      rfl
    refine ⟨hslash, fun h0 => hzero (List.mem_append_left _ h0), ce, hce, _, hn, ?_, ?_⟩
    · rw [hsort, hrest]
      exact ⟨rest, by simp⟩
    · rw [hmode]
      intro hfile
      exact absurd hfile (by decide)

/-- The order of two paths of a directory is the order of their lines. -/
theorem sort_name_lt {x y : tree_item} {p q : Bytes} (hsx : SLASH ∉ x.name) (hsy : SLASH ∉ y.name)
    (hx : sort_name x.name x.mode <+: p) (hy : sort_name y.name y.mode <+: q) (hpq : p < q)
    (hfile : S_ISDIR y.mode = false → q = sort_name y.name y.mode)
    (hdir : S_ISDIR x.mode = true → ¬ sort_name x.name x.mode <+: q) :
    sort_name x.name x.mode < sort_name y.name y.mode := by
  by_contra hle
  have hbefore := list_order.le_of_prefix hx
  have hstart : sort_name y.name y.mode <+: sort_name x.name x.mode :=
    list_order.prefix_of_between (not_lt.mp hle) (hbefore.trans hpq.le) hy
  cases hmy : S_ISDIR y.mode with
  | false =>
    have hqp := list_order.le_of_prefix (hstart.trans hx)
    rw [← hfile hmy] at hqp
    exact absurd hpq (not_lt.mpr hqp)
  | true =>
    have hsy' : sort_name y.name y.mode = y.name ++ [SLASH] := by rw [sort_name, if_pos hmy]
    rw [hsy'] at hstart
    cases hmx : S_ISDIR x.mode with
    | false =>
      have hsx' : sort_name x.name x.mode = x.name := by rw [sort_name, hmx]; rfl
      rw [hsx'] at hstart
      exact hsx (hstart.subset (by simp))
    | true =>
      have hsx' : sort_name x.name x.mode = x.name ++ [SLASH] := by rw [sort_name, if_pos hmx]
      rw [hsx'] at hstart
      obtain ⟨r, hr⟩ := hstart
      rw [List.append_assoc, List.singleton_append] at hr
      obtain ⟨hname, -⟩ := split_at_byte hsy hsx hr
      refine hdir hmx ?_
      rw [hsx', ← hname, ← hsy']
      exact hy

/-- The lines are in the order of tree objects. -/
theorem Lines.canonical (h : Lines cache base down l items)
    (hsorted : l.Pairwise (fun a b => a.name < b.name)) (hin : ∀ e ∈ l, Within base e)
    (hfiles : ∀ e ∈ l, S_ISDIR e.ce_mode = false) (hcstring : ∀ e ∈ l, (0 : UInt8) ∉ e.name)
    (hlast : ∀ e ∈ l, e.name.getLast? ≠ some SLASH) : Canonical items := by
  induction h with
  | nil => exact List.Pairwise.nil
  | @file ce rest items hname hrest ih =>
    have hrest' := hrest.entry (fun e he => hin e (List.mem_cons_of_mem _ he))
      (fun e he => hfiles e (List.mem_cons_of_mem _ he))
      fun e he => hcstring e (List.mem_cons_of_mem _ he)
    have hcanonical := ih hsorted.of_cons (fun e he => hin e (List.mem_cons_of_mem _ he))
      (fun e he => hfiles e (List.mem_cons_of_mem _ he))
      (fun e he => hcstring e (List.mem_cons_of_mem _ he))
      fun e he => hlast e (List.mem_cons_of_mem _ he)
    cases hk : kept ce with
    | false => exact hcanonical
    | true =>
      have hslash := before_slash_none.mp hname
      have hzero : (0 : UInt8) ∉ ce.name.drop base.length :=
        fun h0 => hcstring ce List.mem_cons_self (List.mem_of_mem_drop h0)
      have hmode := hfiles ce List.mem_cons_self
      have hsort : sort_name (ce.name.drop base.length) ce.ce_mode = ce.name.drop base.length := by
        rw [sort_name, hmode]
        rfl
      refine List.pairwise_cons.mpr ⟨fun y hy => ?_, hcanonical⟩
      obtain ⟨hsy, h0y, e, he, q, hq, hyq, hyfile⟩ := hrest' y hy
      have hlt := List.rel_of_pairwise_cons hsorted he
      rw [(hin ce List.mem_cons_self).name_eq, hq, list_order.append_lt_append_iff] at hlt
      refine base_name_compare_lt _ _ hslash hsy hzero h0y ?_
      refine sort_name_lt (x := ⟨ce.ce_mode, ce.name.drop base.length, ce.sha1⟩) hslash hsy ?_ hyq
        hlt hyfile ?_
      · rw [hsort]
      · intro hdir
        rw [hmode] at hdir
        cases hdir
  | @dir name ce group rest sub items hname hgroup hout hsub hrest ih =>
    have hsub' : ∀ e ∈ rest, e ∈ ce :: group ++ rest := fun e he => List.mem_append_right _ he
    have hrest' := hrest.entry (fun e he => hin e (hsub' e he)) (fun e he => hfiles e (hsub' e he))
      fun e he => hcstring e (hsub' e he)
    have hcanonical := ih (List.pairwise_append.mp hsorted).2.1 (fun e he => hin e (hsub' e he))
      (fun e he => hfiles e (hsub' e he)) (fun e he => hcstring e (hsub' e he))
      fun e he => hlast e (hsub' e he)
    cases hk : kept ce with
    | false => exact hcanonical
    | true =>
      have hce : ce ∈ ce :: group ++ rest := List.mem_cons_self
      obtain ⟨hslash, r, hr⟩ := before_slash_some hname
      have hzero : (0 : UInt8) ∉ name := by
        intro h0
        refine hcstring ce hce (List.mem_of_mem_drop (i := base.length) ?_)
        rw [hr]
        exact List.mem_append_left _ h0
      have hsort : sort_name name S_IFDIR = name ++ [SLASH] := rfl
      refine List.pairwise_cons.mpr ⟨fun y hy => ?_, hcanonical⟩
      obtain ⟨hsy, h0y, e, he, q, hq, hyq, hyfile⟩ := hrest' y hy
      have hlt := (List.pairwise_append.mp hsorted).2.2 ce List.mem_cons_self e he
      rw [(hin ce hce).name_eq, hq, list_order.append_lt_append_iff] at hlt
      refine base_name_compare_lt _ _ hslash hsy hzero h0y ?_
      refine sort_name_lt (x := ⟨S_IFDIR, name, sub.sha1⟩) hslash hsy ?_ hyq hlt hyfile ?_
      · rw [hsort, hr]
        exact ⟨r, by simp⟩
      · -- the rest is not in the directory
        intro _ hstart
        rw [hsort] at hstart
        have hdir : subdir base name <+: e.name := by
          rw [hq, subdir, List.append_assoc]
          exact (List.prefix_append_right_inj base).mpr hstart
        refine hout e he ⟨hdir, lt_of_le_of_ne hdir.length_le fun hlen => ?_⟩
        refine hlast e (hsub' e he) ?_
        rw [← hdir.eq_of_length hlen]
        simp [subdir]

/-- The lines hold the entries, when the first one decides for its directory. -/
theorem Lines.flattens {hash_tree : Bytes → Sha1} (h : Lines cache base down l items)
    (hin : ∀ e ∈ l, Within base e) (hfiles : ∀ e ∈ l, S_ISDIR e.ce_mode = false)
    (hfirst : FirstDecides cache)
    (hsubs : ∀ sub ∈ down, HoldsKept hash_tree cache (subdir base sub.1) sub.2) :
    Flattens hash_tree base items ((l.filter kept).map file_of) := by
  induction h with
  | nil => exact .nil base
  | @file ce rest items hname hrest ih =>
    have hrec := ih (fun e he => hin e (List.mem_cons_of_mem _ he))
      fun e he => hfiles e (List.mem_cons_of_mem _ he)
    cases hk : kept ce with
    | false =>
      rw [List.filter_cons_of_neg (by simp [hk])]
      exact hrec
    | true =>
      have hfile := Flattens.file (x := ⟨ce.ce_mode, ce.name.drop base.length, ce.sha1⟩)
        (before_slash_none.mp hname) (hfiles ce List.mem_cons_self) hrec
      rw [← (hin ce List.mem_cons_self).name_eq] at hfile
      rw [List.filter_cons_of_pos hk]
      exact hfile
  | @dir name ce group rest sub items hname hgroup hout hsub hrest ih =>
    have hsub' : ∀ e ∈ rest, e ∈ ce :: group ++ rest := fun e he => List.mem_append_right _ he
    have hrec := ih (fun e he => hin e (hsub' e he)) fun e he => hfiles e (hsub' e he)
    rw [List.filter_append, List.map_append]
    cases hk : kept ce with
    | false =>
      have hnone : (ce :: group).filter kept = [] := by
        rw [List.filter_eq_nil_iff]
        intro e he
        rcases List.mem_cons.mp he with rfl | he
        · simp [hk]
        · simp [hfirst (base ++ name) ce group hgroup hk e he]
      rw [hnone]
      exact hrec
    | true =>
      obtain ⟨below, hsha1, hcanonical, hflat⟩ := hsubs _ hsub
      rw [hgroup] at hflat
      refine Flattens.dir (x := ⟨S_IFDIR, name, sub.sha1⟩) (before_slash_some hname).1 rfl hsha1 ?_
        hcanonical hflat hrec
      rintro rfl
      rw [List.filter_cons_of_pos hk, List.map_cons] at hflat
      cases hflat

end

section
variable {s : index_state}

/-- Where the first entry decides, each node that is written holds its entries. -/
theorem writes_kept (hash_tree : Bytes → Sha1) (h : TreeIndex s) (hfirst : FirstDecides s.cache) :
    Writes (HoldsKept hash_tree s.cache) hash_tree s.cache := by
  intro base down items _ hsubs hlines
  have hmem : ∀ e ∈ entries_within s.cache base, e ∈ s.cache ∧ Within base e :=
    fun e he => mem_of_within he
  have hfiles : ∀ e ∈ entries_within s.cache base, S_ISDIR e.ce_mode = false :=
    fun e he => h.files e (hmem e he).1
  have hsorted : (entries_within s.cache base).Pairwise (fun a b => a.name < b.name) :=
    (names_ascend h.toOrdered h.merged).filter _
  have hlast : ∀ e ∈ entries_within s.cache base, e.name.getLast? ≠ some SLASH :=
    fun e he => (verify_path_last (h.verified e (hmem e he).1)).2
  refine ⟨items, rfl, ?_, ?_⟩
  · exact hlines.canonical hsorted (fun e he => (hmem e he).2) hfiles
      (fun e he => h.cstring e (hmem e he).1) hlast
  · refine hlines.flattens (fun e he => (hmem e he).2) hfiles hfirst fun sub hsub => ?_
    obtain ⟨hvalid, hcount⟩ := hsubs sub hsub
    exact ((hvalid _ _ (.here _ _)).2.2 hcount).2

/-! ## Where it does not -/

/-- The node has the lines of its directory, and all its subtrees have a count. -/
def Written (hash_tree : Bytes → Sha1) (cache : List cache_entry) (base : Bytes)
    (it : cache_tree) : Prop :=
  (∃ items, it.sha1 = hash_tree (tree_buffer items) ∧
    Lines cache base it.down (entries_within cache base) items) ∧
    ∀ sub ∈ it.down, 0 ≤ sub.2.entry_count

theorem writes_written (hash_tree : Bytes → Sha1) (cache : List cache_entry) :
    Writes (Written hash_tree cache) hash_tree cache :=
  fun _ _ items _ hsubs hlines => ⟨⟨items, rfl, hlines⟩, fun sub hsub => (hsubs sub hsub).2⟩

/-- The last name of a path, and the directory it is in. -/
theorem last_slash (path : Bytes) :
    ∃ base name, path = base ++ name ∧ SLASH ∉ name ∧
      (base = [] ∨ ∃ dir, base = dir ++ [SLASH]) := by
  induction path using List.reverseRecOn with
  | nil => exact ⟨[], [], rfl, by simp, Or.inl rfl⟩
  | append_singleton path c ih =>
    by_cases hc : c = SLASH
    · exact ⟨path ++ [c], [], by simp, by simp, Or.inr ⟨path, by rw [hc]⟩⟩
    · obtain ⟨base, name, rfl, hname, hbase⟩ := ih
      refine ⟨base, name ++ [c], by simp, ?_, hbase⟩
      rw [List.mem_append, List.mem_singleton, not_or]
      exact ⟨hname, fun hs => hc hs.symm⟩

/-- A tree that was written has a node for each directory. -/
theorem node_of_dir {hash_tree : Bytes → Sha1} {cache : List cache_entry} {it : cache_tree}
    (hvalid : ValidNodes (Written hash_tree cache) cache [] it) (hcount : 0 ≤ it.entry_count)
    (m : Nat) {dir : Bytes} (hm : dir.length ≤ m) {e : cache_entry} (he : e ∈ cache)
    (hdir : dir = [] ∨ (∃ d, dir = d ++ [SLASH]) ∧ Within dir e) :
    ∃ n, Node [] it dir n ∧ 0 ≤ n.entry_count := by
  induction m generalizing dir with
  | zero =>
    obtain rfl : dir = [] := List.length_eq_zero_iff.mp (by omega)
    exact ⟨it, .here _ _, hcount⟩
  | succ m ih =>
    rcases hdir with rfl | ⟨⟨d, rfl⟩, hwithin⟩
    · exact ⟨it, .here _ _, hcount⟩
    · obtain ⟨base, name, rfl, hname, hbase⟩ := last_slash d
      have hwithin : Within (subdir base name) e := hwithin
      rw [List.length_append, List.length_append, List.length_singleton] at hm
      have hparent : base = [] ∨ (∃ d, base = d ++ [SLASH]) ∧ Within base e :=
        hbase.imp_right fun hb => ⟨hb, hwithin.up⟩
      obtain ⟨n, hnode, hn⟩ := ih (by omega) hparent
      obtain ⟨-, -, hhere⟩ := hvalid base n hnode
      obtain ⟨⟨items, -, hlines⟩, hcounts⟩ := (hhere hn).2
      have hein : e ∈ entries_within cache base :=
        List.mem_filter.mpr ⟨he, by simpa using hwithin.up⟩
      obtain ⟨sub, hsub⟩ := hlines.subtree e hein name (hwithin.before_slash hname)
      exact ⟨sub, hnode.trans (.down hsub (.here _ _)), hcounts _ hsub⟩

/-- A hash that tells if a buffer has a line of the name. -/
noncomputable def tell_name (name : Bytes) (buffer : Bytes) : Sha1 :=
  open Classical in
  if ∃ items, buffer = tree_buffer items ∧ (∀ x ∈ items, (0 : UInt8) ∉ x.name) ∧
      ∃ x ∈ items, x.name = name then Vector.replicate 20 0
  else Vector.replicate 20 1

theorem tell_name_iff {name : Bytes} {items : List tree_item} (h : ∀ x ∈ items, (0 : UInt8) ∉ x.name) :
    tell_name name (tree_buffer items) = Vector.replicate 20 0 ↔ ∃ x ∈ items, x.name = name := by
  unfold tell_name
  constructor
  · intro htell
    split at htell
    · next hsome =>
      obtain ⟨items', hbuffer, h', x, hx, hname⟩ := hsome
      have hnames := tree_buffer_names h h' hbuffer
      have hmem : name ∈ items.map (·.name) := by
        rw [hnames, ← hname]
        exact List.mem_map_of_mem hx
      exact List.mem_map.mp hmem
    · exact absurd htell (by decide)
  · intro hsome
    rw [if_pos ⟨items, rfl, h, hsome⟩]

/-- A directory that is left out with an entry that is not: no tree object of its parent holds
that entry, and one hash of them all tells it. -/
theorem first_decides_of_builds (h : TreeIndex s)
    (hall : ∀ env objects it, ValidNodes (HoldsKept env.hash_tree s.cache) s.cache [] it →
      Builds env objects it s.cache) : FirstDecides s.cache := by
  intro dir ce group hgroup hce e he
  by_contra hkept
  rw [Bool.not_eq_false] at hkept
  obtain ⟨base, name, rfl, hname, hbase⟩ := last_slash dir
  have hgroup : entries_within s.cache (subdir base name) = ce :: group := hgroup
  let env : write_tree_env := ⟨true, true, tell_name name, fun _ => true⟩
  have heasy : Unhindered env := ⟨rfl, fun _ => Or.inl rfl⟩
  obtain ⟨objects', it, ok, hrun, hok, hspec⟩ := hall env (fun _ => false) .new (valid_nodes_new _ _ _)
  obtain ⟨objects2, it2, ok2, hrun2, hok2, hspec2⟩ := cache_tree_update_valid env (fun _ => false) h
    (writes_written env.hash_tree s.cache) (valid_nodes_new _ _ _)
  rw [hrun] at hrun2
  cases hrun2
  obtain ⟨hcount, hholds⟩ := hspec (hok heasy)
  obtain ⟨-, hwritten⟩ := hspec2 (hok heasy)
  obtain ⟨hec, hew⟩ : e ∈ s.cache ∧ Within (subdir base name) e :=
    mem_of_within (hgroup ▸ List.mem_cons_of_mem _ he)
  obtain ⟨n, hnode, hn⟩ := node_of_dir hwritten hcount base.length le_rfl hec
    (hbase.imp_right fun hb => ⟨hb, hew.up⟩)
  obtain ⟨right, hsha1, -, hflat⟩ := ((hholds base n hnode).2.2 hn).2
  obtain ⟨⟨items, hsha1', hlines⟩, -⟩ := ((hwritten base n hnode).2.2 hn).2
  have hmem : ∀ e ∈ entries_within s.cache base, e ∈ s.cache ∧ Within base e :=
    fun e he => mem_of_within he
  obtain ⟨r, hr⟩ := hew.1
  have hen : e.name = base ++ (name ++ SLASH :: r) := by
    rw [← hr, subdir]
    simp
  -- the right tree object has a line for the directory
  have hline : ∃ x ∈ right, x.name = name := by
    have hfile : file_of e ∈ ((entries_within s.cache base).filter kept).map file_of :=
      List.mem_map_of_mem (List.mem_filter.mpr
        ⟨List.mem_filter.mpr ⟨hec, by simpa using hew.up⟩, hkept⟩)
    obtain ⟨x, hx, hslash, hpath⟩ := hflat.line_of_file _ hfile
    refine ⟨x, hx, ?_⟩
    rcases hpath with hpath | ⟨r', hpath⟩
    · have hpath : e.name = base ++ x.name := hpath
      rw [hen, List.append_cancel_left_eq] at hpath
      exact absurd (by rw [← hpath]; simp) hslash
    · have hpath : subdir base x.name ++ r' = e.name := hpath
      rw [hen, subdir] at hpath
      simp only [List.append_assoc, List.append_cancel_left_eq, List.singleton_append] at hpath
      exact (split_at_byte hslash hname hpath).1
  have hright : ∀ x ∈ right, (0 : UInt8) ∉ x.name := by
    intro x hx h0
    obtain ⟨p, hp, hxp⟩ := hflat.file_of_line x hx
    obtain ⟨e', he', rfl⟩ := List.mem_map.mp hp
    obtain ⟨he', -⟩ := List.mem_filter.mp he'
    exact h.cstring e' (hmem e' he').1 (hxp.subset (List.mem_append_right _ h0))
  -- so the one that was written has it too
  have hentry := hlines.entry (fun e he => (hmem e he).2) (fun e he => h.files e (hmem e he).1)
    fun e he => h.cstring e (hmem e he).1
  have htell : tell_name name (tree_buffer items) = Vector.replicate 20 0 := by
    have heq : tell_name name (tree_buffer items) = tell_name name (tree_buffer right) :=
      hsha1'.symm.trans hsha1
    rw [heq, tell_name_iff hright]
    exact hline
  obtain ⟨y, hy, rfl⟩ := (tell_name_iff fun x hx => (hentry x hx).2.1).mp htell
  obtain ⟨e', he', hkept', hspec⟩ := hlines.source y hy
  rcases hspec with ⟨-, hyn, -⟩ | ⟨-, -, group', hgroup'⟩
  · refine h.apart e' (hmem e' he').1 e hec ⟨r, ?_⟩
    rw [hen, (hmem e' he').2.name_eq, hyn]
    simp
  · rw [hgroup] at hgroup'
    cases hgroup'
    rw [hce] at hkept'
    cases hkept'

/-! ## The result -/

/-- Whatever tree it starts from, the update makes tree objects that hold the entries of the index
exactly when the first entry of each directory decides for all of them. -/
theorem update_builds_the_trees_iff (h : TreeIndex s) :
    (∀ env objects it, ValidNodes (HoldsKept env.hash_tree s.cache) s.cache [] it →
      Builds env objects it s.cache) ↔ FirstDecides s.cache := by
  constructor
  · exact first_decides_of_builds h
  · intro hfirst env objects it hvalid
    exact cache_tree_update_valid env objects h (writes_kept env.hash_tree h hfirst) hvalid

end

/-- The index with `a/b`, and with `c`, which is only intended. -/
def intended_file : index_state :=
  index_of [file_a_b 0, (new_entry 0o100644 (Vector.replicate 20 0) [99] 0).mark CE_INTENT_TO_ADD]

theorem intended_file_index : TreeIndex intended_file where
  ascends := List.pairwise_pair.mpr (by decide)
  named := by unfold intended_file index_of; decide
  merged := by unfold intended_file index_of; decide
  apart := by unfold intended_file index_of; decide
  verified := by unfold intended_file index_of; decide
  cstring := by unfold intended_file index_of; decide
  files := by unfold intended_file index_of; decide

theorem the_tree_of_a_b_is_built :
    Builds full_env (fun _ => true) .new intended_file.cache := by
  refine (update_builds_the_trees_iff intended_file_index).mpr ?_ full_env (fun _ => true) .new
    (valid_nodes_new _ _ _)
  intro dir ce group hgroup hce e he
  obtain ⟨hmem, hwithin⟩ := mem_of_within (hgroup ▸ List.mem_cons_self)
  have hslash : SLASH ∈ ce.name := hwithin.1.subset (by simp)
  have hall : ∀ ce ∈ intended_file.cache, SLASH ∈ ce.name → kept ce = true := by
    unfold intended_file index_of
    decide
  rw [hall ce hmem hslash] at hce
  cases hce

theorem intended_first_index : TreeIndex intended_first where
  ascends := List.pairwise_pair.mpr (by decide)
  named := by unfold intended_first index_of; decide
  merged := by unfold intended_first index_of; decide
  apart := by unfold intended_first index_of; decide
  verified := by unfold intended_first index_of; decide
  cstring := by unfold intended_first index_of; decide
  files := by unfold intended_first index_of; decide

theorem an_intended_entry_takes_its_directory_along :
    ¬ ∀ (s : index_state) (env : write_tree_env) (objects : object_store) (it : cache_tree),
      TreeIndex s → ValidNodes (HoldsKept env.hash_tree s.cache) s.cache [] it →
        Builds env objects it s.cache := by
  intro hall
  obtain ⟨objects', it, ok, hrun, hok, hspec⟩ := hall intended_first full_env (fun _ => true) .new
    intended_first_index (valid_nodes_new _ _ _)
  have hmade : (cache_tree_update full_env (fun _ => true) .new intended_first.cache).map
      (fun r => (r.2.1.sha1, r.2.2)) = some (Vector.replicate 20 0, true) := by decide
  rw [hrun, Option.map_some, Option.some.injEq, Prod.mk.injEq] at hmade
  obtain ⟨hsha1, hok⟩ := hmade
  obtain ⟨hcount, hvalid⟩ := hspec hok
  obtain ⟨items, hitems, -, hflat⟩ := ((hvalid _ _ (.here _ _)).2.2 hcount).2
  -- the root is the empty tree
  have hempty : tree_buffer items = [] := by
    by_contra hne
    rw [hsha1, show full_env.hash_tree = tell_empty from rfl, tell_empty, if_neg hne] at hitems
    exact absurd hitems (by decide)
  have hnone : items = [] := by
    cases items with
    | nil => rfl
    | cons x items =>
      rw [tree_buffer_cons] at hempty
      simp [tree_entry] at hempty
  have hfiles : ((entries_within intended_first.cache []).filter kept).map file_of =
      [file_of (file_a_b 0)] := by decide
  rw [hfiles, hnone] at hflat
  cases hflat

end git
