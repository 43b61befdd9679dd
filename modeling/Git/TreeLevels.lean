-- What `update_one` makes of the nodes of a cache-tree, level by level: which lines the second
-- pass writes, and what then holds of every node with a count.
import Git.TreeOrder
import Git.CoherentRuns
import Git.VerifyCache

open bsearch

namespace git

/-! ## The lines of a level -/

/-- Neither to be removed nor a placeholder. -/
def kept (ce : cache_entry) : Bool := !ce.has (CE_REMOVE ||| CE_INTENT_TO_ADD)

/-- The lines that the second pass writes. The first entry of a directory decides if the
directory gets a line. -/
inductive Lines (cache : List cache_entry) (base : Bytes) (down : List (Bytes × cache_tree)) :
    List cache_entry → List tree_item → Prop where
  | nil : Lines cache base down [] []
  | file {ce : cache_entry} {rest : List cache_entry} {items : List tree_item}
      (hname : before_slash (ce.name.drop base.length) = none)
      (hrest : Lines cache base down rest items) :
      Lines cache base down (ce :: rest)
        ((if kept ce then [⟨ce.ce_mode, ce.name.drop base.length, ce.sha1⟩] else []) ++ items)
  | dir {name : Bytes} {ce : cache_entry} {group rest : List cache_entry} {sub : cache_tree}
      {items : List tree_item} (hname : before_slash (ce.name.drop base.length) = some name)
      (hgroup : entries_within cache (subdir base name) = ce :: group)
      (hout : ∀ e ∈ rest, ¬ Within (subdir base name) e) (hsub : (name, sub) ∈ down)
      (hrest : Lines cache base down rest items) :
      Lines cache base down (ce :: group ++ rest)
        ((if kept ce then [⟨S_IFDIR, name, sub.sha1⟩] else []) ++ items)

/-- The subtrees of each node are in their order. A node with a count counts the entries of its
directory, and has `P`. -/
def ValidNodes (P : Bytes → cache_tree → Prop) (cache : List cache_entry) (base : Bytes)
    (it : cache_tree) : Prop :=
  ∀ b n, Node base it b n → n.Sorted ∧ (∀ sub ∈ n.down, SLASH ∉ sub.1) ∧
    (0 ≤ n.entry_count → n.entry_count = (entries_within cache b).length ∧ P b n)

section
variable {P : Bytes → cache_tree → Prop} {cache : List cache_entry} {base : Bytes}
  {it : cache_tree}

theorem ValidNodes.sub (h : ValidNodes P cache base it) {sub : Bytes × cache_tree}
    (hsub : sub ∈ it.down) : ValidNodes P cache (subdir base sub.1) sub.2 :=
  fun b n hn => h b n (.down hsub hn)

theorem valid_nodes_mk (hsorted : it.Sorted) (hnames : ∀ sub ∈ it.down, SLASH ∉ sub.1)
    (here : 0 ≤ it.entry_count → it.entry_count = (entries_within cache base).length ∧ P base it)
    (hdown : ∀ sub ∈ it.down, ValidNodes P cache (subdir base sub.1) sub.2) :
    ValidNodes P cache base it := by
  intro b n hn
  cases hn with
  | here => exact ⟨hsorted, hnames, here⟩
  | down hsub hn => exact hdown _ hsub b n hn

theorem valid_nodes_new (P : Bytes → cache_tree → Prop) (cache : List cache_entry) (base : Bytes) :
    ValidNodes P cache base .new :=
  valid_nodes_mk List.Pairwise.nil (by simp [cache_tree.new]) (by simp [cache_tree.new])
    (by simp [cache_tree.new])

/-- What is written for a directory has `P`, when all that is below it has. -/
def Writes (P : Bytes → cache_tree → Prop) (hash_tree : Bytes → Sha1) (cache : List cache_entry) :
    Prop :=
  ∀ base down items, Ascends subtree_key down →
    (∀ sub ∈ down, ValidNodes P cache (subdir base sub.1) sub.2 ∧ 0 ≤ sub.2.entry_count) →
    Lines cache base down (entries_within cache base) items →
    P base (.mk (entries_within cache base).length (hash_tree (tree_buffer items)) down)

/-- No object is looked up, and the database takes what is written. -/
def Unhindered (env : write_tree_env) : Prop :=
  env.missing_ok = true ∧ ∀ buffer, env.dryrun = true ∨ env.writes buffer = true

/-! ## The walk over the subtrees -/

/-- A way to update the nodes of all directories of `base`. -/
def Goes (P : Bytes → cache_tree → Prop) (env : write_tree_env) (cache : List cache_entry)
    (base : Bytes) (update : updater) : Prop :=
  ∀ name objects it ce group after, entries_within cache (subdir base name) = ce :: group →
    (∀ e ∈ after, Named e) → Stops (subdir base name) after →
    ValidNodes P cache (subdir base name) it →
    ∃ r, update objects it (ce :: group ++ after) (subdir base name) = some r ∧
      (Unhindered env → r.count.isSome = true) ∧
      ∀ n, r.count = some n → n = group.length + 1 ∧ 0 ≤ r.it.entry_count ∧
        ValidNodes P cache (subdir base name) r.it

/-- The node while its entries are walked over. -/
structure Walking (P : Bytes → cache_tree → Prop) (cache : List cache_entry) (base : Bytes)
    (it : cache_tree) (used : List Bytes) : Prop where
  sorted : it.Sorted
  names : ∀ sub ∈ it.down, SLASH ∉ sub.1
  valid : ∀ sub ∈ it.down, ValidNodes P cache (subdir base sub.1) sub.2
  used : ∀ name ∈ used, ∃ sub, (name, sub) ∈ it.down ∧ 0 ≤ sub.entry_count

/-- The subtree is found or made, and put back with what its update left. -/
theorem Walking.put {used : List Bytes} (h : Walking P cache base it used) {name : Bytes}
    (hname : SLASH ∉ name) :
    ∃ sub, find_subtree (create_subtree it name) name = some sub ∧
      ValidNodes P cache (subdir base name) sub ∧
      ∀ new, ValidNodes P cache (subdir base name) new → 0 ≤ new.entry_count →
        Walking P cache base (set_subtree (create_subtree it name) name new) (name :: used) := by
  obtain ⟨sub, hf, horigin, hput⟩ := put_subtree_spec h.sorted name
  refine ⟨sub, hf, ?_, fun new hnew hcount => ?_⟩
  · rcases horigin with hin | ⟨rfl, -⟩
    · exact h.valid _ hin
    · exact valid_nodes_new _ _ _
  · obtain ⟨hs2, -, -, hmem⟩ := hput new
    refine ⟨hs2, ?_, ?_, ?_⟩
    · intro s hs
      rcases (hmem s).mp hs with rfl | ⟨hs, -⟩
      · exact hname
      · exact h.names s hs
    · intro s hs
      rcases (hmem s).mp hs with rfl | ⟨hs, -⟩
      · exact hnew
      · exact h.valid s hs
    · intro n hn
      by_cases hne : n = name
      · exact ⟨new, (hmem _).mpr (Or.inl (by rw [hne])), hcount⟩
      · obtain ⟨s, hs, hv⟩ := h.used n ((List.mem_cons.mp hn).resolve_left hne)
        exact ⟨s, (hmem _).mpr (Or.inr ⟨hs, hne⟩), hv⟩

/-- The walk comes back, and when nothing failed it saw every directory. -/
theorem walk_spec {env : write_tree_env} {update : updater} {l after : List cache_entry}
    (hu : Goes P env cache base update) (hl : Level cache base l) (hin : ∀ e ∈ l, Within base e)
    (hnamed : ∀ e ∈ l ++ after, Named e) (hstop : Stops base after) (objects : object_store)
    {used : List Bytes} (hw : Walking P cache base it used) :
    ∃ w, update_subtrees update base (l ++ after) 0 objects it used = some w ∧
      (Unhindered env → w.ok = true) ∧
      (w.ok = true → Walking P cache base w.it w.used ∧ used ⊆ w.used ∧
        ∀ ce ∈ l, ∀ name, before_slash (ce.name.drop base.length) = some name → name ∈ w.used) := by
  induction hl generalizing objects it used with
  | nil =>
    refine ⟨_, update_subtrees_stops update hstop, fun _ => rfl, fun _ => ⟨hw, ?_, ?_⟩⟩
    · exact List.Subset.refl _
    · simp
  | @file ce rest hname hrest ih =>
    have hlev := (at_level_iff (hnamed ce (by simp))).mpr (hin ce (by simp))
    obtain ⟨w, hrun, heasy, hspec⟩ := ih
      (fun e he => hin e (List.mem_cons_of_mem _ he))
      (fun e he => hnamed e (List.mem_cons_of_mem _ he)) objects hw
    refine ⟨w, ?_, heasy, fun hok => ?_⟩
    · rw [List.cons_append, update_subtrees, hlev, hname]
      exact hrun
    · obtain ⟨hwalk, hused, hseen⟩ := hspec hok
      refine ⟨hwalk, hused, fun e he name hen => ?_⟩
      rcases List.mem_cons.mp he with rfl | he
      · rw [hname] at hen
        cases hen
      · exact hseen e he name hen
  | @dir name ce group rest hname hgroup hout hrest ih =>
    have hlev := (at_level_iff (hnamed ce (by simp))).mpr (hin ce (by simp))
    have hwithin := within_of_group hgroup
    have hn := (before_slash_some hname).1
    have hnamed' : ∀ e ∈ rest ++ after, Named e := fun e he => hnamed e (by
      simp only [List.mem_append, List.mem_cons] at he ⊢
      tauto)
    obtain ⟨sub, hf, hsub, hput⟩ := hw.put hn
    obtain ⟨r, hr, heasy1, hspec1⟩ := hu name objects sub ce group (rest ++ after) hgroup hnamed'
      (hstop.subdir hnamed' hout) hsub
    have hlist : ce :: group ++ rest ++ after = ce :: (group ++ (rest ++ after)) := by simp
    rw [List.cons_append] at hr
    rw [hlist, update_subtrees, hlev, hname]
    simp only [hf, take_subdir hwithin, hr, Bool.not_true, Bool.false_eq_true, if_false]
    cases hc : r.count with
    | none =>
      refine ⟨_, rfl, fun heasy => ?_, by simp⟩
      have := heasy1 heasy
      rw [hc] at this
      cases this
    | some n =>
      obtain ⟨rfl, hcount, hvalid⟩ := hspec1 n hc
      obtain ⟨w, hrun, heasy, hspec⟩ := ih (fun e he => hin e (by simp [he]))
        hnamed' r.objects (hput r.it hvalid hcount)
      refine ⟨w, ?_, heasy, fun hok => ?_⟩
      · exact (update_subtrees_skip update group (rest ++ after)).trans hrun
      · obtain ⟨hwalk, hused, hseen⟩ := hspec hok
        refine ⟨hwalk, fun n hn => hused (List.mem_cons_of_mem _ hn), fun e he n hen => ?_⟩
        rcases List.mem_append.mp he with he | he
        · rw [(mem_of_within (hgroup ▸ he)).2.before_slash hn] at hen
          cases hen
          exact hused List.mem_cons_self
        · exact hseen e he n hen

/-! ## The second pass -/

/-- The second pass writes the lines, unless an object is missing. -/
theorem write_lines {l after : List cache_entry} (missing_ok : Bool) (objects : object_store)
    (hl : Level cache base l) (hin : ∀ e ∈ l, Within base e)
    (hnamed : ∀ e ∈ l ++ after, Named e) (hstop : Stops base after) (hsorted : it.Sorted)
    (hready : ∀ ce ∈ l, ∀ name, before_slash (ce.name.drop base.length) = some name →
      ∃ sub, (name, sub) ∈ it.down ∧
        sub.entry_count = (entries_within cache (subdir base name)).length)
    (i : Nat) (buffer : Bytes) :
    ∃ x, write_level missing_ok objects base it (l ++ after) 0 i buffer = some x ∧
      (missing_ok = true → x.isSome = true) ∧
      ∀ b n, x = some (b, n) → n = i + l.length ∧
        ∃ items, b = buffer ++ tree_buffer items ∧ Lines cache base it.down l items := by
  induction hl generalizing i buffer with
  | nil =>
    refine ⟨_, write_level_stops missing_ok objects hstop i buffer, fun _ => rfl, ?_⟩
    rintro b n ⟨⟩
    exact ⟨rfl, [], by simp [tree_buffer], .nil⟩
  | @file ce rest hname hrest ih =>
    have hlev := (at_level_iff (hnamed ce (by simp))).mpr (hin ce (by simp))
    have hline : line_of base it ce = some ⟨ce.ce_mode, ce.name.drop base.length, ce.sha1, 1⟩ := by
      simp [line_of, hname]
    have hrec := ih (fun e he => hin e (List.mem_cons_of_mem _ he))
      (fun e he => hnamed e (List.mem_cons_of_mem _ he))
      (fun e he => hready e (List.mem_cons_of_mem _ he)) (i + 1)
    rw [List.cons_append, write_level, hlev, hline]
    simp only [Bool.not_true, Bool.false_eq_true, if_false, Nat.sub_self]
    split
    · next hmissing =>
      refine ⟨none, rfl, fun hok => ?_, by simp⟩
      rw [hok] at hmissing
      simp at hmissing
    · obtain ⟨x, hx, heasy, hspec⟩ := hrec
        (buffer ++ tree_buffer (if kept ce then [⟨ce.ce_mode, ce.name.drop base.length, ce.sha1⟩] else []))
      refine ⟨x, ?_, heasy, fun b n hbn => ?_⟩
      · rw [← hx]
        unfold kept
        cases ce.has (CE_REMOVE ||| CE_INTENT_TO_ADD) <;> simp [tree_buffer]
      · obtain ⟨hn, items, hb, hlines⟩ := hspec b n hbn
        refine ⟨by rw [hn, List.length_cons]; omega, _, ?_, .file hname hlines⟩
        rw [hb, List.append_assoc, tree_buffer, tree_buffer, tree_buffer, ← List.flatMap_append]
  | @dir name ce group rest hname hgroup hout hrest ih =>
    have hlev := (at_level_iff (hnamed ce (by simp))).mpr (hin ce (by simp))
    obtain ⟨sub, hsub, hcount⟩ := hready ce (by simp) name hname
    rw [hgroup] at hcount
    have hf : find_subtree it name = some sub := (find_subtree_mem hsorted).mpr hsub
    have hline : line_of base it ce = some ⟨S_IFDIR, name, sub.sha1, group.length + 1⟩ := by
      have h1 : 1 ≤ sub.entry_count := by
        rw [hcount, List.length_cons]
        omega
      simp only [line_of, hname, hf, if_pos h1]
      rw [hcount]
      rfl
    have hlist : ce :: group ++ rest ++ after = ce :: (group ++ (rest ++ after)) := by simp
    have hrec := ih (fun e he => hin e (by simp [he]))
      (fun e he => hnamed e (by
        simp only [List.mem_append, List.mem_cons] at he ⊢
        tauto)) (fun e he => hready e (by simp [he])) (i + (group.length + 1))
    rw [hlist, write_level, hlev, hline]
    simp only [Bool.not_true, Bool.false_eq_true, if_false, Nat.add_sub_cancel]
    split
    · next hmissing =>
      refine ⟨none, rfl, fun hok => ?_, by simp⟩
      rw [hok] at hmissing
      simp at hmissing
    · rw [write_level_skip, write_level_skip]
      obtain ⟨x, hx, heasy, hspec⟩ := hrec
        (buffer ++ tree_buffer (if kept ce then [⟨S_IFDIR, name, sub.sha1⟩] else []))
      refine ⟨x, ?_, heasy, fun b n hbn => ?_⟩
      · rw [← hx]
        unfold kept
        cases ce.has (CE_REMOVE ||| CE_INTENT_TO_ADD) <;> simp [tree_buffer]
      · obtain ⟨hn, items, hb, hlines⟩ := hspec b n hbn
        refine ⟨by rw [hn]; simp; omega, _, ?_, .dir hname hgroup hout hsub hlines⟩
        rw [hb, List.append_assoc, tree_buffer, tree_buffer, tree_buffer, ← List.flatMap_append]

/-! ## One node, and the whole tree -/

/-- What the walk leaves when it went through: the subtrees that it saw, all of them updated. -/
theorem Walking.discard {used : List Bytes} (h : Walking P cache base it used) :
    Ascends subtree_key (discard_unused_subtrees it used).down ∧
      (∀ sub ∈ (discard_unused_subtrees it used).down, SLASH ∉ sub.1 ∧
        ValidNodes P cache (subdir base sub.1) sub.2 ∧ 0 ≤ sub.2.entry_count) ∧
      ∀ name ∈ used, ∃ sub, (name, sub) ∈ (discard_unused_subtrees it used).down := by
  obtain ⟨hsorted, hmem⟩ := discard_spec it used h.sorted
  refine ⟨hsorted, fun sub hsub => ?_, fun name hname => ?_⟩
  · obtain ⟨hsub, hused⟩ := (hmem sub).mp hsub
    obtain ⟨s, hs, hcount⟩ := h.used sub.1 hused
    have heq := h.sorted.eq_of_key hsub hs (subtree_key_eq.mpr rfl)
    exact ⟨h.names sub hsub, h.valid sub hsub, by rw [heq]; exact hcount⟩
  · obtain ⟨s, hs, -⟩ := h.used name hname
    exact ⟨s, (hmem _).mpr ⟨hs, hname⟩⟩

theorem update_one_valid (env : write_tree_env) (hsorted : cache.Pairwise (fun a b => a.name < b.name))
    (hnamed : ∀ ce ∈ cache, Named ce) (hlast : ∀ ce ∈ cache, ce.name.getLast? ≠ some SLASH)
    (hwrites : Writes P env.hash_tree cache) {depth : Nat} {after : List cache_entry}
    (objects : object_store) (hd : 0 < depth)
    (hdepth : ∀ e ∈ entries_within cache base, e.name.length < base.length + depth)
    (hafter : ∀ e ∈ after, Named e) (hstop : Stops base after) (hvalid : ValidNodes P cache base it) :
    ∃ r, update_one env depth objects it (entries_within cache base ++ after) base = some r ∧
      (Unhindered env → r.count.isSome = true) ∧
      ∀ n, r.count = some n → n = (entries_within cache base).length ∧ 0 ≤ r.it.entry_count ∧
        ValidNodes P cache base r.it := by
  induction depth generalizing base objects it after with
  | zero => omega
  | succ depth ih =>
    rw [update_one]
    split
    · next hskip =>
      refine ⟨_, rfl, fun _ => rfl, ?_⟩
      rintro n ⟨⟩
      have hcount := ((hvalid base it (.here base it)).2.2 hskip.1).1
      exact ⟨by rw [hcount]; rfl, hskip.1, hvalid⟩
    · have hl : Level cache base (entries_within cache base) :=
        level_of_sorted hsorted hlast [] _ rfl (by simp)
      have hin : ∀ e ∈ entries_within cache base, Within base e := fun e he => (mem_of_within he).2
      have hnamed' : ∀ e ∈ entries_within cache base ++ after, Named e := by
        intro e he
        rcases List.mem_append.mp he with he | he
        · exact hnamed e (mem_of_within he).1
        · exact hafter e he
      have hgoes : Goes P env cache base (update_one env depth) := by
        intro name objects it ce group after hgroup hna hst hval
        have hsub : ∀ e ∈ entries_within cache (subdir base name),
            e.name.length < (subdir base name).length + depth := by
          intro e he
          obtain ⟨hem, hew⟩ := mem_of_within he
          have := hdepth e (List.mem_filter.mpr ⟨hem, by simpa using hew.up⟩)
          simp only [subdir, List.length_append, List.length_singleton]
          omega
        have hce : ce ∈ entries_within cache (subdir base name) := by simp [hgroup]
        have hlong := (mem_of_within hce).2.2
        have hshort := hsub ce hce
        have hrec := ih objects (by omega) hsub hna hst hval
        rwa [hgroup] at hrec
      obtain ⟨hsorted0, hnames0, -⟩ := hvalid base it (.here base it)
      have hwalking : Walking P cache base it [] :=
        ⟨hsorted0, hnames0, fun sub hsub => hvalid.sub hsub, by simp⟩
      obtain ⟨w, hw, heasy, hspec⟩ := walk_spec hgoes hl hin hnamed' hstop objects hwalking
      rw [hw]
      cases hok : w.ok with
      | false =>
        refine ⟨⟨w.objects, w.it, none⟩, by simp [hok], fun h => ?_, by simp⟩
        rw [heasy h] at hok
        cases hok
      | true =>
        obtain ⟨hwalk, -, hseen⟩ := hspec hok
        obtain ⟨hsort, hsubs, hfound⟩ := hwalk.discard
        have hready : ∀ ce ∈ entries_within cache base, ∀ name,
            before_slash (ce.name.drop base.length) = some name →
              ∃ sub, (name, sub) ∈ (discard_unused_subtrees w.it w.used).down ∧
                sub.entry_count = (entries_within cache (subdir base name)).length := by
          intro ce hce name hname
          obtain ⟨sub, hsub⟩ := hfound name (hseen ce hce name hname)
          obtain ⟨-, hval, hcount⟩ := hsubs _ hsub
          exact ⟨sub, hsub, ((hval _ _ (.here _ _)).2.2 hcount).1⟩
        obtain ⟨x, hx, hgo, hwritten⟩ := write_lines env.missing_ok w.objects hl hin
          hnamed' hstop hsort hready 0 []
        simp only [hok, Bool.not_true, Bool.false_eq_true, if_false, hx]
        rcases x with _ | ⟨b, n⟩
        · refine ⟨_, rfl, fun h => ?_, by simp⟩
          have := hgo h.1
          cases this
        · obtain ⟨hn, items, hb, hlines⟩ := hwritten b n rfl
          rw [Nat.zero_add] at hn
          rw [List.nil_append] at hb
          subst hn hb
          have hnode : ValidNodes P cache base (.mk (entries_within cache base).length
              (env.hash_tree (tree_buffer items)) (discard_unused_subtrees w.it w.used).down) :=
            valid_nodes_mk hsort (fun sub hsub => (hsubs sub hsub).1)
              (fun _ => ⟨rfl, hwrites base _ items hsort (fun sub hsub => (hsubs sub hsub).2) hlines⟩)
              fun sub hsub => (hsubs sub hsub).2.1
          dsimp only
          split_ifs with hdry hwr
          · refine ⟨_, rfl, fun _ => rfl, ?_⟩
            rintro k ⟨⟩
            exact ⟨rfl, Int.natCast_nonneg _, hnode⟩
          · refine ⟨_, rfl, fun _ => rfl, ?_⟩
            rintro k ⟨⟩
            exact ⟨rfl, Int.natCast_nonneg _, hnode⟩
          · refine ⟨_, rfl, fun h => ?_, by simp⟩
            rcases h.2 (tree_buffer items) with h | h
            · exact absurd h hdry
            · exact absurd h hwr

end

/-- An index that a tree can be made of: all entries are merged, none of them is a file and a
directory at once, and their names are paths. -/
structure TreeIndex (istate : index_state) : Prop extends Ordered istate where
  merged : ∀ ce ∈ istate.cache, ce_stage ce = 0
  apart : ∀ a ∈ istate.cache, ∀ b ∈ istate.cache, ¬ Under a.name b.name
  verified : ∀ ce ∈ istate.cache, verify_path ce.name = true
  cstring : ∀ ce ∈ istate.cache, (0 : UInt8) ∉ ce.name
  files : ∀ ce ∈ istate.cache, S_ISDIR ce.ce_mode = false

theorem verify_path_from_last {inside : Bool} {path : Bytes}
    (h : verify_path_from inside path = true) :
    (inside = true → path ≠ []) ∧ path.getLast? ≠ some SLASH := by
  induction path generalizing inside with
  | nil => cases inside <;> simp_all [verify_path_from]
  | cons c path ih =>
    refine ⟨fun _ => List.cons_ne_nil _ _, ?_⟩
    have hrest : ∃ after, verify_path_from after path = true ∧ (path = [] → c ≠ SLASH) := by
      cases inside with
      | true =>
        rw [verify_path_from] at h
        split_ifs at h with hbad
        simp only [Bool.or_eq_true, beq_iff_eq, not_or] at hbad
        exact ⟨false, h, fun _ => hbad.2⟩
      | false =>
        rw [verify_path_from] at h
        refine ⟨c == SLASH, h, ?_⟩
        rintro rfl rfl
        cases h
    obtain ⟨after, hrest, hend⟩ := hrest
    cases path with
    | nil => simpa using hend rfl
    | cons d path =>
      rw [List.getLast?_cons_cons]
      exact (ih hrest).2

/-- A path is not empty, and does not end in a slash. -/
theorem verify_path_last {path : Bytes} (h : verify_path path = true) :
    path ≠ [] ∧ path.getLast? ≠ some SLASH :=
  ⟨(verify_path_from_last h).1 rfl, (verify_path_from_last h).2⟩

theorem cache_tree_update_valid {P : Bytes → cache_tree → Prop} (env : write_tree_env)
    {istate : index_state} {it : cache_tree} (objects : object_store) (h : TreeIndex istate)
    (hwrites : Writes P env.hash_tree istate.cache) (hvalid : ValidNodes P istate.cache [] it) :
    ∃ objects' it' ok, cache_tree_update env objects it istate.cache = some (objects', it', ok) ∧
      (Unhindered env → ok = true) ∧
      (ok = true → 0 ≤ it'.entry_count ∧ ValidNodes P istate.cache [] it') := by
  have hv : verify_cache istate.cache = true := by
    rw [verify_cache, Bool.and_eq_true, List.all_eq_true, Bool.not_eq_true', Bool.eq_false_iff, Ne,
      verify_cache.next_to_each_other_iff]
    refine ⟨fun ce hce => by simpa using h.merged ce hce, ?_⟩
    rintro ⟨pre, a, b, post, hcache, hunder⟩
    exact h.apart a (by simp [hcache]) b (by simp [hcache]) hunder
  have hlast : ∀ ce ∈ istate.cache, ce.name ≠ [] ∧ ce.name.getLast? ≠ some SLASH :=
    fun ce hce => verify_path_last (h.verified ce hce)
  obtain ⟨hpos, hlen⟩ := name_bound_spec istate.cache
  have hall : entries_within istate.cache [] = istate.cache := by
    refine List.filter_eq_self.mpr fun e he => ?_
    have := List.length_pos_iff.mpr (hlast e he).1
    simpa [Within] using this
  have hdepth : ∀ e ∈ entries_within istate.cache [],
      e.name.length < ([] : Bytes).length + name_bound istate.cache :=
    fun e he => by simpa using hlen e (mem_of_within he).1
  obtain ⟨r, hr, heasy, hspec⟩ := update_one_valid env (names_ascend h.toOrdered h.merged) h.named
    (fun ce hce => (hlast ce hce).2) hwrites objects hpos hdepth (by simp)
    (show Stops [] [] by simp [Stops]) hvalid
  rw [List.append_nil, hall] at hr
  unfold cache_tree_update
  simp only [hv, Bool.not_true, Bool.false_eq_true, if_false, hr, Option.map_some]
  refine ⟨_, _, _, rfl, heasy, fun hok => ?_⟩
  obtain ⟨n, hn⟩ := Option.isSome_iff_exists.mp hok
  obtain ⟨-, hcount, hval⟩ := hspec n hn
  exact ⟨hcount, hval⟩

end git
