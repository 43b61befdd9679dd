-- An update of the cache-tree stays inside the array of entries and comes to its end, as long as
-- the counts from the index file are neither zero nor too large. With other counts it does not.
import Git.CacheTreePlaces
import Git.CacheTreeRoundTrip
import Git.CoherentRuns

open bsearch

namespace git.index_places

/-! ## Runs -/

/-- The run reads no entry outside of the array, what it returns has `P`, and with `enough` turns
it comes to its end. -/
inductive Ends {α : Type} (enough : Prop) (P : α → Prop) : run α → Prop where
  | running (h : ¬ enough) : Ends enough P none
  | dies : Ends enough P (some .dies)
  | returns {value : α} (h : P value) : Ends enough P (some (.returns value))

theorem Ends.mono {α : Type} {enough enough' : Prop} {P P' : α → Prop} {r : run α}
    (h : Ends enough P r) (henough : enough' → enough) (hP : ∀ value, P value → P' value) :
    Ends enough' P' r := by
  cases h with
  | running h => exact .running fun h' => h (henough h')
  | dies => exact .dies
  | returns h => exact .returns (hP _ h)

/-! ## The bounds of the counts -/

/-- One more than the slashes of any name. -/
def nesting (cache : List cache_entry) : Nat :=
  (cache.map fun ce => ce.name.count SLASH).foldr max 0 + 1

theorem count_lt_nesting {cache : List cache_entry} {ce : cache_entry} (h : ce ∈ cache) :
    ce.name.count SLASH < nesting cache := by
  unfold nesting
  rw [Nat.lt_succ_iff]
  induction cache with
  | nil => cases h
  | cons e cache ih =>
    rw [List.map_cons, List.foldr_cons]
    rcases List.mem_cons.mp h with rfl | h
    · exact Nat.le_max_left _ _
    · exact le_trans (ih h) (Nat.le_max_right _ _)

/-- A node with a count counts an entry, and at most `cap` of them. -/
def Counts (cap : Int) (it : cache_tree) : Prop :=
  0 ≤ it.entry_count → 1 ≤ it.entry_count ∧ it.entry_count ≤ cap

/-- The nodes that are `d` directories deep at most. Each of the directories can add the `n`
entries of the index to a count. -/
def Bounded (cap n : Nat) : Nat → cache_tree → Prop
  | 0, _ => True
  | d + 1, it =>
    it.Sorted ∧ Counts (cap + n * ↑(d + 1)) it ∧ ∀ sub ∈ it.down, Bounded cap n d sub.2

theorem bounded_new (cap n d : Nat) : Bounded cap n d .new := by
  cases d with
  | zero => trivial
  | succ d => exact ⟨List.Pairwise.nil, by simp [Counts, cache_tree.new], by simp [cache_tree.new]⟩

theorem bounded_of_all {cap : Nat} (n d : Nat) {it : cache_tree}
    (h : it.All fun it => WellNamed it ∧ Counts cap it) : Bounded cap n d it := by
  induction d generalizing it with
  | zero => trivial
  | succ d ih =>
    refine ⟨h.node.1.sorted, fun hcount => ?_, fun sub hsub => ih (h.down sub hsub)⟩
    obtain ⟨hlow, hhigh⟩ := h.node.2 hcount
    refine ⟨hlow, hhigh.trans ?_⟩
    have : (0 : Int) ≤ n * ↑(d + 1) := by positivity
    omega

/-- Nothing wraps in a step that comes to an `int`. -/
theorem next_place_eq {i count : Int} (hi : 0 ≤ i) (hcount : 1 ≤ count)
    (hsum : i + count < 2 ^ 31) : next_place i count = i + count := by
  unfold next_place
  rw [to_int_of_int (n := count - 1) (by omega) (by omega),
    to_int_of_int (n := i + (count - 1)) (by omega) (by omega),
    to_int_of_int (by omega) (by omega)]
  omega

/-! ## The loops of one level -/

/-- A node while its entries are walked over. -/
structure Walking (cap n d : Nat) (it : cache_tree) (used : List Bytes) : Prop where
  sorted : it.Sorted
  bounded : ∀ sub ∈ it.down, Bounded cap n d sub.2
  used : ∀ name ∈ used, ∃ sub, (name, sub) ∈ it.down ∧ 1 ≤ sub.entry_count ∧
    sub.entry_count ≤ cap + n * d

/-- What an update of a node leaves, unless it fails. -/
structure Fits (cap n d : Nat) (r : updated) : Prop where
  bounded : Bounded cap n d r.it
  same : r.it.entry_count = r.count
  low : 1 ≤ r.count
  high : r.count ≤ cap + n * d

/-- The subtree is found or made, and put back with what its update left. -/
theorem Walking.put {cap n d : Nat} {it : cache_tree} {used : List Bytes}
    (h : Walking cap n d it used) (name : Bytes) :
    ∃ sub, find_subtree (create_subtree it name) name = some sub ∧ Bounded cap n d sub ∧
      ∀ r, Fits cap n d r →
        Walking cap n d (set_subtree (create_subtree it name) name r.it) (name :: used) := by
  obtain ⟨sub, hf, horigin, hput⟩ := put_subtree_spec h.sorted name
  refine ⟨sub, hf, ?_, fun r hr => ?_⟩
  · rcases horigin with hin | ⟨rfl, -⟩
    · exact h.bounded _ hin
    · exact bounded_new _ _ _
  · obtain ⟨hs2, -, -, hmem⟩ := hput r.it
    refine ⟨hs2, ?_, ?_⟩
    · intro s hs
      rcases (hmem s).mp hs with rfl | ⟨hs, -⟩
      · exact hr.bounded
      · exact h.bounded s hs
    · intro m hm
      by_cases hne : m = name
      · exact ⟨r.it, (hmem _).mpr (Or.inl (by rw [hne])), hr.same ▸ hr.low, hr.same ▸ hr.high⟩
      · obtain ⟨s, hs, hv⟩ := h.used m ((List.mem_cons.mp hm).resolve_left hne)
        exact ⟨s, (hmem _).mpr (Or.inr ⟨hs, hne⟩), hv⟩

section
variable {cap : Nat} {cache : List cache_entry} {base : Bytes} {enough : Prop} {start : Int}

/-- The entries know the lengths of their names, and no name ends in a slash. -/
structure PlainNames (cache : List cache_entry) : Prop where
  named : ∀ ce ∈ cache, Named ce
  last : ∀ ce ∈ cache, ce.name.getLast? ≠ some SLASH

/-- No sum that an update comes to is too large for an `int`. -/
def Small (cap : Nat) (cache : List cache_entry) : Prop :=
  cap + cache.length * nesting cache < 2 ^ 31

theorem entry_at_inside {pos : Int} (hlow : 0 ≤ pos) (hhigh : pos < cache.length) :
    ∃ ce, entry_at cache pos = some ce ∧ ce ∈ cache := by
  have hlen : pos.toNat < cache.length := by omega
  refine ⟨cache[pos.toNat], ?_, List.getElem_mem hlen⟩
  rw [entry_at, if_pos hlow, List.getElem?_eq_getElem hlen]

theorem inside_of_entry_at {pos : Int} {ce : cache_entry} (h : entry_at cache pos = some ce) :
    0 ≤ pos ∧ pos < cache.length ∧ ce ∈ cache := by
  unfold entry_at at h
  split at h
  · obtain ⟨hlen, -⟩ := List.getElem?_eq_some_iff.mp h
    exact ⟨by assumption, by omega, List.mem_of_getElem? h⟩
  · cases h

theorem count_subdir {name : Bytes} (hname : SLASH ∉ name) :
    (subdir base name).count SLASH = base.count SLASH + 1 := by
  simp [subdir, List.count_append, List.count_eq_zero_of_not_mem hname]

/-- How the nodes of the directories at one depth are updated. -/
def Updates (cap : Nat) (cache : List cache_entry) (d : Nat) (enough : Prop) (update : updater) :
    Prop :=
  ∀ objects it start base ce, entry_at cache start = some ce → Within base ce →
    base.count SLASH + d = nesting cache → Bounded cap cache.length d it →
    Ends enough (fun r => r.count < 0 ∨ Fits cap cache.length d r)
      (update objects it start (cache.length - start) base)

/-- The counts of the nodes below a level stay small, with the entries of the index. -/
theorem sum_small {d : Nat} (hsmall : Small cap cache) (hd : d + 1 ≤ nesting cache) :
    (cache.length : Int) + (cap + cache.length * d) < 2 ^ 31 := by
  unfold Small at hsmall
  have hmul : cache.length * (d + 1) ≤ cache.length * nesting cache := Nat.mul_le_mul_left _ hd
  rw [Nat.mul_succ] at hmul
  have hsum : cache.length + (cap + cache.length * d) < 2 ^ 31 := by omega
  exact_mod_cast hsum

/-- The directory of an entry, one level down. -/
theorem within_subdir {ce : cache_entry} {name : Bytes} (hplain : PlainNames cache)
    (hce : ce ∈ cache) (hwithin : Within base ce)
    (hname : before_slash (ce.name.drop base.length) = some name) :
    Within (subdir base name) ce ∧
      ce.name.take (base.length + name.length + 1) = subdir base name ∧
      (subdir base name).count SLASH = base.count SLASH + 1 := by
  have hsub := hwithin.subdir_of_slash hname (hplain.last ce hce)
  exact ⟨hsub, take_subdir hsub, count_subdir (before_slash_some hname).1⟩

theorem update_subtrees_ends {update : updater} {d : Nat} (hplain : PlainNames cache)
    (hsmall : Small cap cache) (hup : Updates cap cache d enough update)
    (hdepth : base.count SLASH + (d + 1) = nesting cache) (hstart : 0 ≤ start) (turns : Nat) :
    ∀ {i} objects {it used}, 0 ≤ i → Walking cap cache.length d it used →
      Ends (enough ∧ (cache.length - start - i).toNat < turns)
        (fun w => w.subcnt < 0 ∨ Walking cap cache.length d w.it w.used)
        (update_subtrees update cache start (cache.length - start) base turns i objects it used) := by
  have hsum := sum_small hsmall (show d + 1 ≤ nesting cache by omega)
  have hmul : (0 : Int) ≤ cache.length * d := by positivity
  induction turns with
  | zero =>
    intro i objects it used hi h
    exact .running fun hturns => absurd hturns.2 (Nat.not_lt_zero _)
  | succ turns ih =>
    intro i objects it used hi h
    rw [update_subtrees]
    split
    next => exact .returns (Or.inr h)
    next hend =>
      rw [not_not] at hend
      have hlow : 0 ≤ start + i := by omega
      have hinside : start + i < cache.length := by omega
      obtain ⟨ce, hat, hce⟩ := entry_at_inside hlow hinside
      simp only [hat]
      split
      next => exact .returns (Or.inr h)
      next hlevel =>
        rw [Bool.not_eq_true', Bool.not_eq_false, at_level_iff (hplain.named ce hce)] at hlevel
        cases hname : before_slash (ce.name.drop base.length) with
        | none =>
          have hnext : next_place i 1 = i + 1 := next_place_eq hi le_rfl (by omega)
          simp only [hnext]
          refine (ih objects (by omega) h).mono (fun hturns => ⟨hturns.1, ?_⟩) fun w hw => hw
          have := hturns.2
          omega
        | some name =>
          obtain ⟨sub, hfind, hsub, hput⟩ := h.put name
          obtain ⟨hbelow, htake, hslashes⟩ := within_subdir hplain hce hlevel hname
          have hrun := hup objects sub (start + i) _ ce hat hbelow (by omega) hsub
          rw [← htake, show (cache.length : Int) - (start + i) = cache.length - start - i by omega]
            at hrun
          simp only [hfind]
          cases hr : update objects sub (start + i) (cache.length - start - i)
              (ce.name.take (base.length + name.length + 1)) with
          | none =>
            rw [hr] at hrun
            cases hrun with
            | running henough => exact .running fun hturns => henough hturns.1
          | some r =>
            rw [hr] at hrun
            cases hrun with
            | dies => exact .dies
            | @returns r hfits =>
              by_cases hfails : r.count < 0
              · simp only [hfails, if_true]
                exact .returns (Or.inl hfails)
              · have hfits := hfits.resolve_left hfails
                have hnext : next_place i r.count = i + r.count := by
                  have := hfits.high
                  exact next_place_eq hi hfits.low (by omega)
                simp only [hfails, if_false, hnext]
                have := hfits.low
                refine (ih r.objects (by omega) (hput r hfits)).mono
                  (fun hturns => ⟨hturns.1, ?_⟩) fun w hw => hw
                have := hturns.2
                omega

/-- A node whose subtrees were all updated. -/
structure Updated (cap n d : Nat) (it : cache_tree) : Prop where
  sorted : it.Sorted
  bounded : ∀ sub ∈ it.down, Bounded cap n d sub.2
  low : ∀ sub ∈ it.down, 1 ≤ sub.2.entry_count
  high : ∀ sub ∈ it.down, sub.2.entry_count ≤ cap + n * d

theorem Walking.discard {n d : Nat} {it : cache_tree} {used : List Bytes}
    (h : Walking cap n d it used) : Updated cap n d (discard_unused_subtrees it used) := by
  have hmem : ∀ sub ∈ (discard_unused_subtrees it used).down, sub ∈ it.down ∧
      1 ≤ sub.2.entry_count ∧ sub.2.entry_count ≤ cap + n * d := by
    intro sub hsub
    obtain ⟨hin, hused⟩ := List.mem_filter.mp hsub
    obtain ⟨s, hs, hcounts⟩ := h.used sub.1 (of_decide_eq_true hused)
    have hsame : sub = (sub.1, s) := h.sorted.eq_of_key hin hs (subtree_key_eq.mpr rfl)
    rw [hsame]
    exact ⟨hs, hcounts⟩
  exact ⟨Ascends.sublist h.sorted List.filter_sublist, fun s hs => h.bounded s (hmem s hs).1,
    fun s hs => (hmem s hs).2.1, fun s hs => (hmem s hs).2.2⟩

theorem line_of_count {n d : Nat} {it : cache_tree} {ce : cache_entry} {line : tree_line}
    (h : Updated cap n d it) (hline : line_of base it ce = some line) :
    1 ≤ line.entry_count ∧ line.entry_count ≤ 1 + (cap + n * d) := by
  have hmul : (0 : Int) ≤ n * d := by positivity
  unfold line_of at hline
  split at hline
  · cases hline
    exact ⟨le_rfl, by simp only; omega⟩
  · obtain ⟨sub, hfind, heq⟩ := Option.map_eq_some_iff.mp hline
    have hsub := (find_subtree_mem h.sorted).mp hfind
    cases heq
    have hlow := h.low _ hsub
    have hhigh := h.high _ hsub
    exact ⟨hlow, by simp only at hhigh ⊢; omega⟩

/-- The count of a level is behind `i`, and behind the first entry of its directory. -/
structure Written (cap d : Nat) (cache : List cache_entry) (start : Int) (base : Bytes)
    (i count : Int) : Prop where
  low : i ≤ count
  high : count ≤ cap + cache.length * ↑(d + 1)
  first : ∀ ce, entry_at cache (start + i) = some ce → Within base ce → i < count

theorem write_level_ends {d : Nat} {it : cache_tree} (hplain : PlainNames cache)
    (hsmall : Small cap cache) (hdepth : base.count SLASH + (d + 1) = nesting cache)
    (hstart : 0 ≤ start) (h : Updated cap cache.length d it) (missing_ok : Bool)
    (objects : object_store) (turns : Nat) :
    ∀ {i : Int} (buffer : Bytes), 0 ≤ i → i ≤ cap + cache.length * ↑(d + 1) →
      Ends ((cache.length - start - i).toNat < turns)
        (fun w => ∀ l, w = some l → Written cap d cache start base i l.2)
        (write_level missing_ok objects cache start (cache.length - start) base it turns i
          buffer) := by
  have hsum := sum_small hsmall (show d + 1 ≤ nesting cache by omega)
  have hmul : (0 : Int) ≤ cache.length * d := by positivity
  have hmost : (cap : Int) + cache.length * ↑(d + 1) = cache.length + (cap + cache.length * d) := by
    push_cast
    ring
  rw [hmost]
  induction turns with
  | zero =>
    intro i buffer hi hhigh
    exact .running fun hturns => absurd hturns (Nat.not_lt_zero _)
  | succ turns ih =>
    intro i buffer hi hhigh
    rw [write_level]
    split
    next hend =>
      refine .returns fun l hl => ?_
      cases hl
      refine ⟨le_rfl, hmost ▸ hhigh, fun ce hat _ => ?_⟩
      have := (inside_of_entry_at hat).2.1
      omega
    next hend =>
      rw [not_not] at hend
      have hlow : 0 ≤ start + i := by omega
      have hinside : start + i < cache.length := by omega
      obtain ⟨ce, hat, hce⟩ := entry_at_inside hlow hinside
      simp only [hat]
      split
      next hlevel =>
        rw [Bool.not_eq_true', ← Bool.not_eq_true, at_level_iff (hplain.named ce hce)] at hlevel
        refine .returns fun l hl => ?_
        cases hl
        refine ⟨le_rfl, hmost ▸ hhigh, fun ce' hat' hwithin => ?_⟩
        rw [hat] at hat'
        cases hat'
        exact absurd hwithin hlevel
      next hlevel =>
        cases hline : line_of base it ce with
        | none => exact .dies
        | some line =>
          obtain ⟨hlow, hcount⟩ := line_of_count h hline
          simp only
          split
          next => exact .returns fun l hl => by cases hl
          next =>
            have hnext : next_place i line.entry_count = i + line.entry_count :=
              next_place_eq hi hlow (by omega)
            rw [hnext]
            refine (ih _ (by omega) (by omega)).mono (fun hturns => by omega) fun w hw l hl => ?_
            have hl := hw l hl
            have := hl.low
            exact ⟨by omega, hl.high, fun _ _ _ => by omega⟩

/-! ## The levels -/

theorem update_level_ends (env : write_tree_env) {update : updater} {d : Nat}
    (objects : object_store) {it : cache_tree} (hplain : PlainNames cache)
    (hsmall : Small cap cache) (hup : Updates cap cache d enough update)
    (hdepth : base.count SLASH + (d + 1) = nesting cache) (hstart : 0 ≤ start)
    (h : Walking cap cache.length d it []) (turns : Nat) :
    Ends (enough ∧ cache.length < turns)
      (fun r => r.count < 0 ∨ Updated cap cache.length d r.it ∧ r.it.entry_count = r.count ∧
        Written cap d cache start base 0 r.count)
      (update_level env cache turns update objects it start (cache.length - start) base) := by
  have hwalk := update_subtrees_ends hplain hsmall hup hdepth hstart turns objects le_rfl h
  unfold update_level
  cases hw : update_subtrees update cache start (cache.length - start) base turns 0 objects it []
    with
  | none =>
    rw [hw] at hwalk
    cases hwalk with
    | running henough => exact .running fun hturns => henough ⟨hturns.1, by omega⟩
  | some w =>
    rw [hw] at hwalk
    cases hwalk with
    | dies => exact .dies
    | @returns w hwalked =>
      by_cases hfails : w.subcnt < 0
      · simp only [hfails, if_true]
        exact .returns (Or.inl hfails)
      · have hupdated := (hwalked.resolve_left hfails).discard
        have hwrite := write_level_ends hplain hsmall hdepth hstart hupdated env.missing_ok
          w.objects turns [] le_rfl (by positivity)
        simp only [hfails, if_false]
        cases hl : write_level env.missing_ok w.objects cache start (cache.length - start) base
            (discard_unused_subtrees w.it w.used) turns 0 [] with
        | none =>
          rw [hl] at hwrite
          cases hwrite with
          | running henough => exact .running fun hturns => henough (by omega)
        | some l =>
          rw [hl] at hwrite
          cases hwrite with
          | dies => exact .dies
          | @returns l hwritten =>
            cases l with
            | none => exact .returns (Or.inl neg_one_lt_zero)
            | some l =>
              refine .returns ?_
              have hwritten := hwritten l rfl
              unfold finish_level
              split
              next => exact Or.inr ⟨⟨hupdated.1, hupdated.2, hupdated.3, hupdated.4⟩, rfl, hwritten⟩
              next =>
                split
                next => exact Or.inr ⟨⟨hupdated.1, hupdated.2, hupdated.3, hupdated.4⟩, rfl, hwritten⟩
                next => exact Or.inl neg_one_lt_zero

/-- The name of an entry has a slash for each level above it. -/
theorem level_pos {d : Nat} {ce : cache_entry} (hat : entry_at cache start = some ce)
    (hwithin : Within base ce) (hdepth : base.count SLASH + d = nesting cache) : 0 < d := by
  have hslashes : base.count SLASH ≤ ce.name.count SLASH := hwithin.1.sublist.count_le SLASH
  have := count_lt_nesting (inside_of_entry_at hat).2.2
  omega

theorem update_one_updates (env : write_tree_env) (hplain : PlainNames cache)
    (hsmall : Small cap cache) (turns depth d : Nat) :
    Updates cap cache d (d ≤ depth ∧ cache.length < turns) (update_one env cache turns depth) := by
  induction depth generalizing d with
  | zero =>
    intro objects it start base ce hat hwithin hdepth h
    have hpos := level_pos hat hwithin hdepth
    exact .running fun henough => by omega
  | succ depth ih =>
    intro objects it start base ce hat hwithin hdepth h
    obtain ⟨hstart, -, hce⟩ := inside_of_entry_at hat
    obtain ⟨d, rfl⟩ := Nat.exists_eq_add_of_lt (level_pos hat hwithin hdepth)
    rw [Nat.zero_add] at hdepth h ⊢
    obtain ⟨hsorted, hcounts, hdown⟩ := h
    rw [update_one]
    split
    next hreuse =>
      obtain ⟨hlow, hhigh⟩ := hcounts hreuse.1
      exact .returns (Or.inr ⟨⟨hsorted, hcounts, hdown⟩, rfl, hlow, hhigh⟩)
    next =>
      refine (update_level_ends env objects hplain hsmall (ih d) hdepth hstart
        ⟨hsorted, hdown, by simp⟩ turns).mono
        (fun henough => ⟨⟨by omega, henough.2⟩, henough.2⟩) fun r hr => ?_
      refine hr.imp_right ?_
      rintro ⟨hupdated, hsame, hwritten⟩
      have hlow : 1 ≤ r.count := hwritten.first ce (by rwa [Int.add_zero]) hwithin
      exact ⟨⟨hupdated.sorted, fun _ => hsame ▸ ⟨hlow, hwritten.high⟩, hupdated.bounded⟩, hsame, hlow,
        hwritten.high⟩

end

/-! ## Trees from an index file -/

/-- A way to read nodes, all of which have names without a NUL. -/
def ReadsNames (read : reader) : Prop :=
  ∀ buf size it buf' size', read buf size = .node it buf' size' → it.All WellNamed

theorem read_subtrees_names {read : reader} (hread : ReadsNames read) {subtree_nr : Nat} :
    ∀ {it buf size it' buf' size'}, it.All WellNamed →
      read_subtrees read subtree_nr it buf size = .node it' buf' size' → it'.All WellNamed := by
  induction subtree_nr with
  | zero =>
    intro it buf size it' buf' size' h hrun
    cases hrun
    exact h
  | succ subtree_nr ih =>
    intro it buf size it' buf' size' h hrun
    rw [read_subtrees] at hrun
    cases hsub : read buf size with
    | node sub buf1 size1 =>
      rw [hsub] at hrun
      have hname : (0 : UInt8) ∉ buf.takeWhile (· != 0) := by
        intro hmem
        have := List.mem_takeWhile_imp hmem
        simp at this
      exact ih ((h.create hname).1.set _ (hread _ _ _ _ _ hsub)) hrun
    | null =>
      rw [hsub] at hrun
      cases hrun
    | dies =>
      rw [hsub] at hrun
      cases hrun

theorem read_down_names {read : reader} (hread : ReadsNames read) (entry_count : Int) (sha1 : Sha1)
    (subtree_nr : Int) : ReadsNames (read_down read entry_count sha1 subtree_nr) := by
  intro buf size it buf' size' hrun
  unfold read_down at hrun
  have hempty : (cache_tree.mk entry_count sha1 []).All WellNamed :=
    all_of_members List.Pairwise.nil (by simp)
  split at hrun
  next it1 buf1 size1 hsubs =>
    split at hrun
    · cases hrun
    · cases hrun
      exact read_subtrees_names hread hempty hsubs
  next => cases hrun
  next => cases hrun

theorem read_sha1_names {read : reader} (hread : ReadsNames read) (entry_count subtree_nr : Int) :
    ReadsNames (read_sha1 read entry_count subtree_nr) := by
  intro buf size it buf' size' hrun
  unfold read_sha1 at hrun
  split at hrun
  · split at hrun
    · cases hrun
    · split at hrun
      · cases hrun
      · exact read_down_names hread _ _ _ _ _ _ _ _ hrun
  · exact read_down_names hread _ _ _ _ _ _ _ _ hrun

theorem read_one_names (depth : Nat) : ReadsNames (read_one depth) := by
  induction depth with
  | zero =>
    intro buf size it buf' size' hrun
    cases hrun
  | succ depth ih =>
    intro buf size it buf' size' hrun
    rw [read_one] at hrun
    repeat (split at hrun; · cases hrun)
    exact read_sha1_names ih _ _ _ _ _ _ _ hrun

theorem cache_tree_read_names {buffer rest : Bytes} {size left : Nat} {it : cache_tree}
    (h : cache_tree_read buffer size = .node it rest left) : it.All WellNamed := by
  unfold cache_tree_read at h
  split at h
  · cases h
  · exact read_one_names _ _ _ _ _ _ h

/-! ## Results -/

/-- With enough turns the update comes to its end, and with any number of them it reads no entry
outside of the array. -/
def StaysInside (env : write_tree_env) (objects : object_store) (it : cache_tree)
    (cache : List cache_entry) : Prop :=
  (∃ turns depth r, cache_tree_update env turns depth objects it cache = some r) ∧
    ∀ turns depth, cache_tree_update env turns depth objects it cache ≠ some .outside

/-- The nodes below the root with a count count an entry, and at most `cap` of them. -/
def CountsBelow (cap : Nat) (it : cache_tree) : Prop :=
  ∀ sub ∈ it.down, sub.2.All (Counts cap)

theorem update_one_ends (env : write_tree_env) {cap : Nat} {cache : List cache_entry}
    {it : cache_tree} (objects : object_store) (hplain : PlainNames cache)
    (hsmall : Small cap cache) (hnames : it.All WellNamed) (hcounts : CountsBelow cap it)
    (turns depth : Nat) :
    Ends (nesting cache ≤ depth ∧ cache.length < turns) (fun _ => True)
      (update_one env cache turns depth objects it 0 cache.length []) := by
  cases depth with
  | zero => exact .running fun henough => absurd henough.1 (Nat.not_succ_le_zero _)
  | succ depth =>
    rw [update_one]
    split
    next => exact .returns trivial
    next =>
      have hdown : ∀ sub ∈ it.down, Bounded cap cache.length (nesting cache - 1) sub.2 :=
        fun sub hsub => bounded_of_all _ _ ((hnames.down sub hsub).and (hcounts sub hsub))
      have hone : 1 ≤ nesting cache := Nat.succ_pos _
      have hroot : ([] : Bytes).count SLASH + (nesting cache - 1 + 1) = nesting cache := by
        rw [List.count_nil]
        omega
      have h := update_level_ends env objects hplain hsmall
        (update_one_updates env hplain hsmall turns depth (nesting cache - 1)) hroot le_rfl ⟨hnames.node.sorted, hdown, by simp⟩ turns
      rw [Int.sub_zero] at h
      exact h.mono (fun henough => ⟨⟨by omega, henough.2⟩, henough.2⟩) fun _ _ => trivial

/-- A root without a count, with a subtree `a` that counts an entry. -/
def one_count : Bytes :=
  [0, 45, 49, 32, 49, 10] ++ [97, 0, 49, 32, 48, 10] ++ List.replicate 20 0

def one_count_tree : cache_tree :=
  .mk (-1) (Vector.replicate 20 0) [([97], .mk 1 (Vector.replicate 20 0) [])]

/-- A root without a count, with a subtree `a` that counts nothing. -/
def zero_count : Bytes :=
  [0, 45, 49, 32, 49, 10] ++ [97, 0, 48, 32, 48, 10] ++ List.replicate 20 0

def zero_count_tree : cache_tree :=
  .mk (-1) (Vector.replicate 20 0) [([97], .mk 0 (Vector.replicate 20 0) [])]

theorem read_zero_count : cache_tree_read zero_count zero_count.length = .node zero_count_tree [] 0 := by
  rfl

/-- The walk stays at the entry `a/b`, whose subtree says that it counts no entry. -/
theorem update_subtrees_stays (turns depth steps : Nat) (used : List Bytes) :
    update_subtrees (update_one full_env [file_a_b 0] turns depth) [file_a_b 0] 0 1 [] steps 0
      (fun _ => true) zero_count_tree used = none := by
  induction steps generalizing used with
  | zero => rfl
  | succ steps ih =>
    cases depth with
    | zero => rfl
    | succ depth => exact ih ([97] :: used)

end git.index_places
