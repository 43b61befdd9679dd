-- The walk over several trees calls once for each name: in the order of tree objects nothing
-- that can be found is given up, and what was returned early is not returned again.
import Git.TraverseTrees

namespace git.tree_walk

/-! ## The order of tree objects -/

theorem name_compare_compares (a b : Bytes) : (name_compare a b).Compares a b :=
  memcmp_compares a b

theorem name_compare_eq {a b : Bytes} : name_compare a b = .eq ↔ a = b :=
  (name_compare_compares a b).eq_eq

theorem name_compare_self (a : Bytes) : name_compare a a = .eq := name_compare_eq.mpr rfl

theorem check_entry_match_eq {a b : Bytes} : check_entry_match a b = .eq ↔ a = b := by
  unfold check_entry_match
  cases h : name_compare a b with
  | eq => exact iff_of_true rfl (name_compare_eq.mp h)
  | gt =>
    refine iff_of_false (fun heq => nomatch heq) fun heq => ?_
    rw [name_compare_eq.mpr heq] at h
    cases h
  | lt =>
    refine iff_of_false (fun heq => ?_) fun heq => ?_
    · simp only at heq
      split_ifs at heq
    · rw [name_compare_eq.mpr heq] at h
      cases h

theorem name_compare_cons (c : UInt8) (a b : Bytes) :
    name_compare (c :: a) (c :: b) = name_compare a b := by
  unfold name_compare
  simp [memcmp]

theorem check_entry_match_cons (c : UInt8) (a b : Bytes) :
    check_entry_match (c :: a) (c :: b) = check_entry_match a b := by
  unfold check_entry_match
  rw [name_compare_cons]
  simp [memcmp]

theorem slash_le {c : UInt8} (h : below_slash c = false) : SLASH ≤ c := by
  unfold below_slash BitVec.slt at h
  rw [decide_eq_false_iff_not, BitVec.toInt_eq_toNat_cond, BitVec.toInt_eq_toNat_cond] at h
  rw [UInt8.le_iff_toNat_le]
  have hslash : SLASH.toBitVec.toNat = 47 := rfl
  have hbyte : c.toBitVec.toNat = c.toNat := rfl
  have hlt := c.toNat_lt
  rw [hslash, hbyte] at h
  show 47 ≤ c.toNat
  split_ifs at h <;> omega

/-- What is behind an entry in a tree object is not given up at it. -/
theorem keeps_looking {a b : Bytes} {amode bmode : BitVec 32} (hb : SLASH ∉ b)
    (hb0 : (0 : UInt8) ∉ b)
    (h : base_name_compare b b.length bmode a a.length amode = .lt) :
    check_entry_match a b ≠ .lt := by
  induction a generalizing b with
  | nil =>
    cases b with
    | nil => decide
    | cons c b =>
      intro hlt
      have hc : below_slash c = false := by
        unfold check_entry_match at hlt
        have hless : name_compare [] (c :: b) = .lt := by simp [name_compare, memcmp]
        simp only [hless, List.length_nil, List.length_cons, Nat.zero_lt_succ, memcmp,
          List.getElem?_cons_zero, Option.getD_some, true_and] at hlt
        split_ifs at hlt with hbelow
        exact Bool.eq_false_iff.mpr hbelow
      have hbyte : byte_after (c :: b) 0 bmode = c :=
        byte_after_cons b bmode fun heq => hb0 (heq ▸ List.mem_cons_self)
      have hslash : byte_after [] 0 amode ≤ SLASH := by
        rw [byte_after_nil]
        split_ifs <;> decide
      have hnot : ¬ c < byte_after [] 0 amode := not_lt.mpr (hslash.trans (slash_le hc))
      unfold base_name_compare at h
      simp only [List.length_nil, Nat.min_zero, memcmp, ne_eq, not_true_eq_false, if_false, hbyte,
        hnot] at h
      split_ifs at h
  | cons x a ih =>
    cases b with
    | nil =>
      have hgt : name_compare (x :: a) [] = .gt := by simp [name_compare, memcmp]
      unfold check_entry_match
      rw [hgt]
      intro heq
      cases heq
    | cons y b =>
      rcases lt_trichotomy x y with hxy | rfl | hxy
      · simp [base_name_compare, memcmp, hxy, not_lt_of_gt hxy] at h
      · rw [base_name_compare_cons] at h
        rw [check_entry_match_cons]
        exact ih (fun hm => hb (List.mem_cons_of_mem _ hm))
          (fun hm => hb0 (List.mem_cons_of_mem _ hm)) h
      · have hgt : name_compare (x :: a) (y :: b) = .gt := by
          simp [name_compare, memcmp, hxy, not_lt_of_gt hxy]
        unfold check_entry_match
        rw [hgt]
        intro heq
        cases heq

/-! ## The entries of a tree -/

/-- Lines of a tree object: in its order, and each name once. -/
structure Lines (items : List tree_item) : Prop where
  canonical : Canonical items
  names : (items.map tree_item.name).Nodup
  no_slash : ∀ x ∈ items, SLASH ∉ x.name
  no_nul : ∀ x ∈ items, (0 : UInt8) ∉ x.name

/-- Entries in the order of a tree object, each name and each place once. -/
structure Entries (l : tree_desc) : Prop where
  looking : l.Pairwise fun b a => check_entry_match a.name b.name = .gt
  paths : l.Pairwise fun b a => b.path ≠ a.path

theorem init_tree_desc_mem {items : List tree_item} {buffer : Nat} {e : name_entry}
    (h : e ∈ init_tree_desc buffer items) :
    buffer < e.path ∧ ∃ x ∈ items, e.name = x.name ∧ e.mode = x.mode := by
  induction items generalizing buffer with
  | nil => cases h
  | cons x items ih =>
    rcases List.mem_cons.mp h with rfl | h
    · exact ⟨Nat.lt_succ_of_le (Nat.le_add_right _ _), x, List.mem_cons_self, rfl, rfl⟩
    · obtain ⟨hlt, y, hy, hsame⟩ := ih h
      exact ⟨by omega, y, List.mem_cons_of_mem x hy, hsame⟩

theorem Lines.entries {items : List tree_item} (h : Lines items) (buffer : Nat) :
    Entries (init_tree_desc buffer items) := by
  induction items generalizing buffer with
  | nil => exact ⟨List.Pairwise.nil, List.Pairwise.nil⟩
  | cons x items ih =>
    obtain ⟨hfirst, hcanonical⟩ := List.pairwise_cons.mp h.canonical
    have hnames := h.names
    rw [List.map_cons, List.nodup_cons] at hnames
    have hrest := ih ⟨hcanonical, hnames.2, fun y hy => h.no_slash y (List.mem_cons_of_mem x hy),
      fun y hy => h.no_nul y (List.mem_cons_of_mem x hy)⟩
      (buffer + (tree_entry x.mode x.name x.sha1).length)
    refine ⟨List.pairwise_cons.mpr ⟨fun e he => ?_, hrest.looking⟩,
      List.pairwise_cons.mpr ⟨fun e he => ?_, hrest.paths⟩⟩
    · obtain ⟨-, y, hy, hname, hmode⟩ := init_tree_desc_mem he
      have hne : y.name ≠ x.name := fun heq => hnames.1 (heq ▸ List.mem_map_of_mem hy)
      rw [hname]
      cases hmatch : check_entry_match y.name x.name with
      | lt =>
        exact absurd hmatch (keeps_looking (h.no_slash x List.mem_cons_self)
          (h.no_nul x List.mem_cons_self) (hfirst y hy))
      | eq => exact absurd (check_entry_match_eq.mp hmatch) hne
      | gt => rfl
    · obtain ⟨hlt, -⟩ := init_tree_desc_mem he
      have hlength : (octal x.mode).length + 1 ≤ (tree_entry x.mode x.name x.sha1).length := by
        unfold tree_entry
        simp
      simp only
      omega

theorem Entries.names {l : tree_desc} (h : Entries l) {a b : name_entry} (ha : a ∈ l) (hb : b ∈ l)
    (hname : a.name = b.name) : a = b := by
  have hnodup : (l.map name_entry.name).Nodup := by
    rw [List.Nodup, List.pairwise_map]
    refine h.looking.imp fun hmatch heq => ?_
    rw [check_entry_match_eq.mpr heq.symm] at hmatch
    cases hmatch
  exact List.inj_on_of_nodup_map hnodup ha hb hname

theorem Entries.places {l : tree_desc} (h : Entries l) {a b : name_entry} (ha : a ∈ l) (hb : b ∈ l)
    (hpath : a.path = b.path) : a = b := by
  have hnodup : (l.map name_entry.path).Nodup := by
    rw [List.Nodup, List.pairwise_map]
    exact h.paths
  exact List.inj_on_of_nodup_map hnodup ha hb hpath

/-! ## Looking for a name -/

theorem look_ahead_some {first : Bytes} {l : tree_desc} {e : name_entry}
    (h : look_ahead first l = some e) : e ∈ l ∧ e.name = first := by
  induction l with
  | nil => cases h
  | cons b l ih =>
    unfold look_ahead at h
    cases hmatch : check_entry_match first b.name with
    | lt =>
      rw [hmatch] at h
      cases h
    | eq =>
      rw [hmatch] at h
      cases h
      exact ⟨List.mem_cons_self, (check_entry_match_eq.mp hmatch).symm⟩
    | gt =>
      rw [hmatch] at h
      obtain ⟨hmem, hname⟩ := ih h
      exact ⟨List.mem_cons_of_mem b hmem, hname⟩

/-- A name that is there is found, whatever is before it. -/
theorem look_ahead_finds {l : tree_desc} {e : name_entry}
    (h : l.Pairwise fun b a => check_entry_match a.name b.name = .gt) (he : e ∈ l) :
    look_ahead e.name l = some e := by
  induction l with
  | nil => cases he
  | cons b l ih =>
    obtain ⟨hfirst, hrest⟩ := List.pairwise_cons.mp h
    unfold look_ahead
    rcases List.mem_cons.mp he with rfl | he
    · rw [check_entry_match_eq.mpr rfl]
    · rw [hfirst e he]
      exact ih hrest he

/-- Where there is a name to look for, the current entry is looked at as the others are. -/
theorem extract_first (t : tree_desc_x) (first : Bytes) :
    extended_entry_extract t (some first) =
      (skip_returned t, look_ahead first (skip_returned t).d) := by
  unfold extended_entry_extract
  simp only
  cases (skip_returned t).d with
  | nil => rfl
  | cons a l =>
    simp only [look_ahead]
    cases check_entry_match first a.name <;> rfl

theorem extract_current (t : tree_desc_x) :
    extended_entry_extract t none = (skip_returned t, (skip_returned t).d.head?) := by
  unfold extended_entry_extract
  simp only
  cases (skip_returned t).d <;> rfl

/-! ## What is left of a tree -/

/-- Of the tree `l` all entries but those with the names `visited` are left. -/
structure Left (l : tree_desc) (visited : List Bytes) (t : tree_desc_x) : Prop where
  gone : ∃ gone, l = gone ++ t.d ∧ ∀ e ∈ gone, e.name ∈ visited
  skip : ∀ e ∈ t.d, e.path ∈ t.skip ↔ e.name ∈ visited

variable {l : tree_desc} {visited : List Bytes} {t : tree_desc_x}

theorem Left.start (l : tree_desc) : Left l [] ⟨l, []⟩ :=
  ⟨⟨[], rfl, fun _ h => nomatch h⟩, fun _ _ => iff_of_false List.not_mem_nil List.not_mem_nil⟩

theorem Left.sub (h : Left l visited t) : ∀ e ∈ t.d, e ∈ l := by
  obtain ⟨gone, hl, -⟩ := h.gone
  exact fun e he => hl ▸ List.mem_append_right gone he

theorem Left.mem (h : Left l visited t) {e : name_entry} (he : e ∈ l) (hname : e.name ∉ visited) :
    e ∈ t.d := by
  obtain ⟨gone, rfl, hgone⟩ := h.gone
  exact (List.mem_append.mp he).resolve_left fun hmem => hname (hgone e hmem)

theorem Left.skip_returned (h : Left l visited t) : Left l visited (tree_walk.skip_returned t) := by
  obtain ⟨gone, hl, hgone⟩ := h.gone
  have hsplit := List.takeWhile_append_dropWhile (p := fun a : name_entry => a.path ∈ t.skip)
    (l := t.d)
  refine ⟨⟨gone ++ t.d.takeWhile fun a => a.path ∈ t.skip, ?_, ?_⟩, fun e he => ?_⟩
  · rw [List.append_assoc]
    exact hl.trans (congrArg (gone ++ ·) hsplit.symm)
  · intro e he
    rcases List.mem_append.mp he with he | he
    · exact hgone e he
    · have hskip := List.mem_takeWhile_imp he
      exact (h.skip e (List.takeWhile_subset _ he)).mp (of_decide_eq_true hskip)
  · exact h.skip e (List.dropWhile_subset _ he)

/-- The current entry was not returned yet. -/
theorem Left.current (h : Left l visited t) {e : name_entry}
    (he : (tree_walk.skip_returned t).d.head? = some e) : e ∈ l ∧ e.name ∉ visited := by
  have hnot := List.head?_dropWhile_not (fun a : name_entry => decide (a.path ∈ t.skip)) t.d
  have hhead : (t.d.dropWhile fun a => decide (a.path ∈ t.skip)).head? = some e := he
  rw [hhead] at hnot
  have hmem := List.dropWhile_subset _ (List.mem_of_mem_head? hhead)
  refine ⟨h.sub e hmem, fun hvisited => ?_⟩
  have hskip := (h.skip e hmem).mpr hvisited
  simp [hskip] at hnot

/-- When there is no current entry, all were returned. -/
theorem Left.finished (h : Left l visited t) (hnone : (tree_walk.skip_returned t).d.head? = none) :
    ∀ e ∈ l, e.name ∈ visited := by
  intro e he
  by_contra hname
  have hmem := h.skip_returned.mem he hname
  rw [List.head?_eq_none_iff] at hnone
  rw [hnone] at hmem
  cases hmem

/-- An entry that was not returned yet is found by its name. -/
theorem Left.found (h : Left l visited t) (hl : Entries l) {first : Bytes}
    (hfirst : first ∉ visited) (e : name_entry) :
    (extended_entry_extract t (some first)).2 = some e ↔ e ∈ l ∧ e.name = first := by
  rw [extract_first]
  have hleft := h.skip_returned
  constructor
  · intro hfound
    obtain ⟨hmem, hname⟩ := look_ahead_some hfound
    exact ⟨hleft.sub e hmem, hname⟩
  · rintro ⟨he, rfl⟩
    obtain ⟨gone, hgone, -⟩ := hleft.gone
    have hpairs := hl.looking
    rw [hgone, List.pairwise_append] at hpairs
    exact look_ahead_finds hpairs.2.1 (hleft.mem he hfirst)

/-- The entry is returned, early or not. -/
theorem Left.update (h : Left l visited t) (hl : Entries l) {a : name_entry} (ha : a ∈ l)
    (hnew : a.name ∉ visited) : Left l (a.name :: visited) (update_extended_entry t a) := by
  have hmem := h.mem ha hnew
  unfold update_extended_entry
  split_ifs with hhead
  · obtain ⟨b, hb, hpath⟩ := Option.map_eq_some_iff.mp hhead
    have hd : t.d = b :: t.d.tail := (List.cons_head?_tail hb).symm
    have hbmem : b ∈ t.d := List.mem_of_mem_head? hb
    obtain rfl : b = a := hl.places (h.sub b hbmem) ha hpath
    obtain ⟨gone, hgone, hvisited⟩ := h.gone
    refine ⟨⟨gone ++ [b], ?_, ?_⟩, fun e he => ?_⟩
    · rw [List.append_assoc, List.singleton_append]
      exact hgone.trans (congrArg (gone ++ ·) hd)
    · intro e he
      rcases List.mem_append.mp he with he | he
      · exact List.mem_cons_of_mem _ (hvisited e he)
      · rw [List.mem_singleton.mp he]
        exact List.mem_cons_self
    · have hpaths := hl.paths
      rw [hgone, List.pairwise_append, hd, List.pairwise_cons] at hpaths
      have hne : e.name ≠ b.name := by
        intro heq
        have hsame := hl.names (h.sub e (List.mem_of_mem_tail he)) ha heq
        exact hpaths.2.1.1 e he (by rw [hsame])
      rw [h.skip e (List.mem_of_mem_tail he), List.mem_cons, or_iff_right hne]
  · refine ⟨?_, fun e he => ?_⟩
    · obtain ⟨gone, hgone, hvisited⟩ := h.gone
      exact ⟨gone, hgone, fun e he => List.mem_cons_of_mem _ (hvisited e he)⟩
    · rw [List.mem_cons, List.mem_cons, h.skip e he]
      refine or_congr_left ⟨fun hpath => ?_, fun hname => ?_⟩
      · rw [hl.places (h.sub e he) ha hpath]
      · rw [hl.names (h.sub e he) ha hname]

/-- A name that the tree does not have. -/
theorem Left.other (h : Left l visited t) {name : Bytes} (hname : ∀ e ∈ l, e.name ≠ name) :
    Left l (name :: visited) t := by
  obtain ⟨gone, hgone, hvisited⟩ := h.gone
  refine ⟨⟨gone, hgone, fun e he => List.mem_cons_of_mem _ (hvisited e he)⟩, fun e he => ?_⟩
  rw [h.skip e he, List.mem_cons, or_iff_right (hname e (h.sub e he))]

end git.tree_walk
