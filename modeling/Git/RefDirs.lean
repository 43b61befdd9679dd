-- The trees of references: which ones are well formed, which references are in them, and what
-- reading, sorting, searching and adding do to them.
import Git.ForEachRef
import Git.ResolveUndo
import Git.Lib.Listing

namespace git.for_each_ref

open git.refname (check_refname_format)
open bsearch (Ascends search_spec)

/-! ## Well formed trees -/

/-- An entry of the directory of this name. Names of directories end with a slash, names of
references do not, and what is behind the name of the directory has no other one. -/
inductive Good : Bytes → ref_entry → Prop where
  | value {dirname c name : Bytes} {u : ref_value} (hname : name = dirname ++ c)
      (hc : SLASH ∉ c) : Good dirname (.value name u)
  | subdir {dirname c name : Bytes} {u : ref_dir ref_entry}
      (hname : name = dirname ++ c ++ [SLASH]) (hc : SLASH ∉ c)
      (hentries : ∀ e ∈ u.entries, Good name e)
      (hdistinct : u.entries.Pairwise (fun e e' => e.name ≠ e'.name))
      (hle : u.sorted ≤ u.entries.length)
      (hsorted : u.sorted = u.entries.length → Ascends ref_entry.name u.entries) :
      Good dirname (.subdir name u)
  | incomplete {dirname c name : Bytes} {nodes : List node}
      (hname : name = dirname ++ c ++ [SLASH]) (hc : SLASH ∉ c)
      (hslash : ∀ de ∈ nodes, SLASH ∉ de.d_name)
      (hdistinct : nodes.Pairwise (fun de de' => de.d_name ≠ de'.d_name))
      (hfile : ∀ d_name, node.file d_name ∈ nodes → skipped d_name = false →
        check_refname_format (name ++ d_name) ⟨true, false, true⟩ = true)
      (hdir : ∀ d_name below, node.directory d_name below ∈ nodes → skipped d_name = false →
        Good name (.incomplete (name ++ d_name ++ [SLASH]) below)) :
      Good dirname (.incomplete name nodes)

/-- The directory of this name: its entries are its own, no two of them have one name, and the
sorted ones are. -/
structure GoodDir (dirname : Bytes) (u : ref_dir ref_entry) : Prop where
  entries : ∀ e ∈ u.entries, Good dirname e
  distinct : u.entries.Pairwise (fun e e' => e.name ≠ e'.name)
  sorted_le : u.sorted ≤ u.entries.length
  ascends : u.sorted = u.entries.length → Ascends ref_entry.name u.entries

/-- The references of which there are files below a directory of the disk. -/
inductive Loose : Bytes → List node → Bytes → Prop where
  | file {dirname d_name : Bytes} {nodes : List node} (hmem : node.file d_name ∈ nodes)
      (hskip : skipped d_name = false) : Loose dirname nodes (dirname ++ d_name)
  | directory {dirname d_name refname : Bytes} {below nodes : List node}
      (hmem : node.directory d_name below ∈ nodes) (hskip : skipped d_name = false)
      (hbelow : Loose (dirname ++ d_name ++ [SLASH]) below refname) : Loose dirname nodes refname

/-- The references of an entry, with their values. -/
inductive Holds (w : surroundings) : ref_entry → Bytes × ref_value → Prop where
  | value (name : Bytes) (u : ref_value) : Holds w (.value name u) (name, u)
  | subdir {name : Bytes} {u : ref_dir ref_entry} {e : ref_entry} {p : Bytes × ref_value}
      (he : e ∈ u.entries) (hp : Holds w e p) : Holds w (.subdir name u) p
  | incomplete {name refname : Bytes} {nodes : List node} (h : Loose name nodes refname) :
      Holds w (.incomplete name nodes) (refname, loose_value w refname)

def HoldsIn (w : surroundings) (entries : List ref_entry) (p : Bytes × ref_value) : Prop :=
  ∃ e ∈ entries, Holds w e p

variable {w : surroundings} {dirname : Bytes} {e e' : ref_entry} {p q : Bytes × ref_value}

theorem holdsIn_nil (p : Bytes × ref_value) : ¬ HoldsIn w [] p := by simp [HoldsIn]

theorem holdsIn_cons (e : ref_entry) (es : List ref_entry) (p : Bytes × ref_value) :
    HoldsIn w (e :: es) p ↔ Holds w e p ∨ HoldsIn w es p := by simp [HoldsIn]

theorem holdsIn_append (es es' : List ref_entry) (p : Bytes × ref_value) :
    HoldsIn w (es ++ es') p ↔ HoldsIn w es p ∨ HoldsIn w es' p := by
  simp only [HoldsIn, List.mem_append, or_and_right, exists_or]

theorem holds_value_iff (name : Bytes) (u : ref_value) (p : Bytes × ref_value) :
    Holds w (.value name u) p ↔ p = (name, u) := by
  constructor
  · rintro ⟨⟩
    rfl
  · rintro rfl
    exact Holds.value name u

theorem holds_subdir_iff (name : Bytes) (u : ref_dir ref_entry) (p : Bytes × ref_value) :
    Holds w (.subdir name u) p ↔ HoldsIn w u.entries p := by
  constructor
  · rintro (_ | ⟨he, hp⟩)
    exact ⟨_, he, hp⟩
  · rintro ⟨e, he, hp⟩
    exact Holds.subdir he hp

theorem holds_incomplete_iff (name : Bytes) (nodes : List node) (p : Bytes × ref_value) :
    Holds w (.incomplete name nodes) p ↔
      Loose name nodes p.1 ∧ p.2 = loose_value w p.1 := by
  constructor
  · rintro (_ | _ | h)
    exact ⟨h, rfl⟩
  · obtain ⟨refname, u⟩ := p
    rintro ⟨h, hu⟩
    obtain rfl : u = loose_value w refname := hu
    exact Holds.incomplete h

theorem GoodDir.subdir {name c : Bytes} {u : ref_dir ref_entry} (h : GoodDir name u)
    (hname : name = dirname ++ c ++ [SLASH]) (hc : SLASH ∉ c) : Good dirname (.subdir name u) :=
  Good.subdir hname hc h.entries h.distinct h.sorted_le h.ascends

theorem goodDir_empty (dirname : Bytes) : GoodDir dirname ⟨[], 0⟩ where
  entries := by simp
  distinct := List.Pairwise.nil
  sorted_le := le_refl 0
  ascends _ := List.Pairwise.nil

/-! ## Names -/

/-- An entry is a reference with a name without a slash, or a directory with one. -/
theorem Good.shape (h : Good dirname e) : ∃ c, SLASH ∉ c ∧
    ((e.name = dirname ++ c ∧ ∃ u, e = .value e.name u) ∨
      (e.name = dirname ++ c ++ [SLASH] ∧ ∀ name u, e ≠ .value name u)) := by
  cases h with
  | value hname hc => exact ⟨_, hc, Or.inl ⟨hname, _, rfl⟩⟩
  | subdir hname hc => exact ⟨_, hc, Or.inr ⟨hname, by simp⟩⟩
  | incomplete hname hc => exact ⟨_, hc, Or.inr ⟨hname, by simp⟩⟩

theorem Good.dirname_prefix (h : Good dirname e) : dirname <+: e.name := by
  obtain ⟨c, -, ⟨hname, -⟩ | ⟨hname, -⟩⟩ := h.shape
  · exact ⟨c, hname.symm⟩
  · exact ⟨c ++ [SLASH], by rw [hname, List.append_assoc]⟩

theorem loose_prefix {nodes : List node} {refname : Bytes} (h : Loose dirname nodes refname) :
    dirname <+: refname := by
  induction h with
  | file => exact List.prefix_append _ _
  | directory _ _ _ ih => exact ((List.prefix_append _ _).trans (List.prefix_append _ _)).trans ih

/-- The name of an entry is in front of the names of its references. -/
theorem Good.name_prefix (h : Good dirname e) (hp : Holds w e p) : e.name <+: p.1 := by
  induction hp generalizing dirname with
  | value => exact List.prefix_refl _
  | subdir he _ ih =>
    cases h with
    | subdir _ _ hentries =>
      have hchild := hentries _ he
      exact hchild.dirname_prefix.trans (ih hchild)
  | incomplete hloose => exact loose_prefix hloose

/-- A slash ends the first component. -/
theorem component_eq {c c' r r' : Bytes} (hc : SLASH ∉ c) (hc' : SLASH ∉ c')
    (h : c ++ SLASH :: r = c' ++ SLASH :: r') : c = c' ∧ r = r' := by
  have htake := congrArg (List.takeWhile (· != SLASH)) h
  have hall : ∀ {d : Bytes}, SLASH ∉ d → ∀ x ∈ d, (x != SLASH) = true := by
    intro d hd x hx
    exact bne_iff_ne.mpr (fun heq => hd (heq ▸ hx))
  rw [List.takeWhile_append_of_pos (hall hc), List.takeWhile_append_of_pos (hall hc'),
    List.takeWhile_cons_of_neg (by simp), List.takeWhile_cons_of_neg (by simp),
    List.append_nil, List.append_nil] at htake
  subst htake
  exact ⟨rfl, (List.cons.inj (List.append_cancel_left h)).2⟩

/-- A name without a slash has no name of a directory in front. -/
theorem not_dir_prefix {c c' : Bytes} (hc' : SLASH ∉ c') :
    ¬ dirname ++ c ++ [SLASH] <+: dirname ++ c' := by
  rintro ⟨r, hr⟩
  rw [List.append_assoc, List.append_assoc, List.append_cancel_left_eq] at hr
  exact hc' (hr ▸ by simp)

theorem dir_prefix_iff {c c' r : Bytes} (hc : SLASH ∉ c) (hc' : SLASH ∉ c') :
    dirname ++ c ++ [SLASH] <+: dirname ++ c' ++ [SLASH] ++ r ↔ c = c' := by
  constructor
  · rintro ⟨s, hs⟩
    simp only [List.append_assoc, List.append_cancel_left_eq, List.cons_append, List.nil_append]
      at hs
    exact (component_eq hc hc' hs).1
  · rintro rfl
    exact List.prefix_append _ _

/-- What stands below an entry comes before what stands below a later one. -/
theorem holds_lt (h : Good dirname e) (h' : Good dirname e') (hp : Holds w e p)
    (hq : Holds w e' q) (hlt : e.name < e'.name) : p.1 < q.1 := by
  have hle : e'.name ≤ q.1 := list_order.le_of_prefix ( h'.name_prefix hq)
  obtain ⟨r, hr⟩ := h.name_prefix hp
  obtain ⟨c, hc, ⟨-, u, he⟩ | ⟨hname, -⟩⟩ := h.shape
  · rw [he, holds_value_iff] at hp
    exact hp ▸ lt_of_lt_of_le hlt hle
  · -- The name of a directory is in front of no other name of an entry.
    have hno : ¬ e.name <+: e'.name := by
      obtain ⟨c', hc', ⟨hname', -⟩ | ⟨hname', -⟩⟩ := h'.shape
      · rw [hname, hname']
        exact not_dir_prefix hc'
      · intro hpre
        rw [hname, hname', ← List.append_nil (dirname ++ c' ++ [SLASH]),
          dir_prefix_iff hc hc'] at hpre
        rw [hname, hname', hpre] at hlt
        exact absurd hlt (lt_irrefl _)
    rw [← hr]
    exact lt_of_lt_of_le (list_order.append_lt_of_lt r hlt hno) hle

/-! ## Reading -/

/-- The entry that a file or a directory of the disk becomes. -/
def read_entry (w : surroundings) (dirname : Bytes) (de : node) : Option ref_entry :=
  if skipped de.d_name then none
  else
    match de with
    | .unreadable _ => none
    | .directory d_name below => some (.incomplete (dirname ++ d_name ++ [SLASH]) below)
    | .file d_name => some (.value (dirname ++ d_name) (loose_value w (dirname ++ d_name)))

theorem read_loose_refs_eq {nodes : List node}
    (hfile : ∀ d_name, node.file d_name ∈ nodes → skipped d_name = false →
      check_refname_format (dirname ++ d_name) ⟨true, false, true⟩ = true)
    (dir : ref_dir ref_entry) : read_loose_refs w dirname nodes dir =
      some { dir with entries := dir.entries ++ nodes.filterMap (read_entry w dirname) } := by
  induction nodes generalizing dir with
  | nil => simp [read_loose_refs]
  | cons de nodes ih =>
    have ih := ih (fun d_name hmem => hfile d_name (List.mem_cons_of_mem _ hmem))
    by_cases hskip : skipped de.d_name = true
    · rw [read_loose_refs.eq_def]
      simp [hskip, ih, read_entry]
    · rw [Bool.not_eq_true] at hskip
      cases de with
      | unreadable d_name =>
        rw [read_loose_refs.eq_def]
        simp [read_entry, ih]
      | directory d_name below =>
        have hskip' : skipped d_name = false := hskip
        rw [read_loose_refs.eq_def]
        simp [read_entry, ih, add_entry_to_dir, node.d_name, hskip']
      | file d_name =>
        have hskip' : skipped d_name = false := hskip
        have hvalid := hfile d_name List.mem_cons_self hskip
        rw [read_loose_refs.eq_def]
        simp [read_entry, ih, add_entry_to_dir, node.d_name, hskip', create_ref_entry, hvalid]

theorem read_entry_eq_some_iff (de : node) (e : ref_entry) :
    read_entry w dirname de = some e ↔ skipped de.d_name = false ∧
      ((∃ d_name, de = .file d_name ∧
          e = .value (dirname ++ d_name) (loose_value w (dirname ++ d_name))) ∨
        ∃ d_name below, de = .directory d_name below ∧
          e = .incomplete (dirname ++ d_name ++ [SLASH]) below) := by
  unfold read_entry
  cases h : skipped de.d_name <;> cases de <;> simp [eq_comm]

/-- The entries of one directory have other names than each other. -/
theorem read_entry_name_ne {de de' : node} (hde : SLASH ∉ de.d_name) (hde' : SLASH ∉ de'.d_name)
    (hne : de.d_name ≠ de'.d_name) (he : read_entry w dirname de = some e)
    (he' : read_entry w dirname de' = some e') : e.name ≠ e'.name := by
  rw [read_entry_eq_some_iff] at he he'
  obtain ⟨-, ⟨d, rfl, rfl⟩ | ⟨d, below, rfl, rfl⟩⟩ := he <;>
    obtain ⟨-, ⟨d', rfl, rfl⟩ | ⟨d', below', rfl, rfl⟩⟩ := he' <;>
    simp only [ref_entry.name, node.d_name, List.append_assoc, ne_eq,
      List.append_cancel_left_eq] at hde hde' hne ⊢
  · exact hne
  · rintro rfl
    simp at hde
  · rintro rfl
    simp at hde'
  · exact fun h => hne (List.append_cancel_right h)

/-- A directory that is read is as good as it was, and has the references that it had. -/
theorem get_ref_dir_spec (h : Good dirname e) (hdir : ∀ name u, e ≠ .value name u) :
    ∃ u, get_ref_dir w e = some u ∧ GoodDir e.name u ∧
      ∀ p, HoldsIn w u.entries p ↔ Holds w e p := by
  cases h with
  | value => exact absurd rfl (hdir _ _)
  | subdir hname hc hentries hdistinct hle hsorted =>
    exact ⟨_, rfl, ⟨hentries, hdistinct, hle, hsorted⟩, fun p => (holds_subdir_iff _ _ p).symm⟩
  | @incomplete _ _ name nodes hname hc hslash hdistinct hfile hbelow =>
    refine ⟨⟨nodes.filterMap (read_entry w name), 0⟩, ?_, ⟨?_, ?_, Nat.zero_le _, ?_⟩, ?_⟩
    · rw [get_ref_dir, read_loose_refs_eq hfile, List.nil_append]
    · intro e he
      obtain ⟨de, hde, hread⟩ := List.mem_filterMap.mp he
      rw [read_entry_eq_some_iff] at hread
      obtain ⟨hskip, ⟨d, rfl, rfl⟩ | ⟨d, below, rfl, rfl⟩⟩ := hread
      · exact Good.value rfl (hslash _ hde)
      · exact hbelow d below hde hskip
    · rw [List.pairwise_filterMap]
      refine List.Pairwise.imp_of_mem ?_ hdistinct
      intro de de' hde hde' hne e he e' he'
      exact read_entry_name_ne (hslash de hde) (hslash de' hde') hne he he'
    · intro hlen
      rw [List.length_eq_zero_iff.mp hlen.symm]
      exact List.Pairwise.nil
    · intro p
      rw [holds_incomplete_iff]
      constructor
      · rintro ⟨e, he, hp⟩
        obtain ⟨de, hde, hread⟩ := List.mem_filterMap.mp he
        rw [read_entry_eq_some_iff] at hread
        obtain ⟨hskip, ⟨d, rfl, rfl⟩ | ⟨d, below, rfl, rfl⟩⟩ := hread
        · rw [holds_value_iff] at hp
          exact hp ▸ ⟨Loose.file hde hskip, rfl⟩
        · rw [holds_incomplete_iff] at hp
          exact ⟨Loose.directory hde hskip hp.1, hp.2⟩
      · obtain ⟨refname, v⟩ := p
        rintro ⟨hloose, hv⟩
        obtain rfl : v = loose_value w refname := hv
        cases hloose with
        | file hmem hskip =>
          exact ⟨_, List.mem_filterMap.mpr ⟨_, hmem, (read_entry_eq_some_iff _ _).mpr
            ⟨hskip, Or.inl ⟨_, rfl, rfl⟩⟩⟩, Holds.value _ _⟩
        | directory hmem hskip hbelow =>
          exact ⟨_, List.mem_filterMap.mpr ⟨_, hmem, (read_entry_eq_some_iff _ _).mpr
            ⟨hskip, Or.inr ⟨_, _, rfl, rfl⟩⟩⟩, Holds.incomplete hbelow⟩

/-- The induction over a tree as a walk goes down in it: a directory comes after the entries that
it is read into. -/
theorem Good.walk {motive : Bytes → ref_entry → Prop} (w : surroundings)
    (value : ∀ dirname name u, Good dirname (.value name u) → motive dirname (.value name u))
    (dir : ∀ dirname e u, Good dirname e → (∀ name u, e ≠ .value name u) →
      get_ref_dir w e = some u → (∀ e' ∈ u.entries, motive e.name e') → motive dirname e)
    (h : Good dirname e) : motive dirname e := by
  induction h with
  | value hname hc => exact value _ _ _ (Good.value hname hc)
  | subdir hname hc hentries hdistinct hle hsorted ih =>
    exact dir _ _ _ (Good.subdir hname hc hentries hdistinct hle hsorted) (by simp) rfl ih
  | @incomplete _ _ name nodes hname hc hslash hdistinct hfile hbelow ih =>
    refine dir _ _ ⟨nodes.filterMap (read_entry w name), 0⟩
      (Good.incomplete hname hc hslash hdistinct hfile hbelow) (by simp) ?_ ?_
    · rw [get_ref_dir, read_loose_refs_eq hfile, List.nil_append]
    · intro e he
      obtain ⟨de, hde, hread⟩ := List.mem_filterMap.mp he
      rw [read_entry_eq_some_iff] at hread
      obtain ⟨hskip, ⟨d, rfl, rfl⟩ | ⟨d, below, rfl, rfl⟩⟩ := hread
      · exact value _ _ _ (Good.value rfl (hslash _ hde))
      · exact ih d below hde hskip

/-! ## Sorting -/

theorem strcmp_eq_iff (a b : Bytes) : strcmp a b = .eq ↔ a = b := (strcmp_compares a b).eq_eq

theorem strcmp_lt_iff (a b : Bytes) : strcmp a b = .lt ↔ a < b := (strcmp_compares a b).eq_lt

theorem strcmp_gt_iff (a b : Bytes) : strcmp a b = .gt ↔ b < a := (strcmp_compares a b).eq_gt

/-- Where no two entries have one name, there is nothing to remove. -/
theorem remove_duplicates_eq {last : Option ref_entry} {es : List ref_entry}
    (hlast : ∀ e ∈ last, ∀ e' ∈ es, e.name ≠ e'.name)
    (hdistinct : es.Pairwise (fun e e' => e.name ≠ e'.name)) :
    remove_duplicates last es = some es := by
  induction es generalizing last with
  | nil => rfl
  | cons entry es ih =>
    obtain ⟨hentry, hes⟩ := List.pairwise_cons.mp hdistinct
    have hrest : remove_duplicates (some entry) es = some es :=
      ih (by simpa using hentry) hes
    cases last with
    | none => simp [remove_duplicates, hrest]
    | some e =>
      have hne : strcmp e.name entry.name ≠ .eq := by
        rw [ne_eq, strcmp_eq_iff]
        exact hlast e rfl entry List.mem_cons_self
      simp [remove_duplicates, is_dup_ref, hne, hrest]

theorem ref_entry_cmp_le (one two : ref_entry) :
    (ref_entry_cmp one two != .gt) = true ↔ one.name ≤ two.name := by
  rw [bne_iff_ne, ref_entry_cmp, ne_eq, strcmp_gt_iff, not_lt]

/-- A directory that is sorted has its entries in the order of their names. -/
theorem sort_ref_dir_spec {u : ref_dir ref_entry} (h : GoodDir dirname u) :
    ∃ u', sort_ref_dir u = some u' ∧ u'.entries.Perm u.entries ∧
      Ascends ref_entry.name u'.entries ∧ u'.sorted = u'.entries.length := by
  unfold sort_ref_dir
  split
  · next hsorted => exact ⟨u, rfl, List.Perm.refl _, h.ascends hsorted, hsorted⟩
  · have hperm := List.mergeSort_perm u.entries (fun one two => ref_entry_cmp one two != .gt)
    have hdistinct := (hperm.pairwise_iff (fun hne => Ne.symm hne)).mpr h.distinct
    have hle : (u.entries.mergeSort (fun one two => ref_entry_cmp one two != .gt)).Pairwise
        (fun one two => (ref_entry_cmp one two != .gt) = true) := by
      refine List.pairwise_mergeSort ?_ ?_ u.entries
      · intro a b c hab hbc
        rw [ref_entry_cmp_le] at *
        exact hab.trans hbc
      · intro a b
        rw [Bool.or_eq_true, ref_entry_cmp_le, ref_entry_cmp_le]
        exact le_total _ _
    rw [remove_duplicates_eq (by simp) hdistinct]
    refine ⟨_, rfl, hperm, ?_, rfl⟩
    refine List.Pairwise.imp ?_ (hle.and hdistinct)
    rintro a b ⟨hab, hne⟩
    exact lt_of_le_of_ne ((ref_entry_cmp_le a b).mp hab) hne

theorem holdsIn_perm {es es' : List ref_entry} (h : es.Perm es') (p : Bytes × ref_value) :
    HoldsIn w es p ↔ HoldsIn w es' p := by simp only [HoldsIn, h.mem_iff]

theorem distinct_of_ascends {es : List ref_entry} (h : Ascends ref_entry.name es) :
    es.Pairwise (fun e e' => e.name ≠ e'.name) := List.Pairwise.imp (fun hlt => ne_of_lt hlt) h

/-- Sorting keeps a directory good. -/
theorem GoodDir.of_sorted {u u' : ref_dir ref_entry} (h : GoodDir dirname u)
    (hperm : u'.entries.Perm u.entries) (hasc : Ascends ref_entry.name u'.entries)
    (hsorted : u'.sorted = u'.entries.length) : GoodDir dirname u' where
  entries e he := h.entries e (hperm.mem_iff.mp he)
  distinct := distinct_of_ascends hasc
  sorted_le := hsorted.le
  ascends _ := hasc

/-! ## Searching -/

/-- The directory comes back with the entries that it had, and the entry is found or is not in
it. -/
theorem search_ref_dir_spec {u : ref_dir ref_entry} (h : GoodDir dirname u) (refname : Bytes) :
    ∃ u' pos, search_ref_dir u refname = some (u', pos) ∧ GoodDir dirname u' ∧
      u'.entries.Perm u.entries ∧
      ((∃ pre e post, pos = .found pre.length ∧ u'.entries = pre ++ e :: post ∧
          e.name = refname) ∨
        ∃ i, pos = .absent i ∧ ∀ e ∈ u.entries, e.name ≠ refname) := by
  unfold search_ref_dir
  split
  · next hnil => exact ⟨u, _, rfl, h, List.Perm.refl _, Or.inr ⟨0, rfl, by simp [hnil]⟩⟩
  · obtain ⟨u', hsort, hperm, hasc, hsorted⟩ := sort_ref_dir_spec h
    rw [hsort]
    refine ⟨u', _, rfl, h.of_sorted hperm hasc hsorted, hperm, ?_⟩
    rcases search_spec hasc (fun e _ => strcmp_compares refname e.name) with
      ⟨pre, e, post, heq, hpos, hname⟩ | ⟨pre, post, heq, hpos, hpre, hpost⟩
    · exact Or.inl ⟨pre, e, post, hpos, heq, hname⟩
    · refine Or.inr ⟨pre.length, hpos, ?_⟩
      intro e he
      rw [← hperm.mem_iff, heq, List.mem_append] at he
      rcases he with he | he
      · exact (hpre e he).ne
      · exact (hpost e he).ne'

end git.for_each_ref
