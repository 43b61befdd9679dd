-- What `do_for_each_ref` calls: each reference under the base once, in the order of the names,
-- with the loose value where a name is in both stores.
import Git.RefDirsAdd
import Git.Lib.Turns

namespace git.for_each_ref

open git.refs (ref_flag null_sha1)
open git.refname (check_refname_format LOCK)
open git.packed_refs (packed_entry)
open bsearch (Ascends)
open listing (Lists)
open turns (Ends)

variable {w : surroundings} {dirname : Bytes} {e e1 e2 : ref_entry}
  {es es1 es2 : List ref_entry} {p q : Bytes × ref_value}

/-! ## Walks -/

def call {σ : Type} (w : surroundings) (each : each_ref σ) (p : Bytes × ref_value) :
    σ → Int × σ := do_one_ref w each p.1 p.2

/-- With enough turns it comes to one call for each of the references that `S` holds of, in the
order of their names, up to a call that stops it. -/
def Walks (w : surroundings)
    (run : (σ : Type) → each_ref σ → Nat → σ → Option (Int × σ))
    (S : Bytes × ref_value → Prop) : Prop :=
  ∃ calls, Lists Prod.fst S calls ∧ ∀ (σ : Type) (each : each_ref σ) (cb_data : σ),
    Ends (fun turns => run σ each turns cb_data) (listing.each (call w each) calls cb_data)

section

variable {run first rest : (σ : Type) → each_ref σ → Nat → σ → Option (Int × σ)}
  {S T U : Bytes × ref_value → Prop}

theorem Walks.congr (h : Walks w run S) (hst : ∀ p, S p ↔ T p) : Walks w run T := by
  obtain ⟨calls, hlists, hends⟩ := h
  exact ⟨calls, hlists.congr hst, hends⟩

theorem Walks.of_eq (h : Walks w first S)
    (hrun : ∀ σ each turns cb_data, run σ each turns cb_data = first σ each turns cb_data) :
    Walks w run S := by
  obtain rfl : run = first := by
    funext σ each turns cb_data
    exact hrun σ each turns cb_data
  exact h

/-- One more turn around it. -/
theorem Walks.step (h : Walks w first S)
    (hrun : ∀ σ each turns cb_data, run σ each (turns + 1) cb_data = first σ each turns cb_data) :
    Walks w run S := by
  obtain ⟨calls, hlists, hends⟩ := h
  exact ⟨calls, hlists, fun σ each cb_data =>
    Ends.step (fun turns => hrun σ each turns cb_data) (hends σ each cb_data)⟩

theorem Walks.nil (hS : ∀ p, ¬ S p)
    (hrun : ∀ σ each turns cb_data, run σ each (turns + 1) cb_data = some (0, cb_data)) :
    Walks w run S :=
  ⟨[], Lists.nil hS, fun σ each cb_data =>
    Ends.step (fun turns => hrun σ each turns cb_data) (Ends.const _)⟩

theorem Walks.one (name : Bytes) (u : ref_value) :
    Walks w (fun _ each _ cb_data => some (do_one_ref w each name u cb_data))
      (· = (name, u)) := by
  refine ⟨[(name, u)], Lists.singleton _, ?_⟩
  intro σ each cb_data
  rw [listing.each_singleton]
  exact Ends.const _

/-- One walk before another one. -/
theorem Walks.append (hfirst : Walks w first S) (hrest : Walks w rest T)
    (hlt : ∀ p q, S p → T q → p.1 < q.1) (hU : ∀ p, U p ↔ S p ∨ T p)
    (hrun : ∀ σ each turns cb_data, run σ each (turns + 1) cb_data =
      (first σ each turns cb_data).bind (fun res => unless_stopped res (rest σ each turns))) :
    Walks w run U := by
  obtain ⟨calls, hlists, hends⟩ := hfirst
  obtain ⟨calls', hlists', hends'⟩ := hrest
  refine ⟨calls ++ calls', (hlists.append hlists' hlt).congr (fun p => (hU p).symm), ?_⟩
  intro σ each cb_data
  refine Ends.step (fun turns => hrun σ each turns cb_data) ?_
  refine Ends.bind (hends σ each cb_data) ?_
  rw [listing.each_append]
  unfold unless_stopped
  split
  · exact Ends.const _
  · exact hends' σ each _

end

/-! ## One directory -/

theorem holds_before (he : Good dirname e) (hes : ∀ e' ∈ es, Good dirname e')
    (hlt : ∀ e' ∈ es, e.name < e'.name) (hp : Holds w e p) (hq : HoldsIn w es q) : p.1 < q.1 := by
  obtain ⟨e', he', hq⟩ := hq
  exact holds_lt he (hes e' he') hp hq (hlt e' he')

/-- The walk into an entry. -/
def InEntry (w : surroundings) (e : ref_entry) : Prop :=
  Walks w (fun _ each turns cb_data =>
    do_one_entry w each (do_for_each_ref_in_dir w each turns) e cb_data) (Holds w e)

theorem in_dir_walks (hgood : ∀ e ∈ es, Good dirname e) (hasc : Ascends ref_entry.name es)
    (hin : ∀ e ∈ es, InEntry w e) :
    Walks w (fun _ each turns cb_data => do_for_each_ref_in_dir w each turns es cb_data)
      (HoldsIn w es) := by
  induction es with
  | nil => exact Walks.nil holdsIn_nil (fun _ _ _ _ => rfl)
  | cons e es ih =>
    obtain ⟨hlt, hasc⟩ := List.pairwise_cons.mp hasc
    obtain ⟨he, hgood⟩ := List.forall_mem_cons.mp hgood
    obtain ⟨hin, hins⟩ := List.forall_mem_cons.mp hin
    exact Walks.append hin (ih hgood hasc hins) (fun p q => holds_before he hgood hlt)
      (holdsIn_cons e es) (fun _ _ _ _ => rfl)

theorem Good.in_entry (w : surroundings) (h : Good dirname e) : InEntry w e := by
  refine Good.walk (motive := fun _ e => InEntry w e) w ?_ ?_ h
  · intro dirname name u h
    exact (Walks.one name u).congr (fun p => (holds_value_iff name u p).symm)
  · intro dirname e u h hdir hget ih
    obtain ⟨u', hget', hgood, hholds⟩ := get_ref_dir_spec (w := w) h hdir
    obtain rfl : u = u' := Option.some.inj (hget.symm.trans hget')
    obtain ⟨s, hsort, hperm, hasc, -⟩ := sort_ref_dir_spec hgood
    have hwalk := in_dir_walks (fun e' he' => hgood.entries e' (hperm.mem_iff.mp he')) hasc
      (fun e' he' => ih e' (hperm.mem_iff.mp he'))
    refine (hwalk.congr (fun p => (holdsIn_perm hperm p).trans (hholds p))).of_eq ?_
    intro σ each turns cb_data
    cases e with
    | value name v => exact absurd rfl (hdir name v)
    | subdir => simp [do_one_entry, hget, hsort]
    | incomplete => simp [do_one_entry, hget, hsort]

/-! ## Two directories -/

/-- The references of the second directory, and those of the first one that the second has no
value for. -/
def Merged (w : surroundings) (es1 es2 : List ref_entry) (p : Bytes × ref_value) : Prop :=
  HoldsIn w es2 p ∨ HoldsIn w es1 p ∧ ∀ v, ¬ HoldsIn w es2 (p.1, v)

theorem merged_nil_left (p : Bytes × ref_value) : HoldsIn w es2 p ↔ Merged w [] es2 p := by
  simp [Merged, holdsIn_nil]

theorem merged_nil_right (p : Bytes × ref_value) : HoldsIn w es1 p ↔ Merged w es1 [] p := by
  simp [Merged, holdsIn_nil]

theorem merged_cons_left (h : ∀ p q, Holds w e1 p → HoldsIn w es2 q → p.1 < q.1)
    (p : Bytes × ref_value) : Merged w (e1 :: es1) es2 p ↔ Holds w e1 p ∨ Merged w es1 es2 p := by
  have hno : Holds w e1 p → ∀ v, ¬ HoldsIn w es2 (p.1, v) :=
    fun hp v hv => (h _ _ hp hv).ne rfl
  simp only [Merged, holdsIn_cons]
  tauto

theorem merged_cons_right (h : ∀ p q, Holds w e2 p → HoldsIn w es1 q → p.1 < q.1)
    (p : Bytes × ref_value) : Merged w es1 (e2 :: es2) p ↔ Holds w e2 p ∨ Merged w es1 es2 p := by
  have hno : HoldsIn w es1 p → ∀ v, ¬ Holds w e2 (p.1, v) :=
    fun hp v hv => (h _ _ hv hp).ne rfl
  simp only [Merged, holdsIn_cons, not_or, forall_and]
  tauto

theorem merged_cons_both (h1 : ∀ p q, Holds w e1 p → HoldsIn w es2 q → p.1 < q.1)
    (h2 : ∀ p q, Holds w e2 p → HoldsIn w es1 q → p.1 < q.1) (p : Bytes × ref_value) :
    Merged w (e1 :: es1) (e2 :: es2) p ↔ Merged w [e1] [e2] p ∨ Merged w es1 es2 p := by
  have hno1 : Holds w e1 p → ∀ v, ¬ HoldsIn w es2 (p.1, v) :=
    fun hp v hv => (h1 _ _ hp hv).ne rfl
  have hno2 : HoldsIn w es1 p → ∀ v, ¬ Holds w e2 (p.1, v) :=
    fun hp v hv => (h2 _ _ hv hp).ne rfl
  simp only [Merged, holdsIn_cons, holdsIn_nil, or_false, not_or, forall_and]
  tauto

theorem merged_lt {p' q' : Bytes × ref_value}
    (h11 : ∀ p q, Holds w e1 p → HoldsIn w es1 q → p.1 < q.1)
    (h12 : ∀ p q, Holds w e1 p → HoldsIn w es2 q → p.1 < q.1)
    (h21 : ∀ p q, Holds w e2 p → HoldsIn w es1 q → p.1 < q.1)
    (h22 : ∀ p q, Holds w e2 p → HoldsIn w es2 q → p.1 < q.1)
    (hp : Merged w [e1] [e2] p') (hq : Merged w es1 es2 q') : p'.1 < q'.1 := by
  simp only [Merged, holdsIn_cons, holdsIn_nil, or_false] at hp hq
  rcases hp with hp | ⟨hp, -⟩ <;> rcases hq with hq | ⟨hq, -⟩
  · exact h22 _ _ hp hq
  · exact h21 _ _ hp hq
  · exact h12 _ _ hp hq
  · exact h11 _ _ hp hq

theorem lt_of_holds_merged (h1 : ∀ p q, Holds w e p → HoldsIn w es1 q → p.1 < q.1)
    (h2 : ∀ p q, Holds w e p → HoldsIn w es2 q → p.1 < q.1) (hp : Holds w e p)
    (hq : Merged w es1 es2 q) : p.1 < q.1 := by
  rcases hq with hq | ⟨hq, -⟩
  · exact h2 _ _ hp hq
  · exact h1 _ _ hp hq

/-- The walk into two entries of one name. -/
def InBoth (w : surroundings) (dirname : Bytes) (e1 : ref_entry) : Prop :=
  ∀ e2, Good dirname e2 → e1.name = e2.name →
    Walks w (fun _ each turns cb_data =>
      do_both_entries w each (do_for_each_ref_in_dirs w each turns) e1 e2 cb_data)
      (Merged w [e1] [e2])

theorem in_dirs_walks (hgood1 : ∀ e ∈ es1, Good dirname e) (hasc1 : Ascends ref_entry.name es1)
    (hgood2 : ∀ e ∈ es2, Good dirname e) (hasc2 : Ascends ref_entry.name es2)
    (hboth : ∀ e ∈ es1, InBoth w dirname e) :
    Walks w (fun _ each turns cb_data => do_for_each_ref_in_dirs w each turns es1 es2 cb_data)
      (Merged w es1 es2) := by
  induction es1 generalizing es2 with
  | nil =>
    have hwalk := in_dir_walks hgood2 hasc2 (fun e he => (hgood2 e he).in_entry w)
    exact (hwalk.step (fun _ _ _ _ => rfl)).congr merged_nil_left
  | cons e1 es1 ih1 =>
    induction es2 with
    | nil =>
      have hwalk := in_dir_walks hgood1 hasc1 (fun e he => (hgood1 e he).in_entry w)
      exact (hwalk.step (fun _ _ _ _ => rfl)).congr merged_nil_right
    | cons e2 es2 ih2 =>
      obtain ⟨hlt1, hrest1⟩ := List.pairwise_cons.mp hasc1
      obtain ⟨he1, hes1⟩ := List.forall_mem_cons.mp hgood1
      obtain ⟨hlt2, hrest2⟩ := List.pairwise_cons.mp hasc2
      obtain ⟨he2, hes2⟩ := List.forall_mem_cons.mp hgood2
      obtain ⟨hin, hins⟩ := List.forall_mem_cons.mp hboth
      rcases lt_trichotomy e1.name e2.name with hlt | heq | hgt
      · -- The entry of the first directory is before all the others.
        have hall : ∀ e' ∈ e2 :: es2, e1.name < e'.name :=
          List.forall_mem_cons.mpr ⟨hlt, fun e' he' => hlt.trans (hlt2 e' he')⟩
        refine Walks.append (he1.in_entry w) (ih1 hes1 hrest1 hgood2 hasc2 hins) ?_
          (merged_cons_left (fun p q => holds_before he1 hgood2 hall)) ?_
        · exact fun p q => lt_of_holds_merged (fun p q => holds_before he1 hes1 hlt1)
            (fun p q => holds_before he1 hgood2 hall)
        · intro σ each turns cb_data
          rw [do_for_each_ref_in_dirs, (strcmp_lt_iff _ _).mpr hlt]
          rfl
      · have hall1 : ∀ e' ∈ es2, e1.name < e'.name := fun e' he' => heq ▸ hlt2 e' he'
        have hall2 : ∀ e' ∈ es1, e2.name < e'.name := fun e' he' => heq ▸ hlt1 e' he'
        refine Walks.append (hin e2 he2 heq) (ih1 hes1 hrest1 hes2 hrest2 hins) ?_
          (merged_cons_both (fun p q => holds_before he1 hes2 hall1)
            (fun p q => holds_before he2 hes1 hall2)) ?_
        · exact fun p q => merged_lt (fun p q => holds_before he1 hes1 hlt1)
            (fun p q => holds_before he1 hes2 hall1) (fun p q => holds_before he2 hes1 hall2)
            (fun p q => holds_before he2 hes2 hlt2)
        · intro σ each turns cb_data
          rw [do_for_each_ref_in_dirs, (strcmp_eq_iff _ _).mpr heq]
          rfl
      · have hall : ∀ e' ∈ e1 :: es1, e2.name < e'.name :=
          List.forall_mem_cons.mpr ⟨hgt, fun e' he' => hgt.trans (hlt1 e' he')⟩
        refine Walks.append (he2.in_entry w) (ih2 hes2 hrest2) ?_
          (merged_cons_right (fun p q => holds_before he2 hgood1 hall)) ?_
        · exact fun p q => lt_of_holds_merged (fun p q => holds_before he2 hgood1 hall)
            (fun p q => holds_before he2 hes2 hlt2)
        · intro σ each turns cb_data
          rw [do_for_each_ref_in_dirs, (strcmp_gt_iff _ _).mpr hgt]
          rfl

theorem merged_congr {es1' es2' : List ref_entry} (h1 : ∀ p, HoldsIn w es1 p ↔ HoldsIn w es1' p)
    (h2 : ∀ p, HoldsIn w es2 p ↔ HoldsIn w es2' p) (p : Bytes × ref_value) :
    Merged w es1 es2 p ↔ Merged w es1' es2' p := by simp only [Merged, h1, h2]

theorem holdsIn_singleton (e : ref_entry) (p : Bytes × ref_value) :
    HoldsIn w [e] p ↔ Holds w e p := by simp [HoldsIn]

theorem Good.in_both (w : surroundings) (h : Good dirname e) : InBoth w dirname e := by
  refine Good.walk (motive := fun dirname e => InBoth w dirname e) w ?_ ?_ h
  · intro dirname name u h e2 h2 hname
    obtain ⟨c, hc, ⟨-, v, he⟩ | ⟨hname2, -⟩⟩ := h2.shape
    · rw [he, ← hname]
      refine (Walks.one name v).congr (fun p => ?_)
      simp only [Merged, holdsIn_singleton, holds_value_iff, ref_entry.name]
      constructor
      · exact Or.inl
      · rintro (hp | ⟨rfl, hno⟩)
        · exact hp
        · exact absurd rfl (hno v)
    · exact absurd rfl (h.is_dir (hname.trans hname2) name u)
  · intro dirname e1 u h hdir hget ih e2 h2 hname
    have hdir2 : ∀ name v, e2 ≠ .value name v := by
      obtain ⟨c, -, ⟨-, v, he⟩ | ⟨hname1, -⟩⟩ := h.shape
      · exact absurd he (hdir _ _)
      · exact h2.is_dir (hname ▸ hname1)
    obtain ⟨u1, hget1, hgood1, hholds1⟩ := get_ref_dir_spec (w := w) h hdir
    obtain ⟨u2, hget2, hgood2, hholds2⟩ := get_ref_dir_spec (w := w) h2 hdir2
    obtain rfl : u = u1 := Option.some.inj (hget.symm.trans hget1)
    obtain ⟨s1, hsort1, hperm1, hasc1, -⟩ := sort_ref_dir_spec hgood1
    obtain ⟨s2, hsort2, hperm2, hasc2, -⟩ := sort_ref_dir_spec hgood2
    rw [← hname] at hgood2
    have hwalk := in_dirs_walks (w := w)
      (fun e' he' => hgood1.entries e' (hperm1.mem_iff.mp he')) hasc1
      (fun e' he' => hgood2.entries e' (hperm2.mem_iff.mp he')) hasc2
      (fun e' he' => ih e' (hperm1.mem_iff.mp he'))
    have hholds : ∀ {s u : ref_dir ref_entry} {e : ref_entry}, s.entries.Perm u.entries →
        (∀ p, HoldsIn w u.entries p ↔ Holds w e p) →
        ∀ p, HoldsIn w s.entries p ↔ HoldsIn w [e] p :=
      fun hperm hu p => ((holdsIn_perm hperm p).trans (hu p)).trans (holdsIn_singleton _ p).symm
    refine (hwalk.congr (merged_congr (hholds hperm1 hholds1) (hholds hperm2 hholds2))).of_eq ?_
    intro σ each turns cb_data
    cases e1 with
    | value name v => exact absurd rfl (hdir name v)
    | subdir =>
      cases e2 with
      | value name v => exact absurd rfl (hdir2 name v)
      | subdir => simp [do_both_entries, hget, hget2, hsort1, hsort2]
      | incomplete => simp [do_both_entries, hget, hget2, hsort1, hsort2]
    | incomplete =>
      cases e2 with
      | value name v => exact absurd rfl (hdir2 name v)
      | subdir => simp [do_both_entries, hget, hget2, hsort1, hsort2]
      | incomplete => simp [do_both_entries, hget, hget2, hsort1, hsort2]

/-! ## The stores -/

def LooseRef (w : surroundings) (d : disk) (p : Bytes × ref_value) : Prop :=
  Loose REFS d.loose p.1 ∧ p.2 = loose_value w p.1

def PackedRef (d : disk) (p : Bytes × ref_value) : Prop :=
  ∃ line ∈ d.packed, p = (line.refname, packed_value line)

/-- A reference with its value: the loose one where there is a file for it. -/
def Ref (w : surroundings) (d : disk) (p : Bytes × ref_value) : Prop :=
  LooseRef w d p ∨ PackedRef d p ∧ ¬ Loose REFS d.loose p.1

def Unbroken (w : surroundings) (u : ref_value) : Prop :=
  u.flag.REF_ISBROKEN = false ∧ w.has_sha1_file u.sha1 = true

/-- Names have the format of references, and the files of a directory, as the lines of
packed-refs, have other names than each other. -/
structure disk.WellFormed (d : disk) : Prop where
  loose : Good [] (.incomplete REFS d.loose)
  valid : ∀ line ∈ d.packed, check_refname_format line.refname ⟨true, false, true⟩ = true
  distinct : d.packed.Pairwise (fun line line' => line.refname ≠ line'.refname)

/-- What was read before, in part or in full, is what is on the disk. -/
structure ref_cache.Current (w : surroundings) (d : disk) (refs : ref_cache) : Prop where
  packed : ∀ u ∈ refs.packed, GoodDir [] u ∧ ∀ p, HoldsIn w u.entries p ↔ PackedRef d p
  loose : ∀ u ∈ refs.loose, GoodDir [] u ∧ ∀ p, HoldsIn w u.entries p ↔ LooseRef w d p

theorem current_unread (w : surroundings) (d : disk) : ref_cache.Current w d ⟨none, none⟩ :=
  ⟨by simp, by simp⟩

theorem components_join (refname : Bytes) :
    [SLASH].intercalate (git.refname.components refname) = refname :=
  List.intercalate_splitOn SLASH

theorem components_ne_nil (refname : Bytes) : git.refname.components refname ≠ [] :=
  List.splitOn_ne_nil SLASH refname

theorem notMem_components (refname : Bytes) : ∀ c ∈ git.refname.components refname, SLASH ∉ c :=
  fun _ hc => fields.notMem_of_mem hc

/-- The lines of packed-refs, one after another. -/
theorem read_packed_refs_spec {lines : List packed_entry} {u : ref_dir ref_entry}
    (hvalid : ∀ line ∈ lines, check_refname_format line.refname ⟨true, false, true⟩ = true)
    (hdistinct : lines.Pairwise (fun line line' => line.refname ≠ line'.refname))
    (h : GoodDir [] u)
    (hfresh : ∀ line ∈ lines, ∀ v, ¬ HoldsIn w u.entries (line.refname, v)) :
    ∃ u', read_packed_refs w lines u = some u' ∧ GoodDir [] u' ∧
      ∀ p, HoldsIn w u'.entries p ↔ HoldsIn w u.entries p ∨
        ∃ line ∈ lines, p = (line.refname, packed_value line) := by
  induction lines generalizing u with
  | nil => exact ⟨u, rfl, h, by simp⟩
  | cons head lines ih =>
    obtain ⟨hhead, hvalid⟩ := List.forall_mem_cons.mp hvalid
    obtain ⟨hne, hdistinct⟩ := List.pairwise_cons.mp hdistinct
    obtain ⟨hfresh', hfresh⟩ := List.forall_mem_cons.mp hfresh
    have hjoin : [] ++ [SLASH].intercalate (git.refname.components head.refname) = head.refname :=
      components_join head.refname
    obtain ⟨u', hadd, hgood, hholds⟩ := add_ref_spec (w := w) (packed_value head)
      (components_ne_nil head.refname) (notMem_components head.refname) h
      (by simpa only [hjoin] using hfresh')
    rw [hjoin] at hadd hholds
    obtain ⟨u'', hread, hgood', hholds'⟩ := ih hvalid hdistinct hgood (by
      intro line hline v hv
      rcases (hholds _).mp hv with hv | heq
      · exact hfresh line hline v hv
      · exact hne line hline (Prod.mk.inj heq).1.symm)
    refine ⟨u'', ?_, hgood', ?_⟩
    · have hadd' : add_ref w (.value head.refname (packed_value head)) []
          (git.refname.components head.refname) u = some u' := hadd
      simp [read_packed_refs, create_ref_entry, hhead, hadd', hread]
    · intro p
      rw [hholds', hholds]
      simp only [List.mem_cons, exists_eq_or_imp, or_assoc]

variable {d : disk} {refs : ref_cache}

theorem get_packed_refs_spec (hd : d.WellFormed) (hrefs : refs.Current w d) :
    ∃ u, get_packed_refs w d refs = some u ∧ GoodDir [] u ∧
      ∀ p, HoldsIn w u.entries p ↔ PackedRef d p := by
  unfold get_packed_refs
  cases hp : refs.packed with
  | some u => exact ⟨u, rfl, hrefs.packed u hp⟩
  | none =>
    obtain ⟨u, hread, hgood, hholds⟩ := read_packed_refs_spec (w := w) hd.valid hd.distinct
      (goodDir_empty []) (fun _ _ _ => holdsIn_nil _)
    exact ⟨u, hread, hgood, fun p => (hholds p).trans (by simp [holdsIn_nil, PackedRef])⟩

theorem get_loose_refs_spec (hd : d.WellFormed) (hrefs : refs.Current w d) :
    GoodDir [] (get_loose_refs d refs) ∧
      ∀ p, HoldsIn w (get_loose_refs d refs).entries p ↔ LooseRef w d p := by
  unfold get_loose_refs
  cases hl : refs.loose with
  | some u => exact hrefs.loose u hl
  | none =>
    refine ⟨(goodDir_empty []).add hd.loose (by simp), fun p => ?_⟩
    exact (holdsIn_singleton _ p).trans (holds_incomplete_iff REFS d.loose p)

/-! ## The walk over both stores -/

/-- The references of a directory that may not be there. -/
def HoldsFound (w : surroundings) (r : Option (ref_dir ref_entry)) (p : Bytes × ref_value) : Prop :=
  ∃ u ∈ r, HoldsIn w u.entries p

/-- The directory of the base has what is under the base. -/
theorem find_base_spec {u : ref_dir ref_entry} (base : Bytes) (h : GoodDir [] u) :
    ∃ r, (if base = [] then some (some u)
        else find_containing_dir w [] (git.refname.components base) u) = some r ∧
      (∀ u' ∈ r, GoodDir (dir_of (git.refname.components base)) u') ∧
      ∀ p : Bytes × ref_value, base <+: p.1 → (HoldsIn w u.entries p ↔ HoldsFound w r p) := by
  have hdir : dir_of (git.refname.components base) <+: base := by
    conv => rhs; rw [← components_join base]
    exact dir_of_prefix (git.refname.components base)
  by_cases hbase : base = []
  · subst hbase
    have hnil : dir_of (git.refname.components []) = [] := rfl
    exact ⟨some u, rfl, by simpa [hnil] using h, by simp [HoldsFound]⟩
  · obtain ⟨r, hfind, hgood, hholds⟩ :=
      find_containing_dir_spec (w := w) (notMem_components base) h
    rw [if_neg hbase]
    exact ⟨r, hfind, hgood, fun p hp => hholds p (hdir.trans hp)⟩

/-- The end of `do_for_each_ref`, with what was found in each store. -/
def walk_found {σ : Type} (w : surroundings) (each : each_ref σ) (turns : Nat) (cb_data : σ) :
    Option (ref_dir ref_entry) → Option (ref_dir ref_entry) → Option (Int × σ)
  | some packed_dir, some loose_dir => do
    let packed_dir ← sort_ref_dir packed_dir
    let loose_dir ← sort_ref_dir loose_dir
    do_for_each_ref_in_dirs w each turns packed_dir.entries loose_dir.entries cb_data
  | some dir, none | none, some dir => do
    let dir ← sort_ref_dir dir
    do_for_each_ref_in_dir w each turns dir.entries cb_data
  | none, none => some (0, cb_data)

theorem dir_walks {u : ref_dir ref_entry} (h : GoodDir dirname u) :
    Walks w (fun _ each turns cb_data => do
      let dir ← sort_ref_dir u
      do_for_each_ref_in_dir w each turns dir.entries cb_data) (HoldsIn w u.entries) := by
  obtain ⟨s, hsort, hperm, hasc, -⟩ := sort_ref_dir_spec h
  have hwalk := in_dir_walks (w := w) (fun e he => h.entries e (hperm.mem_iff.mp he)) hasc
    (fun e he => (h.entries e (hperm.mem_iff.mp he)).in_entry w)
  refine (hwalk.congr (holdsIn_perm hperm)).of_eq ?_
  intro σ each turns cb_data
  rw [hsort]
  rfl

theorem found_walks {packed loose : Option (ref_dir ref_entry)}
    (hpacked : ∀ u ∈ packed, GoodDir dirname u) (hloose : ∀ u ∈ loose, GoodDir dirname u) :
    Walks w (fun _ each turns cb_data => walk_found w each turns cb_data packed loose)
      (fun p => HoldsFound w loose p ∨
        HoldsFound w packed p ∧ ∀ v, ¬ HoldsFound w loose (p.1, v)) := by
  cases packed with
  | none =>
    cases loose with
    | none => exact ⟨[], Lists.nil (by simp [HoldsFound]), fun _ _ _ => Ends.const _⟩
    | some u => exact (dir_walks (hloose u rfl)).congr (by simp [HoldsFound])
  | some u =>
    cases loose with
    | none => exact (dir_walks (hpacked u rfl)).congr (by simp [HoldsFound])
    | some u2 =>
      have h1 := hpacked u rfl
      have h2 := hloose u2 rfl
      obtain ⟨s1, hsort1, hperm1, hasc1, -⟩ := sort_ref_dir_spec h1
      obtain ⟨s2, hsort2, hperm2, hasc2, -⟩ := sort_ref_dir_spec h2
      have hwalk := in_dirs_walks (w := w)
        (fun e he => h1.entries e (hperm1.mem_iff.mp he)) hasc1
        (fun e he => h2.entries e (hperm2.mem_iff.mp he)) hasc2
        (fun e he => (h1.entries e (hperm1.mem_iff.mp he)).in_both w)
      have hmerged := hwalk.congr (merged_congr (holdsIn_perm hperm1) (holdsIn_perm hperm2))
      refine (hmerged.congr (by simp [HoldsFound, Merged])).of_eq ?_
      intro σ each turns cb_data
      simp [walk_found, hsort1, hsort2]

/-- Which references `do_one_ref` passes on. -/
def passed (w : surroundings) (base : Bytes) (broken : Bool) (p : Bytes × ref_value) : Bool :=
  base.isPrefixOf p.1 && (broken || (!p.2.flag.REF_ISBROKEN && w.has_sha1_file p.2.sha1))

theorem passed_iff (base : Bytes) (broken : Bool) (p : Bytes × ref_value) :
    passed w base broken p = true ↔ base <+: p.1 ∧ (broken = true ∨ Unbroken w p.2) := by
  simp [passed, Unbroken]

/-- One call for each reference under the base that is not broken, in the order of the names, and
with the loose value where the name is in both stores. -/
theorem do_for_each_ref_calls (hd : d.WellFormed) (hrefs : refs.Current w d) (base : Bytes)
    (broken : Bool) : ∃ calls : List (Bytes × ref_value),
      calls.Pairwise (fun p q => strcmp p.1 q.1 = .lt) ∧
      (∀ p, p ∈ calls ↔ base <+: p.1 ∧ Ref w d p ∧ (broken = true ∨ Unbroken w p.2)) ∧
      ∀ (σ : Type) (fn : Bytes → Sha1 → ref_flag → σ → Int × σ) (trim : Nat) (cb_data : σ),
        Ends (fun turns => do_for_each_ref w d refs ⟨base, fn, trim, broken⟩ turns cb_data)
          (listing.each (fun p => fn (p.1.drop trim) p.2.sha1 p.2.flag) calls cb_data) := by
  obtain ⟨u1, hget1, hgood1, hholds1⟩ := get_packed_refs_spec hd hrefs
  obtain ⟨hgood2, hholds2⟩ := get_loose_refs_spec hd hrefs
  obtain ⟨r1, hfind1, hr1, hfound1⟩ := find_base_spec (w := w) base hgood1
  obtain ⟨r2, hfind2, hr2, hfound2⟩ := find_base_spec (w := w) base hgood2
  obtain ⟨calls, hlists, hends⟩ := found_walks (w := w) hr1 hr2
  have hcalls := hlists.filter (passed w base broken)
  refine ⟨_, hcalls.ascends.imp (fun hlt => (strcmp_lt_iff _ _).mpr hlt), ?_, ?_⟩
  · intro p
    rw [hcalls.mem_iff, passed_iff]
    constructor
    · rintro ⟨hp, hbase, hbroken⟩
      rw [← hfound1 p hbase, ← hfound2 p hbase, hholds1, hholds2] at hp
      refine ⟨hbase, hp.imp_right (And.imp_right ?_), hbroken⟩
      intro hno hl
      have hv := (hholds2 (p.1, loose_value w p.1)).mpr ⟨hl, rfl⟩
      exact hno _ ((hfound2 (p.1, loose_value w p.1) hbase).mp hv)
    · rintro ⟨hbase, hp, hbroken⟩
      refine ⟨?_, hbase, hbroken⟩
      rw [← hfound1 p hbase, ← hfound2 p hbase, hholds1, hholds2]
      refine hp.imp_right (And.imp_right ?_)
      intro hno v hv
      exact hno ((hholds2 _).mp ((hfound2 (p.1, v) hbase).mpr hv)).1
  · intro σ fn trim cb_data
    have hrun : ∀ turns, do_for_each_ref w d refs ⟨base, fn, trim, broken⟩ turns cb_data =
        walk_found w ⟨base, fn, trim, broken⟩ turns cb_data r1 r2 := by
      intro turns
      simp only [do_for_each_ref, hget1, Option.bind_eq_bind, Option.bind_some, hfind1, hfind2]
      cases r1 <;> cases r2 <;> rfl
    simp only [hrun]
    rw [← listing.each_filter (passed w base broken) ?_ ?_ calls cb_data]
    · exact hends σ ⟨base, fn, trim, broken⟩ cb_data
    · intro p s hp
      simp only [passed, Bool.and_eq_true, Bool.or_eq_true, Bool.not_eq_true'] at hp
      simp only [call, do_one_ref]
      grind
    · intro p s hp
      simp only [passed, Bool.and_eq_false_iff, Bool.or_eq_false_iff] at hp
      simp only [call, do_one_ref]
      grind

/-- "heads" with a file "b" and its lock, and "refs/heads/b" and "refs/heads/b-c" packed. -/
def heads_disk : disk where
  packed := [⟨REFS ++ [104, 101, 97, 100, 115, 47, 98], null_sha1, false, null_sha1⟩,
    ⟨REFS ++ [104, 101, 97, 100, 115, 47, 98, 45, 99], null_sha1, false, null_sha1⟩]
  loose := [.directory [104, 101, 97, 100, 115] [.file [98], .file ([98] ++ LOCK)]]

theorem heads_disk_wellFormed : heads_disk.WellFormed where
  loose := by
    have hheads : Good REFS (.incomplete (REFS ++ [104, 101, 97, 100, 115] ++ [SLASH])
        [.file [98], .file ([98] ++ LOCK)]) := by
      refine Good.incomplete rfl (by decide) ?_ ?_ ?_ (by simp)
      · simp only [List.mem_cons, List.not_mem_nil, or_false, forall_eq_or_imp, forall_eq,
          node.d_name]
        decide
      · simp only [List.pairwise_cons, List.mem_singleton, forall_eq, node.d_name]
        exact ⟨by decide, by simp⟩
      · intro d_name hmem hskip
        simp only [List.mem_cons, List.not_mem_nil, or_false, node.file.injEq] at hmem
        rcases hmem with rfl | rfl
        · decide
        · exact absurd hskip (by decide)
    refine Good.incomplete (c := [114, 101, 102, 115]) rfl (by decide) ?_ ?_ ?_ ?_
    · simp only [heads_disk, List.mem_singleton, forall_eq, node.d_name]
      decide
    · exact List.pairwise_singleton _ _
    · simp [heads_disk]
    · intro d_name below hmem _
      simp only [heads_disk, List.mem_singleton, node.directory.injEq] at hmem
      obtain ⟨rfl, rfl⟩ := hmem
      exact hheads
  valid := by decide
  distinct := by decide

/-- Every file and every object can be read. -/
def readable : surroundings where
  name := []
  read_ref_full _ := (some null_sha1, ⟨false, false, false⟩)
  resolve_gitlink_ref _ := none
  has_sha1_file _ := true

theorem heads_are_walked : ∃ calls : List (Bytes × ref_value),
    calls.Pairwise (fun p q => strcmp p.1 q.1 = .lt) ∧
    (∀ p, p ∈ calls ↔ REFS <+: p.1 ∧ Ref readable heads_disk p ∧
      (false = true ∨ Unbroken readable p.2)) ∧
    ∀ (σ : Type) (fn : Bytes → Sha1 → ref_flag → σ → Int × σ) (trim : Nat) (cb_data : σ),
      Ends (fun turns => do_for_each_ref readable heads_disk ⟨none, none⟩ ⟨REFS, fn, trim, false⟩
          turns cb_data)
        (listing.each (fun p => fn (p.1.drop trim) p.2.sha1 p.2.flag) calls cb_data) :=
  do_for_each_ref_calls heads_disk_wellFormed (current_unread _ _) REFS false

end git.for_each_ref
