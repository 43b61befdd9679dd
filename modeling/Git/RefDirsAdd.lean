-- Going down to the directory that holds a name: `find_containing_dir` finds all the references
-- below it, and `add_ref` puts one more reference into the tree.
import Git.RefDirs

namespace git.for_each_ref

open git.refname (check_refname_format)
open bsearch (Ascends)

variable {w : surroundings} {dirname c : Bytes} {e e' : ref_entry} {p : Bytes × ref_value}
  {u : ref_dir ref_entry}

/-! ## The subdirectory of a component -/

/-- What stands below a subdirectory is in the entry of that name. -/
theorem Good.name_of_below (h : Good dirname e) (hp : Holds w e p) (hc : SLASH ∉ c)
    (hpre : dirname ++ c ++ [SLASH] <+: p.1) : e.name = dirname ++ c ++ [SLASH] := by
  obtain ⟨r, hr⟩ := h.name_prefix hp
  obtain ⟨c', hc', ⟨hname, v, he⟩ | ⟨hname, -⟩⟩ := h.shape
  · rw [he, holds_value_iff] at hp
    rw [hp, hname] at hpre
    exact absurd hpre ( not_dir_prefix hc')
  · rw [← hr, hname, dir_prefix_iff hc hc'] at hpre
    rw [hname, hpre]

/-- An entry with the name of a directory is one. -/
theorem Good.is_dir (h : Good dirname e) (hname : e.name = dirname ++ c ++ [SLASH])
    (name : Bytes) (v : ref_value) : e ≠ .value name v := by
  obtain ⟨c', hc', ⟨hname', -⟩ | ⟨-, hdir⟩⟩ := h.shape
  · rw [hname, List.append_assoc, List.append_cancel_left_eq] at hname'
    exact absurd (hname' ▸ by simp) hc'
  · exact hdir name v

theorem GoodDir.eq_of_name (h : GoodDir dirname u) (he : e ∈ u.entries) (he' : e' ∈ u.entries)
    (hname : e.name = e'.name) : e = e' := by
  by_contra hne
  have : Std.Symm (fun e e' : ref_entry => e.name ≠ e'.name) := ⟨fun _ _ => Ne.symm⟩
  exact h.distinct.forall he he' hne hname

/-! ## Finding -/

/-- The directory that holds a name, by the components of the name. -/
def dir_of : List Bytes → Bytes
  | c :: next :: more => c ++ [SLASH] ++ dir_of (next :: more)
  | _ => []

theorem dir_of_prefix (comps : List Bytes) : dir_of comps <+: [SLASH].intercalate comps := by
  induction comps with
  | nil => exact List.nil_prefix
  | cons c comps ih =>
    cases comps with
    | nil => exact List.nil_prefix
    | cons next more =>
      rw [dir_of, List.intercalate_cons_cons, List.append_assoc, List.append_assoc]
      simpa using ih

theorem find_containing_dir_spec {comps : List Bytes} (hcomps : ∀ c ∈ comps, SLASH ∉ c)
    (h : GoodDir dirname u) : ∃ r, find_containing_dir w dirname comps u = some r ∧
      (∀ u' ∈ r, GoodDir (dirname ++ dir_of comps) u') ∧
      ∀ p : Bytes × ref_value, dirname ++ dir_of comps <+: p.1 →
        (HoldsIn w u.entries p ↔ ∃ u' ∈ r, HoldsIn w u'.entries p) := by
  induction comps generalizing dirname u with
  | nil => exact ⟨some u, rfl, by simpa [dir_of] using h, by simp⟩
  | cons c comps ih =>
    cases comps with
    | nil => exact ⟨some u, rfl, by simpa [dir_of] using h, by simp⟩
    | cons next more =>
      have hc : SLASH ∉ c := hcomps c List.mem_cons_self
      have hdir : dirname ++ dir_of (c :: next :: more) =
          dirname ++ c ++ [SLASH] ++ dir_of (next :: more) := by simp [dir_of]
      -- What is below the directory is in the entry of the component.
      have hsub : ∀ e ∈ u.entries, ∀ p : Bytes × ref_value, Holds w e p →
          dirname ++ dir_of (c :: next :: more) <+: p.1 → e.name = dirname ++ c ++ [SLASH] := by
        intro e he p hp hpre
        rw [hdir] at hpre
        exact (h.entries e he).name_of_below hp hc ((List.prefix_append _ _).trans hpre)
      obtain ⟨u', pos, hsearch, hgood, hperm, ⟨pre, e, post, rfl, heq, hname⟩ | ⟨i, rfl, hno⟩⟩ :=
        search_ref_dir_spec h (dirname ++ c ++ [SLASH])
      · have he : e ∈ u.entries := by
          rw [← hperm.mem_iff, heq]
          exact List.mem_append_right _ List.mem_cons_self
        obtain ⟨sub, hget, hsubgood, hholds⟩ :=
          get_ref_dir_spec (w := w) (h.entries e he) ((h.entries e he).is_dir hname)
        rw [hname] at hsubgood
        obtain ⟨r, hfind, hr, hbelow⟩ :=
          ih (fun c' hc' => hcomps c' (List.mem_cons_of_mem _ hc')) hsubgood
        refine ⟨r, ?_, hdir ▸ hr, ?_⟩
        · rw [find_containing_dir]
          simp [search_for_subdir, hsearch, heq, hget, hfind, -List.append_assoc]
        · intro p hpre
          rw [← hbelow p (hdir ▸ hpre), hholds]
          constructor
          · rintro ⟨e', he', hp⟩
            rwa [h.eq_of_name he he' (hname.trans (hsub e' he' p hp hpre).symm)]
          · exact fun hp => ⟨e, he, hp⟩
      · refine ⟨none, ?_, by simp, ?_⟩
        · rw [find_containing_dir]
          simp [search_for_subdir, hsearch, -List.append_assoc]
        · intro p hpre
          simp only [Option.not_mem_none, false_and, exists_false, iff_false]
          rintro ⟨e, he, hp⟩
          exact hno e he (hsub e he p hp hpre)

/-! ## Adding -/

/-- One more entry, of another name. -/
theorem GoodDir.add (h : GoodDir dirname u) (he : Good dirname e)
    (hname : ∀ e' ∈ u.entries, e'.name ≠ e.name) : GoodDir dirname (add_entry_to_dir u e) where
  entries e' he' := by
    rcases List.mem_append.mp he' with he' | he'
    · exact h.entries e' he'
    · exact List.mem_singleton.mp he' ▸ he
  distinct := List.pairwise_append.mpr ⟨h.distinct, List.pairwise_singleton _ _,
    fun e' he' e'' he'' => List.mem_singleton.mp he'' ▸ hname e' he'⟩
  sorted_le := by
    have := h.sorted_le
    simp only [add_entry_to_dir, List.length_append, List.length_singleton]
    omega
  ascends hsorted := by
    have := h.sorted_le
    simp only [add_entry_to_dir, List.length_append, List.length_singleton] at hsorted
    omega

/-- Another entry of the same name. -/
theorem GoodDir.replace {pre post : List ref_entry} (h : GoodDir dirname u)
    (heq : u.entries = pre ++ e :: post) (he' : Good dirname e') (hname : e.name = e'.name) :
    GoodDir dirname { u with entries := pre ++ e' :: post } where
  entries x hx := by
    rw [List.mem_append, List.mem_cons] at hx
    rcases hx with hx | rfl | hx
    · exact h.entries x (heq ▸ List.mem_append_left _ hx)
    · exact he'
    · exact h.entries x (heq ▸ List.mem_append_right _ (List.mem_cons_of_mem _ hx))
  distinct := by
    have hd := h.distinct
    rw [heq] at hd
    simp only [List.pairwise_append, List.pairwise_cons, List.mem_cons, forall_eq_or_imp] at hd ⊢
    exact hname ▸ hd
  sorted_le := by
    have := h.sorted_le
    rw [heq] at this
    simpa using this
  ascends hsorted := by
    have hasc := h.ascends (by rw [hsorted, heq]; simp)
    exact (heq ▸ hasc).replace hname.symm

theorem holdsIn_replace {pre post : List ref_entry} {q : Bytes × ref_value}
    (h : ∀ p, Holds w e' p ↔ Holds w e p ∨ p = q) (p : Bytes × ref_value) :
    HoldsIn w (pre ++ e' :: post) p ↔ HoldsIn w (pre ++ e :: post) p ∨ p = q := by
  rw [holdsIn_append, holdsIn_append, holdsIn_cons, holdsIn_cons, h]
  tauto

/-- With `mkdir` the subdirectory is there. -/
theorem search_for_subdir_mkdir (h : GoodDir dirname u) (hc : SLASH ∉ c) :
    ∃ u' pre e post, search_for_subdir u (dirname ++ c ++ [SLASH]) true =
        some (u', some pre.length) ∧ u'.entries = pre ++ e :: post ∧
      e.name = dirname ++ c ++ [SLASH] ∧ GoodDir dirname u' ∧
      ∀ p, HoldsIn w u'.entries p ↔ HoldsIn w u.entries p := by
  obtain ⟨u', pos, hsearch, hgood, hperm, ⟨pre, e, post, rfl, heq, hname⟩ | ⟨i, rfl, hno⟩⟩ :=
    search_ref_dir_spec h (dirname ++ c ++ [SLASH])
  · exact ⟨u', pre, e, post, by simp [search_for_subdir, hsearch, -List.append_assoc], heq, hname,
      hgood, holdsIn_perm hperm⟩
  · refine ⟨_, u'.entries, .subdir (dirname ++ c ++ [SLASH]) ⟨[], 0⟩, [],
      by rw [search_for_subdir, hsearch]; rfl, rfl, rfl, ?_, ?_⟩
    · refine hgood.add ((goodDir_empty _).subdir rfl hc) ?_
      exact fun e he => hno e (hperm.mem_iff.mp he)
    · intro p
      rw [add_entry_to_dir, holdsIn_append, holdsIn_perm hperm, holdsIn_cons, holds_subdir_iff]
      simp [holdsIn_nil]

/-- The tree with one more reference. -/
theorem add_ref_spec (v : ref_value) {comps : List Bytes} (hne : comps ≠ [])
    (hcomps : ∀ c ∈ comps, SLASH ∉ c) (h : GoodDir dirname u)
    (hfresh : ∀ v', ¬ HoldsIn w u.entries (dirname ++ [SLASH].intercalate comps, v')) :
    ∃ u', add_ref w (.value (dirname ++ [SLASH].intercalate comps) v) dirname comps u = some u' ∧
      GoodDir dirname u' ∧ ∀ p, HoldsIn w u'.entries p ↔
        HoldsIn w u.entries p ∨ p = (dirname ++ [SLASH].intercalate comps, v) := by
  induction comps generalizing dirname u with
  | nil => exact absurd rfl hne
  | cons c comps ih =>
    have hc : SLASH ∉ c := hcomps c List.mem_cons_self
    cases comps with
    | nil =>
      rw [List.intercalate_singleton] at hfresh ⊢
      refine ⟨_, rfl, h.add (Good.value rfl hc) ?_, ?_⟩
      · intro e he heq
        obtain ⟨c', -, ⟨-, v', hval⟩ | ⟨hname, -⟩⟩ := (h.entries e he).shape
        · refine hfresh v' ⟨e, he, ?_⟩
          rw [hval, heq]
          exact Holds.value _ _
        · rw [hname, ref_entry.name, List.append_assoc, List.append_cancel_left_eq] at heq
          exact hc (heq ▸ by simp)
      · intro p
        rw [add_entry_to_dir, holdsIn_append, holdsIn_cons, holds_value_iff]
        simp [holdsIn_nil]
    | cons next more =>
      have hname : dirname ++ [SLASH].intercalate (c :: next :: more) =
          dirname ++ c ++ [SLASH] ++ [SLASH].intercalate (next :: more) := by
        simp [List.intercalate_cons_cons]
      rw [hname] at hfresh ⊢
      obtain ⟨u', pre, e, post, hsearch, heq, hename, hgood, hholds⟩ :=
        search_for_subdir_mkdir (w := w) h hc
      have he : e ∈ u'.entries := heq ▸ List.mem_append_right _ List.mem_cons_self
      obtain ⟨sub, hget, hsubgood, hsub⟩ :=
        get_ref_dir_spec (w := w) (hgood.entries e he) ((hgood.entries e he).is_dir hename)
      rw [hename] at hsubgood
      obtain ⟨sub', hadd, hgood', hsub'⟩ :=
        ih (by simp) (fun c' hc' => hcomps c' (List.mem_cons_of_mem _ hc')) hsubgood
          (fun v' hv' => hfresh v' ((hholds _).mp ⟨e, he, (hsub _).mp hv'⟩))
      refine ⟨_, ?_, hgood.replace heq (hgood'.subdir rfl hc) hename, ?_⟩
      · rw [add_ref]
        simp [hsearch, heq, hget, hadd, -List.append_assoc]
      · intro p
        rw [← hholds p, heq]
        refine holdsIn_replace ?_ p
        intro p
        rw [holds_subdir_iff, hsub', hsub]

end git.for_each_ref
