-- What the check of a list of patches leaves in the table and in the patches, and
-- how that compares with applying the patches in turn.
import Git.ApplyPatchOrder

namespace git.apply

/-! ## The preimage -/

/-- Only the path may have changed, and on disk only. -/
def Kept (o : apply_opts) (s s' : apply_state) (path : Bytes) : Prop :=
  s'.active_cache = s.active_cache ∧ (o.cached = true → s'.work_tree = s.work_tree) ∧
    ∀ other, other ≠ path → stored s' other = stored s other

theorem Kept.refl (o : apply_opts) (s : apply_state) (path : Bytes) : Kept o s s path :=
  ⟨rfl, fun _ => rfl, fun _ _ => rfl⟩

/-- The preimage comes from a file: its bytes, and modes that agree with it. -/
def ReadFrom (o : apply_opts) (s : apply_state) (p : patch) (path : Bytes) (file : blob)
    (pre : preimage) : Prop :=
  ∃ st_mode, st_mode ≠ 0 ∧ create_ce_mode st_mode = file.mode ∧
    settle_modes p st_mode = some pre.patch ∧ pre.buf = file.buf ∧ Kept o s pre.s path

theorem blob_mode_ne_zero (file : blob) : file.mode ≠ 0 := by
  rw [← file.canonical]
  exact create_ce_mode_ne_zero file.mode

theorem checked_out_spec {o : apply_opts} {s s' : apply_state} {path : Bytes} {ce file : blob}
    (h : checked_out o s path ce = some (s', file)) :
    file.mode = ce.mode ∧ file.buf = ce.buf ∧ Kept o s s' path := by
  obtain ⟨⟨s₁, file₁⟩, hfound, hmatch⟩ := Option.bind_eq_some_iff.mp h
  simp only at hmatch
  split_ifs at hmatch with hsame
  obtain ⟨rfl, rfl⟩ := Prod.mk.inj (Option.some.inj hmatch)
  refine ⟨file₁.canonical.symm.trans hsame.1, hsame.2, ?_⟩
  cases hfile : s.work_tree.lookup path with
  | some on_disk =>
    rw [hfile] at hfound
    obtain ⟨rfl, -⟩ := Prod.mk.inj (Option.some.inj hfound)
    exact Kept.refl o s path
  | none =>
    rw [hfile] at hfound
    obtain ⟨s₂, hcreate, hpair⟩ := Option.map_eq_some_iff.mp hfound
    obtain ⟨rfl, -⟩ := Prod.mk.inj hpair
    rw [create_one_file_eq hcreate]
    refine ⟨rfl, fun hcached => if_pos hcached, fun other hother => ?_⟩
    refine Prod.ext ?_ rfl
    unfold stored
    simp only
    split_ifs
    · rfl
    · exact AList.lookup_insert_ne hother

theorem untouched_preimage_cases {o : apply_opts} {s : apply_state} {p : patch} {path : Bytes}
    {pre : preimage} (h : untouched_preimage o s p path = some pre) :
    (p.is_new < 0 ∧ current o (stored s path) = none ∧ pre = ⟨s, turned_new p, []⟩) ∨
    ∃ file, current o (stored s path) = some file ∧ ReadFrom o s p path file pre := by
  have hconflict : ¬ (!o.cached && df_conflict s.work_tree path) = true := by
    intro hconflict
    unfold untouched_preimage at h
    rw [if_pos hconflict] at h
    cases h
  unfold untouched_preimage at h
  rw [if_neg hconflict] at h
  by_cases hindex : o.check_index = true
  · -- the index has the entry to be patched
    have hcurrent : current o (stored s path) = s.active_cache.lookup path := if_pos hindex
    rw [if_pos hindex] at h
    rw [hcurrent]
    cases hce : s.active_cache.lookup path with
    | none =>
      rw [hce] at h
      obtain ⟨hnew, hpre⟩ := Option.ite_none_right_eq_some.mp h
      exact Or.inl ⟨hnew, rfl, (Option.some.inj hpre).symm⟩
    | some ce =>
      rw [hce] at h
      refine Or.inr ⟨ce, rfl, ?_⟩
      by_cases hcached : o.cached = true
      · simp only [if_pos hcached] at h
        obtain ⟨p₁, hsettle, rfl⟩ := Option.map_eq_some_iff.mp h
        exact ⟨ce.mode, blob_mode_ne_zero ce, ce.canonical, hsettle, rfl, Kept.refl o s path⟩
      · simp only [if_neg hcached] at h
        obtain ⟨⟨s₁, file⟩, hfile, hpre⟩ := Option.bind_eq_some_iff.mp h
        obtain ⟨p₁, hsettle, rfl⟩ := Option.map_eq_some_iff.mp hpre
        obtain ⟨hmode, hbuf, hkept⟩ := checked_out_spec hfile
        exact ⟨_, create_ce_mode_ne_zero _,
          (create_ce_mode_idem _).trans (file.canonical.trans hmode), hsettle, hbuf, hkept⟩
  · have hcurrent : current o (stored s path) = s.work_tree.lookup path := if_neg hindex
    rw [if_neg hindex] at h
    rw [hcurrent]
    cases hfile : s.work_tree.lookup path with
    | none =>
      rw [hfile] at h
      obtain ⟨hnew, hpre⟩ := Option.ite_none_right_eq_some.mp h
      exact Or.inl ⟨hnew, rfl, (Option.some.inj hpre).symm⟩
    | some file =>
      rw [hfile] at h
      obtain ⟨p₁, hsettle, rfl⟩ := Option.map_eq_some_iff.mp h
      exact Or.inr ⟨file, rfl, _, create_ce_mode_ne_zero _,
        (create_ce_mode_idem _).trans file.canonical, hsettle, rfl, Kept.refl o s path⟩

/-! ## The state of a check -/

def status_of (q : patch) : path_status :=
  if q.deletes = true then .PATH_WAS_DELETED else .patched q

/-- What holds once the patches of `done` are checked, on a run that began with `s₀`. -/
structure Checking (o : apply_opts) (s₀ : apply_state) (done : List patch)
    (fn_table : filename_table) (s : apply_state) : Prop where
  checked : ∀ q ∈ done, Checked q
  touched : ∀ path q, last_on path done = some q → fn_table.lookup path = some (status_of q)
  untouched : ∀ path, last_on path done = none → stored s path = stored s₀ path ∧
    (fn_table.lookup path = none ∨ fn_table.lookup path = some .PATH_TO_BE_DELETED)
  index : s.active_cache = s₀.active_cache
  work_tree : o.cached = true → s.work_tree = s₀.work_tree

/-- The file that the next patch of the path is for, after those of `done`. -/
def found (o : apply_opts) (s₀ : apply_state) (done : List patch) (path : Bytes) : Option blob :=
  match last_on path done with
  | some q => effect q
  | none => current o (stored s₀ path)

theorem Plain.name {p : patch} {path : Bytes} (h : p.old_name = some path) : p.name = path := by
  unfold patch.name
  rw [h]
  rfl

theorem check_preimage_cases {o : apply_opts} {s₀ s : apply_state} {done : List patch}
    {fn_table : filename_table} {p : patch} {pre : preimage}
    (hc : Checking o s₀ done fn_table s) (h : check_preimage o fn_table s p = some pre) :
    (p.old_name = none ∧ pre = ⟨s, p, []⟩) ∨
    (p.old_name = some p.name ∧ p.is_new < 0 ∧ last_on p.name done = none ∧
      found o s₀ done p.name = none ∧ pre = ⟨s, turned_new p, []⟩) ∨
    (p.old_name = some p.name ∧ ¬ 0 < p.is_new ∧
      ∃ file, found o s₀ done p.name = some file ∧ ReadFrom o s p p.name file pre) := by
  unfold check_preimage at h
  cases hold : p.old_name with
  | none =>
    rw [hold] at h
    exact Or.inl ⟨rfl, (Option.some.inj h).symm⟩
  | some old_name =>
    rw [hold] at h
    have hname : p.name = old_name := Plain.name hold
    rw [hname]
    simp only at h
    obtain ⟨hnew, hpre⟩ := Option.ite_none_left_eq_some.mp h
    have hlook : in_fn_table fn_table (some old_name) = fn_table.lookup old_name := rfl
    rw [hlook] at hpre
    right
    cases hlast : last_on old_name done with
    | some q =>
      have hfound : found o s₀ done old_name = effect q := by
        unfold found
        rw [hlast]
      rw [hc.touched old_name q hlast] at hpre
      unfold status_of at hpre
      by_cases hdel : q.deletes = true
      · rw [if_pos hdel] at hpre
        cases hpre
      · rw [if_neg hdel] at hpre
        obtain ⟨p₁, hsettle, rfl⟩ := Option.map_eq_some_iff.mp hpre
        refine Or.inr ⟨rfl, hnew, written q, hfound.trans (if_neg hdel), q.new_mode, ?_, rfl,
          hsettle, rfl, Kept.refl o s old_name⟩
        have hq := hc.checked q (last_on_name hlast).2
        rcases hq with ⟨n, hn, -, -⟩ | ⟨n, -, -, hmode, -⟩
        · exact absurd (Option.isNone_iff_eq_none.mpr hn) hdel
        · exact hmode
    | none =>
      obtain ⟨hstored, htable⟩ := hc.untouched old_name hlast
      have hfound : found o s₀ done old_name = current o (stored s old_name) := by
        unfold found
        rw [hlast, hstored]
      have huntouched : untouched_preimage o s p old_name = some pre := by
        rcases htable with htable | htable
        · rwa [htable] at hpre
        · rwa [htable] at hpre
      rcases untouched_preimage_cases huntouched with ⟨hneg, hnone, rfl⟩ | ⟨file, hfile, hread⟩
      · exact Or.inl ⟨rfl, hneg, rfl, hfound.trans hnone, rfl⟩
      · exact Or.inr ⟨rfl, hnew, file, hfound.trans hfile, hread⟩

/-! ## The rest of the check -/

theorem check_to_create_spec {o : apply_opts} {fn_table : filename_table} {s : apply_state}
    {p p' : patch} (h : check_to_create o fn_table s p = some p') :
    (∃ new_mode, p' = { p with new_mode } ∧
      create_ce_mode new_mode = create_ce_mode p.new_mode) ∧
    (p.new_name ≠ none → 0 < p.is_new → p'.new_mode ≠ 0) ∧
    (p.new_name = none ∨ ¬ 0 < p.is_new → p' = p) := by
  have hsame : p = { p with new_mode := p.new_mode } := rfl
  unfold check_to_create at h
  obtain hnew | ⟨new_name, hnew⟩ := Option.eq_none_or_eq_some p.new_name
  · simp only [hnew] at h
    obtain rfl := Option.some.inj h
    exact ⟨⟨_, hsame, rfl⟩, fun hne => absurd hnew hne, fun _ => rfl⟩
  · simp only [hnew] at h
    by_cases hcreate : 0 < p.is_new
    · rw [if_neg (not_not.mpr hcreate)] at h
      obtain ⟨-, hpath⟩ := Option.ite_none_left_eq_some.mp h
      obtain ⟨-, hmode⟩ := Option.ite_none_left_eq_some.mp hpath
      obtain rfl := Option.some.inj hmode
      refine ⟨⟨if p.new_mode = 0 then S_IFREG ||| 0o644 else p.new_mode, ?_,
        create_ce_mode_default p.new_mode⟩, fun _ _ => ?_, fun hor => ?_⟩
      · split_ifs
        · rw [hnew]
        · rfl
      · split_ifs with hzero
        · exact (by decide : (S_IFREG ||| 0o644 : BitVec 32) ≠ 0)
        · exact hzero
      · rcases hor with hnone | hnot
        · rw [hnew] at hnone
          cases hnone
        · exact absurd hcreate hnot
    · rw [if_pos hcreate] at h
      obtain rfl := Option.some.inj h
      exact ⟨⟨_, hsame, rfl⟩, fun _ hpos => absurd hpos hcreate, fun _ => rfl⟩

theorem check_new_mode_spec {p p' : patch} (h : check_new_mode p = some p') :
    (p.new_name = none ∨ p.old_name = none → p' = p) ∧
    (p.new_name ≠ none → p.old_name ≠ none →
      p' = { p with new_mode := if p.new_mode = 0 then p.old_mode else p.new_mode }) := by
  unfold check_new_mode at h
  obtain hnew | ⟨new_name, hnew⟩ := Option.eq_none_or_eq_some p.new_name
  · simp only [hnew] at h
    exact ⟨fun _ => (Option.some.inj h).symm, fun hne => absurd hnew hne⟩
  · obtain hold | ⟨old_name, hold⟩ := Option.eq_none_or_eq_some p.old_name
    · simp only [hnew, hold] at h
      exact ⟨fun _ => (Option.some.inj h).symm, fun _ hne => absurd hold hne⟩
    · simp only [hnew, hold] at h
      obtain ⟨-, hp⟩ := Option.ite_none_left_eq_some.mp h
      refine ⟨?_, fun _ _ => ?_⟩
      · rintro (hnone | hnone)
        · rw [hnew] at hnone
          cases hnone
        · rw [hold] at hnone
          cases hnone
      · rw [← hnew, ← hold] at hp
        exact (Option.some.inj hp).symm

theorem apply_data_spec {fn_table fn_table' : filename_table} {p q : patch} {buf : Bytes}
    (h : apply_data fn_table p buf = some (fn_table', q)) :
    ∃ result, p.apply_fragments buf = some result ∧ q = { p with result } ∧
      (0 < p.is_delete → result = []) ∧ fn_table' = add_to_fn_table fn_table q := by
  obtain ⟨-, hdata⟩ := Option.ite_none_left_eq_some.mp h
  obtain ⟨result, hresult, hrest⟩ := Option.bind_eq_some_iff.mp hdata
  obtain ⟨hempty, hpair⟩ := Option.ite_none_left_eq_some.mp hrest
  obtain ⟨rfl, rfl⟩ := Prod.mk.inj (Option.some.inj hpair)
  refine ⟨result, hresult, rfl, fun hdel => ?_, rfl⟩
  by_contra hne
  apply hempty
  rw [Bool.and_eq_true, decide_eq_true_eq, Bool.not_eq_true', List.isEmpty_eq_false_iff]
  exact ⟨hdel, hne⟩

theorem settle_modes_spec {p p' : patch} {st_mode : BitVec 32} (hst : st_mode ≠ 0)
    (h : settle_modes p st_mode = some p') :
    ∃ is_new old_mode, old_mode ≠ 0 ∧ (p.old_mode = 0 → old_mode = st_mode) ∧
      (¬ 0 < p.is_new → ¬ 0 < is_new) ∧
      p' = { p with
        is_new, old_mode
        new_mode := if p.new_mode = 0 ∧ p.is_delete = 0 then st_mode else p.new_mode } := by
  obtain ⟨-, hp⟩ := Option.ite_none_left_eq_some.mp h
  refine ⟨_, _, ?_, fun hzero => if_pos hzero, ?_, (Option.some.inj hp).symm⟩
  · split_ifs with hzero
    · exact hst
    · exact hzero
  · split_ifs
    · exact fun _ => lt_irrefl 0
    · exact id

theorem add_to_fn_table_checked (fn_table : filename_table) {q : patch} (h : Checked q) :
    add_to_fn_table fn_table q = fn_table.insert q.name (status_of q) := by
  unfold add_to_fn_table status_of
  by_cases hdel : q.deletes = true
  · obtain ⟨hnew, hold⟩ := h.deletes hdel
    rw [hnew, hold, if_pos hdel]
  · rw [h.writes hdel, if_neg hdel]

/-! ## One patch -/

/-- What the check makes of a patch: a creation from nothing, or a change of the file
that was found. -/
def Turns (o : apply_opts) (s₀ : apply_state) (done : List patch) (p q : patch) : Prop :=
  ((p.old_name = none ∧ 0 < p.is_new ∨
      p.old_name ≠ none ∧ p.is_new < 0 ∧ last_on p.name done = none ∧
        found o s₀ done p.name = none) ∧
    ∃ result, p.apply_fragments [] = some result ∧
      effect q = some (blob_of p.new_mode result)) ∨
  (p.old_name ≠ none ∧ ¬ 0 < p.is_new ∧
    ∃ file result, found o s₀ done p.name = some file ∧
      p.apply_fragments file.buf = some result ∧
      (p.new_name = none ∧ result = [] ∧ effect q = none ∨
        p.new_name ≠ none ∧ effect q =
          some (blob_of (if p.new_mode = 0 then file.mode else p.new_mode) result)))

/-- A creation, or a patch that turned into one, up to its result. -/
theorem creation_spec {o : apply_opts} {fn_table fn_table' : filename_table} {s : apply_state}
    {p p₁ p₂ q : patch} {path : Bytes} (hnew : p.new_name = some path) (hold : p.old_name = none)
    (hpos : 0 < p.is_new) (hdel : ¬ 0 < p.is_delete)
    (hcreate : check_to_create o fn_table s p = some p₁) (hmode : check_new_mode p₁ = some p₂)
    (hdata : apply_data fn_table p₂ [] = some (fn_table', q)) :
    Checked q ∧ q.name = path ∧ q.deletes = false ∧ fn_table' = fn_table.insert path (status_of q) ∧
      ∃ result, p.apply_fragments [] = some result ∧
        effect q = some (blob_of p.new_mode result) := by
  obtain ⟨⟨new_mode, hp₁, hsame⟩, hzero, -⟩ := check_to_create_spec hcreate
  have hne := hzero (by rw [hnew]; exact Option.some_ne_none path) hpos
  have hp₂ : p₂ = p₁ := (check_new_mode_spec hmode).1 (Or.inr (by rw [hp₁]; exact hold))
  rw [hp₂] at hdata
  obtain ⟨result, hresult, hq, -, htable⟩ := apply_data_spec hdata
  rw [hp₁] at hne hresult hq
  simp only at hne hresult hq
  have hchecked : Checked q := by
    refine Or.inr ⟨path, ?_⟩
    rw [hq]
    exact ⟨hnew, hdel, hne, Or.inl ⟨hpos, hold⟩⟩
  have hqnew : q.new_name = some path := by
    rw [hq]
    exact hnew
  obtain ⟨hname, hkeeps⟩ := hchecked.new_name hqnew
  have heffect : effect q = some (blob_of p.new_mode result) := by
    unfold effect written
    rw [if_neg (by rw [hkeeps]; decide), hq]
    exact congrArg some (blob_of_congr hsame)
  rw [add_to_fn_table_checked fn_table hchecked, hname] at htable
  exact ⟨hchecked, hname, hkeeps, htable, result, hresult, heffect⟩

/-- A deletion or a modification of the file that was found. -/
theorem change_spec {o : apply_opts} {fn_table fn_table' : filename_table} {s : apply_state}
    {p p₁ p₂ q : patch} {path : Bytes} {file : blob} {pre : preimage} (hplain : Plain p)
    (hold : p.old_name = some path) (hnot : ¬ 0 < p.is_new) (hread : ReadFrom o s p path file pre)
    (hcreate : check_to_create o fn_table pre.s pre.patch = some p₁)
    (hmode : check_new_mode p₁ = some p₂)
    (hdata : apply_data fn_table p₂ pre.buf = some (fn_table', q)) :
    Checked q ∧ q.name = path ∧ q.deletes = p.deletes ∧
      fn_table' = fn_table.insert path (status_of q) ∧
      ∃ result, p.apply_fragments file.buf = some result ∧
        (p.new_name = none ∧ result = [] ∧ effect q = none ∨
          p.new_name ≠ none ∧ effect q =
            some (blob_of (if p.new_mode = 0 then file.mode else p.new_mode) result)) := by
  obtain ⟨st_mode, hst, hfile, hsettle, hbuf, -⟩ := hread
  obtain ⟨is_new, old_mode, hold_ne, hold_eq, hnew_not, hpre⟩ := settle_modes_spec hst hsettle
  have hp₁ : p₁ = pre.patch := by
    apply (check_to_create_spec hcreate).2.2
    rw [hpre]
    exact Or.inr (hnew_not hnot)
  rw [hp₁] at hmode
  rw [hbuf] at hdata
  obtain ⟨result, hresult, hq, hempty, htable⟩ := apply_data_spec hdata
  rcases hplain with ⟨n, -, hn, -⟩ | ⟨n, hn, ho, -, hdel⟩ | ⟨n, hn, ho, -, hdel, hmode_zero⟩
  · rw [hn] at hold
    cases hold
  · -- a deletion: the modes play no part
    have hp₂ : p₂ = pre.patch := (check_new_mode_spec hmode).1 (Or.inl (by rw [hpre]; exact hn))
    rw [hp₂, hpre] at hq hresult hempty
    simp only at hq hresult hempty
    have hpos : 0 < p.is_delete := by rw [hdel]; decide
    have hchecked : Checked q := by
      refine Or.inl ⟨path, ?_⟩
      rw [hq]
      exact ⟨hn, hold, hpos⟩
    have hqdel : q.deletes = true := by
      rw [hq]
      exact Option.isNone_iff_eq_none.mpr hn
    have hname : q.name = path := by
      apply Plain.name
      rw [hq]
      exact hold
    rw [add_to_fn_table_checked fn_table hchecked, hname] at htable
    refine ⟨hchecked, hname, ?_, htable, result, hresult, Or.inl ⟨hn, hempty hpos, ?_⟩⟩
    · rw [hqdel]
      exact (Option.isNone_iff_eq_none.mpr hn).symm
    · exact if_pos hqdel
  · -- a modification
    obtain rfl : n = path := Option.some.inj (ho.symm.trans hold)
    have hp₂ := (check_new_mode_spec hmode).2 (by rw [hpre]; simp [hn]) (by rw [hpre]; simp [ho])
    rw [hpre] at hp₂
    rw [hp₂] at hq hresult
    simp only at hq hresult
    have hmodes : q.new_mode ≠ 0 ∧ create_ce_mode q.new_mode =
        create_ce_mode (if p.new_mode = 0 then file.mode else p.new_mode) := by
      have hst_file : create_ce_mode st_mode = create_ce_mode file.mode :=
        hfile.trans file.canonical.symm
      rw [hq]
      simp only
      by_cases hzero : p.new_mode = 0
      · by_cases hdel_zero : p.is_delete = 0
        · simp only [hzero, hdel_zero, and_self, if_true, if_neg hst]
          exact ⟨hst, hst_file⟩
        · have hneg : p.is_delete < 0 := lt_of_le_of_ne hdel hdel_zero
          simp only [hzero, hdel_zero, and_false, if_false, if_true, hold_eq (hmode_zero hneg)]
          exact ⟨hst, hst_file⟩
      · simp only [hzero, false_and, if_false]
        exact ⟨hzero, trivial⟩
    have hqnew : q.new_name = some n := by
      rw [hq]
      exact hn
    have hchecked : Checked q := by
      refine Or.inr ⟨n, hqnew, ?_, hmodes.1, Or.inr ?_⟩
      · rw [hq]
        exact not_lt.mpr hdel
      · rw [hq]
        exact ⟨hnew_not hnot, ho⟩
    obtain ⟨hname, hkeeps⟩ := hchecked.new_name hqnew
    rw [add_to_fn_table_checked fn_table hchecked, hname] at htable
    refine ⟨hchecked, hname, ?_, htable, result, hresult, Or.inr ⟨by simp [hn], ?_⟩⟩
    · unfold patch.deletes
      rw [hqnew, hn]
    · unfold effect written
      rw [if_neg (by rw [hkeeps]; decide)]
      have hresult_eq : q.result = result := by rw [hq]
      rw [hresult_eq]
      exact congrArg some (blob_of_congr hmodes.2)

/-- What the check of a patch leaves behind. -/
theorem check_patch_spec {o : apply_opts} {s₀ s s' : apply_state} {done : List patch}
    {fn_table fn_table' : filename_table} {p q : patch} (hc : Checking o s₀ done fn_table s)
    (hplain : Plain p) (h : check_patch o fn_table s p = some (fn_table', s', q)) :
    Checked q ∧ q.name = p.name ∧ q.deletes = p.deletes ∧
      fn_table' = fn_table.insert p.name (status_of q) ∧ Kept o s s' p.name ∧
      Turns o s₀ done p q := by
  obtain ⟨pre, hpre, hrest⟩ := Option.bind_eq_some_iff.mp h
  obtain ⟨p₁, hcreate, hrest⟩ := Option.bind_eq_some_iff.mp hrest
  obtain ⟨p₂, hmode, hrest⟩ := Option.bind_eq_some_iff.mp hrest
  obtain ⟨⟨table, q₁⟩, hdata, hpair⟩ := Option.map_eq_some_iff.mp hrest
  simp only [Prod.mk.injEq] at hpair
  obtain ⟨rfl, rfl, rfl⟩ := hpair
  rcases check_preimage_cases hc hpre with ⟨hold, rfl⟩ | ⟨hold, hneg, hlast, hfound, rfl⟩ |
    ⟨hold, hnot, file, hfound, hread⟩
  · -- a creation
    rcases hplain with ⟨n, hn, -, hnew, hdel⟩ | ⟨n, -, ho, -⟩ | ⟨n, -, ho, -⟩
    · have hpos : 0 < p.is_new := by rw [hnew]; decide
      obtain ⟨hchecked, hname, hkeeps, htable, hresult⟩ :=
        creation_spec hn hold hpos (by rw [hdel]; decide) hcreate hmode hdata
      have hpname : p.name = n := by
        unfold patch.name
        rw [hold, hn]
        rfl
      rw [hpname]
      refine ⟨hchecked, hname, ?_, htable, Kept.refl o s n, Or.inl ⟨Or.inl ⟨hold, hpos⟩, hresult⟩⟩
      unfold patch.deletes at hkeeps ⊢
      rw [hkeeps, hn]
      rfl
    all_goals
      rw [ho] at hold
      cases hold
  · -- a patch of a path that is not there
    rcases hplain with ⟨n, -, ho, -⟩ | ⟨n, -, -, hnew, -⟩ | ⟨n, hn, ho, -⟩
    · rw [ho] at hold
      cases hold
    · rw [hnew] at hneg
      exact absurd hneg (by decide)
    · have hpname : p.name = n := Plain.name ho
      obtain ⟨hchecked, hname, hkeeps, htable, hresult⟩ :=
        creation_spec (show (turned_new p).new_name = some n from hn) rfl
          (show (0 : Int) < 1 from one_pos) (lt_irrefl (0 : Int)) hcreate hmode hdata
      refine ⟨hchecked, hname.trans hpname.symm, ?_, by rw [htable, hpname], Kept.refl o s _,
        Or.inl ⟨Or.inr ⟨by rw [ho]; simp, hneg, hlast, hfound⟩, hresult⟩⟩
      rw [hkeeps]
      unfold patch.deletes
      rw [hn]
      rfl
  · -- a deletion or a modification
    obtain ⟨hchecked, hname, hdel, htable, result, hresult⟩ :=
      change_spec hplain hold hnot hread hcreate hmode hdata
    obtain ⟨-, -, -, -, -, hkept⟩ := hread
    exact ⟨hchecked, hname, hdel, htable, hkept,
      Or.inr ⟨by rw [hold]; simp, hnot, file, result, hfound, hresult⟩⟩

/-! ## The run of the check -/

theorem prepare_fn_table_marks (list : List patch) : ∀ {fn_table : filename_table},
    (∀ path, fn_table.lookup path = none ∨
      fn_table.lookup path = some .PATH_TO_BE_DELETED) →
    ∀ path, (prepare_fn_table fn_table list).lookup path = none ∨
      (prepare_fn_table fn_table list).lookup path = some .PATH_TO_BE_DELETED := by
  induction list with
  | nil => exact fun h => h
  | cons p list ih =>
    intro fn_table h
    unfold prepare_fn_table
    split
    · rename_i old_name _ _
      apply ih
      intro path
      by_cases hpath : path = old_name
      · rw [hpath, AList.lookup_insert]
        exact Or.inr rfl
      · rw [AList.lookup_insert_ne hpath]
        exact h path
    · exact ih h

theorem Checking.start (o : apply_opts) (s₀ : apply_state) (list : List patch) :
    Checking o s₀ [] (prepare_fn_table ∅ list) s₀ where
  checked q hq := absurd hq List.not_mem_nil
  touched path q h := by cases h
  untouched path _ := ⟨rfl, prepare_fn_table_marks list (fun path => Or.inl (AList.lookup_empty path)) path⟩
  index := rfl
  work_tree _ := rfl

theorem Checking.step {o : apply_opts} {s₀ s s' : apply_state} {done : List patch}
    {fn_table : filename_table} {q : patch} {path : Bytes} (hc : Checking o s₀ done fn_table s)
    (hq : Checked q) (hname : q.name = path) (hkept : Kept o s s' path) :
    Checking o s₀ (done ++ [q]) (fn_table.insert path (status_of q)) s' where
  checked := by
    intro l hl
    rcases List.mem_append.mp hl with hl | hl
    · exact hc.checked l hl
    · rwa [List.mem_singleton.mp hl]
  touched := by
    intro other l hlast
    rw [last_on_append, hname] at hlast
    split_ifs at hlast with hsame
    · rw [← hsame, AList.lookup_insert, Option.some.inj hlast]
    · rw [AList.lookup_insert_ne (Ne.symm hsame)]
      exact hc.touched other l hlast
  untouched := by
    intro other hlast
    rw [last_on_append, hname] at hlast
    split_ifs at hlast with hsame
    obtain ⟨hstored, htable⟩ := hc.untouched other hlast
    rw [AList.lookup_insert_ne (Ne.symm hsame), hkept.2.2 other (Ne.symm hsame)]
    exact ⟨hstored, htable⟩
  index := hkept.1.trans hc.index
  work_tree hcached := (hkept.2.1 hcached).trans (hc.work_tree hcached)

/-- The patches of `done` in turn, with what the check makes of them. -/
def InTurn (o : apply_opts) (s₀ : apply_state) (done : List patch) (r : apply_state) : Prop :=
  ∀ path, stored r path =
    match last_on path done with
    | some q => place o (effect q) (stored s₀ path)
    | none => stored s₀ path

theorem effect_isNone (q : patch) : (effect q).isNone = q.deletes := by
  unfold effect
  split_ifs with h
  · exact h.symm
  · exact (Bool.not_eq_true _ ▸ h).symm

theorem InTurn.found {o : apply_opts} {s₀ r : apply_state} {done : List patch}
    (h : InTurn o s₀ done r) (path : Bytes) :
    current o (stored r path) = found o s₀ done path := by
  unfold apply.found
  rw [h path]
  cases last_on path done with
  | some q => exact current_place o (effect q) (stored s₀ path)
  | none => rfl

theorem InTurn.absent {o : apply_opts} {s₀ r : apply_state} {done : List patch}
    (h : InTurn o s₀ done r) (path : Bytes) :
    absent o (stored r path) =
      match last_on path done with
      | some q => q.deletes
      | none => absent o (stored s₀ path) := by
  rw [h path]
  cases last_on path done with
  | some q => exact (absent_place o (effect q) (stored s₀ path)).trans (effect_isNone q)
  | none => rfl

theorem InTurn.step {o : apply_opts} {s₀ r : apply_state} {done : List patch} {q : patch}
    (h : InTurn o s₀ done r) : InTurn o s₀ (done ++ [q]) (put o r q.name (effect q)) := by
  intro path
  rw [stored_put, last_on_append, h path]
  by_cases hpath : path = q.name
  · rw [if_pos hpath, if_pos hpath.symm]
    cases last_on path done with
    | some l => exact place_place o (effect q) (effect l) (stored s₀ path)
    | none => rfl
  · rw [if_neg hpath, if_neg (Ne.symm hpath)]

/-- A patch applies in turn where it fits, with the effect that the check gives it. -/
theorem apply_in_turn_eq {o : apply_opts} {s₀ r : apply_state} {done : List patch} {p q : patch}
    (hr : InTurn o s₀ done r) (ht : Turns o s₀ done p q) :
    (Fits o s₀ done p → apply_in_turn o r p = some (put o r p.name (effect q))) ∧
    (¬ Fits o s₀ done p → apply_in_turn o r p = none) := by
  have hcurrent := hr.found p.name
  have habsent := hr.absent p.name
  rcases ht with ⟨hkind, result, hresult, heffect⟩ | ⟨hold, hnot, file, result, hfound, hresult,
    hkind⟩
  · -- the path must be absent
    have hcreate : apply_in_turn o r p = create_in_turn o r p := by
      unfold apply_in_turn
      rcases hkind with ⟨hold, -⟩ | ⟨hold, hneg, -, hnone⟩
      · rw [hold]
      · obtain ⟨old_name, hname⟩ := Option.ne_none_iff_exists'.mp hold
        rw [hname, hcurrent, hnone]
        exact if_pos hneg
    have hfits : Fits o s₀ done p ↔ absent o (stored r p.name) = true := by
      rw [habsent]
      unfold Fits
      rcases hkind with ⟨-, hpos⟩ | ⟨-, hneg, hlast, hnone⟩
      · cases last_on p.name done with
        | some l => exact ⟨fun h => h hpos, fun h _ => h⟩
        | none => exact ⟨fun h => h (Or.inl hpos), fun h _ => h⟩
      · unfold found at hnone
        rw [hlast] at hnone ⊢
        exact ⟨fun h => h (Or.inr ⟨hneg, hnone⟩), fun h _ => h⟩
    rw [hcreate, hfits]
    unfold create_in_turn
    constructor
    · intro h
      rw [if_pos h, hresult, heffect]
      rfl
    · intro h
      rw [if_neg h]
  · -- the file is there, and the patch fits
    have hfits : Fits o s₀ done p := by
      unfold Fits
      unfold found at hfound
      cases hlast : last_on p.name done with
      | some l => exact fun hpos => absurd hpos hnot
      | none =>
        rw [hlast] at hfound
        rintro (hpos | ⟨-, hnone⟩)
        · exact absurd hpos hnot
        · simp only [hfound] at hnone
          cases hnone
    refine ⟨fun _ => ?_, fun h => absurd hfits h⟩
    obtain ⟨old_name, hname⟩ := Option.ne_none_iff_exists'.mp hold
    unfold apply_in_turn
    rw [hname, hcurrent, hfound]
    simp only [hresult, Option.bind_some]
    rcases hkind with ⟨hnew, rfl, heffect⟩ | ⟨hnew, heffect⟩
    · rw [hnew, heffect]
      rfl
    · obtain ⟨new_name, hnew⟩ := Option.ne_none_iff_exists'.mp hnew
      rw [hnew, heffect]

/-! ## The path and the kind of a patch -/

/-- What the check leaves as it was. -/
def key (p : patch) : Bytes × Bool := (p.name, p.deletes)

theorem last_on_deletes (path : Bytes) {list list' : List patch}
    (h : list.map key = list'.map key) :
    (last_on path list).map patch.deletes = (last_on path list').map patch.deletes := by
  have hkeys : ∀ l : List patch, (last_on path l).map patch.deletes =
      ((l.map key).reverse.find? fun k => k.1 = path).map Prod.snd := by
    intro l
    unfold last_on last_of
    rw [← List.map_reverse, List.find?_map, Option.map_map]
    rfl
  rw [hkeys, hkeys, h]

theorem fits_congr {o : apply_opts} {s : apply_state} {done done' : List patch} {p : patch}
    (h : done.map key = done'.map key) : Fits o s done p ↔ Fits o s done' p := by
  have hlast := last_on_deletes p.name h
  unfold Fits
  cases hone : last_on p.name done with
  | none =>
    rw [hone] at hlast
    have htwo : last_on p.name done' = none := Option.map_eq_none_iff.mp hlast.symm
    rw [htwo]
  | some q =>
    rw [hone] at hlast
    obtain ⟨q', htwo, hdel⟩ := Option.map_eq_some_iff.mp hlast.symm
    rw [htwo]
    simp only [hdel]

theorem deleted_never_written_congr {list list' : List patch}
    (h : list.map key = list'.map key) (hlist : DeletedIsNeverWritten list) :
    DeletedIsNeverWritten list' := by
  intro q' hq' p' hp' hdel
  have hkey : key q' ∈ list.map key := by
    rw [h]
    exact List.mem_map_of_mem hq'
  obtain ⟨q, hq, hsame⟩ := List.mem_map.mp hkey
  obtain ⟨hname, hqdel⟩ := Prod.mk.inj hsame
  have hlast := last_on_deletes q'.name h
  rw [Option.mem_def.mp hp'] at hlast
  obtain ⟨p, hp, hpdel⟩ := Option.map_eq_some_iff.mp hlast
  rw [← hqdel]
  exact hlist q hq p (hname ▸ hp) (hpdel.trans hdel)

/-! ## The whole list -/

/-- What the check of a list leaves, and when the patches apply in turn. -/
theorem check_patches_spec {o : apply_opts} {s₀ : apply_state} : ∀ {list : List patch}
    {done done' : List patch} {fn_table : filename_table} {s r s' : apply_state} {qs : List patch},
    Checking o s₀ done' fn_table s → InTurn o s₀ done' r → done.map key = done'.map key →
    (∀ p ∈ list, Plain p) → check_patches o fn_table s list = some (s', qs) →
    (∃ fn_table', Checking o s₀ (done' ++ qs) fn_table' s') ∧
      list.map key = qs.map key ∧
      (CreatedIsAbsent o s₀ done list →
        ∃ r', apply_all_in_turn o r list = some r' ∧ InTurn o s₀ (done' ++ qs) r') ∧
      (¬ CreatedIsAbsent o s₀ done list → apply_all_in_turn o r list = none) := by
  intro list
  induction list with
  | nil =>
    intro done done' fn_table s r s' qs hc hr _ _ h
    obtain ⟨rfl, rfl⟩ := Prod.mk.inj (Option.some.inj h)
    rw [List.append_nil]
    exact ⟨⟨fn_table, hc⟩, rfl, fun _ => ⟨r, rfl, hr⟩, fun hnot => absurd trivial hnot⟩
  | cons p list ih =>
    intro done done' fn_table s r s' qs hc hr hkeys hplain h
    obtain ⟨hp, hrest⟩ := List.forall_mem_cons.mp hplain
    obtain ⟨⟨fn_table₁, s₁, q⟩, hpatch, hlist⟩ := Option.bind_eq_some_iff.mp h
    obtain ⟨⟨s₂, qs₂⟩, hpatches, hpair⟩ := Option.map_eq_some_iff.mp hlist
    obtain ⟨rfl, rfl⟩ := Prod.mk.inj hpair
    obtain ⟨hq, hname, hdel, rfl, hkept, hturns⟩ := check_patch_spec hc hp hpatch
    obtain ⟨hfits, hnot⟩ := apply_in_turn_eq hr hturns
    have hkey : key p = key q := Prod.ext hname.symm hdel.symm
    have hkeys' : (done ++ [p]).map key = (done' ++ [q]).map key := by
      rw [List.map_append, List.map_append, hkeys, List.map_singleton, List.map_singleton, hkey]
    have hr' : InTurn o s₀ (done' ++ [q]) (put o r p.name (effect q)) := hname ▸ hr.step
    obtain ⟨hchecking, hsame, hall, hnone⟩ :=
      ih (hc.step hq hname hkept) hr' hkeys' hrest hpatches
    rw [List.append_assoc, List.singleton_append] at hchecking hall
    refine ⟨hchecking, ?_, ?_, ?_⟩
    · rw [List.map_cons, List.map_cons, hkey, hsame]
    · rintro ⟨hfit, hcreated⟩
      obtain ⟨r', happly, hturn⟩ := hall hcreated
      refine ⟨r', ?_, hturn⟩
      unfold apply_all_in_turn
      rw [hfits ((fits_congr hkeys).mp hfit)]
      exact happly
    · intro hcreated
      unfold apply_all_in_turn
      by_cases hfit : Fits o s₀ done p
      · rw [hfits ((fits_congr hkeys).mp hfit)]
        exact hnone fun hlist => hcreated ⟨hfit, hlist⟩
      · rw [hnot (fun h => hfit ((fits_congr hkeys).mpr h))]
        rfl

/-- A place that a run writes has the same content before and after the check. -/
theorem Checking.place {o : apply_opts} {s₀ s : apply_state} {done : List patch}
    {fn_table : filename_table} (hc : Checking o s₀ done fn_table s) (file : Option blob)
    (path : Bytes) : place o file (stored s path) = place o file (stored s₀ path) := by
  unfold apply.place stored
  rw [hc.index]
  by_cases hcached : o.cached = true
  · rw [hc.work_tree hcached]
  · rw [if_neg hcached, if_neg hcached]

/-- No path is deleted for good after a write of it: the two phases keep the order. -/
theorem no_write_of_deleted {list : List patch} (hchecked : ∀ q ∈ list, Checked q) :
    DeletedIsNeverWritten list ↔ ∀ path p, last_on path list = some p → p.deletes = true →
      last_write path list = none := by
  constructor
  · intro h path p hp hdel
    apply List.find?_eq_none.mpr
    intro q hq hnew
    have hmem := List.mem_reverse.mp hq
    obtain ⟨hname, hkeeps⟩ := (hchecked q hmem).new_name (of_decide_eq_true hnew)
    have hqdel := h q hmem p (hname ▸ hp) hdel
    rw [hkeeps] at hqdel
    cases hqdel
  · intro h q hq p hp hdel
    by_contra hkeeps
    have hnone := List.find?_eq_none.mp (h q.name p hp hdel) q (List.mem_reverse.mpr hq)
    exact hnone (decide_eq_true ((hchecked q hq).writes hkeeps))

theorem last_write_last {path : Bytes} {list : List patch} {p : patch}
    (hchecked : ∀ q ∈ list, Checked q) (hlast : last_on path list = some p)
    (hdel : ¬ p.deletes = true) : last_write path list = some p := by
  obtain ⟨hname, hmem⟩ := last_on_name hlast
  have hp : decide (p.new_name = some path) = true :=
    decide_eq_true (hname ▸ (hchecked p hmem).writes hdel)
  unfold last_write last_of
  unfold last_on last_of at hlast
  rw [List.find?_eq_some_iff_append] at hlast ⊢
  obtain ⟨-, as, bs, hsplit, has⟩ := hlast
  refine ⟨hp, as, bs, hsplit, fun a ha => ?_⟩
  have hnot := has a ha
  by_contra hwrite
  have hmem_a : a ∈ list := List.mem_reverse.mp (hsplit ▸ List.mem_append_left _ ha)
  have hnew : a.new_name = some path := by simpa using hwrite
  rw [((hchecked a hmem_a).new_name hnew).1] at hnot
  simp at hnot

/-- The index and the disk have the file `a`. -/
def with_a : apply_state where
  work_tree := (∅ : path_map).insert [97] (blob_of 0o100644 [49])
  active_cache := (∅ : path_map).insert [97] (blob_of 0o100644 [49])

/-- `--index`. -/
def index_opts : apply_opts := ⟨true, false, by decide⟩

def change_a : patch :=
  ⟨some [97], some [97], 0, 0, 0, 0, fun buf => if buf = [49] then some [50] else none, []⟩

def delete_a : patch :=
  ⟨none, some [97], 0o100644, 0, 0, 1, fun buf => if buf = [50] then some [] else none, []⟩

/-- A creation of `b`, with the change of `a` after it. -/
def create_b : patch := ⟨some [98], none, 0, 0o100755, 1, 0, fun _ => some [51], []⟩

theorem change_a_plain : Plain change_a :=
  Or.inr (Or.inr ⟨[97], rfl, rfl, le_refl 0, le_refl 0, fun _ => rfl⟩)

end git.apply
