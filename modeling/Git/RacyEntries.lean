-- What an entry of the index that counts as unchanged says about its file, and that adding and
-- refreshing entries keep it so.
import Git.RefreshIndex
import Git.AddIndexEntry

namespace git

/-! ## Entries that lost others only -/

/-- Adding an entry leaves entries of the index and the added one. -/
theorem mem_has_dir_name_from (ce : cache_entry) (ok : Bool) (lens : List Nat)
    (istate : index_state) (retval : Bool) :
    (has_dir_name_from ce ok lens istate retval).1.cache.Sublist istate.cache ∧
      (has_dir_name_from ce ok lens istate retval).1.timestamp = istate.timestamp := by
  induction lens generalizing istate retval with
  | nil => exact ⟨List.Sublist.refl _, rfl⟩
  | cons len lens ih =>
    rw [has_dir_name_from]
    split
    · split
      · exact ⟨List.Sublist.refl _, rfl⟩
      · rename_i pos hpos hsome _
        obtain ⟨e, he, -⟩ := Option.map_eq_some_iff.mp hsome
        rw [hpos] at he
        have ht := trims_remove (P := fun _ => True) he trivial
        obtain ⟨hsub, htime⟩ := ih (remove_index_entry_at istate pos).1 true
        exact ⟨hsub.trans ht.sublist, htime.trans ht.timestamp⟩
    · split
      · exact ⟨List.Sublist.refl _, rfl⟩
      · exact ih istate retval

theorem subset_check_conflict (ce : cache_entry) (ok : Bool) (istate : index_state) (pos : Nat) :
    (check_file_directory_conflict istate ce pos ok).1.cache ⊆ istate.cache ∧
      (check_file_directory_conflict istate ce pos ok).1.timestamp = istate.timestamp := by
  unfold check_file_directory_conflict
  split
  · exact ⟨List.Subset.refl _, rfl⟩
  · have hfile := trims_has_file_name_from ce ok (istate.cache_nr - pos) istate pos false
    obtain ⟨hsub, htime⟩ := mem_has_dir_name_from ce ok
      (slashes (ce.name.take (ce_namelen ce))) (has_file_name istate ce pos ok).1 false
    exact ⟨(hsub.trans hfile.sublist).subset, htime.trans hfile.timestamp⟩

theorem subset_after_same_name (istate : index_state) (ce : cache_entry) (pos : Nat) (ok : Bool) :
    (after_same_name istate ce pos ok).1.cache ⊆ istate.cache ∧
      (after_same_name istate ce pos ok).1.timestamp = istate.timestamp := by
  unfold after_same_name
  split_ifs
  · have h := trims_remove_same_name ce pos istate.cache_nr istate ok
    exact ⟨h.sublist.subset, h.timestamp⟩
  · exact ⟨List.Subset.refl _, rfl⟩

/-- The entries that adding `ce` leaves. -/
def Left (istate : index_state) (ce : cache_entry) (istate' : index_state) : Prop :=
  istate'.timestamp = istate.timestamp ∧
    ∀ e ∈ istate'.cache, e ∈ istate.cache ∨ ∃ s, e = add_name_hash s ce

theorem Left.of_subset {istate istate' : index_state} {ce : cache_entry}
    (h : istate'.cache ⊆ istate.cache ∧ istate'.timestamp = istate.timestamp) :
    Left istate ce istate' := ⟨h.2, fun _ he => Or.inl (h.1 he)⟩

theorem Left.insert {istate istate' : index_state} {ce : cache_entry} (h : Left istate ce istate')
    (pos : Nat) : Left istate ce (istate'.insert pos ce) := by
  refine ⟨h.1, fun e he => ?_⟩
  rcases List.eq_or_mem_of_mem_insertIdx he with rfl | he
  · exact Or.inr ⟨istate', rfl⟩
  · exact h.2 e he

theorem left_add_index_entry (istate : index_state) (ce : cache_entry) {option : add_option}
    (hj : option.just_append = false) : Left istate ce (add_index_entry istate ce option).1 := by
  have hstart : Left istate ce (istate.invalidate_path ce.name) :=
    ⟨rfl, fun e he => Or.inl he⟩
  cases hpos : index_name_pos istate ce.name ce.ce_flags with
  | found pos =>
    rw [add_index_entry_found hj hpos]
    split_ifs
    · exact hstart
    · refine ⟨rfl, fun e he => ?_⟩
      rcases List.mem_or_eq_of_mem_set he with he | rfl
      · exact Or.inl he
      · exact Or.inr ⟨_, rfl⟩
  | absent pos =>
    rw [add_index_entry_absent hj hpos]
    dsimp only
    obtain ⟨hsub1, htime1⟩ := subset_after_same_name (istate.invalidate_path ce.name) ce pos
      option.ok_to_add
    set s1 := (after_same_name (istate.invalidate_path ce.name) ce pos option.ok_to_add).1
    obtain ⟨hsub2, htime2⟩ := subset_check_conflict ce option.ok_to_replace s1 pos
    set s2 := (check_file_directory_conflict s1 ce pos option.ok_to_replace).1
    have hs1 : Left istate ce s1 := Left.of_subset ⟨hsub1, htime1⟩
    have hs2 : Left istate ce s2 := Left.of_subset ⟨List.Subset.trans hsub2 hsub1, htime2.trans htime1⟩
    split_ifs
    · exact hs1
    · exact hs1.insert pos
    · exact hs2.insert pos
    · exact hs2
    · exact hs2.insert _

/-! ## Flags -/

theorem has_mark_apart (ce : cache_entry) {mask keep : BitVec 32} (h : mask &&& keep = 0) :
    (ce.mark mask).has keep = ce.has keep := by
  unfold cache_entry.has cache_entry.mark
  rw [or_and_apart h]

theorem has_clear_apart (ce : cache_entry) {mask keep : BitVec 32} (h : mask &&& keep = 0) :
    (ce.clear mask).has keep = ce.has keep := by
  unfold cache_entry.has cache_entry.clear
  rw [andNot_and_apart h]

theorem has_add_name_hash (istate : index_state) (ce : cache_entry) {keep : BitVec 32}
    (h1 : CE_UNHASHED &&& keep = 0) (h2 : CE_HASHED &&& keep = 0) :
    (add_name_hash istate ce).has keep = ce.has keep := by
  unfold add_name_hash
  dsimp only
  split_ifs
  · rw [has_mark_apart _ h2, has_clear_apart _ h1]
  · exact has_clear_apart _ h1

/-- The entry with other flags. -/
def Reflagged (ce ce' : cache_entry) : Prop := ce' = { ce with ce_flags := ce'.ce_flags }

theorem reflagged_mark (ce : cache_entry) (mask : BitVec 32) : Reflagged ce (ce.mark mask) := rfl

theorem reflagged_clear (ce : cache_entry) (mask : BitVec 32) : Reflagged ce (ce.clear mask) := rfl

theorem reflagged_add_name_hash (istate : index_state) (ce : cache_entry) :
    Reflagged ce (add_name_hash istate ce) := by
  unfold add_name_hash
  dsimp only
  split_ifs
  · rfl
  · rfl

/-! ## What an unchanged entry says -/

/-- The entry is for a file, and no flag keeps it from being looked at. -/
structure Watched (ce : cache_entry) : Prop where
  not_valid : ce.has CE_VALID = false
  not_skipped : ce_skip_worktree ce = false
  not_intent : ce.has CE_INTENT_TO_ADD = false
  not_gitlink : S_ISGITLINK ce.ce_mode = false

/-- The content of the file has the name of the entry. -/
def Honest (wt : worktree) (ce : cache_entry) (f : worktree_file) : Prop :=
  ∀ data, f.data = some data → wt.hash_blob data = ce.sha1

/-- What may be trusted of an entry: that it matches when the index is younger, and the mark of
an entry that was looked at. -/
structure Safe (cfg : config) (wt : worktree) (istate : index_state) (ce : cache_entry) : Prop where
  matched : Watched ce → ∀ f, wt.lstat ce.name = some f → S_ISREG f.st.st_mode →
    ce_match_stat_basic cfg ce f = some 0 → is_racy_timestamp istate ce = false → Honest wt ce f
  uptodate : Watched ce → ce_uptodate ce → ∀ f, wt.lstat ce.name = some f →
    S_ISREG f.st.st_mode → Honest wt ce f

variable {cfg : config} {wt : worktree} {istate : index_state} {ce : cache_entry}

/-- The fields that count for a match. -/
theorem match_stat_basic_congr {ce' : cache_entry} (h : Reflagged ce ce')
    (hrem : ce'.has CE_REMOVE = ce.has CE_REMOVE) (f : worktree_file) :
    ce_match_stat_basic cfg ce' f = ce_match_stat_basic cfg ce f := by
  unfold ce_match_stat_basic
  rw [hrem, h]
  rfl

theorem modified_check_fs_honest {f : worktree_file} (hreg : S_ISREG f.st.st_mode)
    (h : ce_modified_check_fs wt ce f = 0) : Honest wt ce f := by
  intro data hdata
  have hbit : DATA_CHANGED ≠ 0 := by decide
  unfold ce_modified_check_fs ce_compare_data at h
  rw [if_pos hreg, hdata] at h
  by_contra hne
  simp only [bne_iff_ne, ne_eq, hne, not_false_eq_true, if_true] at h
  exact hbit h

theorem match_stat_honest {f : worktree_file} {options : match_option}
    (hsafe : Safe cfg wt istate ce) (hwatched : Watched ce) (hf : wt.lstat ce.name = some f)
    (hreg : S_ISREG f.st.st_mode) (h : ie_match_stat cfg wt istate ce f options = some 0) :
    Honest wt ce f := by
  have hbit : DATA_CHANGED ≠ 0 := by decide
  have hwatched' := hwatched
  obtain ⟨hvalid, hskip, hintent, -⟩ := hwatched
  unfold ie_match_stat at h
  simp only [hvalid, hskip, hintent, Bool.and_false, Bool.false_eq_true, if_false] at h
  cases hbasic : ce_match_stat_basic cfg ce f with
  | none => simp [hbasic] at h
  | some changed =>
    simp only [hbasic] at h
    split_ifs at h with hracy hdirty
    · exact absurd (Option.some.inj h) hbit
    · exact modified_check_fs_honest hreg (Option.some.inj h)
    · rw [Option.some.inj h] at hbasic hracy
      refine hsafe.matched hwatched' f hf hreg hbasic ?_
      simpa using hracy

/-- `ie_modified` calls no file unchanged that has another content. -/
theorem modified_honest {f : worktree_file} {options : match_option}
    (hsafe : Safe cfg wt istate ce) (hwatched : Watched ce) (hf : wt.lstat ce.name = some f)
    (hreg : S_ISREG f.st.st_mode) (h : ie_modified cfg wt istate ce f options = some 0) :
    Honest wt ce f := by
  unfold ie_modified at h
  cases hmatch : ie_match_stat cfg wt istate ce f options with
  | none => simp [hmatch] at h
  | some changed =>
    simp only [hmatch] at h
    split_ifs at h with hzero hmode hdata hfs
    · rw [hzero] at hmatch
      exact match_stat_honest hsafe hwatched hf hreg hmatch
    · rw [Option.some.inj h] at hmode
      exact absurd (BitVec.zero_and) hmode
    · rw [Option.some.inj h] at hzero
      exact absurd rfl hzero
    · have hor := BitVec.or_eq_zero_iff.mp (Option.some.inj h)
      exact absurd hor.2 hfs
    · exact modified_check_fs_honest hreg (not_not.mp hfs)

/-- An entry that has the name of its file can be trusted. -/
theorem Safe.of_honest (h : ∀ f, wt.lstat ce.name = some f → S_ISREG f.st.st_mode →
    Honest wt ce f) : Safe cfg wt istate ce :=
  ⟨fun _ f hf hreg _ _ => h f hf hreg, fun _ _ f hf hreg => h f hf hreg⟩

/-- An entry that is not looked at promises nothing. -/
theorem Safe.of_unwatched (h : ¬ Watched ce) : Safe cfg wt istate ce :=
  ⟨fun hw => absurd hw h, fun hw => absurd hw h⟩

theorem Safe.of_timestamp {istate' : index_state} (hsafe : Safe cfg wt istate ce)
    (h : istate'.timestamp = istate.timestamp) : Safe cfg wt istate' ce := by
  refine ⟨fun hw f hf hreg hbasic hracy => hsafe.matched hw f hf hreg hbasic ?_, hsafe.uptodate⟩
  unfold is_racy_timestamp at hracy ⊢
  rw [← h]
  exact hracy

/-- Other flags change nothing if the mark is not set and no watch begins. -/
theorem Safe.reflag {ce' : cache_entry} (hsafe : Safe cfg wt istate ce) (h : Reflagged ce ce')
    (hrem : ce'.has CE_REMOVE = ce.has CE_REMOVE) (hwatched : Watched ce' → Watched ce)
    (hup : Watched ce' → ce_uptodate ce' → ce_uptodate ce ∨
      ∀ f, wt.lstat ce.name = some f → S_ISREG f.st.st_mode → Honest wt ce f) :
    Safe cfg wt istate ce' := by
  have hname : ce'.name = ce.name := by rw [h]
  have hsha1 : ce'.sha1 = ce.sha1 := by rw [h]
  have hracy : is_racy_timestamp istate ce' = is_racy_timestamp istate ce := by
    rw [h]
    rfl
  have hhonest : ∀ f, Honest wt ce f → Honest wt ce' f := by
    intro f hf data hdata
    rw [hsha1]
    exact hf data hdata
  refine ⟨fun hw f hf hreg hbasic hnot => hhonest f ?_, fun hw hmark f hf hreg => hhonest f ?_⟩
  · rw [hname] at hf
    rw [match_stat_basic_congr h hrem] at hbasic
    rw [hracy] at hnot
    exact hsafe.matched (hwatched hw) f hf hreg hbasic hnot
  · rw [hname] at hf
    rcases hup hw hmark with hmark' | hall
    · exact hsafe.uptodate (hwatched hw) hmark' f hf hreg
    · exact hall f hf hreg

/-! ## Refreshing keeps the trust -/

theorem watched_mark_uptodate : Watched (ce_mark_uptodate ce) → Watched ce := by
  rintro ⟨hvalid, hskip, hintent, hfile⟩
  refine ⟨?_, ?_, ?_, hfile⟩
  · rw [← hvalid]
    exact (has_mark_apart ce (by decide)).symm
  · rw [← hskip]
    exact (has_mark_apart ce (by decide)).symm
  · rw [← hintent]
    exact (has_mark_apart ce (by decide)).symm

/-- An entry can be marked after a look at its file. -/
theorem Safe.mark_uptodate (hsafe : Safe cfg wt istate ce)
    (h : Watched ce → ∀ f, wt.lstat ce.name = some f → S_ISREG f.st.st_mode → Honest wt ce f) :
    Safe cfg wt istate (ce_mark_uptodate ce) :=
  hsafe.reflag (reflagged_mark ce _) (has_mark_apart ce (by decide)) watched_mark_uptodate
    fun hw _ => Or.inr (h (watched_mark_uptodate hw))

theorem fill_stat_fields (ce : cache_entry) (st : stat) :
    (fill_stat_cache_info cfg ce st).name = ce.name ∧
      (fill_stat_cache_info cfg ce st).sha1 = ce.sha1 ∧
      (fill_stat_cache_info cfg ce st).ce_mode = ce.ce_mode := by
  unfold fill_stat_cache_info
  dsimp only
  split_ifs
  · exact ⟨rfl, rfl, rfl⟩
  · exact ⟨rfl, rfl, rfl⟩
  · exact ⟨rfl, rfl, rfl⟩
  · exact ⟨rfl, rfl, rfl⟩

theorem fill_stat_has (ce : cache_entry) (st : stat) {keep : BitVec 32}
    (h1 : CE_VALID &&& keep = 0) (h2 : CE_UPTODATE &&& keep = 0) :
    (fill_stat_cache_info cfg ce st).has keep = ce.has keep := by
  unfold fill_stat_cache_info ce_mark_uptodate
  dsimp only
  split_ifs
  · rw [has_mark_apart _ h2, has_mark_apart _ h1]
    rfl
  · exact has_mark_apart _ h2
  · exact has_mark_apart _ h1
  · rfl

/-- A valid bit stays. -/
theorem fill_stat_valid (st : stat) (h : ce.has CE_VALID) :
    (fill_stat_cache_info cfg ce st).has CE_VALID := by
  unfold fill_stat_cache_info ce_mark_uptodate
  dsimp only
  split_ifs
  · rw [has_mark_apart _ (by decide)]
    exact has_mark _ (by decide)
  · rw [has_mark_apart _ (by decide)]
    exact h
  · exact has_mark _ (by decide)
  · exact h

/-- When a match does not count, the valid bit aside, the entry is not a match. -/
theorem modified_of_match (wt : worktree) {f : worktree_file} {options : match_option}
    (hvalid : options.ignore_valid = true) (hskip : ce_skip_worktree ce = false)
    (hintent : ce.has CE_INTENT_TO_ADD = false) (hbasic : ce_match_stat_basic cfg ce f = some 0)
    (hracy : is_racy_timestamp istate ce = false) :
    ie_modified cfg wt istate ce f options = some 0 := by
  unfold ie_modified ie_match_stat
  simp [hvalid, hskip, hintent, hbasic, hracy]

/-- What comes of an entry that can be trusted. -/
def Trusted (cfg : config) (wt : worktree) (istate : index_state) (ce : cache_entry)
    (options : match_option) : refreshed → Prop
  | .same ce' => Safe cfg wt istate ce'
  | .updated ce' => Safe cfg wt istate ce'
  | .missing => True
  | .modified => options.ignore_valid = true → Safe cfg wt istate (ce.clear CE_VALID)

theorem refresh_copy_trusted {f : worktree_file} {options : match_option}
    (hsafe : Safe cfg wt istate ce) (hf : wt.lstat ce.name = some f)
    (hmodified : ie_modified cfg wt istate ce f options = some 0) :
    Safe cfg wt istate (refresh_copy cfg ce f.st options) := by
  obtain ⟨hname, hsha1, hmode⟩ : (fill_stat_cache_info cfg ce f.st).name = ce.name ∧
      (fill_stat_cache_info cfg ce f.st).sha1 = ce.sha1 ∧
      (fill_stat_cache_info cfg ce f.st).ce_mode = ce.ce_mode := fill_stat_fields ce f.st
  have hname' : (refresh_copy cfg ce f.st options).name = ce.name := by
    unfold refresh_copy
    dsimp only
    split_ifs
    · exact hname
    · exact hname
  have hsha1' : (refresh_copy cfg ce f.st options).sha1 = ce.sha1 := by
    unfold refresh_copy
    dsimp only
    split_ifs
    · exact hsha1
    · exact hsha1
  have hmode' : (refresh_copy cfg ce f.st options).ce_mode = ce.ce_mode := by
    unfold refresh_copy
    dsimp only
    split_ifs
    · exact hmode
    · exact hmode
  have hhas : ∀ {keep : BitVec 32}, CE_VALID &&& keep = 0 → CE_UPTODATE &&& keep = 0 →
      (refresh_copy cfg ce f.st options).has keep = ce.has keep := by
    intro keep h1 h2
    unfold refresh_copy
    dsimp only
    split_ifs
    · rw [has_clear_apart _ h1, fill_stat_has ce f.st h1 h2]
    · exact fill_stat_has ce f.st h1 h2
  have hvalid : ce.has CE_VALID → (refresh_copy cfg ce f.st options).has CE_VALID := by
    intro h
    unfold refresh_copy
    dsimp only
    rw [h, Bool.not_true, Bool.and_false, if_neg Bool.false_ne_true]
    exact fill_stat_valid f.st h
  by_cases hwatched : Watched (refresh_copy cfg ce f.st options)
  · have hbefore : Watched ce := by
      refine ⟨?_, ?_, ?_, ?_⟩
      · by_contra hv
        have := hvalid (by simpa using hv)
        rw [hwatched.not_valid] at this
        exact Bool.false_ne_true this
      · rw [← hwatched.not_skipped]
        exact (hhas (by decide) (by decide)).symm
      · rw [← hwatched.not_intent]
        exact (hhas (by decide) (by decide)).symm
      · rw [← hmode']
        exact hwatched.not_gitlink
    refine Safe.of_honest fun f' hf' hreg data hdata => ?_
    rw [hname', hf] at hf'
    cases hf'
    rw [hsha1']
    exact modified_honest hsafe hbefore hf hreg hmodified data hdata
  · exact Safe.of_unwatched hwatched

theorem refresh_cache_ent_trusted {options : match_option} {r : refreshed}
    (hsafe : Safe cfg wt istate ce) (h : refresh_cache_ent cfg wt istate ce options = some r) :
    Trusted cfg wt istate ce options r := by
  unfold refresh_cache_ent at h
  by_cases hup : ce_uptodate ce
  · rw [if_pos hup, Option.some.injEq] at h
    rw [← h]
    exact hsafe
  rw [if_neg hup] at h
  by_cases hskip : !options.ignore_skip_worktree && ce_skip_worktree ce
  · rw [if_pos hskip, Option.some.injEq] at h
    rw [← h]
    refine hsafe.mark_uptodate fun hw => ?_
    rw [hw.not_skipped, Bool.and_false] at hskip
    exact absurd hskip Bool.false_ne_true
  rw [if_neg hskip] at h
  by_cases hvalid : !options.ignore_valid && ce.has CE_VALID
  · rw [if_pos hvalid, Option.some.injEq] at h
    rw [← h]
    refine hsafe.mark_uptodate fun hw => ?_
    rw [hw.not_valid, Bool.and_false] at hvalid
    exact absurd hvalid Bool.false_ne_true
  rw [if_neg hvalid] at h
  cases hf : wt.lstat ce.name with
  | none =>
    simp only [hf, Option.some.injEq] at h
    rw [← h]
    trivial
  | some f =>
    simp only [hf] at h
    cases hmatch : ie_match_stat cfg wt istate ce f options with
    | none => simp [hmatch] at h
    | some changed =>
      cases hmod : ie_modified cfg wt istate ce f options with
      | none => simp [hmatch, hmod] at h
      | some modified =>
        simp only [hmatch, hmod] at h
        by_cases hsame : changed = 0 ∧
            ¬ (options.ignore_valid ∧ cfg.assume_unchanged ∧ ce.has CE_VALID = false)
        · rw [if_pos hsame, Option.some.injEq] at h
          rw [← h]
          split_ifs
          · exact hsafe
          · refine hsafe.mark_uptodate fun hw f' hf' hreg => ?_
            rw [hf] at hf'
            cases hf'
            rw [hsame.1] at hmatch
            exact match_stat_honest hsafe hw hf hreg hmatch
        · rw [if_neg hsame] at h
          by_cases hne : modified ≠ 0
          · rw [if_pos hne, Option.some.injEq] at h
            rw [← h]
            intro hignore
            refine ⟨fun hw f' hf' hreg hbasic hracy => ?_, fun _ hmark => ?_⟩
            · have hskip' : ce_skip_worktree ce = false := by
                rw [← hw.not_skipped]
                exact (has_clear_apart ce (by decide)).symm
              have hintent : ce.has CE_INTENT_TO_ADD = false := by
                rw [← hw.not_intent]
                exact (has_clear_apart ce (by decide)).symm
              have hff : f' = f := Option.some.inj (hf'.symm.trans hf)
              rw [match_stat_basic_congr (reflagged_clear ce _)
                (has_clear_apart ce (by decide)), hff] at hbasic
              have hzero := modified_of_match wt hignore hskip' hintent hbasic hracy
              rw [hmod] at hzero
              exact absurd (Option.some.inj hzero) hne
            · rw [ce_uptodate, has_clear_apart ce (by decide)] at hmark
              exact absurd hmark hup
          · rw [if_neg hne, Option.some.injEq] at h
            rw [← h]
            rw [not_not.mp hne] at hmod
            exact refresh_copy_trusted hsafe hf hmod

theorem Safe.add_name_hash (s : index_state) (hsafe : Safe cfg wt istate ce) :
    Safe cfg wt istate (add_name_hash s ce) := by
  have hhas : ∀ {keep : BitVec 32}, CE_UNHASHED &&& keep = 0 → CE_HASHED &&& keep = 0 →
      (git.add_name_hash s ce).has keep = ce.has keep := fun h1 h2 => has_add_name_hash s ce h1 h2
  refine hsafe.reflag (reflagged_add_name_hash s ce) (hhas (by decide) (by decide)) ?_ ?_
  · rintro ⟨hvalid, hskip, hintent, hfile⟩
    rw [hhas (by decide) (by decide)] at hvalid hintent
    rw [ce_skip_worktree, hhas (by decide) (by decide)] at hskip
    rw [reflagged_add_name_hash s ce] at hfile
    exact ⟨hvalid, hskip, hintent, hfile⟩
  · intro _ hmark
    rw [ce_uptodate, hhas (by decide) (by decide)] at hmark
    exact Or.inl hmark

/-- One turn of the loop: the entry stays, or another that can be trusted takes its place. -/
theorem refresh_entries_cons {flags : refresh_flags} {pathspec : Bytes → Bool}
    {skip : Option Bytes} {cache : List cache_entry} {r : refresh_result}
    (hsafe : Safe cfg wt istate ce)
    (h : refresh_entries cfg wt istate flags pathspec skip (ce :: cache) = some r) :
    ∃ ce' skip' r', Safe cfg wt istate ce' ∧ r.cache = ce' :: r'.cache ∧
      refresh_entries cfg wt istate flags pathspec skip' cache = some r' := by
  have hmap : ∀ {ce' : cache_entry} {skip' : Option Bytes} {g : refresh_result → refresh_result},
      Safe cfg wt istate ce' → (∀ r, (g r).cache = ce' :: r.cache) →
      (refresh_entries cfg wt istate flags pathspec skip' cache).map g = some r →
      ∃ ce' skip' r', Safe cfg wt istate ce' ∧ r.cache = ce' :: r'.cache ∧
        refresh_entries cfg wt istate flags pathspec skip' cache = some r' := by
    intro ce' skip' g hce' hg hrest
    obtain ⟨r', hr', rfl⟩ := Option.map_eq_some_iff.mp hrest
    exact ⟨ce', skip', r', hce', hg r', hr'⟩
  rw [refresh_entries] at h
  dsimp only at h
  by_cases h1 : skip = some ce.name
  · rw [if_pos h1] at h
    exact hmap hsafe (fun _ => rfl) h
  rw [if_neg h1] at h
  by_cases h2 : flags.ignore_submodules && S_ISGITLINK ce.ce_mode
  · rw [if_pos h2] at h
    exact hmap hsafe (fun _ => rfl) h
  rw [if_neg h2] at h
  by_cases h3 : ce_stage ce ≠ 0
  · rw [if_pos h3] at h
    exact hmap hsafe (fun _ => rfl) h
  rw [if_neg h3] at h
  by_cases h4 : !pathspec ce.name
  · rw [if_pos h4] at h
    exact hmap hsafe (fun _ => rfl) h
  rw [if_neg h4] at h
  cases hent : refresh_cache_ent cfg wt istate ce ⟨flags.really, false, false⟩ with
  | none => simp [hent] at h
  | some outcome =>
    have htrust := refresh_cache_ent_trusted hsafe hent
    rw [hent] at h
    cases outcome with
    | same ce' => exact hmap htrust (fun _ => rfl) h
    | updated ce' =>
      have hhashed : Safe cfg wt istate (git.add_name_hash istate ce') :=
        Safe.add_name_hash istate htrust
      exact hmap hhashed (fun _ => rfl) h
    | missing => exact hmap hsafe (fun _ => rfl) h
    | modified =>
      dsimp only at h
      by_cases hreally : flags.really
      · rw [if_pos hreally] at h
        exact hmap (htrust hreally) (fun _ => rfl) h
      · rw [if_neg hreally] at h
        exact hmap hsafe (fun _ => rfl) h

theorem refresh_entries_safe {flags : refresh_flags} {pathspec : Bytes → Bool}
    {cache : List cache_entry} (hall : ∀ ce ∈ cache, Safe cfg wt istate ce)
    {skip : Option Bytes} {r : refresh_result}
    (h : refresh_entries cfg wt istate flags pathspec skip cache = some r) :
    ∀ ce ∈ r.cache, Safe cfg wt istate ce := by
  induction cache generalizing skip r with
  | nil =>
    cases h
    exact fun ce hce => absurd hce List.not_mem_nil
  | cons ce cache ih =>
    obtain ⟨ce', skip', r', hce', hcache, hrest⟩ :=
      refresh_entries_cons (hall ce List.mem_cons_self) h
    rw [hcache]
    intro e he
    rcases List.mem_cons.mp he with rfl | he
    · exact hce'
    · exact ih (fun e he => hall e (List.mem_cons_of_mem _ he)) hrest e he

/-- All entries can be trusted. -/
def AllSafe (cfg : config) (wt : worktree) (istate : index_state) : Prop :=
  ∀ ce ∈ istate.cache, Safe cfg wt istate ce

theorem refresh_index_safe {flags : refresh_flags} {pathspec : Bytes → Bool}
    {istate' : index_state} {errors : Bool} (hall : AllSafe cfg wt istate)
    (h : refresh_index cfg wt istate flags pathspec = some (istate', errors)) :
    AllSafe cfg wt istate' ∧ istate'.timestamp = istate.timestamp := by
  obtain ⟨r, hr, heq⟩ := Option.map_eq_some_iff.mp h
  cases heq
  exact ⟨fun ce hce => (refresh_entries_safe hall hr ce hce).of_timestamp rfl, rfl⟩

/-! ## Adding keeps the trust -/

theorem index_name_exists_mem {path : Bytes} {alias_ce : cache_entry}
    (h : index_name_exists istate path = some alias_ce) :
    alias_ce ∈ istate.cache ∧ alias_ce.name = path := by
  refine ⟨List.mem_of_find?_eq_some h, ?_⟩
  have := List.find?_some h
  rw [Bool.and_eq_true, beq_iff_eq] at this
  exact this.2

/-- An unchanged entry is marked. -/
theorem nothing_changed_safe {alias_ce : cache_entry} (hall : AllSafe cfg wt istate)
    (h : Watched alias_ce → ∀ f, wt.lstat alias_ce.name = some f → S_ISREG f.st.st_mode →
      Honest wt alias_ce f) : AllSafe cfg wt (nothing_changed istate alias_ce) := by
  intro ce hce
  obtain ⟨ce', hce', rfl⟩ := List.mem_map.mp hce
  have hsafe := hall ce' hce'
  have hadded : ∀ {e : cache_entry}, Safe cfg wt istate e → Safe cfg wt istate (e.mark CE_ADDED) := by
    intro e he
    refine he.reflag (reflagged_mark e _) (has_mark_apart e (by decide)) ?_ ?_
    · rintro ⟨hvalid, hskip, hintent, hfile⟩
      rw [has_mark_apart e (by decide)] at hvalid hintent
      rw [ce_skip_worktree, has_mark_apart e (by decide)] at hskip
      exact ⟨hvalid, hskip, hintent, hfile⟩
    · intro _ hmark
      rw [ce_uptodate, has_mark_apart e (by decide)] at hmark
      exact Or.inl hmark
  by_cases heq : ce' = alias_ce
  · rw [if_pos heq, heq]
    rw [heq] at hsafe
    split_ifs
    · exact (hadded (hsafe.mark_uptodate h)).of_timestamp rfl
    · exact (hadded hsafe).of_timestamp rfl
  · rw [if_neg heq]
    exact hsafe.of_timestamp rfl

theorem entry_for_name (path : Bytes) (f : worktree_file) (intent : Bool) :
    (entry_for cfg path f intent).name = path := by
  unfold entry_for
  split_ifs
  · rfl
  · exact (fill_stat_fields _ _).1

/-- The entry for a file that was read can be trusted. -/
theorem read_entry_safe {path : Bytes} {f : worktree_file} {intent : Bool} {mode : BitVec 32}
    {sha1 : Sha1} (hf : wt.lstat path = some f)
    (hsha1 : (if intent then some EMPTY_BLOB_SHA1_BIN else index_path wt f) = some sha1) :
    Safe cfg wt istate
      ({ entry_for cfg path f intent with ce_mode := mode, sha1 := sha1 }.mark CE_ADDED) := by
  cases intent with
  | true =>
    refine Safe.of_unwatched fun hw => ?_
    have hintent := hw.not_intent
    rw [has_mark_apart _ (by decide)] at hintent
    have hset : (entry_for cfg path f true).has CE_INTENT_TO_ADD = true := by
      unfold entry_for
      exact has_mark _ (by decide)
    exact absurd (hset.symm.trans hintent) (by decide)
  | false =>
    refine Safe.of_honest fun f' hf' hreg data hdata => ?_
    have hff : f' = f := by
      rw [cache_entry.mark] at hf'
      dsimp only at hf'
      rw [entry_for_name, hf] at hf'
      exact (Option.some.inj hf').symm
    rw [hff] at hreg hdata
    rw [if_neg Bool.false_ne_true, index_path, if_pos hreg, hdata] at hsha1
    exact Option.some.inj hsha1

theorem dir_not_reg {mode : BitVec 32} (h : S_ISDIR mode) :
    S_ISREG mode = false ∧ S_ISLNK mode = false := by
  have hdir : mode &&& S_IFMT = S_IFDIR := by simpa [S_ISDIR] using h
  rw [S_ISREG, S_ISLNK, hdir]
  exact ⟨by decide, by decide⟩

theorem create_ce_mode_dir {mode : BitVec 32} (h : S_ISDIR mode) :
    S_ISGITLINK (create_ce_mode mode) := by
  unfold create_ce_mode
  rw [(dir_not_reg h).2, h, Bool.true_or, if_neg Bool.false_ne_true, if_pos rfl]
  decide

theorem ce_mode_from_stat_dir {mode : BitVec 32} (h : S_ISDIR mode) (ent : Option cache_entry) :
    S_ISGITLINK (ce_mode_from_stat cfg ent mode) := by
  unfold ce_mode_from_stat
  cases ent <;> simp [(dir_not_reg h).1, create_ce_mode_dir h]

/-- The path without slashes at the end, if it is of a directory. -/
def added_path (path : Bytes) (f : worktree_file) : Bytes :=
  if S_ISDIR f.st.st_mode then strip_slashes path else path

def added_mode (cfg : config) (istate : index_state) (path : Bytes) (f : worktree_file) :
    BitVec 32 :=
  if cfg.trust_executable_bit && cfg.has_symlinks then create_ce_mode f.st.st_mode
  else ce_mode_from_stat cfg (index_name_pos_also_unmerged istate (added_path path f)) f.st.st_mode

/-- The entry that `add_to_index` adds. -/
def added_entry (cfg : config) (istate : index_state) (path : Bytes) (f : worktree_file)
    (intent : Bool) (sha1 : Sha1) : cache_entry :=
  { entry_for cfg (added_path path f) f intent with
    ce_mode := added_mode cfg istate path f
    sha1 := sha1 }.mark CE_ADDED

theorem added_entry_safe {path : Bytes} {f : worktree_file} {intent : Bool} {sha1 : Sha1}
    (hf : wt.lstat path = some f)
    (hsha1 : (if intent then some EMPTY_BLOB_SHA1_BIN else index_path wt f) = some sha1) :
    Safe cfg wt istate (added_entry cfg istate path f intent sha1) := by
  unfold added_entry added_path
  by_cases hdir : S_ISDIR f.st.st_mode
  · refine Safe.of_unwatched fun hw => ?_
    have hmode : S_ISGITLINK (added_mode cfg istate path f) := by
      unfold added_mode
      split_ifs
      · exact create_ce_mode_dir hdir
      · exact ce_mode_from_stat_dir hdir _
    exact absurd (hmode.symm.trans hw.not_gitlink) (by decide)
  · rw [if_neg hdir]
    exact read_entry_safe hf hsha1

/-- What adding a file comes to. -/
theorem add_to_index_cases {path : Bytes} {f : worktree_file} {flags : add_flags}
    {istate' : index_state} {ok : Bool}
    (h : add_to_index cfg wt istate path f flags = some (istate', ok)) :
    istate' = istate ∨
      (∃ alias_ce, alias_ce ∈ istate.cache ∧ alias_ce.name = added_path path f ∧
        ie_match_stat cfg wt istate alias_ce f ⟨true, true, true⟩ = some 0 ∧
        istate' = nothing_changed istate alias_ce) ∨
      ∃ sha1, (if flags.intent then some EMPTY_BLOB_SHA1_BIN else index_path wt f) = some sha1 ∧
        istate' = (add_index_entry istate (added_entry cfg istate path f flags.intent sha1)
          (add_to_index_option flags.intent)).1 := by
  have hrest : ∀ r : Option (index_state × Bool),
      ((if flags.intent then some EMPTY_BLOB_SHA1_BIN else index_path wt f) = none →
        r = some (istate, false)) →
      (∀ sha1, (if flags.intent then some EMPTY_BLOB_SHA1_BIN else index_path wt f) = some sha1 →
        r = if flags.pretend then some (istate, true)
          else some (add_index_entry istate (added_entry cfg istate path f flags.intent sha1)
            (add_to_index_option flags.intent))) → r = some (istate', ok) → istate' = istate ∨
      ∃ sha1, (if flags.intent then some EMPTY_BLOB_SHA1_BIN else index_path wt f) = some sha1 ∧
        istate' = (add_index_entry istate (added_entry cfg istate path f flags.intent sha1)
          (add_to_index_option flags.intent)).1 := by
    intro r hnone hsome h
    cases hsha1 : (if flags.intent then some EMPTY_BLOB_SHA1_BIN else index_path wt f) with
    | none =>
      rw [hnone hsha1] at h
      cases h
      exact Or.inl rfl
    | some sha1 =>
      rw [hsome sha1 hsha1] at h
      by_cases hp : flags.pretend
      · rw [if_pos hp] at h
        cases h
        exact Or.inl rfl
      · rw [if_neg hp, Option.some.injEq] at h
        exact Or.inr ⟨sha1, rfl, by rw [h]⟩
  unfold add_to_index at h
  by_cases hkind : !S_ISREG f.st.st_mode && !S_ISLNK f.st.st_mode && !S_ISDIR f.st.st_mode
  · rw [if_pos hkind] at h
    cases h
    exact Or.inl rfl
  rw [if_neg hkind] at h
  cases halias : (index_name_exists istate (added_path path f)).filter (ce_stage · = 0) with
  | none =>
    have h' := h
    unfold added_path at halias
    simp only [halias] at h
    refine (hrest _ (fun hs => by rw [hs]) (fun sha1 hs => ?_) h).imp_right Or.inr
    rw [hs]
    rfl
  | some alias_ce =>
    obtain ⟨hexists, -⟩ := Option.filter_eq_some_iff.mp halias
    obtain ⟨hmem, hname⟩ := index_name_exists_mem hexists
    unfold added_path at halias
    simp only [halias, Option.map_some] at h
    cases hmatch : ie_match_stat cfg wt istate alias_ce f ⟨true, true, true⟩ with
    | none => simp [hmatch] at h
    | some changed =>
      by_cases hzero : changed = 0
      · rw [hzero] at hmatch
        simp only [hmatch] at h
        cases h
        exact Or.inr (Or.inl ⟨alias_ce, hmem, hname, hmatch, rfl⟩)
      · simp only [hmatch] at h
        split at h
        · rename_i heq
          cases heq
        · rename_i heq
          cases heq
          exact absurd rfl hzero
        · refine (hrest _ (fun hs => by rw [hs]) (fun sha1 hs => ?_) h).imp_right Or.inr
          rw [hs]
          rfl

/-- No entry for a file matches a directory. -/
theorem directory_not_matched {f : worktree_file} {options : match_option} (hw : Watched ce)
    (hdir : S_ISDIR f.st.st_mode) : ie_match_stat cfg wt istate ce f options ≠ some 0 := by
  have hbit : TYPE_CHANGED ≠ 0 := by decide
  have hall : MODE_CHANGED ||| DATA_CHANGED ||| TYPE_CHANGED ≠ 0 := by decide
  obtain ⟨hreg, hlnk⟩ := dir_not_reg hdir
  have hbasic : ∀ changed, ce_match_stat_basic cfg ce f = some changed → changed ≠ 0 := by
    intro changed h hzero
    rw [hzero] at h
    unfold ce_match_stat_basic at h
    by_cases hrem : ce.has CE_REMOVE
    · rw [if_pos hrem] at h
      exact hall (Option.some.inj h)
    rw [if_neg hrem] at h
    by_cases hr : S_ISREG ce.ce_mode
    · rw [if_pos hr, hreg] at h
      have hor := BitVec.or_eq_zero_iff.mp (Option.some.inj h)
      exact hbit (BitVec.or_eq_zero_iff.mp hor.1).1
    rw [if_neg hr] at h
    by_cases hl : S_ISLNK ce.ce_mode
    · rw [if_pos hl, hreg, hlnk] at h
      have hor := BitVec.or_eq_zero_iff.mp (Option.some.inj h)
      rw [if_pos ⟨Bool.false_ne_true, Or.inr Bool.false_ne_true⟩] at hor
      exact hbit hor.1
    rw [if_neg hl, hw.not_gitlink] at h
    cases h
  unfold ie_match_stat
  rw [hw.not_valid, hw.not_skipped, hw.not_intent]
  intro h
  simp only [Bool.and_false, Bool.false_eq_true, if_false] at h
  cases hb : ce_match_stat_basic cfg ce f with
  | none => simp [hb] at h
  | some changed =>
    have hne := hbasic changed hb
    simp only [hb, hne, false_and, if_false, Option.some.injEq] at h

/-- Adding a file leaves entries that can be trusted. -/
theorem add_to_index_safe {path : Bytes} {f : worktree_file} {flags : add_flags}
    {istate' : index_state} {ok : Bool} (hall : AllSafe cfg wt istate)
    (hf : wt.lstat path = some f)
    (h : add_to_index cfg wt istate path f flags = some (istate', ok)) :
    AllSafe cfg wt istate' ∧ istate'.timestamp = istate.timestamp := by
  rcases add_to_index_cases h with rfl | ⟨alias_ce, hmem, hname, hmatch, rfl⟩ | ⟨sha1, hsha1, rfl⟩
  · exact ⟨hall, rfl⟩
  · refine ⟨nothing_changed_safe hall fun hw f' hf' hreg => ?_, rfl⟩
    by_cases hdir : S_ISDIR f.st.st_mode
    · exact absurd hmatch (directory_not_matched hw hdir)
    · rw [hname, added_path, if_neg hdir, hf] at hf'
      cases hf'
      refine match_stat_honest (hall alias_ce hmem) hw ?_ hreg hmatch
      rw [hname, added_path, if_neg hdir]
      exact hf
  · obtain ⟨htime, hleft⟩ := left_add_index_entry istate
      (added_entry cfg istate path f flags.intent sha1)
      (rfl : (add_to_index_option flags.intent).just_append = false)
    refine ⟨fun ce hce => ?_, htime⟩
    rcases hleft ce hce with hold | ⟨s, rfl⟩
    · exact (hall ce hold).of_timestamp htime
    · exact (Safe.add_name_hash s (added_entry_safe hf hsha1)).of_timestamp htime

end git
