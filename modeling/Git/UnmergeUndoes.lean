-- Undoing inverts resolving: the entries of a path that an addition took out come back just
-- when each has a mode and a free place, and the path's earlier record adds no other stage.
import Git.UnmergeLaws

open bsearch

namespace git

/-! ## From an addition to a resolution -/

section
variable {s s1 : index_state} {ce : cache_entry} {option : add_option} {pos : Nat}

/-- What stands for a resolved path has a key of its own. -/
theorem resolved_key_new (h : Ordered s) (hc : Named ce) (hst : ce_stage ce = 0)
    (hj : option.just_append = false) (hadd : add_index_entry s ce option = (s1, true))
    (hhad : ∃ e ∈ s.cache, e.name = ce.name ∧ ce_stage e ≠ 0)
    (hnone : ∀ e ∈ s1.cache, e.name = ce.name → ce_stage e = 0) :
    ∀ e ∈ s.cache, e.key ≠ ce.key := by
  rcases index_name_pos_spec h ce.name ce.ce_flags hc.mask_le with
    ⟨pre, old, post, -, hpos, -⟩ | ⟨pre, post, hcache, -, hpre, hpost⟩
  · obtain ⟨e, he, hen, hest⟩ := hhad
    have hin := found_keeps_stages h hc hst hj hpos he hest
    rw [hadd] at hin
    exact absurd (hnone e hin hen) hest
  · intro e he
    rw [hcache, List.mem_append] at he
    rcases he with he | he
    · exact (hpre e he).ne
    · exact (hpost e he).ne'

/-- An addition takes out entries of the path and, in its way, merged files. -/
theorem others_after_add (h : Ordered s) (hc : Named ce) (hst : ce_stage ce = 0)
    (hj : option.just_append = false) (hadd : add_index_entry s ce option = (s1, true))
    (hnew : ∀ e ∈ s.cache, e.key ≠ ce.key) {stage : Nat} (hstage : 0 < stage) :
    others ce.name stage (rest_of ce.name s1.cache) = others ce.name stage (rest_of ce.name s.cache) := by
  have hadds := add_index_entry_adds h hc hj
  rw [hadd] at hadds
  generalize hr : (s1, true) = r at hadds
  cases hadds with
  | kept old hold hkey _ => exact absurd hkey (hnew old hold)
  | replaced pre post old hcache hkey _ => exact absurd hkey (hnew old (by simp [hcache]))
  | refused istate' hno htrims => cases hr
  | inserted istate' pre post hno htrims hcache hpre hpost hmerged =>
    cases hr
    have hin : rest_of ce.name (pre ++ add_name_hash istate' ce :: post) =
        rest_of ce.name istate'.cache := by
      rw [hcache, rest_of, rest_of, List.filter_append, List.filter_append,
        List.filter_cons_of_neg (by simp [(add_name_hash_key istate' ce).1])]
    dsimp only
    rw [hin]
    unfold others rest_of
    rw [List.filter_filter, List.filter_filter]
    refine filter_eq_of_sublist h.ascends.nodup htrims.sublist ?_
    intro e he hkeep
    rw [Bool.and_eq_true, decide_eq_true_eq, Bool.not_eq_true'] at hkeep
    by_contra hout
    rcases htrims.gone e he hout with ⟨-, hn⟩ | ⟨-, -, -, hway⟩
    · exact hkeep.2 hn
    · have haside : aside ce.name stage e = true := by
        rw [aside, Bool.and_eq_true, decide_eq_true_eq, decide_eq_true_eq, hway.2.1, hst]
        exact ⟨hstage, Or.inr hway.1⟩
      rw [haside] at hkeep
      exact absurd hkeep.1 (by simp)

theorem resolution_of_add (h : Ordered s) (hby : ByName (s.resolve_undo.getD [])) (hc : Named ce)
    (hst : ce_stage ce = 0) (hj : option.just_append = false)
    (hadd : add_index_entry s ce option = (s1, true))
    (hhad : ∃ e ∈ s.cache, e.name = ce.name ∧ ce_stage e ≠ 0)
    (hnone : ∀ e ∈ s1.cache, e.name = ce.name → ce_stage e = 0)
    (hpos : s1.cache[pos]?.map (·.name) = some ce.name) :
    ∃ ru, Resolution s s1 ce.name pos ru := by
  obtain ⟨hv, gone, hgone, hstages, hapart, hundo⟩ := resolved_record h hc hst hj hadd hhad hnone
  have hnew := resolved_key_new h hc hst hj hadd hhad hnone
  have ho : Ordered s1 := by
    have := (add_index_entry_adds (h := h) hc hj).ordered h hc
    rwa [hadd] at this
  obtain ⟨x, hx, hxn, hxst⟩ := hhad
  obtain ⟨hby1, hrecords, hsome⟩ := record_all (fun e he => ⟨((hgone e).mp he).2, hstages e he⟩)
    hapart s.resolve_undo hby
  rw [← hundo] at hby1 hrecords hsome
  have hlisted := hsome (Or.inr (List.ne_nil_of_mem ((hgone x).mpr ⟨hx, hxn⟩)))
  obtain ⟨ru, hru⟩ := Option.isSome_iff_exists.mp hlisted
  have hrec : record_of s1.resolve_undo ce.name = ru := by rw [record_of, hru, Option.getD_some]
  rw [hrec] at hrecords
  refine ⟨ru, h, ho, hv, fun stage hstage => others_after_add h hc hst hj hadd hnew hstage, ?_,
    ⟨x, hx, hxn⟩, ?_, hnone, ?_, ?_, ?_⟩
  · exact fun e he hn => hstages e ((hgone e).mpr ⟨he, hn⟩)
  · obtain ⟨e, he, hn⟩ := Option.map_eq_some_iff.mp hpos
    exact ⟨e, he, hn⟩
  · cases hlist : s1.resolve_undo with
    | none =>
      rw [hlist] at hru
      cases hru
    | some list =>
      rw [hlist] at hru hby1
      exact ⟨list, rfl, hby1, hru⟩
  · exact fun e he hn i hi hstage => hrecords.recorded e ((hgone e).mpr ⟨he, hn⟩) i hi hstage
  · intro i hi hno
    exact (hrecords.others i hi fun e he => hno e ((hgone e).mp he).1 ((hgone e).mp he).2).1

/-! ## The result -/

theorem stage_slot {cache : List cache_entry} {path : Bytes} {e : cache_entry} (he : e ∈ cache)
    (hn : e.name = path) (hst : ce_stage e ≠ 0) :
    ∃ i < 3, ce_stage e = i + 1 ∧ HasEntry cache path i := by
  have hlt := stage_lt e
  exact ⟨ce_stage e - 1, by omega, by omega, e, he, hn, by omega⟩

/-- The entries of a path that were replaced by a merged one come back exactly, or else the
index stays, just when each stage of the path is recoverable. -/
theorem unmerge_undoes_iff (h : Ordered s) (hby : ByName (s.resolve_undo.getD [])) (hc : Named ce)
    (hst : ce_stage ce = 0) (hj : option.just_append = false)
    (hadd : add_index_entry s ce option = (s1, true))
    (hhad : ∃ e ∈ s.cache, e.name = ce.name ∧ ce_stage e ≠ 0)
    (hnone : ∀ e ∈ s1.cache, e.name = ce.name → ce_stage e = 0)
    (hpos : s1.cache[pos]?.map (·.name) = some ce.name) :
    Undoes s s1 pos ce.name ↔ Recoverable s ce.name := by
  obtain ⟨ru, hr⟩ := resolution_of_add h hby hc hst hj hadd hhad hnone hpos
  obtain ⟨c, hc3, hsome, hno⟩ := hr.unmerge
  have hrest0 := hr.removed.2.2.1
  obtain ⟨x, hx, hxn⟩ := hr.some_stage
  obtain ⟨e0, hget, hn0⟩ := hr.merged
  have hmem0 : e0 ∈ s1.cache := List.mem_of_getElem? hget
  rw [hr.recoverable_iff]
  constructor
  · intro hundoes
    unfold Undoes at hundoes
    by_cases hin : ∃ i, HasEntry c.cache ce.name i
    · obtain ⟨s2, q, hrun, hcache⟩ := hsome hin
      rw [hrun] at hundoes
      dsimp only at hundoes
      rcases hundoes with ⟨hstages, -⟩ | hsame
      · have hiff : ∀ i, HasEntry c.cache ce.name i ↔ HasEntry s.cache ce.name i := by
          intro i
          constructor
          · rintro ⟨e, he, hn, hest⟩
            obtain ⟨m, ⟨r, hr, hrn, hrst, -⟩, -⟩ :=
              (hstages (i + 1) e.ce_mode e.sha1).mp ⟨e, hcache ▸ he, hn, hest, rfl, rfl⟩
            exact ⟨r, hr, hrn, hrst⟩
          · rintro ⟨r, hr, hrn, hrst⟩
            obtain ⟨e, he, hn, hest, -⟩ := (hstages (i + 1) (create_ce_mode r.ce_mode) r.sha1).mpr
              ⟨r.ce_mode, ⟨r, hr, hrn, hrst, rfl, rfl⟩, rfl⟩
            exact ⟨e, hcache ▸ he, hn, hest⟩
        obtain ⟨-, hputs⟩ := hc3.good fun i _ hin _ => (hiff i).mp hin
        exact fun i hi => (hiff i).symm.trans (hputs i hi)
      · -- the merged entry is gone
        obtain ⟨i, -, -, hest, -⟩ := hc3.entries e0 (by rw [← hcache, hsame]; exact hmem0) hn0
        rw [hr.alone e0 hmem0 hn0] at hest
        cases hest
    · cases hrun : unmerge_index_entry_at s1 pos with
      | none =>
        rw [hrun] at hundoes
        exact hundoes.elim
      | some r =>
        obtain ⟨s2, q⟩ := r
        have hnone2 := hno hin s2 q hrun
        rw [hrun] at hundoes
        dsimp only at hundoes
        rcases hundoes with ⟨hstages, -⟩ | hsame
        · obtain ⟨e, he, hn, -⟩ := (hstages (ce_stage x) (create_ce_mode x.ce_mode) x.sha1).mpr
            ⟨x.ce_mode, ⟨x, hx, hxn, rfl, rfl, rfl⟩, rfl⟩
          exact absurd hn (hnone2 e he)
        · exact absurd hn0 (hnone2 e0 (hsame ▸ hmem0))
  · intro hiff
    obtain ⟨hrest, hputs⟩ := hc3.good fun i hi _ hput => (hiff i hi).mpr hput
    have hboth : ∀ i < 3, (HasEntry c.cache ce.name i ↔ HasEntry s.cache ce.name i) :=
      fun i hi => (hputs i hi).trans (hiff i hi).symm
    obtain ⟨i, hi, -, hin⟩ := stage_slot hx hxn (hr.unmerged x hx hxn)
    obtain ⟨s2, q, hrun, hcache⟩ := hsome ⟨i, (hboth i hi).mpr hin⟩
    unfold Undoes
    rw [hrun]
    refine Or.inl ⟨?_, ?_⟩
    · intro stage mode sha1
      rw [hcache]
      constructor
      · rintro ⟨e, he, hn, rfl, rfl, rfl⟩
        obtain ⟨i, hi, -, hest, hmode, hsha1⟩ := hc3.entries e he hn
        obtain ⟨r, hrm, hrn, hrst⟩ := (hboth i hi).mp ⟨e, he, hn, hest⟩
        obtain ⟨hrmode, hrsha1⟩ := hr.stages r hrm hrn i hi hrst
        exact ⟨r.ce_mode, ⟨r, hrm, hrn, hrst.trans hest.symm, rfl, hrsha1.symm.trans hsha1.symm⟩,
          by rw [hmode, hrmode]⟩
      · rintro ⟨_, ⟨r, hrm, hrn, rfl, rfl, rfl⟩, rfl⟩
        obtain ⟨i, hi, hrst, hin⟩ := stage_slot hrm hrn (hr.unmerged r hrm hrn)
        obtain ⟨e, he, hn, hest⟩ := (hboth i hi).mpr hin
        obtain ⟨j, hj, -, hest', hmode, hsha1⟩ := hc3.entries e he hn
        obtain rfl : j = i := by omega
        obtain ⟨hrmode, hrsha1⟩ := hr.stages r hrm hrn j hj hrst
        exact ⟨e, he, hn, hest.trans hrst.symm, by rw [hmode, hrmode], hsha1.trans hrsha1⟩
    · rw [hcache]
      exact hrest.trans hrest0

end

/-! ## Two conflicts -/

instance (cache : List cache_entry) (pos : Nat) (ce : cache_entry) :
    Decidable (MeetsConflict cache pos ce) := by
  unfold MeetsConflict
  infer_instance

instance (cache : List cache_entry) (path : Bytes) (stage : Nat) :
    Decidable (Refuses cache path stage) :=
  match h : search (fun e => cache_name_compare path (create_ce_flags path.length stage) e.name
      e.ce_flags) cache with
  | .found _ => isFalse fun ⟨_, hpos, _⟩ => by rw [h] at hpos; cases hpos
  | .absent pos => decidable_of_iff (MeetsConflict cache pos (new_entry 0 (Vector.replicate 20 0) path stage))
      ⟨fun hmeets => ⟨pos, h, hmeets⟩, fun ⟨_, hpos, hmeets⟩ => by
        rw [h] at hpos
        cases hpos
        exact hmeets⟩

instance (cache : List cache_entry) (path : Bytes) (stage : Nat) :
    Decidable (Barred cache path stage) := by
  unfold Barred
  infer_instance

instance (s : index_state) (path : Bytes) : Decidable (Recoverable s path) := by
  unfold Recoverable
  infer_instance

instance (cache : List cache_entry) (path : Bytes) (stage : Nat) (mode : BitVec 32) (sha1 : Sha1) :
    Decidable (HasStage cache path stage mode sha1) := by
  unfold HasStage
  infer_instance

/-- The file `a` that both sides of a merge have added. -/
def added_by_both (undo : Option (List (Bytes × Option resolve_undo_info))) : index_state :=
  { index_of [file_a 2, file_a 3] with resolve_undo := undo }

/-- The index after `a` was added for them. -/
def both_resolved (undo : Option (List (Bytes × Option resolve_undo_info))) : index_state :=
  (add_index_entry (added_by_both undo) (file_a 0) OK_TO_ADD).1

theorem ordered_added_by_both (undo : Option (List (Bytes × Option resolve_undo_info))) :
    Ordered (added_by_both undo) := by
  refine ⟨List.pairwise_pair.mpr (by decide), ?_⟩
  intro ce hce
  simp only [added_by_both, index_of, List.mem_cons, List.not_mem_nil, or_false] at hce
  rcases hce with rfl | rfl <;> exact new_entry_named _ _ _ (by decide)

theorem both_stages_of_a_come_back :
    Undoes (added_by_both none) (both_resolved none) 0 (file_a 0).name :=
  (unmerge_undoes_iff (ordered_added_by_both none) List.Pairwise.nil
    (new_entry_named _ _ _ (by decide)) (by decide) rfl
    (show add_index_entry (added_by_both none) (file_a 0) OK_TO_ADD = (both_resolved none, true) from
      Prod.ext rfl (by decide))
    (by decide) (by decide) (by decide)).mpr (by decide)

/-- An earlier conflict of `a` had a common ancestor. -/
def ancestor_of_a : resolve_undo_info := with_stage no_record (file_a 1)

theorem an_earlier_ancestor_comes_back :
    ¬ ∀ (s s1 : index_state) (ce : cache_entry) (option : add_option) (pos : Nat), Ordered s →
      ByName (s.resolve_undo.getD []) → Named ce → ce_stage ce = 0 → option.just_append = false →
      add_index_entry s ce option = (s1, true) →
      (∃ e ∈ s.cache, e.name = ce.name ∧ ce_stage e ≠ 0) →
      (∀ e ∈ s1.cache, e.name = ce.name → ce_stage e = 0) →
      s1.cache[pos]?.map (·.name) = some ce.name → Undoes s s1 pos ce.name := by
  intro h
  let undo : Option (List (Bytes × Option resolve_undo_info)) := some [([97], some ancestor_of_a)]
  have hundoes := h (added_by_both undo) (both_resolved undo) (file_a 0) OK_TO_ADD 0
    (ordered_added_by_both undo) (List.pairwise_singleton _ _) (new_entry_named _ _ _ (by decide))
    (by decide) rfl (Prod.ext rfl (by decide)) (by decide)
    (by decide) (by decide)
  have hback : (unmerge_index_entry_at (both_resolved undo) 0).map (fun r =>
      (decide (HasStage r.1.cache [97] 1 (file_a 1).ce_mode (file_a 1).sha1),
        decide (r.1.cache = (both_resolved undo).cache))) = some (true, false) := by
    decide
  unfold Undoes at hundoes
  cases hrun : unmerge_index_entry_at (both_resolved undo) 0 with
  | none =>
    rw [hrun] at hundoes
    exact hundoes
  | some r =>
    obtain ⟨s2, q⟩ := r
    rw [hrun] at hundoes hback
    simp only [Option.map_some, Option.some.injEq, Prod.mk.injEq, decide_eq_true_eq,
      decide_eq_false_iff_not] at hback
    rcases hundoes with ⟨hstages, -⟩ | hsame
    · obtain ⟨m, hm, -⟩ := (hstages 1 _ _).mp hback.1
      obtain ⟨e, he, -, hst, -⟩ := hm
      revert e
      decide
    · exact hback.2 hsame

end git
