-- When an addition that fails leaves the cache array as it was: the unmerged entries of a
-- merged one are taken out before its path and its place are checked.
import Git.DirFile

open bsearch

namespace git

/-! ## When it does not -/

/-- The array without the entries of the name of `ce` at its place. -/
def without_same_name (cache : List cache_entry) (pos : Nat) (ce : cache_entry) :
    List cache_entry :=
  cache.take pos ++ (cache.drop pos).dropWhile (ce_same_name · ce)

/-- What the lookup of one leading directory of `ce` settles: a file stands in its place, or
files of the stage stand under it. -/
def dir_settles (cache : List cache_entry) (ce : cache_entry) (len : Nat) : Option Bool :=
  let pos := search (fun e => cache_name_compare ce.name (create_ce_flags len (ce_stage ce))
    e.name e.ce_flags) cache
  match pos, (cache[pos.val]?.map (·.has CE_REMOVE)) with
  | .found _, some false => some true
  | pos, _ =>
    if matches_subdirectory ce.name len (ce_stage ce) (cache.drop pos.val) then some false
    else none

/-- A file stands under the name of `ce`, in the run of names from `pos` on that go on behind
it; or the longest leading directory that is settled is a file. -/
def MeetsConflict (cache : List cache_entry) (pos : Nat) (ce : cache_entry) : Prop :=
  (∃ e ∈ (cache.drop pos).takeWhile (scans ce), file_under ce e = true) ∨
    (slashes (ce.name.take (ce_namelen ce))).findSome? (dir_settles cache ce) = some true

/-- A merged entry comes in for unmerged ones of its name, and its path is refused, or it is
in conflict with what is left when they are out. -/
def DropsUnmerged (istate : index_state) (ce : cache_entry) (option : add_option) : Prop :=
  option.just_append = false ∧ ce_stage ce = 0 ∧
    ∃ pos p, index_name_pos istate ce.name ce.ce_flags = .absent pos ∧
      istate.cache[pos]? = some p ∧ ce_same_name p ce = true ∧
      (verify_path ce.name = false ∨
        option.skip_dfcheck = false ∧ option.ok_to_replace = false ∧
          ce.has CE_REMOVE = false ∧
          MeetsConflict (without_same_name istate.cache pos ce) pos ce)

/-! ## The two loops when they only look -/

theorem has_dir_name_from_settles (ce : cache_entry) (len : Nat) (lens : List Nat)
    (istate : index_state) :
    has_dir_name_from ce false (len :: lens) istate false =
      match dir_settles istate.cache ce len with
      | some file => (istate, file)
      | none => has_dir_name_from ce false lens istate false := by
  rw [has_dir_name_from]
  have hpos : index_name_pos istate ce.name (create_ce_flags len (ce_stage ce)) =
      search (fun e => cache_name_compare ce.name (create_ce_flags len (ce_stage ce))
        e.name e.ce_flags) istate.cache := rfl
  unfold dir_settles
  dsimp only
  rw [hpos]
  generalize search _ istate.cache = pos
  cases pos with
  | found pos =>
    cases istate.cache[(Pos.found pos).val]?.map (·.has CE_REMOVE) with
    | none =>
      dsimp only
      split <;> rfl
    | some going =>
      cases going
      · rfl
      · dsimp only
        split <;> rfl
  | absent pos =>
    dsimp only
    split <;> rfl

theorem has_dir_name_from_flag (ce : cache_entry) (lens : List Nat) (istate : index_state) :
    (has_dir_name_from ce false lens istate false).2 = true ↔
      lens.findSome? (dir_settles istate.cache ce) = some true := by
  induction lens with
  | nil => simp [has_dir_name_from]
  | cons len lens ih =>
    rw [has_dir_name_from_settles, List.findSome?_cons]
    cases dir_settles istate.cache ce len with
    | none => exact ih
    | some file => exact (Option.some.injEq file true).symm ▸ Iff.rfl

/-- The check reports what it meets. -/
theorem check_conflict_flag (ce : cache_entry) (istate : index_state) {pos : Nat}
    (hpos : pos ≤ istate.cache_nr) :
    (check_file_directory_conflict istate ce pos false).2 = true ↔
      ce.has CE_REMOVE = false ∧ MeetsConflict istate.cache pos ce := by
  unfold check_file_directory_conflict
  split
  · next hr => simp [hr]
  next hr =>
  have hcache : istate.cache = istate.cache.take pos ++ istate.cache.drop pos :=
    (List.take_append_drop _ _).symm
  have hlen : (istate.cache.take pos).length = pos := List.length_take_of_le hpos
  obtain ⟨hflag, -⟩ := has_file_name_from_spec ce false (istate.cache_nr - pos) istate false
    hcache (by simp [index_state.cache_nr])
  rw [hlen, Bool.false_or] at hflag
  have hlooks : (has_file_name istate ce pos false).1 = istate :=
    has_file_name_from_looks ce _ istate pos false
  have hfile : (has_file_name istate ce pos false).2 = true ↔
      ∃ e ∈ (istate.cache.drop pos).takeWhile (scans ce), file_under ce e = true := by
    rw [has_file_name, hflag, List.any_eq_true]
  have hdir := has_dir_name_from_flag ce (slashes (ce.name.take (ce_namelen ce))) istate
  simp only [hlooks, has_dir_name, Bool.or_eq_true, hfile, hdir]
  rw [Bool.not_eq_true] at hr
  simp [hr, MeetsConflict]

/-! ## What is taken out -/

theorem remove_same_name_true (ce : cache_entry) (pos turns : Nat) (istate : index_state) :
    (remove_same_name ce pos turns istate true).2 = true := by
  induction turns generalizing istate with
  | zero => rfl
  | succ turns ih =>
    rw [remove_same_name]
    split
    · rfl
    · split
      · dsimp only
        split
        · exact ih _
        · rfl
      · rfl

/-- An entry of the name at the place is taken out, and the entry may come in. -/
theorem after_same_name_drops (istate : index_state) {ce p : cache_entry} {pos : Nat}
    (hp : istate.cache[pos]? = some p) (hst : ce_stage ce = 0) (hn : ce_same_name p ce = true)
    (ok : Bool) :
    (after_same_name istate ce pos ok).2 = true ∧
      (after_same_name istate ce pos ok).1.cache = without_same_name istate.cache pos ce := by
  have hlt : pos < istate.cache.length := (List.getElem?_eq_some_iff.mp hp).1
  have hcache : istate.cache = istate.cache.take pos ++ istate.cache.drop pos :=
    (List.take_append_drop _ _).symm
  have hlen : (istate.cache.take pos).length = pos := List.length_take_of_le hlt.le
  rw [after_same_name, if_pos hst]
  constructor
  · obtain ⟨turns, hturns⟩ : ∃ t, istate.cache_nr = t + 1 :=
      Nat.exists_eq_add_of_le' (Nat.lt_of_le_of_lt (Nat.zero_le pos) hlt)
    rw [hturns, remove_same_name, hp]
    simp only [hn, if_true]
    split
    · exact remove_same_name_true ce pos turns _
    · rfl
  · have h := remove_same_name_cache ce istate.cache_nr istate ok hcache
      (by simp [index_state.cache_nr])
    rwa [hlen] at h

/-- Otherwise the index stays as it is. -/
theorem after_same_name_keeps (istate : index_state) {ce : cache_entry} {pos : Nat} (ok : Bool)
    (h : ce_stage ce = 0 → ∀ p, istate.cache[pos]? = some p → ce_same_name p ce = false) :
    after_same_name istate ce pos ok = (istate, ok) := by
  unfold after_same_name
  split
  · next hst =>
    cases hturns : istate.cache_nr with
    | zero => rfl
    | succ turns =>
      rw [remove_same_name]
      cases hp : istate.cache[pos]? with
      | none => rfl
      | some p => simp [h hst p hp]
  · rfl

theorem without_same_name_ne {cache : List cache_entry} {ce p : cache_entry} {pos : Nat}
    (hp : cache[pos]? = some p) (hn : ce_same_name p ce = true) :
    without_same_name cache pos ce ≠ cache := by
  obtain ⟨hlt, hget⟩ := List.getElem?_eq_some_iff.mp hp
  intro h
  have hlen := congrArg List.length h
  have hdrop : cache.drop pos = p :: cache.drop (pos + 1) := by
    rw [List.drop_eq_getElem_cons hlt, hget]
  rw [without_same_name, hdrop, List.dropWhile_cons_of_pos (p := (ce_same_name · ce)) hn,
    List.length_append,
    List.length_take_of_le hlt.le] at hlen
  have hle := (List.dropWhile_suffix (ce_same_name · ce) (l := cache.drop (pos + 1))).length_le
  rw [List.length_drop] at hle
  omega

/-! ## The result -/

theorem appended_ok (istate : index_state) (ce : cache_entry) {option : add_option}
    (hj : option.just_append = true) : (add_index_entry istate ce option).2 = true := by
  simp [add_index_entry, hj]

/-- What an addition of a new entry leaves in the array when it fails, and when it fails. -/
theorem absent_fails {istate s1 : index_state} {ce : cache_entry} {option : add_option}
    {pos : Nat} {ok : Bool} (hj : option.just_append = false)
    (hpos : index_name_pos istate ce.name ce.ce_flags = .absent pos)
    (hafter : after_same_name (istate.invalidate_path ce.name) ce pos option.ok_to_add =
      (s1, ok)) :
    ((add_index_entry istate ce option).2 = false →
        (add_index_entry istate ce option).1.cache = s1.cache) ∧
      (ok = true → pos ≤ s1.cache_nr →
        ((add_index_entry istate ce option).2 = false ↔ verify_path ce.name = false ∨
          option.skip_dfcheck = false ∧ option.ok_to_replace = false ∧
            ce.has CE_REMOVE = false ∧ MeetsConflict s1.cache pos ce)) := by
  rw [add_index_entry_absent hj hpos, hafter]
  dsimp only
  have hlooks := check_conflict_looks ce s1 pos
  have hflag := fun (h : pos ≤ s1.cache_nr) => check_conflict_flag ce s1 h
  cases hrep : option.ok_to_replace with
  | true =>
    cases check_file_directory_conflict s1 ce pos true with
    | mk s2 conflict => cases ok <;> cases verify_path ce.name <;> cases option.skip_dfcheck <;>
        cases conflict <;> simp
  | false =>
    generalize check_file_directory_conflict s1 ce pos false = r at hlooks hflag ⊢
    obtain ⟨s2, conflict⟩ := r
    obtain rfl : s2 = s1 := hlooks
    constructor
    · cases ok <;> cases verify_path ce.name <;> cases option.skip_dfcheck <;>
        cases conflict <;> simp
    · rintro rfl hle
      rw [← hflag hle]
      cases verify_path ce.name <;> cases option.skip_dfcheck <;> cases conflict <;> simp

/-- An addition that fails leaves the array as it was, but for the entries it drops. -/
theorem failed_addition_keeps_cache_iff (istate : index_state) (ce : cache_entry)
    (option : add_option) :
    ((add_index_entry istate ce option).2 = false →
        (add_index_entry istate ce option).1.cache = istate.cache) ↔
      ¬ DropsUnmerged istate ce option := by
  by_cases hj : option.just_append = true
  · have hok := appended_ok istate ce hj
    simp [hok, DropsUnmerged, hj]
  rw [Bool.not_eq_true] at hj
  cases hpos : index_name_pos istate ce.name ce.ce_flags with
  | found pos =>
    rw [add_index_entry_found hj hpos]
    simp [DropsUnmerged, hpos]
  | absent pos =>
    by_cases hdrop : ce_stage ce = 0 ∧ ∃ p, istate.cache[pos]? = some p ∧ ce_same_name p ce = true
    · obtain ⟨hst, p, hp, hn⟩ := hdrop
      have hlt : pos < istate.cache.length := (List.getElem?_eq_some_iff.mp hp).1
      obtain ⟨hok, hcache⟩ := after_same_name_drops (istate.invalidate_path ce.name)
        hp hst hn option.ok_to_add
      cases hafter : after_same_name (istate.invalidate_path ce.name) ce pos option.ok_to_add with
      | mk s1 ok =>
      rw [hafter] at hok hcache
      dsimp only at hok hcache
      obtain ⟨hleaves, hfails⟩ := absent_fails hj hpos hafter
      have hle : pos ≤ (without_same_name istate.cache pos ce).length := by
        rw [without_same_name, List.length_append, List.length_take_of_le hlt.le]
        exact Nat.le_add_right _ _
      have hiff := hfails hok (by rw [index_state.cache_nr, hcache]; exact hle)
      rw [hcache, show (istate.invalidate_path ce.name).cache = istate.cache from rfl] at hiff
      have hne := without_same_name_ne hp hn
      constructor
      · rintro h ⟨_, _, pos', p', hpos', _, _, hwhy⟩
        cases hpos.symm.trans hpos'
        have hno := hiff.mpr hwhy
        exact hne (((hleaves hno).trans hcache).symm.trans (h hno))
      · intro h hno
        exact absurd ⟨hj, hst, pos, p, hpos, hp, hn, hiff.mp hno⟩ h
    · have hkeep := after_same_name_keeps (istate.invalidate_path ce.name)
        option.ok_to_add fun hst p hp => by
          by_contra hn
          exact hdrop ⟨hst, p, hp, Bool.not_eq_false _ ▸ hn⟩
      obtain ⟨hleaves, -⟩ := absent_fails hj hpos hkeep
      refine iff_of_true hleaves ?_
      rintro ⟨_, hst, pos', p, hpos', hp, hn, _⟩
      cases hpos.symm.trans hpos'
      exact hdrop ⟨hst, p, hp, hn⟩

/-! ## A failed addition that takes out an unmerged entry -/

/-- Only OK_TO_ADD. -/
def OK_TO_ADD : add_option := { OK_TO_ADD_OR_REPLACE with ok_to_replace := false }

/-- The file `a` for an unmerged `a`, beside `a/b`. -/
theorem a_failed_addition_drops_an_unmerged_entry :
    (add_index_entry (index_of [file_a 2, file_a_b 0]) (file_a 0) OK_TO_ADD).2 = false ∧
      (add_index_entry (index_of [file_a 2, file_a_b 0]) (file_a 0) OK_TO_ADD).1.cache =
        [file_a_b 0] ∧
      [file_a_b 0] ≠ (index_of [file_a 2, file_a_b 0]).cache := by
  decide

end git
