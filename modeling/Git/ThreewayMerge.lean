-- What a three-way merge does to a path: the changed side wins against the side
-- that an ancestor has, and everything else stays unmerged or is rejected.
import Git.UnpackTrees

namespace git.unpack_trees

open unpack_trees_error_types

/-! ## What is the same -/

theorem same_comm (a b : Option cache_entry) : same a b = same b a := by
  cases a with
  | none => cases b <;> rfl
  | some a =>
    cases b with
    | none => rfl
    | some b =>
      unfold same
      simp only [BitVec.or_comm a.ce_flags b.ce_flags, BEq.comm]

theorem same_isSome {a b : Option cache_entry} (h : same a b = true) : a.isSome = b.isSome := by
  cases a with
  | none =>
    cases b with
    | none => rfl
    | some b => cases h
  | some a =>
    cases b with
    | none => cases h
    | some b => rfl

theorem same_content {a b : cache_entry} (h : same (some a) (some b) = true) :
    a.ce_mode = b.ce_mode ∧ a.sha1 = b.sha1 := by
  unfold same at h
  simp only at h
  split_ifs at h with hconflict
  rw [Bool.and_eq_true, beq_iff_eq, beq_iff_eq] at h
  exact h

theorem last_match_ne_zero (ce : Option cache_entry) {i found : Nat} (hi : 0 < i)
    (l : List stage_entry) :
    last_match ce i found l ≠ 0 ↔ found ≠ 0 ∨ ∃ a ∈ l, same a.pointer ce = true := by
  induction l generalizing i found with
  | nil => simp [last_match]
  | cons a l ih =>
    rw [last_match, ih (Nat.succ_pos i)]
    by_cases ha : same a.pointer ce = true
    · rw [if_pos ha]
      exact iff_of_true (Or.inl hi.ne') (Or.inr ⟨a, List.mem_cons_self, ha⟩)
    · rw [if_neg ha, List.exists_mem_cons_iff, or_iff_right ha]

/-! ## Entries of the result -/

/-- An entry that the trees or the index have, and that is not to be removed. -/
def Live (ce : cache_entry) : Prop := ce.has CE_REMOVE = false

/-- An entry as `add_entry` leaves it. -/
def added_entry (ce : cache_entry) (set clear : BitVec 32) : cache_entry :=
  (ce.clear (clear ||| (CE_HASHED ||| CE_UNHASHED))).mark
    (if set &&& CE_REMOVE ≠ 0 then set ||| CE_WT_REMOVE else set)

theorem add_entry_result (o : unpacked) (ce : cache_entry) (set clear : BitVec 32) :
    (add_entry o ce set clear).result = o.result ++ [added_entry ce set clear] := rfl

/-- What `merged_entry` adds is live, at stage 0. -/
theorem merged_live {ce : cache_entry} (h : Live ce) {set : BitVec 32}
    (hremove : set &&& CE_REMOVE = 0) (hstage : set &&& CE_STAGEMASK = 0) :
    Live (added_entry ce set CE_STAGEMASK) ∧ ce_stage (added_entry ce set CE_STAGEMASK) = 0 := by
  have hset : ¬ set &&& CE_REMOVE ≠ 0 := not_not.mpr hremove
  unfold added_entry Live cache_entry.has ce_stage cache_entry.mark cache_entry.clear at *
  rw [if_neg hset]
  constructor
  · rw [or_and_apart hremove, andNot_and_apart (by decide)]
    exact h
  · have hclear : ~~~(CE_STAGEMASK ||| (CE_HASHED ||| CE_UNHASHED)) &&& CE_STAGEMASK = 0 := by
      decide
    rw [BitVec.and_comm, or_and_apart hstage, BitVec.and_assoc, hclear]
    simp

/-- A deletion is not live. -/
theorem removed_not_live (ce : cache_entry) :
    (added_entry ce CE_REMOVE 0).has CE_REMOVE = true := by
  unfold added_entry cache_entry.has cache_entry.mark
  rw [if_pos (by decide), BitVec.and_or_distrib_right, bne_iff_ne]
  intro hzero
  exact absurd (BitVec.or_eq_zero_iff.mp hzero).2 (by decide)

theorem removed_map {l : List cache_entry} :
    ∀ ce ∈ l.map (fun ce => added_entry ce CE_REMOVE 0), ce.has CE_REMOVE = true := by
  intro ce hce
  obtain ⟨e, -, rfl⟩ := List.mem_map.mp hce
  exact removed_not_live e

theorem absent_checked_result (o : unpacked) (check : absent_check) :
    (absent_checked o check).result =
      o.result ++ check.removed.map (fun ce => added_entry ce CE_REMOVE 0) := by
  have hfold : ∀ (l : List cache_entry) (o : unpacked),
      (l.foldl (fun o ce => add_entry o ce CE_REMOVE 0) o).result =
        o.result ++ l.map (fun ce => added_entry ce CE_REMOVE 0) := by
    intro l
    induction l with
    | nil => exact fun o => (List.append_nil _).symm
    | cons ce l ih =>
      intro o
      rw [List.foldl_cons, ih, add_entry_result, List.append_assoc]
      rfl
  exact hfold check.removed o

theorem reject_result (opts : unpack_trees_options) (o : unpacked) (e : unpack_trees_error_types)
    (path : Bytes) : (reject opts o e path).result = o.result := by
  unfold reject
  split_ifs
  · rfl
  · rfl

/-! ## Outcomes -/

/-- The additions leave the file of a side, or no file where the side has none.
Entries below a path that gives way to it are removed. -/
def Outcome (side : Option cache_entry) (added : List cache_entry) : Prop :=
  ∃ removed, (∀ ce ∈ removed, ce.has CE_REMOVE = true) ∧
    match side with
    | none => added = removed
    | some file => ∃ ce, added = removed ++ [ce] ∧ Live ce ∧ ce_stage ce = 0 ∧
        ce.ce_mode = file.ce_mode ∧ ce.sha1 = file.sha1 ∧ ce.name = file.name

/-- The path is resolved: nothing is rejected, and no stages are kept. -/
def Resolved (r : Int × unpacked) (added : List cache_entry) : Prop :=
  0 ≤ r.1 ∧ ∀ ce ∈ added, Live ce → ce_stage ce = 0

/-- The run `r` rejects, or it adds what stands for `side`. -/
def RejectsOr (o : unpacked) (r : Int × unpacked) (side : Option cache_entry) : Prop :=
  ∃ added, r.2.result = o.result ++ added ∧ (r.1 = -1 ∨ 0 ≤ r.1 ∧ Outcome side added)

theorem Outcome.resolved {side : Option cache_entry} {added : List cache_entry}
    (h : Outcome side added) : ∀ ce ∈ added, Live ce → ce_stage ce = 0 := by
  obtain ⟨removed, hremoved, hside⟩ := h
  intro ce hce hlive
  have hnot : ce ∉ removed := by
    intro hmem
    have hdead := hremoved ce hmem
    rw [show ce.has CE_REMOVE = false from hlive] at hdead
    cases hdead
  cases side with
  | none => exact absurd (hside ▸ hce) hnot
  | some file =>
    obtain ⟨e, rfl, -, hstage, -⟩ := hside
    rcases List.mem_append.mp hce with hmem | hmem
    · exact absurd hmem hnot
    · rw [List.mem_singleton.mp hmem]
      exact hstage

variable {opts : unpack_trees_options} {o : unpacked}

theorem rejects_same {side : Option cache_entry} {e : unpack_trees_error_types} {path : Bytes} :
    RejectsOr o (-1, reject opts o e path) side :=
  ⟨[], by rw [reject_result, List.append_nil], Or.inl rfl⟩

theorem adds_file {o' : unpacked} {file merge : cache_entry} {set : BitVec 32}
    (hresult : o'.result = o.result) (hlive : Live file) (hremove : set &&& CE_REMOVE = 0)
    (hstage : set &&& CE_STAGEMASK = 0)
    (hfile : file.ce_mode = merge.ce_mode ∧ file.sha1 = merge.sha1 ∧ file.name = merge.name) :
    RejectsOr o (1, add_entry o' file set CE_STAGEMASK) (some merge) := by
  obtain ⟨hl, hs⟩ := merged_live hlive hremove hstage
  refine ⟨[added_entry file set CE_STAGEMASK], by rw [add_entry_result, hresult], Or.inr
    ⟨zero_le_one' Int, [], fun _ h => absurd h List.not_mem_nil, _, rfl, hl, hs, hfile⟩⟩

/-- The bits that go over from an old entry. -/
theorem update_apart (old : cache_entry) {keep : BitVec 32}
    (hkeep : (CE_UPDATE ||| (CE_SKIP_WORKTREE ||| CE_NEW_SKIP_WORKTREE)) &&& keep = 0) :
    (CE_UPDATE ||| (old.ce_flags &&& (CE_SKIP_WORKTREE ||| CE_NEW_SKIP_WORKTREE))) &&& keep = 0 := by
  rw [BitVec.and_or_distrib_right] at hkeep ⊢
  obtain ⟨hupdate, hskip⟩ := BitVec.or_eq_zero_iff.mp hkeep
  rw [BitVec.and_assoc, hupdate, hskip]
  simp

/-- `merged_entry` rejects, or leaves the file of `merge`. -/
theorem merged_entry_spec {merge : cache_entry} {old : Option cache_entry} (hmerge : Live merge)
    (hold : ∀ ce ∈ old, Live ce) : RejectsOr o (merged_entry opts o merge old) (some merge) := by
  cases old with
  | none =>
    have hlive : Live (merge.mark CE_NEW_SKIP_WORKTREE) := by
      unfold Live cache_entry.has cache_entry.mark
      rw [or_and_apart (by decide)]
      exact hmerge
    unfold merged_entry
    dsimp only
    generalize verify_absent opts (merge.mark CE_NEW_SKIP_WORKTREE)
      ERROR_WOULD_LOSE_UNTRACKED_OVERWRITTEN = check
    split_ifs with hok
    · exact ⟨_, absent_checked_result o _, Or.inl rfl⟩
    · obtain ⟨hl, hs⟩ := @merged_live _ hlive (CE_UPDATE ||| CE_ADDED) (by decide) (by decide)
      refine ⟨_, ?_, Or.inr ⟨zero_le_one' Int,
        check.removed.map (fun ce => added_entry ce CE_REMOVE 0), removed_map, _, rfl, hl, hs,
        rfl, rfl, rfl⟩⟩
      rw [add_entry_result]
      change (absent_checked o check).result ++ _ = _
      rw [absent_checked_result, List.append_assoc]
  | some old =>
    have hlive := hold old rfl
    unfold merged_entry
    dsimp only
    split_ifs with hconflict hsame hlink hok hok
    · have hcopy : Live (copy_cache_entry merge old) := by
        unfold Live cache_entry.has copy_cache_entry
        have hstate : (merge.ce_flags &&& CE_STATE_MASK) &&& CE_REMOVE = 0 := by
          rw [BitVec.and_assoc, show CE_STATE_MASK &&& CE_REMOVE = 0 by decide]
          simp
        rw [or_and_apart hstate, andNot_and_apart (by decide)]
        exact hlive
      obtain ⟨hmode, hsha1⟩ := same_content hsame
      exact adds_file rfl hcopy (by decide) (by decide) ⟨hmode, hsha1, rfl⟩
    · exact rejects_same
    · exact adds_file rfl hmerge (update_apart old (by decide)) (update_apart old (by decide))
        ⟨rfl, rfl, rfl⟩
    · exact rejects_same
    · exact adds_file rfl hmerge (update_apart old (by decide)) (update_apart old (by decide))
        ⟨rfl, rfl, rfl⟩
    · exact adds_file rfl hmerge (by decide) (by decide) ⟨rfl, rfl, rfl⟩

/-- The "aggressive" deletion rejects, or leaves no file. -/
theorem delete_path_spec (c : merge_case) : RejectsOr o (delete_path opts o c) none := by
  unfold delete_path
  split
  · unfold deleted_entry
    dsimp only
    split_ifs
    · exact rejects_same
    · refine ⟨_, rfl, Or.inr ⟨zero_le_one' Int, _, ?_, rfl⟩⟩
      intro ce hce
      rw [List.mem_singleton.mp hce]
      exact removed_not_live _
  · dsimp only
    split_ifs
    · exact ⟨_, absent_checked_result o _, Or.inl rfl⟩
    · exact ⟨_, absent_checked_result o _, Or.inr ⟨le_refl (0 : Int), _, removed_map, rfl⟩⟩
  · exact ⟨[], (List.append_nil _).symm, Or.inr
      ⟨le_refl (0 : Int), [], fun _ h => absurd h List.not_mem_nil, rfl⟩⟩

/-! ## Stages that are kept -/

/-- An entry as `keep_entry` leaves it. -/
def kept_entry (ce : cache_entry) : cache_entry := added_entry ce 0 0

theorem kept_live (ce : cache_entry) : Live (kept_entry ce) ↔ Live ce := by
  have hclear : (0 ||| (CE_HASHED ||| CE_UNHASHED)) &&& CE_REMOVE = 0 := by decide
  unfold kept_entry added_entry Live cache_entry.has cache_entry.mark cache_entry.clear
  rw [if_neg (by decide)]
  simp only
  rw [or_and_apart (by decide), andNot_and_apart hclear]

theorem kept_stage (ce : cache_entry) : ce_stage (kept_entry ce) = ce_stage ce := by
  have hclear : (0 ||| (CE_HASHED ||| CE_UNHASHED)) &&& CE_STAGEMASK = 0 := by decide
  unfold kept_entry added_entry ce_stage cache_entry.mark cache_entry.clear
  rw [if_neg (by decide)]
  simp only
  rw [BitVec.and_comm, or_and_apart (by decide), andNot_and_apart hclear, BitVec.and_comm]

/-- An entry that the traversal makes for a tree: live, and at the stage of the tree. -/
def Staged (ce : cache_entry) : Prop := Live ce ∧ ce_stage ce ≠ 0

/-- The entries of a path as `unpack_callback` hands them over. -/
structure FromTrees (stages : merge_stages) : Prop where
  index : ∀ ce ∈ stages.index.pointer, Live ce
  ancestors : ∀ ce, stage_entry.entry ce ∈ stages.ancestors → Staged ce
  head : ∀ ce ∈ stages.head.file, Staged ce
  remote : ∀ ce ∈ stages.remote.file, Staged ce

/-- Head and remote are kept, and at most one ancestor. -/
def Unmerged (stages : merge_stages) (added : List cache_entry) : Prop :=
  ∃ ancestor : Option cache_entry, (∀ ce ∈ ancestor, .entry ce ∈ stages.ancestors) ∧
    added = (ancestor.toList ++
      (stages.head.file.toList ++ stages.remote.file.toList)).map kept_entry

theorem keep_pointer_result (kept : Int × unpacked) (ce : Option cache_entry) :
    (keep_pointer kept ce).2.result = kept.2.result ++ ce.toList.map kept_entry := by
  cases ce with
  | none => exact (List.append_nil _).symm
  | some ce => rfl

theorem keep_pointer_count (kept : Int × unpacked) (ce : Option cache_entry) :
    (keep_pointer kept ce).1 = kept.1 + ce.toList.length := by
  cases ce with
  | none => exact (Int.add_zero _).symm
  | some ce => rfl

theorem first_ancestor_mem {ancestors : List stage_entry} {ce : cache_entry}
    (h : ce ∈ first_ancestor ancestors) : stage_entry.entry ce ∈ ancestors := by
  obtain ⟨stage, hmem, hfile⟩ := List.exists_of_findSome?_eq_some h
  cases stage with
  | null => cases hfile
  | df_conflict_entry => cases hfile
  | entry e =>
    cases hfile
    exact hmem

/-- "No merge" rejects, or keeps the stages. -/
theorem no_merge_spec (stages : merge_stages) :
    ∃ added, (no_merge opts o stages.case).2.result = o.result ++ added ∧
      ((no_merge opts o stages.case).1 = -1 ∧ added = [] ∨
        0 ≤ (no_merge opts o stages.case).1 ∧ Unmerged stages added) := by
  have hkeep : ∃ added, (keep_stages o stages.case).2.result = o.result ++ added ∧
      0 ≤ (keep_stages o stages.case).1 ∧ Unmerged stages added := by
    obtain ⟨ancestor, hancestor, heq⟩ : ∃ ancestor : Option cache_entry,
        (∀ ce ∈ ancestor, .entry ce ∈ stages.ancestors) ∧
        keep_stages o stages.case =
          keep_pointer (keep_pointer (keep_pointer (0, { o with nontrivial_merge := true })
            ancestor) stages.head.file) stages.remote.file := by
      unfold keep_stages
      dsimp only
      split_ifs
      · exact ⟨first_ancestor stages.ancestors, fun ce h => first_ancestor_mem h, rfl⟩
      · exact ⟨none, fun ce h => absurd h (Option.not_mem_none ce), rfl⟩
    refine ⟨_, ?_, ?_, ancestor, hancestor, rfl⟩
    · rw [heq, keep_pointer_result, keep_pointer_result, keep_pointer_result, List.map_append,
        List.map_append, List.append_assoc, List.append_assoc]
    · rw [heq, keep_pointer_count, keep_pointer_count, keep_pointer_count]
      omega
  obtain ⟨added, hresult, hret, hunmerged⟩ := hkeep
  unfold no_merge
  split
  · split_ifs
    · exact ⟨[], by rw [reject_result, List.append_nil], Or.inl ⟨rfl, rfl⟩⟩
    · exact ⟨added, hresult, Or.inr ⟨hret, hunmerged⟩⟩
  · exact ⟨added, hresult, Or.inr ⟨hret, hunmerged⟩⟩

/-! ## The merge -/

/-- `side` wins: some ancestor has the other side, none has this one, and it is not
the same as some ancestor. -/
def Wins (stages : merge_stages) (side other : Option cache_entry) : Prop :=
  (∃ a ∈ stages.ancestors, same a.pointer side = false) ∧
    (∃ a ∈ stages.ancestors, same a.pointer other = true) ∧
    ∀ a ∈ stages.ancestors, same a.pointer side = false

/-- What a resolved path must come to. -/
def RightOutcome (stages : merge_stages) (added : List cache_entry) : Prop :=
  let head := stages.head.file
  let remote := stages.remote.file
  if same head remote = true then Outcome head added
  else
    (Outcome head added ∧ Wins stages head remote) ∨
      (Outcome remote added ∧ Wins stages remote head)

/-- No change of the path is lost. -/
def LosesNoChange (stages : merge_stages) (o : unpacked) (r : Int × unpacked) : Prop :=
  ∃ added, r.2.result = o.result ++ added ∧
    (Resolved r added → RightOutcome stages added) ∧
    (¬ Resolved r added → r.1 = -1 ∨ Unmerged stages added) ∧
    ∀ index ∈ stages.index.pointer, same (some index) stages.head.file = false →
      r.1 = -1 ∨ ∃ ce ∈ added, Live ce ∧ ce.ce_mode = index.ce_mode ∧ ce.sha1 = index.sha1

/-- The work tree admits the deletion. -/
def DeletionVerified (opts : unpack_trees_options) (stages : merge_stages) : Prop :=
  match stages.index.pointer, stages.head.file with
  | some index, _ => verify_uptodate opts index = true
  | none, some head => (verify_absent opts head ERROR_WOULD_LOSE_UNTRACKED_REMOVED).ok = true
  | none, none => True

/-- The "aggressive" deletion takes a path that both sides have from an ancestor. -/
def DeletesBothMatched (opts : unpack_trees_options) (stages : merge_stages) : Prop :=
  opts.aggressive = true ∧ stages.head.file.isSome ≠ stages.remote.file.isSome ∧
    (∃ a ∈ stages.ancestors, same a.pointer stages.head.file = true) ∧
    (∃ a ∈ stages.ancestors, same a.pointer stages.remote.file = true) ∧
    (∀ index ∈ stages.index.pointer, same (some index) stages.head.file = true) ∧
    DeletionVerified opts stages

theorem head_match_ne_zero (stages : merge_stages) :
    stages.case.head_match ≠ 0 ↔ same stages.remote.file stages.head.file = false ∧
      ∃ a ∈ stages.ancestors, same a.pointer stages.head.file = true := by
  unfold merge_stages.case
  dsimp only
  split_ifs with hsame
  · rw [last_match_ne_zero _ (Nat.zero_lt_one)]
    simpa using fun _ _ _ => hsame
  · simpa using fun h => absurd h (by simpa using hsame)

theorem remote_match_ne_zero (stages : merge_stages) :
    stages.case.remote_match ≠ 0 ↔ same stages.remote.file stages.head.file = false ∧
      ∃ a ∈ stages.ancestors, same a.pointer stages.remote.file = true := by
  unfold merge_stages.case
  dsimp only
  split_ifs with hsame
  · rw [last_match_ne_zero _ (Nat.zero_lt_one)]
    simpa using fun _ _ _ => hsame
  · simpa using fun h => absurd h (by simpa using hsame)

section Merge
variable {stages : merge_stages} {r : Int × unpacked} {side : Option cache_entry}

/-- A side that is the right outcome, unless the index has another file in the way. -/
theorem RejectsOr.loses_nothing (h : RejectsOr o r side)
    (hright : ∀ added, Outcome side added → RightOutcome stages added)
    (hindex : ∀ index ∈ stages.index.pointer, same (some index) stages.head.file = false →
      same (some index) side = true) : LosesNoChange stages o r := by
  obtain ⟨added, hresult, hreject | ⟨hret, houtcome⟩⟩ := h
  · refine ⟨added, hresult, ?_, fun _ => Or.inl hreject, fun _ _ _ => Or.inl hreject⟩
    intro hresolved
    have := hresolved.1
    omega
  · have hresolved : Resolved r added := ⟨hret, houtcome.resolved⟩
    refine ⟨added, hresult, fun _ => hright added houtcome, fun hnot => absurd hresolved hnot, ?_⟩
    intro index hpointer hother
    have hsame := hindex index hpointer hother
    obtain ⟨removed, -, hside⟩ := houtcome
    cases side with
    | none => cases hsame
    | some file =>
      obtain ⟨ce, rfl, hlive, -, hmode, hsha1, -⟩ := hside
      obtain ⟨hm, hs⟩ := same_content hsame
      exact Or.inr ⟨ce, List.mem_append_right _ List.mem_cons_self, hlive, hmode.trans hm.symm,
        hsha1.trans hs.symm⟩

theorem rejected_loses_nothing (index : Option cache_entry) :
    LosesNoChange stages o (reject_merge opts o index) := by
  have h : RejectsOr o (reject_merge opts o index) none := by
    unfold reject_merge
    split
    · exact rejects_same
    · exact ⟨[], (List.append_nil _).symm, Or.inl rfl⟩
  obtain ⟨added, hresult, -⟩ := h
  have hreject : (reject_merge opts o index).1 = -1 := by
    unfold reject_merge
    split
    · rfl
    · rfl
  refine ⟨added, hresult, ?_, fun _ => Or.inl hreject, fun _ _ _ => Or.inl hreject⟩
  intro hresolved
  have := hresolved.1
  omega

theorem merged_pointer_spec (hmerge : ∀ ce ∈ side, Staged ce) (hsome : side.isSome = true)
    (hindex : ∀ ce ∈ stages.index.pointer, Live ce) :
    RejectsOr o (merged_pointer opts o side stages.index.pointer) side := by
  obtain ⟨ce, rfl⟩ := Option.isSome_iff_exists.mp hsome
  exact merged_entry_spec (hmerge ce rfl).1 hindex

/-- Kept stages leave the path unmerged, unless there is nothing to keep. -/
theorem no_merge_loses_nothing (hfrom : FromTrees stages)
    (hindex : ∀ index ∈ stages.index.pointer, same (some index) stages.head.file = true) :
    LosesNoChange stages o (no_merge opts o stages.case) := by
  have hguard : ∀ index ∈ stages.index.pointer, same (some index) stages.head.file = false →
      (no_merge opts o stages.case).1 = -1 ∨ ∃ ce ∈ ([] : List cache_entry), Live ce ∧
        ce.ce_mode = index.ce_mode ∧ ce.sha1 = index.sha1 := by
    intro index hpointer hother
    rw [hindex index hpointer] at hother
    cases hother
  obtain ⟨added, hresult, ⟨hreject, rfl⟩ | ⟨hret, hunmerged⟩⟩ := @no_merge_spec opts o stages
  · refine ⟨[], hresult, ?_, fun _ => Or.inl hreject, hguard⟩
    intro hresolved
    have := hresolved.1
    omega
  · refine ⟨added, hresult, ?_, fun _ => Or.inr hunmerged, ?_⟩
    · intro hresolved
      obtain ⟨ancestor, hancestor, rfl⟩ := hunmerged
      -- a stage that is kept is not resolved
      have hnone : ∀ side : Option cache_entry, (∀ ce ∈ side, Staged ce) →
          (∀ ce ∈ side, kept_entry ce ∈ (ancestor.toList ++
            (stages.head.file.toList ++ stages.remote.file.toList)).map kept_entry) →
          side = none := by
        intro side hstaged hkept
        cases side with
        | none => rfl
        | some ce =>
          obtain ⟨hlive, hstage⟩ := hstaged ce rfl
          have hzero := hresolved.2 _ (hkept ce rfl) ((kept_live ce).mpr hlive)
          rw [kept_stage] at hzero
          exact absurd hzero hstage
      have hhead : stages.head.file = none := hnone _ hfrom.head (fun ce hce =>
        List.mem_map_of_mem (List.mem_append_right _ (List.mem_append_left _
          (Option.mem_toList.mpr hce))))
      have hremote : stages.remote.file = none := hnone _ hfrom.remote (fun ce hce =>
        List.mem_map_of_mem (List.mem_append_right _ (List.mem_append_right _
          (Option.mem_toList.mpr hce))))
      have hanc : ancestor = none := hnone _ (fun ce hce => hfrom.ancestors ce (hancestor ce hce))
        (fun ce hce => List.mem_map_of_mem (List.mem_append_left _ (Option.mem_toList.mpr hce)))
      unfold RightOutcome
      rw [hhead, hremote, hanc]
      exact ⟨[], fun _ h => absurd h List.not_mem_nil, rfl⟩
    · intro index hpointer hother
      rw [hindex index hpointer] at hother
      cases hother

theorem delete_path_verified (hlive : ∀ index ∈ stages.index.pointer,
      same (some index) stages.head.file = true) :
    (delete_path opts o stages.case).1 ≠ -1 ↔ DeletionVerified opts stages := by
  have hindex : stages.case.index = stages.index.pointer := rfl
  have hhead : stages.case.head = stages.head.file := rfl
  unfold delete_path DeletionVerified
  rw [hindex, hhead]
  cases hi : stages.index.pointer with
  | some index =>
    have hclean : index.has CE_CONFLICTED = false := by
      have hsame := hlive index hi
      cases hh : stages.head.file with
      | none =>
        rw [hh] at hsame
        cases hsame
      | some head =>
        rw [hh] at hsame
        unfold same at hsame
        simp only at hsame
        split_ifs at hsame with hconflict
        rw [not_not, BitVec.and_or_distrib_right] at hconflict
        unfold cache_entry.has
        rw [(BitVec.or_eq_zero_iff.mp hconflict).1]
        rfl
    unfold deleted_entry
    simp only [hclean, Bool.not_false, Bool.true_and, Bool.not_eq_true']
    split_ifs with hverify
    · simp [hverify]
    · simpa using hverify
  | none =>
    cases hh : stages.head.file with
    | none => simp
    | some head =>
      simp only
      split_ifs with hok
      · simpa using hok
      · simpa using hok

theorem wins_of_matches (hside : ¬ ∃ a ∈ stages.ancestors, same a.pointer side = true)
    {other : Option cache_entry} (hother : ∃ a ∈ stages.ancestors, same a.pointer other = true) :
    Wins stages side other := by
  have hall : ∀ a ∈ stages.ancestors, same a.pointer side = false := by
    intro a ha
    by_contra hsame
    exact hside ⟨a, ha, by simpa using hsame⟩
  obtain ⟨a, ha, hsame⟩ := hother
  exact ⟨⟨a, ha, hall a ha⟩, ⟨a, ha, hsame⟩, hall⟩

/-- A head that is the same as remote is the outcome. -/
theorem right_of_same (hsame : same stages.head.file stages.remote.file = true)
    (added : List cache_entry) (h : Outcome stages.head.file added) :
    RightOutcome stages added := by
  unfold RightOutcome
  rw [if_pos hsame]
  exact h

theorem right_of_head (hsame : same stages.remote.file stages.head.file = false)
    (hwins : Wins stages stages.head.file stages.remote.file)
    (added : List cache_entry) (h : Outcome stages.head.file added) :
    RightOutcome stages added := by
  rw [same_comm] at hsame
  unfold RightOutcome
  rw [if_neg (by rw [hsame]; decide)]
  exact Or.inl ⟨h, hwins⟩

theorem right_of_remote (hsame : same stages.remote.file stages.head.file = false)
    (hwins : Wins stages stages.remote.file stages.head.file)
    (added : List cache_entry) (h : Outcome stages.remote.file added) :
    RightOutcome stages added := by
  rw [same_comm] at hsame
  unfold RightOutcome
  rw [if_neg (by rw [hsame]; decide)]
  exact Or.inr ⟨h, hwins⟩

/-- The "aggressive" deletion is right unless both sides have an ancestor. -/
theorem delete_path_loses_nothing (haggressive : opts.aggressive = true)
    (hdeletes : stages.case.deletes = true)
    (hindex : ∀ index ∈ stages.index.pointer, same (some index) stages.head.file = true)
    (hnot : ¬ DeletesBothMatched opts stages) :
    LosesNoChange stages o (delete_path opts o stages.case) := by
  have hguard : ∀ index ∈ stages.index.pointer, same (some index) stages.head.file = false →
      same (some index) none = true := by
    intro index hpointer hother
    rw [hindex index hpointer] at hother
    cases hother
  by_cases hverified : DeletionVerified opts stages
  · refine (delete_path_spec stages.case).loses_nothing ?_ hguard
    have hboth : stages.head.file.isSome ≠ stages.remote.file.isSome →
        ¬ ((∃ a ∈ stages.ancestors, same a.pointer stages.head.file = true) ∧
          ∃ a ∈ stages.ancestors, same a.pointer stages.remote.file = true) :=
      fun hne hmatch => hnot ⟨haggressive, hne, hmatch.1, hmatch.2, hindex, hverified⟩
    have hh : stages.case.head = stages.head.file := rfl
    have hr : stages.case.remote = stages.remote.file := rfl
    unfold merge_case.deletes at hdeletes
    rw [hh, hr] at hdeletes
    have hhm := head_match_ne_zero stages
    have hrm := remote_match_ne_zero stages
    cases hhead : stages.head.file with
    | none =>
      cases hremote : stages.remote.file with
      | none =>
        intro added hout
        exact right_of_same (by rw [hhead, hremote]; rfl) added (by rwa [hhead])
      | some file =>
        rw [hhead, hremote] at hdeletes hboth
        have hmatch : stages.case.remote_match ≠ 0 := by simpa using hdeletes
        obtain ⟨hne, hanc⟩ := hrm.mp hmatch
        intro added hout
        refine right_of_head hne (wins_of_matches ?_ hanc) added (by rwa [hhead])
        rw [hhead]
        exact fun hmatched => hboth (by simp) ⟨hmatched, by rwa [hremote] at hanc⟩
    | some file =>
      cases hremote : stages.remote.file with
      | none =>
        rw [hhead, hremote] at hdeletes hboth
        have hmatch : stages.case.head_match ≠ 0 := by simpa using hdeletes
        obtain ⟨hne, hanc⟩ := hhm.mp hmatch
        intro added hout
        refine right_of_remote hne (wins_of_matches ?_ hanc) added (by rwa [hremote])
        rw [hremote]
        exact fun hmatched => hboth (by simp) ⟨by rwa [hhead] at hanc, hmatched⟩
      | some other =>
        rw [hhead, hremote] at hdeletes
        cases hdeletes
  · have hreject : (delete_path opts o stages.case).1 = -1 := by
      by_contra hne
      exact hverified ((delete_path_verified hindex).mp hne)
    obtain ⟨added, hresult, -⟩ := @delete_path_spec opts o stages.case
    refine ⟨added, hresult, ?_, fun _ => Or.inl hreject, fun _ _ _ => Or.inl hreject⟩
    intro hresolved
    have := hresolved.1
    omega

theorem threeway_merge_loses_nothing (hfrom : FromTrees stages)
    (hnot : ¬ DeletesBothMatched opts stages) :
    LosesNoChange stages o (threeway_merge opts o stages) := by
  have hhm := head_match_ne_zero stages
  have hrm := remote_match_ne_zero stages
  have hi : stages.case.index = stages.index.pointer := rfl
  have hh : stages.case.head = stages.head.file := rfl
  have hr : stages.case.remote = stages.remote.file := rfl
  unfold threeway_merge
  dsimp only
  split_ifs with h14 hreject hindex h15 h13 h1 hdelete hadded
  · exact rejected_loses_nothing _
  · -- #14, #14ALT, #2ALT
    simp only [Bool.and_eq_true, bne_iff_ne, beq_iff_eq] at h14
    obtain ⟨⟨⟨hsome, -⟩, hhead⟩, hremote⟩ := h14
    obtain ⟨hne, hanc⟩ := hhm.mp hhead
    have hnone := fun hmatched => hrm.mpr ⟨hne, hmatched⟩ hremote
    refine (merged_pointer_spec hfrom.remote hsome hfrom.index).loses_nothing
      (right_of_remote hne (wins_of_matches hnone hanc)) ?_
    intro index hpointer hother
    by_contra hother'
    apply hreject
    rw [hi, hh, hr, hpointer, hother, eq_false_of_ne_true hother']
    rfl
  · exact rejected_loses_nothing _
  all_goals
    have hindex' : ∀ index ∈ stages.index.pointer,
        same (some index) stages.head.file = true := by
      intro index hpointer
      by_contra hother
      apply hindex
      rw [hi, hh, hpointer, eq_false_of_ne_true hother]
      rfl
    have hguard : ∀ index ∈ stages.index.pointer,
        same (some index) stages.head.file = false →
          same (some index) stages.head.file = true :=
      fun index hpointer _ => hindex' index hpointer
  · -- #5ALT, #15
    rw [Bool.and_eq_true, hh, hr] at h15
    exact (merged_pointer_spec hfrom.head h15.1 hfrom.index).loses_nothing
      (right_of_same h15.2) hguard
  · -- #13, #3ALT
    simp only [Bool.and_eq_true, bne_iff_ne, beq_iff_eq] at h13
    obtain ⟨⟨⟨hsome, -⟩, hremote⟩, hhead⟩ := h13
    obtain ⟨hne, hanc⟩ := hrm.mp hremote
    have hnone := fun hmatched => hhm.mpr ⟨hne, hmatched⟩ hhead
    exact (merged_pointer_spec hfrom.head hsome hfrom.index).loses_nothing
      (right_of_head hne (wins_of_matches hnone hanc)) hguard
  · -- #1
    simp only [Bool.and_eq_true, Option.isNone_iff_eq_none, hh, hr] at h1
    have hnothing : RejectsOr o (0, o) stages.head.file := by
      refine ⟨[], (List.append_nil _).symm, Or.inr ⟨le_refl (0 : Int), [], ?_, ?_⟩⟩
      · exact fun _ h => absurd h List.not_mem_nil
      · rw [h1.1.1]
    refine hnothing.loses_nothing (right_of_same ?_) hguard
    rw [h1.1.1, h1.1.2]
    rfl
  · rw [Bool.and_eq_true] at hdelete
    exact delete_path_loses_nothing hdelete.1 hdelete.2 hindex' hnot
  · simp only [Bool.and_eq_true, hh, hr] at hadded
    exact (merged_pointer_spec hfrom.head hadded.1.1.2 hfrom.index).loses_nothing
      (right_of_same hadded.2) hguard
  · exact no_merge_loses_nothing hfrom hindex'

/-- Where both sides have an ancestor, the "aggressive" deletion loses a change. -/
theorem deletes_both_matched_loses (h : DeletesBothMatched opts stages) :
    ¬ LosesNoChange stages o (threeway_merge opts o stages) := by
  obtain ⟨haggressive, hsides, hhead, hremote, hindex, hverified⟩ := h
  have hne : same stages.remote.file stages.head.file = false := by
    by_contra hsame
    exact hsides (same_isSome (by simpa using hsame)).symm
  have hhm := (head_match_ne_zero stages).mpr ⟨hne, hhead⟩
  have hrm := (remote_match_ne_zero stages).mpr ⟨hne, hremote⟩
  have hi : stages.case.index = stages.index.pointer := rfl
  have hh : stages.case.head = stages.head.file := rfl
  have hr : stages.case.remote = stages.remote.file := rfl
  have hnot2 : (stages.index.pointer.isSome && !same stages.index.pointer stages.head.file) =
      false := by
    cases hp : stages.index.pointer with
    | none => rfl
    | some index => rw [hindex index hp]; rfl
  have hdeletes : stages.case.deletes = true := by
    unfold merge_case.deletes
    rw [hh, hr]
    cases hhf : stages.head.file with
    | none =>
      cases hrf : stages.remote.file with
      | none => exact absurd (by rw [hhf, hrf]) hsides
      | some file => simpa using hrm
    | some file =>
      cases hrf : stages.remote.file with
      | none => simpa using hhm
      | some file => exact absurd (by rw [hhf, hrf]; rfl) hsides
  have hbranch : threeway_merge opts o stages = delete_path opts o stages.case := by
    unfold threeway_merge
    dsimp only
    rw [if_neg (by simp [hrm]), hi, hh, hr, if_neg (by rw [hnot2]; decide),
      if_neg (by rw [same_comm, hne]; simp), if_neg (by simp [hhm]), if_neg ?_,
      if_pos (by rw [haggressive, hdeletes]; rfl)]
    intro hboth
    rw [Bool.and_eq_true, Bool.and_eq_true, Option.isNone_iff_eq_none,
      Option.isNone_iff_eq_none] at hboth
    exact hsides (by rw [hboth.1.1, hboth.1.2])
  rintro ⟨added, hresult, hright, -, -⟩
  rw [hbranch] at hresult hright
  obtain ⟨added', hresult', hreject | ⟨hret, hout⟩⟩ :=
    @delete_path_spec opts o stages.case
  · exact (delete_path_verified hindex).mpr hverified hreject
  · have hadded : added' = added := List.append_cancel_left (hresult'.symm.trans hresult)
    rw [hadded] at hout
    have houtcome := hright ⟨hret, hout.resolved⟩
    unfold RightOutcome at houtcome
    rw [if_neg (by rw [same_comm, hne]; decide)] at houtcome
    rcases houtcome with ⟨-, -, -, hnone⟩ | ⟨-, -, -, hnone⟩
    · obtain ⟨a, ha, hsame⟩ := hhead
      rw [hnone a ha] at hsame
      cases hsame
    · obtain ⟨a, ha, hsame⟩ := hremote
      rw [hnone a ha] at hsame
      cases hsame

/-- **A three-way merge loses no change** exactly when the "aggressive" deletion
does not take a path that both sides have from an ancestor. -/
theorem a_three_way_merge_loses_no_change (hfrom : FromTrees stages) :
    LosesNoChange stages o (threeway_merge opts o stages) ↔ ¬ DeletesBothMatched opts stages :=
  ⟨fun h hdeletes => deletes_both_matched_loses hdeletes h, threeway_merge_loses_nothing hfrom⟩

end Merge

/-! ## A path with two ancestors -/

/-- An empty work tree and no index file, with `--aggressive` and `-i`. -/
def aggressive_index_only : unpack_trees_options :=
  { reset := false, update := false, index_only := true, gently := false, aggressive := true
    skip_sparse_checkout := true, recurse_submodules := false
    cfg := ⟨true, true, true, false⟩
    wt := ⟨fun _ => none, fun _ => EMPTY_BLOB_SHA1_BIN, fun _ => none⟩
    src_index := index_state.empty
    lstat_enoent := fun _ => true
    is_submodule_checkout_safe := fun _ _ => true
    is_submodule_modified := fun _ => false
    check_absent := fun _ _ => ⟨true, [], []⟩ }

/-- The file "a" of the tree of a stage, with a blob of repeated bytes. -/
def file_a (stage : Nat) (blob : UInt8) : cache_entry :=
  { df_conflict with
    ce_mode := 0o100644, ce_flags := create_ce_flags 1 stage, sha1 := Vector.replicate 20 blob,
    name := [97] }

def nothing_unpacked : unpacked := ⟨[], [], [], false⟩

/-- Only remote changed the file. -/
def changed_in_remote : merge_stages :=
  { index := .null, ancestors := [.entry (file_a 1 7)], head := .entry (file_a 2 7)
    remote := .entry (file_a 3 8) }

/-- The file is new since one ancestor, and gone since the other. -/
def new_and_gone : merge_stages :=
  { index := .null, ancestors := [.null, .entry (file_a 1 7)], head := .null
    remote := .entry (file_a 3 7) }

theorem a_change_in_remote_is_kept :
    LosesNoChange changed_in_remote nothing_unpacked
      (threeway_merge aggressive_index_only nothing_unpacked changed_in_remote) := by
  apply (a_three_way_merge_loses_no_change ?_).mpr
  · rintro ⟨-, hsides, -⟩
    exact hsides rfl
  · constructor
    · exact fun ce h => by cases h
    · intro ce h
      rw [stage_entry.entry.inj (List.mem_singleton.mp h)]
      exact ⟨rfl, by decide⟩
    · intro ce h
      cases h
      exact ⟨rfl, by decide⟩
    · intro ce h
      cases h
      exact ⟨rfl, by decide⟩

/-- Head has the file as one ancestor has it, and remote as the other. The
deletion in head is taken. -/
theorem a_file_new_in_remote_is_lost :
    ¬ LosesNoChange new_and_gone nothing_unpacked
      (threeway_merge aggressive_index_only nothing_unpacked new_and_gone) := by
  apply deletes_both_matched_loses
  refine ⟨rfl, by decide, ⟨.null, List.mem_cons_self, rfl⟩,
    ⟨.entry (file_a 1 7), List.mem_cons_of_mem _ List.mem_cons_self, by decide⟩, ?_, trivial⟩
  intro index h
  cases h

end git.unpack_trees
