-- Reading an index that may be unmerged (`read_index_unmerged`): each unmerged path gets a
-- merged entry, which goes into the array while the loop walks over it.
import Git.UnmergeLaws

open bsearch

namespace git

/-! ## The code -/

/-- The merged entry for the path of an unmerged one: zeroed, but for the name, the mode and
the flags. -/
def conflicted (ce : cache_entry) : cache_entry where
  ce_ctime := ⟨0, 0⟩
  ce_mtime := ⟨0, 0⟩
  ce_dev := 0
  ce_ino := 0
  ce_mode := ce.ce_mode
  ce_uid := 0
  ce_gid := 0
  ce_size := 0
  ce_flags := create_ce_flags ce.name.length 0 ||| CE_CONFLICTED
  sha1 := Vector.replicate 20 0
  name := ce.name

/-- An option word without bits. -/
def no_option : add_option where
  ok_to_add := false
  ok_to_replace := false
  skip_dfcheck := false
  just_append := false
  new_only := false

/-- The loop from place `i`. The index comes with what is returned, where `none` is the error
"cannot drop to stage #0". -/
def drop_from : Nat → index_state → Nat → Bool → Option (index_state × Option Bool)
  | 0, _, _, _ => none
  | turns + 1, istate, i, unmerged =>
    match istate.cache[i]? with
    | none => some (istate, some unmerged)
    | some ce =>
      if ce_stage ce = 0 then drop_from turns istate (i + 1) unmerged
      else
        let new_ce := conflicted ce
        let (istate, added) := add_index_entry istate new_ce no_option
        if !added then some (istate, none)
        else
          match index_name_pos istate new_ce.name (BitVec.ofNat 32 new_ce.name.length) with
          | .found pos => drop_from turns istate (pos + 1) true
          | .absent 0 => drop_from turns istate 0 true
          -- `i` is negative, and past the array when `cache_nr` makes it unsigned
          | .absent (_ + 1) => some (istate, some true)

/-- What is done to the index that `read_index` gives. -/
def read_index_unmerged (turns : Nat) (istate : index_state) :
    Option (index_state × Option Bool) := drop_from turns istate 0 false

/-! ## What is promised -/

/-- `s'` has one merged entry for each path of `s` and no other entry, and the flag tells if
`s` was unmerged. -/
structure Dropped (s s' : index_state) (unmerged : Bool) : Prop where
  ordered : Ordered s'
  merged : ∀ e ∈ s'.cache, ce_stage e = 0
  each : ∀ path, (∃ e ∈ s.cache, e.name = path) → ∃! e, e ∈ s'.cache ∧ e.name = path
  known : ∀ e ∈ s'.cache, ∃ e' ∈ s.cache, e'.name = e.name
  flag : unmerged = true ↔ ∃ e ∈ s.cache, ce_stage e ≠ 0

/-- The call returns without an error, and does what is promised. -/
def ReadsUnmerged (s : index_state) : Prop :=
  ∃ turns s' unmerged, read_index_unmerged turns s = some (s', some unmerged) ∧
    Dropped s s' unmerged

/-- The key that the raw length of a path, in place of the flags, makes of it. -/
def raw_key (path : Bytes) : Bytes ×ₗ Nat := cache_key path (BitVec.ofNat 32 path.length)

/-- The lookup by the raw length finds a merged entry, or a place in front of them all. -/
def Resumes (cache : List cache_entry) (path : Bytes) : Prop :=
  (∃ e ∈ cache, stage_key e.name 0 = raw_key path) ∨
    ∀ e ∈ cache, raw_key path < stage_key e.name 0

/-- Entries whose names start with the same 4095 bytes are of one path, and either merged or
not. -/
def OnePath (cache : List cache_entry) : Prop :=
  ∀ a ∈ cache, ∀ b ∈ cache, a.name.take 0x0fff = b.name.take 0x0fff →
    a.name = b.name ∧ (ce_stage a = 0 → ce_stage b = 0)

/-- The unmerged paths are valid, nothing that stays is a file or a directory in their way, at
any stage, and the loop goes on after each of them but the last. -/
structure Droppable (cache : List cache_entry) : Prop where
  verified : ∀ u ∈ cache, ce_stage u ≠ 0 → verify_path u.name = true
  clear : ∀ u ∈ cache, ce_stage u ≠ 0 → ∀ e ∈ cache,
    Under u.name e.name ∨ Under e.name u.name → ce_stage e = 0 ∧ e.has CE_REMOVE = true
  resumes : ∀ u ∈ cache, ce_stage u ≠ 0 → ∀ v ∈ cache, ce_stage v ≠ 0 →
    u.name.take 0x0fff < v.name.take 0x0fff → Resumes cache u.name

/-! ## The merged entry -/

theorem conflicted_named (ce : cache_entry) : Named (conflicted ce) := by
  have h : (conflicted ce).ce_flags &&& CE_NAMEMASK =
      create_ce_flags ce.name.length 0 &&& CE_NAMEMASK := or_and_apart (by decide)
  exact (congrArg BitVec.toNat h).trans (create_ce_flags_mask ce.name.length 0 (by decide))

theorem conflicted_stage (ce : cache_entry) : ce_stage (conflicted ce) = 0 := by
  have h1 := stagemask_eq (conflicted ce)
  have h2 : (conflicted ce).ce_flags &&& CE_STAGEMASK =
      create_ce_flags ce.name.length 0 &&& CE_STAGEMASK := or_and_apart (by decide)
  rw [h2, create_ce_flags_stage _ _ (by decide), Nat.zero_mul] at h1
  exact (Nat.mul_eq_zero.mp h1.symm).resolve_right (by decide)

theorem conflicted_stays (ce : cache_entry) : (conflicted ce).has CE_REMOVE = false := by
  have h : (conflicted ce).ce_flags &&& CE_REMOVE = create_ce_flags ce.name.length 0 &&& CE_REMOVE :=
    or_and_apart (by decide)
  unfold cache_entry.has
  rw [h]
  exact new_entry_stays 0 (Vector.replicate 20 0) ce.name (by decide)

theorem conflicted_key (ce : cache_entry) : (conflicted ce).key = stage_key ce.name 0 := by
  rw [(conflicted_named ce).key, conflicted_stage]
  rfl

/-! ## One turn -/

theorem take_le_of_key {a b : cache_entry} (ha : Named a) (hb : Named b) (h : a.key ≤ b.key) :
    a.name.take 0x0fff ≤ b.name.take 0x0fff := by
  rw [ha.key, hb.key, Prod.Lex.toLex_le_toLex] at h
  rcases h with h | ⟨h, -⟩
  · exact h.le
  · exact h.le

/-- The unmerged entries of a path stand together, and the loop finds them all. -/
theorem none_left_of_path {ce : cache_entry} {post : List cache_entry} (hc : Named ce)
    (hn : ∀ e ∈ post, Named e) (ha : Ascends cache_entry.key post)
    (hpost : ∀ b ∈ post, ce.key < b.key)
    (hone : ∀ e ∈ post, e.name.take 0x0fff = ce.name.take 0x0fff → e.name = ce.name) :
    ∀ e ∈ post.dropWhile (ce_same_name · ce), e.name ≠ ce.name := by
  induction post with
  | nil => simp
  | cons p post ih =>
    have hp := hn p List.mem_cons_self
    rw [List.dropWhile_cons]
    split
    · exact ih (fun e he => hn e (List.mem_cons_of_mem _ he)) ha.of_cons
        (fun b hb => hpost b (List.mem_cons_of_mem _ hb))
        fun e he => hone e (List.mem_cons_of_mem _ he)
    · next hdiffers =>
      rw [ce_same_name_iff hp hc] at hdiffers
      intro e he hen
      rcases List.mem_cons.mp he with rfl | hlater
      · exact hdiffers hen
      · -- `p` is between the place of `ce` and an entry of its name
        have hle := take_le_of_key hp (hn e he) (List.rel_of_pairwise_cons ha hlater).le
        rw [hen] at hle
        have hge := take_le_of_key hc hp (hpost p List.mem_cons_self).le
        exact hdiffers (hone p List.mem_cons_self (le_antisymm hle hge))

/-- The unmerged entries of the path are out, and a merged one is in their place. -/
structure Turned (path : Bytes) (c c' : index_state) : Prop where
  ordered : Ordered c'
  dfree : DFree c'.cache
  arrays : ∃ x pre old post, c.cache = pre ++ old ++ post ∧ c'.cache = pre ++ x :: post ∧
    (x.name = path ∧ ce_stage x = 0 ∧ x.has CE_REMOVE = false) ∧
    (∀ e ∈ old, e.name = path ∧ ce_stage e ≠ 0) ∧ (∀ e ∈ pre ++ post, e.name ≠ path) ∧ old ≠ []

/-- The addition of the merged entry fails on a path that is refused, and on a file or a
directory in its way. -/
theorem turn_spec {c : index_state} {ce : cache_entry} (h : Ordered c) (hd : DFree c.cache)
    (hone : OnePath c.cache) (hce : ce ∈ c.cache) (hst : ce_stage ce ≠ 0) :
    ((add_index_entry c (conflicted ce) no_option).2 = true ↔
        verify_path ce.name = true ∧ ∀ e ∈ c.cache, ¬ InWay (conflicted ce) e) ∧
      ((add_index_entry c (conflicted ce) no_option).2 = true →
        Turned ce.name c (add_index_entry c (conflicted ce) no_option).1) := by
  have hc : Named (conflicted ce) := conflicted_named ce
  have hstage : ce_stage (conflicted ce) = 0 := conflicted_stage ce
  have hsame : ∀ e ∈ c.cache, e.name.take 0x0fff = ce.name.take 0x0fff →
      e.name = ce.name ∧ ce_stage e ≠ 0 := by
    intro e he htake
    obtain ⟨hn, hmerged⟩ := hone e he ce hce htake
    exact ⟨hn, fun h0 => hst (hmerged h0)⟩
  have hadds := add_index_entry_adds h hc (show no_option.just_append = false from rfl)
  have hordered := hadds.ordered h hc
  rcases index_name_pos_spec h (conflicted ce).name (conflicted ce).ce_flags hc.mask_le with
    ⟨pre, e, post, hcache, hpos, hkey⟩ | ⟨pre, post, hcache, hpos, hpre, hpost⟩
  · exfalso
    have he : e ∈ c.cache := by simp [hcache]
    have hkey : e.key = (conflicted ce).key := hkey
    rw [(h.named e he).key, hc.key, hstage] at hkey
    obtain ⟨htake, hzero⟩ := Prod.mk.inj (toLex_inj.mp hkey)
    exact (hsame e he htake).2 (by omega)
  · have hpost : ∀ b ∈ post, (conflicted ce).key < b.key := hpost
    have hin : ∀ e ∈ post, e ∈ c.cache := fun e he => by simp [hcache, he]
    have hcekey : (conflicted ce).key < ce.key := by
      rw [conflicted_key, key_of_path (h.named ce hce) rfl]
      exact stage_key_lt (Nat.pos_of_ne_zero hst)
    have hcepost : ce ∈ post := by
      rw [hcache, List.mem_append] at hce
      exact hce.resolve_left fun hcepre => lt_asymm hcekey (hpre ce hcepre)
    have hascends : Ascends cache_entry.key post :=
      h.ascends.sublist (by rw [hcache]; exact List.sublist_append_right _ _)
    have hnone := none_left_of_path hc (fun e he => h.named e (hin e he)) hascends hpost
      fun e he htake => (hsame e (hin e he) htake).1
    obtain ⟨p, rest, rfl⟩ := List.exists_cons_of_ne_nil (List.ne_nil_of_mem hcepost)
    have hp : Named p := h.named p (hin p List.mem_cons_self)
    have hpn : p.name = ce.name := by
      refine (hsame p (hin p List.mem_cons_self) ?_).1
      have hge := take_le_of_key hc hp (hpost p List.mem_cons_self).le
      rcases List.mem_cons.mp hcepost with rfl | hlater
      · rfl
      · exact le_antisymm (take_le_of_key hp (h.named ce hce)
          (List.rel_of_pairwise_cons hascends hlater).le) hge
    have hget : (c.invalidate_path (conflicted ce).name).cache[pre.length]? = some p := by
      rw [show (c.invalidate_path (conflicted ce).name).cache = pre ++ p :: rest from hcache]
      simp
    have hsamep : ce_same_name p (conflicted ce) = true := (ce_same_name_iff hp hc).mpr hpn
    obtain ⟨hok, hleft⟩ := after_same_name_drops (c.invalidate_path (conflicted ce).name) hget hstage
      hsamep no_option.ok_to_add
    obtain ⟨htrims, -⟩ := after_same_name_spec no_option.ok_to_add
      (h.invalidate_path (conflicted ce).name) hc hcache hpost
    have hleft : (after_same_name (c.invalidate_path (conflicted ce).name) (conflicted ce) pre.length
        no_option.ok_to_add).1.cache = pre ++ (p :: rest).dropWhile (ce_same_name · (conflicted ce)) := by
      rw [hleft, without_same_name,
        show (c.invalidate_path (conflicted ce).name).cache = pre ++ p :: rest from hcache,
        List.take_left, List.drop_left]
    rw [add_index_entry_absent rfl hpos] at hordered ⊢
    generalize after_same_name (c.invalidate_path (conflicted ce).name) (conflicted ce) pre.length
      no_option.ok_to_add = r at hok hleft htrims hordered ⊢
    obtain ⟨s1, ok1⟩ := r
    dsimp only at hok hleft htrims hordered ⊢
    subst hok
    have h1 : Ordered s1 := htrims.ordered (h.invalidate_path (conflicted ce).name)
    have hd1 : DFree s1.cache := hd.subset htrims.sublist.subset
    have hsuffix := List.dropWhile_suffix (ce_same_name · (conflicted ce)) (l := p :: rest)
    obtain ⟨hflag, -⟩ := check_conflict_spec false h1 hc hd1 hleft hpre
      (fun b hb => hpost b (hsuffix.subset hb)) (conflicted_stays ce) (Or.inl hnone)
    have hlooks := check_conflict_looks (conflicted ce) s1 pre.length
    have hway : (∃ e ∈ s1.cache, InWay (conflicted ce) e) ↔
        ∃ e ∈ c.cache, InWay (conflicted ce) e := by
      constructor
      · rintro ⟨e, he, hw⟩
        exact ⟨e, htrims.sublist.subset he, hw⟩
      · rintro ⟨e, he, hw⟩
        refine ⟨e, ?_, hw⟩
        by_contra hout
        exact hw.name_ne (htrims.gone e he hout).2
    rw [hway] at hflag
    simp only [show no_option.ok_to_replace = false from rfl,
      show no_option.skip_dfcheck = false from rfl, Bool.not_true, Bool.false_or, Bool.false_eq_true,
      if_false] at hordered ⊢
    generalize check_file_directory_conflict s1 (conflicted ce) pre.length false = q
      at hflag hlooks hordered ⊢
    obtain ⟨s2, conflict⟩ := q
    dsimp only at hflag hlooks hordered ⊢
    subst hlooks
    rw [show (conflicted ce).name = ce.name from rfl] at hordered ⊢
    cases hv : verify_path ce.name with
    | false => simp
    | true =>
      cases conflict with
      | true => simpa using hflag
      | false =>
        have hfree : ∀ e ∈ c.cache, ¬ InWay (conflicted ce) e := by
          intro e he hw
          exact absurd (hflag.mpr ⟨e, he, hw⟩) (by decide)
        rw [hv] at hordered
        simp only [Bool.not_true, Bool.not_false, Bool.false_eq_true, if_false, if_true]
          at hordered ⊢
        refine ⟨iff_of_true trivial ⟨trivial, hfree⟩, fun _ => ⟨hordered, ?_, ?_⟩⟩
        · have hle : pre.length ≤ s2.cache_nr := by simp [index_state.cache_nr, hleft]
          exact (dfree_insert hle hd1).mpr
            (Or.inr fun e he => hfree e (htrims.sublist.subset he))
        · have hkey := add_name_hash_key s2 (conflicted ce)
          refine ⟨add_name_hash s2 (conflicted ce), pre,
            (p :: rest).takeWhile (ce_same_name · (conflicted ce)),
            (p :: rest).dropWhile (ce_same_name · (conflicted ce)), ?_, ?_,
            ⟨hkey.1, hkey.stage.trans hstage, ?_⟩, ?_, ?_, ?_⟩
          · rw [List.append_assoc, List.takeWhile_append_dropWhile, hcache]
          · rw [index_state.insert, hleft, insertIdx_append]
          · rw [add_name_hash_going, conflicted_stays]
          · intro e he
            have hmem : e ∈ c.cache := hin e (List.takeWhile_subset _ he)
            have hsn : ce_same_name e (conflicted ce) = true :=
              List.mem_takeWhile_imp (p := (ce_same_name · (conflicted ce))) he
            have hn : e.name = ce.name := (ce_same_name_iff (h.named e hmem) hc).mp hsn
            exact ⟨hn, (hsame e hmem (by rw [hn])).2⟩
          · intro e he
            rcases List.mem_append.mp he with he | he
            · exact not_named_before hc (fun e he => h.named e (by simp [hcache, he])) hpre hstage e he
            · exact hnone e he
          · rw [List.takeWhile_cons_of_pos (p := (ce_same_name · (conflicted ce))) hsamep]
            exact List.cons_ne_nil _ _

end git
