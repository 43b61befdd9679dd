-- The record that an addition leaves of the unmerged entries it takes out, on top of what was
-- recorded before.
import Git.Unmerge

open bsearch

namespace git

/-! ## Items of a list -/

section
variable {α : Type} {pre post : List (Bytes × Option α)} {string : Bytes} {util : Option α}

theorem ByName.find_item (h : ByName (pre ++ (string, util) :: post)) :
    (pre ++ (string, util) :: post).find? (·.1 == string) = some (string, util) := by
  have hpre : pre.find? (·.1 == string) = none := by
    rw [List.find?_eq_none]
    intro item hitem
    have hlt := (List.pairwise_append.mp h).2.2 item hitem (string, util) List.mem_cons_self
    rw [beq_iff_eq]
    exact hlt.ne
  rw [List.find?_append, hpre, Option.none_or, List.find?_cons_of_pos (by simp)]

theorem find_other {name : Bytes} (hname : name ≠ string) :
    (pre ++ (string, util) :: post).find? (·.1 == name) = (pre ++ post).find? (·.1 == name) := by
  rw [List.find?_append, List.find?_append, List.find?_cons_of_neg (by simpa using hname.symm)]

theorem ByName.find_absent (h : ByName (pre ++ (string, util) :: post)) :
    (pre ++ post).find? (·.1 == string) = none := by
  rw [List.find?_eq_none]
  intro item hitem
  rw [beq_iff_eq]
  exact ((h.mem_others item).mp hitem).2

/-- The lookup finds the item of a string. -/
theorem string_list_lookup_found {list : List (Bytes × Option α)} (h : ByName list) {value : α}
    (hfind : (list.find? (·.1 == string)).bind (·.2) = some value) :
    ∃ item, string_list_lookup list string = some item ∧ list[item]?.bind (·.2) = some value := by
  unfold string_list_lookup
  rcases search_spec (k := string) h (fun item _ => strcmp_compares string item.1) with
    ⟨pre, ⟨name, util⟩, post, hlist, hpos, hkey⟩ | ⟨pre, post, hlist, -, hpre, hpost⟩
  · obtain rfl : name = string := hkey
    refine ⟨pre.length, by rw [hpos], ?_⟩
    have hitem := (hlist ▸ h).find_item
    rw [hlist, hitem] at hfind
    rw [hlist, List.getElem?_append_right le_rfl, Nat.sub_self, List.getElem?_cons_zero]
    exact hfind
  · have hnone : list.find? (·.1 == string) = none := by
      rw [List.find?_eq_none]
      intro item hitem
      rw [beq_iff_eq]
      rw [hlist, List.mem_append] at hitem
      rcases hitem with hitem | hitem
      · exact (hpre item hitem).ne
      · exact (hpost item hitem).ne'
    rw [hnone] at hfind
    cases hfind

end

/-! ## One entry -/

/-- `record_resolve_undo` on the list. -/
def record_in (undo : Option (List (Bytes × Option resolve_undo_info))) (ce : cache_entry) :
    Option (List (Bytes × Option resolve_undo_info)) :=
  if ce_stage ce = 0 then undo else some (record_lost (undo.getD []) ce)

theorem remove_at_undo {istate : index_state} {pos : Nat} {ce : cache_entry}
    (h : istate.cache[pos]? = some ce) :
    (remove_index_entry_at istate pos).1.resolve_undo = record_in istate.resolve_undo ce := by
  unfold remove_index_entry_at record_resolve_undo record_in
  rw [h]
  dsimp only
  split <;> rfl

variable {undo : Option (List (Bytes × Option resolve_undo_info))} {ce : cache_entry}

theorem record_in_spec (h : ByName (undo.getD [])) (hst : ce_stage ce ≠ 0) :
    ByName ((record_in undo ce).getD []) ∧
      listed (record_in undo ce) ce.name = some (with_stage (record_of undo ce.name) ce) ∧
      ∀ name, name ≠ ce.name → listed (record_in undo ce) name = listed undo name := by
  obtain ⟨pre, util, post, hfrom, hrecord, hin⟩ := record_lost_spec h ce
  have hlist : record_in undo ce =
      some (pre ++ (ce.name, some (with_stage (util.getD no_record) ce)) :: post) := by
    rw [record_in, if_neg hst, hrecord]
  have hin' := hrecord ▸ hin
  have hold : record_of undo ce.name = util.getD no_record := by
    unfold record_of listed
    rcases hfrom with hfrom | ⟨hfrom, rfl⟩
    · rw [hfrom] at h ⊢
      rw [h.find_item]
      rfl
    · rw [hfrom, hin'.find_absent]
      rfl
  refine ⟨by rw [hlist]; exact hin', ?_, ?_⟩
  · rw [listed, hlist, Option.getD_some, hin'.find_item, hold]
    rfl
  · intro name hname
    rw [listed, listed, hlist, Option.getD_some, find_other hname]
    rcases hfrom with hfrom | ⟨hfrom, -⟩
    · rw [hfrom, find_other hname]
    · rw [hfrom]

/-! ## The entries of a path -/

/-- What the record of a path says of some entries of it that were recorded: their modes and
object names, and at the other stages what the record before says. -/
structure RecordsAll (gone : List cache_entry) (before after : resolve_undo_info) : Prop where
  recorded : ∀ e ∈ gone, ∀ i, ∀ hi : i < 3, ce_stage e = i + 1 →
    after.mode[i] = e.ce_mode ∧ after.sha1[i] = e.sha1
  others : ∀ i, ∀ hi : i < 3, (∀ e ∈ gone, ce_stage e ≠ i + 1) →
    after.mode[i] = before.mode[i] ∧ after.sha1[i] = before.sha1[i]

theorem with_stage_here {ui : resolve_undo_info} {i : Nat} (hi : i < 3) (h : ce_stage ce = i + 1) :
    (with_stage ui ce).mode[i] = ce.ce_mode ∧ (with_stage ui ce).sha1[i] = ce.sha1 := by
  simp [with_stage, h]

theorem with_stage_there {ui : resolve_undo_info} {i : Nat} (hi : i < 3) (hst : ce_stage ce ≠ 0)
    (h : ce_stage ce ≠ i + 1) :
    (with_stage ui ce).mode[i] = ui.mode[i] ∧ (with_stage ui ce).sha1[i] = ui.sha1[i] := by
  have hne : ce_stage ce - 1 ≠ i := by omega
  exact ⟨Vector.getElem_setIfInBounds_ne hi hne, Vector.getElem_setIfInBounds_ne hi hne⟩

/-- Entries of one path are recorded, each at its own stage. -/
theorem record_all {path : Bytes} {gone : List cache_entry}
    (hgone : ∀ e ∈ gone, e.name = path ∧ ce_stage e ≠ 0)
    (hapart : gone.Pairwise fun a b => ce_stage a ≠ ce_stage b) :
    ∀ undo : Option (List (Bytes × Option resolve_undo_info)), ByName (undo.getD []) →
      ByName ((gone.foldl record_in undo).getD []) ∧
        RecordsAll gone (record_of undo path) (record_of (gone.foldl record_in undo) path) ∧
        ((listed undo path).isSome = true ∨ gone ≠ [] →
          (listed (gone.foldl record_in undo) path).isSome = true) := by
  induction gone with
  | nil =>
    intro undo h
    exact ⟨h, ⟨by simp, fun i hi _ => ⟨rfl, rfl⟩⟩, by simp⟩
  | cons ce gone ih =>
    intro undo h
    obtain ⟨hname, hst⟩ := hgone ce List.mem_cons_self
    obtain ⟨hby, hlisted, -⟩ := record_in_spec h hst
    rw [hname] at hlisted
    have hrec : record_of (record_in undo ce) path = with_stage (record_of undo path) ce := by
      rw [record_of, hlisted, Option.getD_some]
    obtain ⟨hlater, hrest⟩ := List.pairwise_cons.mp hapart
    obtain ⟨ih1, ih2, ih3⟩ := ih (fun e he => hgone e (List.mem_cons_of_mem _ he)) hrest
      (record_in undo ce) hby
    refine ⟨ih1, ⟨?_, ?_⟩, fun _ => ih3 (Or.inl (by rw [hlisted]; rfl))⟩
    · intro e he i hi hstage
      rcases List.mem_cons.mp he with rfl | he
      · have hnone : ∀ x ∈ gone, ce_stage x ≠ i + 1 := by
          intro x hx hxs
          exact hlater x hx (hstage.trans hxs.symm)
        obtain ⟨h1, h2⟩ := ih2.others i hi hnone
        rw [List.foldl_cons, h1, h2, hrec]
        exact with_stage_here hi hstage
      · exact ih2.recorded e he i hi hstage
    · intro i hi hnone
      obtain ⟨h1, h2⟩ := ih2.others i hi fun e he => hnone e (List.mem_cons_of_mem _ he)
      rw [List.foldl_cons, h1, h2, hrec]
      exact with_stage_there hi hst (hnone ce List.mem_cons_self)

/-! ## The addition -/

/-- What `remove_same_name` takes out is recorded. -/
theorem remove_same_name_undo (ce : cache_entry) {pre post : List cache_entry} (turns : Nat)
    (istate : index_state) (ok : Bool) (h : istate.cache = pre ++ post)
    (ht : post.length ≤ turns) :
    (remove_same_name ce pre.length turns istate ok).1.resolve_undo =
      (post.takeWhile (ce_same_name · ce)).foldl record_in istate.resolve_undo := by
  induction turns generalizing istate ok post with
  | zero =>
    have : post = [] := List.length_eq_zero_iff.mp (by omega)
    subst this
    rfl
  | succ turns ih =>
    unfold remove_same_name
    cases post with
    | nil => simp [h]
    | cons e post =>
      have he : istate.cache[pre.length]? = some e := by simp [h]
      simp only [he, List.takeWhile_cons]
      split
      · have hc := remove_at_append h
        have hu := remove_at_undo he
        rw [remove_at_more h]
        split
        · rw [ih _ true hc (by simpa using ht), hu]
          rfl
        · rename_i hm
          have hlast : post = [] := by simpa using hm
          subst hlast
          exact hu
      · rfl

/-- The scan takes out entries of the stage of `ce`: no record when that is 0. -/
theorem has_file_name_from_undo (hst : ce_stage ce = 0) (ok : Bool) (turns : Nat)
    (istate : index_state) (pos : Nat) (retval : Bool) :
    (has_file_name_from ce ok turns istate pos retval).1.resolve_undo = istate.resolve_undo := by
  induction turns generalizing istate pos retval with
  | zero => rfl
  | succ turns ih =>
    cases hp : istate.cache[pos]? with
    | none => rw [has_file_name_from, hp]
    | some p =>
      rw [has_file_name_from_turn ce p ok turns istate pos retval hp]
      split_ifs with hs hu hok
      · have hp0 : ce_stage p = 0 := by
          unfold file_under at hu
          simp only [Bool.and_eq_true, beq_iff_eq] at hu
          rw [hu.1.1, hst]
        rw [ih, remove_at_undo hp, record_in, if_pos hp0]
      · rfl
      · exact ih _ _ _
      · rfl

theorem has_dir_name_from_undo (hst : ce_stage ce = 0) (ok : Bool) {lens : List Nat}
    {istate : index_state} (retval : Bool) (h : Ordered istate) (hc : Named ce)
    (hk : ∀ e ∈ istate.cache, e.key ≠ ce.key) (hl : ∀ len ∈ lens, len < ce.name.length) :
    (has_dir_name_from ce ok lens istate retval).1.resolve_undo = istate.resolve_undo := by
  induction lens generalizing istate retval with
  | nil => rfl
  | cons len lens ih =>
    have hrest := fun l hm => hl l (List.mem_cons_of_mem _ hm)
    rcases has_dir_name_from_turn ok lens retval h hc hk (hl len List.mem_cons_self) with
      ⟨pos, e, he, -, hest, -, heq⟩ | ⟨-, ⟨heq, -⟩ | heq⟩
    · rw [heq]
      cases ok with
      | false => rfl
      | true =>
        have ht : Trims (fun _ => True) istate (remove_index_entry_at istate pos).1 :=
          trims_remove he trivial
        rw [if_pos rfl, ih true (ht.ordered h) (fun x hx => hk x (ht.sublist.subset hx)) hrest,
          remove_at_undo he, record_in, if_pos (hest.trans hst)]
    · rw [heq]
    · rw [heq]
      exact ih retval h hk hrest

theorem check_conflict_undo (hst : ce_stage ce = 0) (ok : Bool) {istate : index_state} (pos : Nat)
    (h : Ordered istate) (hc : Named ce) (hk : ∀ e ∈ istate.cache, e.key ≠ ce.key) :
    (check_file_directory_conflict istate ce pos ok).1.resolve_undo = istate.resolve_undo := by
  unfold check_file_directory_conflict
  split
  · rfl
  · have ht := trims_has_file_name ok pos h hc
    have hl : ∀ len ∈ slashes (ce.name.take (ce_namelen ce)), len < ce.name.length := by
      intro len hlen
      exact (List.getElem?_eq_some_iff.mp (slashes_of_named hc len hlen)).1
    have hdir := has_dir_name_from_undo hst ok false (ht.ordered h) hc
      (fun e he => hk e (ht.sublist.subset he)) hl
    exact hdir.trans (has_file_name_from_undo hst ok _ istate pos false)

theorem stage_of_key {a b : cache_entry} (ha : Named a) (hb : Named b) (h : a.key = b.key) :
    ce_stage a = ce_stage b := by
  rw [ha.key, hb.key, EmbeddingLike.apply_eq_iff_eq, Prod.mk.injEq] at h
  omega

/-- With the key of `ce` in the index, the other entries of its name stay. -/
theorem found_keeps_stages {s : index_state} {option : add_option} {pos : Nat} {e : cache_entry}
    (h : Ordered s) (hc : Named ce) (hst : ce_stage ce = 0) (hj : option.just_append = false)
    (hpos : index_name_pos s ce.name ce.ce_flags = .found pos) (he : e ∈ s.cache)
    (hest : ce_stage e ≠ 0) : e ∈ (add_index_entry s ce option).1.cache := by
  rcases index_name_pos_spec h ce.name ce.ce_flags hc.mask_le with
    ⟨pre, old, post, hcache, hfound, hkey⟩ | ⟨pre, post, -, habsent, -⟩
  · obtain rfl : pos = pre.length := by
      rw [hpos] at hfound
      exact Pos.found.inj hfound
    have hold : Named old := h.named old (by simp [hcache])
    have hne : e ≠ old := by
      rintro rfl
      exact hest ((stage_of_key hold hc hkey).trans hst)
    rw [add_index_entry_found hj hpos]
    dsimp only
    split
    · exact he
    · have hcut : (replace_index_entry (s.invalidate_path ce.name) pre.length ce).cache =
          pre ++ add_name_hash (s.invalidate_path ce.name) ce :: post := by
        simp only [replace_index_entry, set_index_entry, index_state.invalidate_path, hcache, set_append]
      rw [hcut]
      rw [hcache] at he
      simp only [List.mem_append, List.mem_cons, hne, false_or] at he ⊢
      tauto
  · rw [hpos] at habsent
    cases habsent

/-- The entries that an addition for them takes out, and that it records them all. -/
theorem resolved_record {s s1 : index_state} {option : add_option} (h : Ordered s)
    (hc : Named ce) (hst : ce_stage ce = 0) (hj : option.just_append = false)
    (hadd : add_index_entry s ce option = (s1, true))
    (hhad : ∃ e ∈ s.cache, e.name = ce.name ∧ ce_stage e ≠ 0)
    (hnone : ∀ e ∈ s1.cache, e.name = ce.name → ce_stage e = 0) :
    verify_path ce.name = true ∧ ∃ gone : List cache_entry,
      (∀ e, e ∈ gone ↔ e ∈ s.cache ∧ e.name = ce.name) ∧ (∀ e ∈ gone, ce_stage e ≠ 0) ∧
      (gone.Pairwise fun a b => ce_stage a ≠ ce_stage b) ∧
      s1.resolve_undo = gone.foldl record_in s.resolve_undo := by
  rcases index_name_pos_spec h ce.name ce.ce_flags hc.mask_le with
    ⟨pre, old, post, -, hpos, -⟩ | ⟨pre, post, hcache, hpos, hpre, hpost⟩
  · obtain ⟨e, he, hen, hest⟩ := hhad
    have hin := found_keeps_stages h hc hst hj hpos he hest
    rw [hadd] at hin
    exact absurd (hnone e hin hen) hest
  · have h0 := h.invalidate_path ce.name
    have hnamed : ∀ e ∈ pre ++ post, Named e := fun e he => h.named e (hcache ▸ he)
    obtain ⟨ht1, -⟩ := after_same_name_spec option.ok_to_add h0 hc hcache hpost
    have hcut := remove_same_name_cache ce s.cache_nr (s.invalidate_path ce.name) option.ok_to_add
      hcache (by simp [index_state.cache_nr, hcache])
    have hundo := remove_same_name_undo ce s.cache_nr (s.invalidate_path ce.name) option.ok_to_add
      hcache (by simp [index_state.cache_nr, hcache])
    have hafter : after_same_name (s.invalidate_path ce.name) ce pre.length option.ok_to_add =
        remove_same_name ce pre.length s.cache_nr (s.invalidate_path ce.name) option.ok_to_add := by
      rw [after_same_name, if_pos hst]
      rfl
    rw [add_index_entry_absent hj hpos] at hadd
    rw [hafter] at hadd ht1
    generalize remove_same_name ce pre.length s.cache_nr (s.invalidate_path ce.name)
      option.ok_to_add = r at *
    obtain ⟨sa, ok⟩ := r
    dsimp only at hadd ht1 hcut hundo
    have ha := ht1.ordered h0
    have hka : ∀ e ∈ sa.cache, e.key ≠ ce.key := by
      intro e he
      have he : e ∈ pre ++ post := hcache ▸ ht1.sublist.subset he
      rcases List.mem_append.mp he with he | he
      · exact (hpre e he).ne
      · exact (hpost e he).ne'
    have hcheck := check_conflict_undo hst option.ok_to_replace pre.length ha hc hka
    have htrims := trims_check_conflict option.ok_to_replace pre.length ha hc hka
    have hquiet := check_conflict_quiet ce option.ok_to_replace sa pre.length
    generalize check_file_directory_conflict sa ce pre.length option.ok_to_replace = q at *
    obtain ⟨sb, conflict⟩ := q
    dsimp only at hadd hcheck htrims hquiet
    -- whichever way the entry goes in, it goes into `sa` or into `sb`
    have hwhere : verify_path ce.name = true ∧ s1.resolve_undo = sa.resolve_undo ∧
        ∀ e ∈ sb.cache, e ∈ s1.cache := by
      have hinsert : ∀ (istate : index_state) pos, pos ≤ istate.cache_nr → ∀ e ∈ istate.cache,
          e ∈ (istate.insert pos ce).cache :=
        fun istate pos hle e he => (mem_insert ce hle e).mpr (Or.inr he)
      have hle : pre.length ≤ sa.cache_nr := by
        rw [index_state.cache_nr, hcut, List.length_append]
        exact Nat.le_add_right _ _
      split_ifs at hadd with hok hskip hconf hrep
      · cases hadd
      · cases hadd
        exact ⟨(by simpa using hok : ok = true ∧ verify_path ce.name = true).2, rfl,
          fun e he => hinsert sa _ hle e (htrims.sublist.subset he)⟩
      · obtain rfl : sb = sa := hquiet (by simpa using hconf)
        cases hadd
        exact ⟨(by simpa using hok : ok = true ∧ verify_path ce.name = true).2, rfl, hinsert sb _ hle⟩
      · cases hadd
      · cases hadd
        exact ⟨(by simpa using hok : ok = true ∧ verify_path ce.name = true).2, hcheck,
          hinsert sb _ (index_name_pos_le sb ce.name ce.ce_flags)⟩
    obtain ⟨hverify, hsame, hkeep⟩ := hwhere
    have hgone : ∀ e ∈ post.takeWhile (fun e => ce_same_name e ce), e ∈ post ∧ e.name = ce.name := by
      intro e he
      have hpe := List.takeWhile_subset _ he
      have hsn : ce_same_name e ce = true := List.mem_takeWhile_imp (p := fun e => ce_same_name e ce) he
      exact ⟨hpe, (ce_same_name_iff (hnamed e (List.mem_append_right _ hpe)) hc).mp hsn⟩
    have hstage : ∀ e ∈ post, e.name = ce.name → ce_stage e ≠ 0 := by
      intro e he hen hest
      refine (show ce.key < e.key from hpost e he).ne ?_
      rw [(hnamed e (List.mem_append_right _ he)).key, hc.key, hen, hest, hst]
    refine ⟨hverify, post.takeWhile (fun e => ce_same_name e ce), ?_, ?_, ?_, hsame.trans hundo⟩
    · intro e
      constructor
      · intro he
        exact ⟨hcache ▸ List.mem_append_right _ (hgone e he).1, (hgone e he).2⟩
      · rintro ⟨he, hen⟩
        rw [hcache, List.mem_append] at he
        have hpe : e ∈ post := by
          refine he.resolve_left fun he => ?_
          exact not_named_before hc (fun x hx => hnamed x (List.mem_append_left _ hx)) hpre hst e he hen
        by_contra hout
        -- an entry that is not taken out is in the index still
        have hin : e ∈ post.dropWhile (fun e => ce_same_name e ce) := by
          rw [← List.takeWhile_append_dropWhile (p := fun e => ce_same_name e ce) (l := post),
            List.mem_append] at hpe
          exact hpe.resolve_left hout
        have hsa : e ∈ sa.cache := by
          rw [hcut]
          exact List.mem_append_right _ hin
        have hsb : e ∈ sb.cache := by
          by_contra hno
          rcases (htrims.gone e hsa hno).1 with hu | hu
          · exact Under.irrefl _ (hen ▸ hu)
          · exact Under.irrefl _ (hen ▸ hu)
        exact hstage e hpe hen (hnone e (hkeep e hsb) hen)
    · intro e he
      exact hstage e (hgone e he).1 (hgone e he).2
    · have hascends : Ascends cache_entry.key (post.takeWhile fun e => ce_same_name e ce) := by
        refine h.ascends.sublist ?_
        rw [hcache]
        exact (List.takeWhile_sublist _).trans (List.sublist_append_right _ _)
      refine List.Pairwise.imp_of_mem ?_ hascends
      intro a b ha hb hlt hab
      obtain ⟨hpa, hna⟩ := hgone a ha
      obtain ⟨hpb, hnb⟩ := hgone b hb
      refine hlt.ne ?_
      rw [(hnamed a (List.mem_append_right _ hpa)).key, (hnamed b (List.mem_append_right _ hpb)).key,
        hna, hnb, hab]

end git
