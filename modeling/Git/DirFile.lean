-- Files and directories of one name in the index: when an addition keeps
-- them apart, and when the scan of `has_file_name` or the replacement of an
-- entry lets both in.
import Git.IndexRuns

open bsearch

namespace git

/-! ## Indexes without conflicts -/

/-- No entry stands under the name of another one of its stage. Entries that
are to be removed do not count. -/
def DFree (cache : List cache_entry) : Prop :=
  ∀ a ∈ cache, ∀ b ∈ cache, a.has CE_REMOVE = false → b.has CE_REMOVE = false →
    ce_stage a = ce_stage b → ¬ Under a.name b.name

/-- `e` is a file under the name of `ce`, at its stage. -/
def FileBelow (ce e : cache_entry) : Prop :=
  Under ce.name e.name ∧ ce_stage e = ce_stage ce ∧ e.has CE_REMOVE = false

instance (ce e : cache_entry) : Decidable (FileBelow ce e) := by
  unfold FileBelow; infer_instance

instance (cache : List cache_entry) : Decidable (DFree cache) := by unfold DFree; infer_instance

theorem inWay_iff (ce e : cache_entry) : InWay ce e ↔ FileBelow ce e ∨ FileAbove ce e := by
  unfold InWay FileBelow FileAbove
  tauto

theorem DFree.subset {l l' : List cache_entry} (h : DFree l) (hs : l' ⊆ l) : DFree l' :=
  fun a ha b hb => h a (hs ha) b (hs hb)

theorem Under.irrefl (n : Bytes) : ¬ Under n n := fun h => lt_irrefl _ h.length_lt

/-- One more entry keeps a list free of conflicts when nothing is in its way. -/
theorem dfree_with {l l' : List cache_entry} {x : cache_entry}
    (hm : ∀ e, e ∈ l' ↔ e = x ∨ e ∈ l) (h : DFree l) :
    DFree l' ↔ x.has CE_REMOVE = true ∨ ∀ e ∈ l, ¬ InWay x e := by
  constructor
  · intro h'
    cases hr : x.has CE_REMOVE with
    | true => exact Or.inl rfl
    | false =>
      right
      rintro e he ⟨hu | hu, hst, hlive⟩
      · exact h' x ((hm x).mpr (Or.inl rfl)) e ((hm e).mpr (Or.inr he)) hr hlive hst.symm hu
      · exact h' e ((hm e).mpr (Or.inr he)) x ((hm x).mpr (Or.inl rfl)) hlive hr hst hu
  · intro hx a ha b hb hra hrb hst hu
    rcases (hm a).mp ha with rfl | ha <;> rcases (hm b).mp hb with rfl | hb
    · exact Under.irrefl _ hu
    · rcases hx with hx | hx
      · exact absurd hx (by simp [hra])
      · exact hx b hb ⟨Or.inl hu, hst.symm, hrb⟩
    · rcases hx with hx | hx
      · exact absurd hx (by simp [hrb])
      · exact hx a ha ⟨Or.inr hu, hst, hra⟩
    · exact h a ha b hb hra hrb hst hu

theorem SameKey.inWay {a b : cache_entry} (h : SameKey a b) (e : cache_entry) :
    InWay a e ↔ InWay b e := by
  unfold InWay
  rw [h.1, h.stage]

theorem add_name_hash_going (istate : index_state) (ce : cache_entry) :
    (add_name_hash istate ce).has CE_REMOVE = ce.has CE_REMOVE := by
  have h1 : (ce.clear CE_UNHASHED).ce_flags &&& CE_REMOVE = ce.ce_flags &&& CE_REMOVE :=
    andNot_and_apart (by decide)
  unfold add_name_hash cache_entry.has
  simp only
  split
  · have h2 : ((ce.clear CE_UNHASHED).mark CE_HASHED).ce_flags &&& CE_REMOVE =
        (ce.clear CE_UNHASHED).ce_flags &&& CE_REMOVE := or_and_apart (by decide)
    rw [h2, h1]
  · rw [h1]

/-! ## What the climb of `has_dir_name` finds -/

/-- A leading directory of a name is one of its slashes. -/
theorem FileAbove.slash {ce e : cache_entry} (h : FileAbove ce e) (hc : Named ce) :
    e.name.length ∈ slashes (ce.name.take (ce_namelen ce)) := by
  rw [hc.namelen, List.take_length]
  exact (slash_of_under h.1).1

theorem same_key {istate : index_state} (h : Ordered istate) {a b : cache_entry}
    (ha : a ∈ istate.cache) (hb : b ∈ istate.cache) (hn : a.name = b.name)
    (hst : ce_stage a = ce_stage b) : a = b :=
  h.ascends.eq_of_key ha hb (by rw [(h.named a ha).key, (h.named b hb).key, hn, hst])

theorem removed_is_out {istate : index_state} (h : Ordered istate) {pos : Nat} {e : cache_entry}
    (he : istate.cache[pos]? = some e) : e ∉ (remove_index_entry_at istate pos).1.cache := by
  rw [remove_index_entry_at_cache, List.mem_eraseIdx_iff_getElem]
  rintro ⟨i, hi, hne, heq⟩
  obtain ⟨hpos, rfl⟩ := List.getElem?_eq_some_iff.mp he
  rcases Nat.lt_or_gt_of_ne hne with hlt | hgt
  · exact absurd (congrArg cache_entry.key heq) (h.ascends.lt hlt hi hpos).ne
  · exact absurd (congrArg cache_entry.key heq) (h.ascends.lt hgt hpos hi).ne'

/-- The climb sees every file above `ce`, and with OK_TO_REPLACE it leaves
none. It may stop early at a directory with a file of the stage under it:
in an index without conflicts nothing stands above that. -/
theorem has_dir_name_from_spec {ce : cache_entry} (ok : Bool) {lens : List Nat}
    {istate : index_state} (retval : Bool) (h : Ordered istate) (hc : Named ce)
    (hd : DFree istate.cache) (hk : ∀ e ∈ istate.cache, e.key ≠ ce.key)
    (hl : ∀ len ∈ lens, ce.name[len]? = some SLASH) (hp : lens.Pairwise (· > ·)) :
    ((has_dir_name_from ce ok lens istate retval).2 = true ↔
        retval = true ∨ ∃ e ∈ istate.cache, FileAbove ce e ∧ e.name.length ∈ lens) ∧
      (ok = true → ∀ e ∈ (has_dir_name_from ce ok lens istate retval).1.cache,
        FileAbove ce e → e.name.length ∉ lens) := by
  induction lens generalizing istate retval with
  | nil => simp [has_dir_name_from]
  | cons len lens ih =>
    have hslash := hl len List.mem_cons_self
    have hlen : len < ce.name.length := (List.getElem?_eq_some_iff.mp hslash).1
    have hrest := fun l hm => hl l (List.mem_cons_of_mem _ hm)
    have hname : ∀ e, FileAbove ce e → e.name.length = len → e.name = ce.name.take len := by
      intro e he hel
      rw [(slash_of_under he.1).2, hel]
    rcases has_dir_name_from_turn ok lens retval h hc hk hlen with
      ⟨pos, e, he, hn, hst, hr, heq⟩ | ⟨hnone, hcase⟩
    · have hout : FileAbove ce e := ⟨hn ▸ under_of_slash hslash, hst, hr⟩
      have hel : e.name.length = len := by
        rw [hn, List.length_take]
        omega
      have hmem := List.mem_of_getElem? he
      have hfound : ∃ e ∈ istate.cache, FileAbove ce e ∧ e.name.length ∈ len :: lens :=
        ⟨e, hmem, hout, by simp [hel]⟩
      rw [heq]
      cases ok with
      | false =>
        refine ⟨⟨fun _ => Or.inr hfound, fun _ => rfl⟩, fun hok => ?_⟩
        cases hok
      | true =>
        have ht := trims_remove he hout
        have h' := ht.ordered h
        have hk' := fun x hx => hk x (ht.sublist.subset hx)
        obtain ⟨ih1, ih2⟩ := ih true h' (hd.subset ht.sublist.subset) hk' hrest hp.of_cons
        simp only [if_true, ih1, hfound, or_true, true_or, true_and]
        intro _ x hx hxa
        rw [List.mem_cons, not_or]
        refine ⟨?_, ih2 rfl x hx hxa⟩
        -- the one entry of that name and stage is out
        intro hxl
        have hx' := (trims_has_dir_name_from true true h' hc hk' hrest).sublist.subset hx
        have hxe := same_key h (ht.sublist.subset hx') hmem
          ((hname x hxa hxl).trans hn.symm) (hxa.2.1.trans hst.symm)
        exact removed_is_out h he (hxe ▸ hx')
    · have hnot : ∀ x ∈ istate.cache, FileAbove ce x → x.name.length ≠ len := by
        intro x hx hxa hxl
        have := hnone x hx (hname x hxa hxl) hxa.2.1
        rw [hxa.2.2] at this
        cases this
      rcases hcase with ⟨heq, p, hpm, hpu, hpst, hpr⟩ | heq
      · have hclear : ∀ x ∈ istate.cache, FileAbove ce x → x.name.length ∉ len :: lens := by
          intro x hx hxa hxl
          rcases List.mem_cons.mp hxl with hxl | hxl
          · exact hnot x hx hxa hxl
          · have hlt : x.name.length < len := List.rel_of_pairwise_cons hp hxl
            have hdir : Under x.name (ce.name.take len) :=
              hxa.1.of_shorter (under_of_slash hslash) (by rw [List.length_take]; omega)
            exact hd x hx p hpm hxa.2.2 hpr (hxa.2.1.trans hpst.symm) (hdir.trans hpu)
        rw [heq]
        refine ⟨⟨Or.inl, ?_⟩, fun _ => hclear⟩
        rintro (hr | ⟨x, hx, hxa, hxl⟩)
        · exact hr
        · exact absurd hxl (hclear x hx hxa)
      · obtain ⟨ih1, ih2⟩ := ih retval h hd hk hrest hp.of_cons
        rw [heq, ih1]
        constructor
        · refine or_congr_right (exists_congr fun x => and_congr_right fun hx =>
            and_congr_right fun hxa => ?_)
          rw [List.mem_cons]
          exact ⟨Or.inr, fun ho => ho.resolve_left (hnot x hx hxa)⟩
        · intro hok x hx hxa
          have hx' := (trims_has_dir_name_from ok retval h hc hk hrest).sublist.subset hx
          rw [List.mem_cons, not_or]
          exact ⟨hnot x hx' hxa, ih2 hok x hx hxa⟩

/-! ## What the scan of `has_file_name` finds -/

theorem key_le_iff {a b : cache_entry} (ha : Named a) (hb : Named b)
    (hst : ce_stage a = ce_stage b) :
    a.key ≤ b.key ↔ a.name.take 0x0fff ≤ b.name.take 0x0fff := by
  rw [ha.key, hb.key, Prod.Lex.toLex_le_toLex, hst]
  simp [le_iff_lt_or_eq]

theorem FileBelow.key_le {ce e : cache_entry} (h : FileBelow ce e) (hc : Named ce)
    (he : Named e) : ce.key ≤ e.key := by
  rw [key_le_iff hc he h.2.1.symm]
  exact list_order.take_le_take _ (list_order.le_of_prefix h.1.starts)

/-- Only short names have other entries of their stage under them: a long
one has the key of what stands under it. -/
theorem FileBelow.short {ce e : cache_entry} (h : FileBelow ce e) (hc : Named ce) (he : Named e)
    (hk : e.key ≠ ce.key) : ce.name.length < 0x0fff := by
  by_contra hl
  refine hk ?_
  obtain ⟨r, hr⟩ := h.1
  rw [he.key, hc.key, h.2.1, hr, List.take_append_of_le_length (by omega)]

/-- The files under `ce` stand right after its place, so the scan finds them
all, unless an entry of its own name stands before them. -/
theorem none_below_after {ce : cache_entry} {post : List cache_entry} (hc : Named ce)
    (hn : ∀ e ∈ post, Named e) (ha : Ascends cache_entry.key post)
    (hpost : ∀ b ∈ post, ce.key < b.key) (hno : ∀ e ∈ post, e.name ≠ ce.name) :
    ∀ e ∈ post.dropWhile (scans ce), ¬ FileBelow ce e := by
  induction post with
  | nil => simp
  | cons p post ih =>
    rw [List.dropWhile_cons]
    have hnp := hn p List.mem_cons_self
    split
    · exact ih (fun e he => hn e (List.mem_cons_of_mem _ he)) ha.of_cons
        (fun b hb => hpost b (List.mem_cons_of_mem _ hb))
        (fun e he => hno e (List.mem_cons_of_mem _ he))
    · rename_i hp
      intro e he hb
      rcases List.mem_cons.mp he with rfl | he
      · exact hp ((file_under_iff hc hnp).mpr hb).1
      · -- `p` stands between the place of `ce` and a file under its name
        have hne := hn e (List.mem_cons_of_mem _ he)
        have hs := hb.short hc hne (hpost e (List.mem_cons_of_mem _ he)).ne'
        have h1 := (hpost p List.mem_cons_self).le
        have h2 := (List.rel_of_pairwise_cons ha he).le
        rw [hc.key, hnp.key] at h1
        rw [hnp.key, hne.key] at h2
        have h1' := Prod.Lex.monotone_fst _ _ h1
        have h2' := Prod.Lex.monotone_fst _ _ h2
        simp only [ofLex_toLex] at h1' h2'
        rw [List.take_of_length_le hs.le] at h1'
        have hpre : ce.name <+: p.name := by
          rw [← list_order.prefix_take_iff (n := 0x0fff) hs.le]
          refine list_order.prefix_of_between h1' h2' ?_
          rw [list_order.prefix_take_iff hs.le]
          exact hb.1.starts
        refine hp ?_
        unfold scans
        rw [hc.namelen, hnp.namelen, List.take_length, Bool.and_eq_true, decide_eq_true_eq,
          beq_iff_eq]
        refine ⟨lt_of_le_of_ne hpre.length_le ?_, (List.prefix_iff_eq_take.mp hpre).symm⟩
        intro hlen
        exact hno p List.mem_cons_self (hpre.eq_of_length hlen).symm

theorem has_file_name_spec {istate : index_state} {ce : cache_entry} {pre post : List cache_entry}
    (ok : Bool) (h : Ordered istate) (hc : Named ce) (hcache : istate.cache = pre ++ post)
    (hpre : ∀ a ∈ pre, a.key < ce.key) (hpost : ∀ b ∈ post, ce.key < b.key)
    (hno : ∀ e ∈ post, e.name ≠ ce.name) :
    ((has_file_name istate ce pre.length ok).2 = true ↔ ∃ e ∈ istate.cache, FileBelow ce e) ∧
      (ok = true → ∀ e ∈ (has_file_name istate ce pre.length ok).1.cache, ¬ FileBelow ce e) := by
  obtain ⟨hflag, hrest⟩ := has_file_name_from_spec ce ok (istate.cache_nr - pre.length) istate false
    hcache (by simp [index_state.cache_nr, hcache])
  have hn : ∀ e ∈ istate.cache, Named e := h.named
  rw [hcache] at hn
  have hnpost : ∀ e ∈ post, Named e := fun e he => hn e (by simp [he])
  have hapost : Ascends cache_entry.key post :=
    h.ascends.sublist (by rw [hcache]; exact List.sublist_append_right _ _)
  have hafter := none_below_after hc hnpost hapost hpost hno
  have hbefore : ∀ e ∈ pre, ¬ FileBelow ce e := fun e he hb =>
    absurd (hb.key_le hc (hn e (by simp [he]))) (not_le.mpr (hpre e he))
  have hscan : ∀ e ∈ post.takeWhile (scans ce), file_under ce e = true ↔ FileBelow ce e := by
    intro e he
    have hs : scans ce e = true := List.mem_takeWhile_imp he
    have := file_under_iff hc (hnpost e (List.takeWhile_subset _ he))
    rw [hs] at this
    simpa [FileBelow] using this
  unfold has_file_name
  constructor
  · rw [hflag, Bool.false_or, List.any_eq_true]
    constructor
    · rintro ⟨e, he, hu⟩
      exact ⟨e, by simp [hcache, List.takeWhile_subset _ he], (hscan e he).mp hu⟩
    · rintro ⟨e, he, hb⟩
      rw [hcache, List.mem_append, ← List.takeWhile_append_dropWhile (p := scans ce) (l := post),
        List.mem_append] at he
      rcases he with he | he | he
      · exact absurd hb (hbefore e he)
      · exact ⟨e, he, (hscan e he).mpr hb⟩
      · exact absurd hb (hafter e he)
  · rintro rfl e he hb
    rw [hrest, if_pos rfl, List.mem_append, List.mem_append, List.mem_filter] at he
    rcases he with he | ⟨he, hu⟩ | he
    · exact hbefore e he hb
    · rw [(hscan e he).mpr hb] at hu
      cases hu
    · exact hafter e he hb

/-- An entry of its own name and a higher stage stops the scan at once. -/
theorem has_file_name_blind {istate : index_state} {ce q : cache_entry} {pre post : List cache_entry}
    (ok : Bool) (h : Ordered istate) (hc : Named ce) (hs : ce.name.length < 0x0fff)
    (hcache : istate.cache = pre ++ post) (hpost : ∀ b ∈ post, ce.key < b.key) (hq : q ∈ post)
    (hqn : q.name = ce.name) :
    has_file_name istate ce pre.length ok = (istate, false) := by
  cases post with
  | nil => cases hq
  | cons p post =>
    have hn : ∀ e ∈ p :: post, Named e := fun e he => h.named e (by rw [hcache]; simp [he])
    have hapost : Ascends cache_entry.key (p :: post) :=
      h.ascends.sublist (by rw [hcache]; exact List.sublist_append_right _ _)
    have hpn : p.name = ce.name := by
      have hafter := none_named_after hc hn hs hapost hpost
      rw [List.dropWhile_cons] at hafter
      by_contra hne
      rw [if_neg (by rwa [ce_same_name_iff (hn p List.mem_cons_self) hc])] at hafter
      exact hafter q hq hqn
    have hscan : scans ce p = false := by
      unfold scans
      rw [hc.namelen, (hn p List.mem_cons_self).namelen, hpn]
      simp
    have hlen : istate.cache_nr - pre.length = post.length + 1 := by
      simp [index_state.cache_nr, hcache]
    have hp : istate.cache[pre.length]? = some p := by simp [hcache]
    rw [has_file_name, hlen, has_file_name_from_turn ce p ok _ istate _ _ hp, hscan]
    simp

/-! ## The check as a whole -/

theorem check_conflict_spec {istate : index_state} {ce : cache_entry} {pre post : List cache_entry}
    (ok : Bool) (h : Ordered istate) (hc : Named ce) (hd : DFree istate.cache)
    (hcache : istate.cache = pre ++ post) (hpre : ∀ a ∈ pre, a.key < ce.key)
    (hpost : ∀ b ∈ post, ce.key < b.key) (hr : ce.has CE_REMOVE = false)
    (hseen : (∀ e ∈ post, e.name ≠ ce.name) ∨ ∀ e ∈ istate.cache, ¬ FileBelow ce e) :
    ((check_file_directory_conflict istate ce pre.length ok).2 = true ↔
        ∃ e ∈ istate.cache, InWay ce e) ∧
      (ok = true → ∀ e ∈ (check_file_directory_conflict istate ce pre.length ok).1.cache,
        ¬ InWay ce e) := by
  have hk : ∀ e ∈ istate.cache, e.key ≠ ce.key := by
    intro e he
    rw [hcache, List.mem_append] at he
    rcases he with he | he
    · exact (hpre e he).ne
    · exact (hpost e he).ne'
  have hfile : ((has_file_name istate ce pre.length ok).2 = true ↔
      ∃ e ∈ istate.cache, FileBelow ce e) ∧
      (ok = true → ∀ e ∈ (has_file_name istate ce pre.length ok).1.cache, ¬ FileBelow ce e) := by
    rcases hseen with hno | hnone
    · exact has_file_name_spec ok h hc hcache hpre hpost hno
    · have hsub := (trims_has_file_name ok pre.length h hc).sublist.subset
      refine ⟨⟨fun hf => ?_, fun ⟨e, he, hb⟩ => absurd hb (hnone e he)⟩,
        fun _ e he => hnone e (hsub he)⟩
      obtain ⟨hflag, -⟩ := has_file_name_from_spec ce ok (istate.cache_nr - pre.length) istate false
        hcache (by simp [index_state.cache_nr, hcache])
      unfold has_file_name at hf
      rw [hflag, Bool.false_or, List.any_eq_true] at hf
      obtain ⟨e, he, hu⟩ := hf
      have hmem : e ∈ istate.cache := by simp [hcache, List.takeWhile_subset _ he]
      have hs : scans ce e = true := List.mem_takeWhile_imp he
      exact ⟨e, hmem, (file_under_iff hc (h.named e hmem)).mp ⟨hs, hu⟩⟩
  have ht := trims_has_file_name_from ce ok (istate.cache_nr - pre.length) istate pre.length false
  have htrims := trims_has_file_name ok pre.length h hc
  have hdir := has_dir_name_from_spec ok false (htrims.ordered h) hc
    (hd.subset htrims.sublist.subset) (fun e he => hk e (htrims.sublist.subset he))
    (slashes_of_named hc) (slashes_descend _)
  -- the scan takes nothing from above `ce`
  have habove : ∀ e ∈ istate.cache, FileAbove ce e →
      e ∈ (has_file_name istate ce pre.length ok).1.cache := by
    intro e he ha
    by_contra hout
    have hb := (file_under_iff hc (h.named e he)).mp (ht.gone e he hout)
    exact lt_asymm ha.1.length_lt hb.1.length_lt
  unfold check_file_directory_conflict has_dir_name
  simp only [hr, Bool.false_eq_true, if_false, Bool.or_eq_true, hfile.1, hdir.1, false_or]
  constructor
  · constructor
    · rintro (⟨e, he, hb⟩ | ⟨e, he, ha, -⟩)
      · exact ⟨e, he, (inWay_iff ce e).mpr (Or.inl hb)⟩
      · exact ⟨e, htrims.sublist.subset he, (inWay_iff ce e).mpr (Or.inr ha)⟩
    · rintro ⟨e, he, hw⟩
      rcases (inWay_iff ce e).mp hw with hb | ha
      · exact Or.inl ⟨e, he, hb⟩
      · exact Or.inr ⟨e, habove e he ha, ha, ha.slash hc⟩
  · intro hok e he hw
    rcases (inWay_iff ce e).mp hw with hb | ha
    · refine hfile.2 hok e ?_ hb
      exact (trims_has_dir_name_from ok false (htrims.ordered h) hc
        (fun e he => hk e (htrims.sublist.subset he)) (slashes_of_named hc)).sublist.subset he
    · exact hdir.2 hok e he ha (ha.slash hc)

/-- The scan is stopped, and a file below `ce` tells the climb that there is
a directory: the check finds nothing. -/
theorem check_conflict_blind {istate : index_state} {ce q b : cache_entry}
    {pre post : List cache_entry} (ok : Bool) (h : Ordered istate) (hc : Named ce)
    (hd : DFree istate.cache) (hcache : istate.cache = pre ++ post)
    (hpre : ∀ a ∈ pre, a.key < ce.key) (hpost : ∀ b ∈ post, ce.key < b.key)
    (hr : ce.has CE_REMOVE = false) (hs : ce.name.length < 0x0fff) (hq : q ∈ post)
    (hqn : q.name = ce.name) (hb : b ∈ istate.cache) (hbelow : FileBelow ce b) :
    check_file_directory_conflict istate ce pre.length ok = (istate, false) := by
  have hk : ∀ e ∈ istate.cache, e.key ≠ ce.key := by
    intro e he
    rw [hcache, List.mem_append] at he
    rcases he with he | he
    · exact (hpre e he).ne
    · exact (hpost e he).ne'
  have hdir := has_dir_name_from_spec ok false h hc hd hk (slashes_of_named hc) (slashes_descend _)
  have hflag : (has_dir_name_from ce ok (slashes (ce.name.take (ce_namelen ce))) istate false).2 =
      false := by
    rw [Bool.eq_false_iff, Ne, hdir.1]
    rintro (hf | ⟨e, he, ha, -⟩)
    · cases hf
    · exact hd e he b hb ha.2.2 hbelow.2.2 (ha.2.1.trans hbelow.2.1.symm) (ha.1.trans hbelow.1)
  have hquiet := (has_dir_name_from_quiet ok _ _ false hflag).2
  unfold check_file_directory_conflict has_dir_name
  rw [has_file_name_blind ok h hc hs hcache hpost hq hqn]
  simp only [hr, Bool.false_eq_true, if_false, hflag, hquiet, Bool.or_self]

/-! ## Additions -/

/-- The addition would put `ce` beside a file in its way. With NEW_ONLY and
an entry of its key in the index, `ce` does not go in at all. -/
def Arises (istate : index_state) (ce : cache_entry) (option : add_option) : Prop :=
  ce.has CE_REMOVE = false ∧ (∃ e ∈ istate.cache, InWay ce e) ∧
    (option.new_only = true → option.just_append = false → ∀ e ∈ istate.cache, e.key ≠ ce.key)

/-- A successful addition leaves no conflict, and without OK_TO_REPLACE the
addition fails where one would arise. -/
def KeepsApart (istate : index_state) (ce : cache_entry) (option : add_option) : Prop :=
  ((add_index_entry istate ce option).2 = true → DFree (add_index_entry istate ce option).1.cache) ∧
    (option.ok_to_replace = false → Arises istate ce option →
      (add_index_entry istate ce option).2 = false)

/-- An entry of the name of `ce` stands at a higher stage, in front of the
files under that name. -/
def Hidden (istate : index_state) (ce : cache_entry) : Prop :=
  ce_stage ce ≠ 0 ∧ ∃ q ∈ istate.cache, q.name = ce.name ∧ ce_stage ce < ce_stage q

/-- The addition looks at every file in its way: it is no plain append, it
replaces nothing that hid one, and no other entry hides what stands below. -/
def NoneMissed (istate : index_state) (ce : cache_entry) (option : add_option) : Prop :=
  ce.has CE_REMOVE = true ∨
    if option.just_append = true then ∀ e ∈ istate.cache, ¬ InWay ce e
    else if ∃ old ∈ istate.cache, old.key = ce.key then
      option.new_only = true ∨
        ((∀ e ∈ istate.cache, InWay ce e → e.key = ce.key) ∧
          (option.ok_to_replace = true ∨ ∀ e ∈ istate.cache, ¬ InWay ce e))
    else verify_path ce.name = false ∨
      (Hidden istate ce → ∀ e ∈ istate.cache, ¬ FileBelow ce e)

instance (istate : index_state) (ce : cache_entry) : Decidable (Hidden istate ce) := by
  unfold Hidden; infer_instance

instance (istate : index_state) (ce : cache_entry) (option : add_option) :
    Decidable (NoneMissed istate ce option) := by unfold NoneMissed; infer_instance

theorem mem_insert {istate : index_state} {pos : Nat} (ce : cache_entry)
    (hp : pos ≤ istate.cache_nr) (e : cache_entry) :
    e ∈ (istate.insert pos ce).cache ↔ e = add_name_hash istate ce ∨ e ∈ istate.cache :=
  List.mem_insertIdx hp

/-- Insertion keeps the index free of conflicts when nothing is in the way. -/
theorem dfree_insert {istate : index_state} {pos : Nat} {ce : cache_entry}
    (hp : pos ≤ istate.cache_nr) (hd : DFree istate.cache) :
    DFree (istate.insert pos ce).cache ↔
      ce.has CE_REMOVE = true ∨ ∀ e ∈ istate.cache, ¬ InWay ce e := by
  rw [dfree_with (mem_insert ce hp) hd, add_name_hash_going]
  simp only [(add_name_hash_key istate ce).inWay]

theorem append_keeps_apart {istate : index_state} {ce : cache_entry} {option : add_option}
    (hd : DFree istate.cache) (hj : option.just_append = true) :
    KeepsApart istate ce option ↔ NoneMissed istate ce option := by
  have hadd : add_index_entry istate ce option = (istate.insert istate.cache_nr ce, true) := by
    simp [add_index_entry, hj, index_state.insert]
  unfold KeepsApart NoneMissed Arises
  rw [hadd]
  simp only [true_imp_iff, dfree_insert (Nat.le_refl _) hd, hj, if_true, reduceCtorEq, false_imp_iff,
    imp_true_iff, and_true, imp_false, not_and, not_exists]
  constructor
  · exact fun h => h.1
  · refine fun h => ⟨h, fun _ hr => ?_⟩
    exact h.resolve_left (by simp [hr])

theorem found_keeps_apart {istate : index_state} {ce old : cache_entry} {option : add_option}
    {pre post : List cache_entry} (h : Ordered istate) (hd : DFree istate.cache)
    (hj : option.just_append = false) (hcache : istate.cache = pre ++ old :: post)
    (hpos : index_name_pos istate ce.name ce.ce_flags = .found pre.length)
    (hkey : old.key = ce.key) :
    KeepsApart istate ce option ↔ NoneMissed istate ce option := by
  have hold : ∃ e ∈ istate.cache, e.key = ce.key := ⟨old, by simp [hcache], hkey⟩
  have hrest : ∀ e, e ∈ pre ++ post ↔ e ∈ istate.cache ∧ e.key ≠ ce.key := by
    intro e
    rw [hcache, ← hkey]
    exact Ascends.mem_others (hcache ▸ h.ascends) e
  have hdfree : DFree (replace_index_entry (istate.invalidate_path ce.name) pre.length ce).cache ↔
      ce.has CE_REMOVE = true ∨ ∀ e ∈ istate.cache, InWay ce e → e.key = ce.key := by
    have hd' : DFree (pre ++ post) := hd.subset fun e he => ((hrest e).mp he).1
    have hc' : (replace_index_entry (istate.invalidate_path ce.name) pre.length ce).cache =
        pre ++ add_name_hash istate ce :: post := by
      simp only [replace_index_entry, set_index_entry, index_state.invalidate_path, hcache, set_append]
      rfl
    rw [hc', dfree_with (x := add_name_hash istate ce) ?_ hd', add_name_hash_going]
    · refine or_congr_right (forall_congr' fun e => ?_)
      rw [hrest, (add_name_hash_key istate ce).inWay]
      tauto
    · intro e
      simp only [List.mem_append, List.mem_cons]
      tauto
  unfold KeepsApart NoneMissed Arises
  rw [add_index_entry_found hj hpos]
  cases hnew : option.new_only with
  | true =>
    have hkept : DFree (istate.invalidate_path ce.name).cache := hd
    have hno : ¬ ∀ e ∈ istate.cache, e.key ≠ ce.key := by
      push Not
      exact hold
    simp [hj, hold, hkept, hno]
  | false =>
    simp only [Bool.false_eq_true, if_false, true_imp_iff, hdfree, hj, if_pos hold, false_or,
      reduceCtorEq, false_imp_iff, and_true, imp_false, not_and, not_exists]
    cases ce.has CE_REMOVE <;> cases option.ok_to_replace <;> simp

theorem after_same_name_ok (istate : index_state) (ce : cache_entry) (pos : Nat) :
    (after_same_name istate ce pos true).2 = true := by
  unfold after_same_name
  split
  · generalize istate.cache_nr = turns
    induction turns generalizing istate with
    | zero => rfl
    | succ turns ih =>
      unfold remove_same_name
      split
      · rfl
      · split
        · simp only
          split
          · exact ih _
          · rfl
        · rfl
  · rfl

theorem InWay.name_ne {ce e : cache_entry} (h : InWay ce e) : e.name ≠ ce.name := by
  intro hn
  rcases h.1 with hu | hu <;> exact Under.irrefl _ (hn ▸ hu)

/-- The scan is not stopped by an entry of the name of `ce`, or has nothing
to find. -/
theorem scan_sees {istate s1 : index_state} {ce : cache_entry} {pre post post1 : List cache_entry}
    (h : Ordered istate) (hc : Named ce) (hk : ∀ e ∈ istate.cache, e.key ≠ ce.key)
    (hcache : istate.cache = pre ++ post) (hpost : ∀ b ∈ post, ce.key < b.key) (hcache1 : s1.cache = pre ++ post1)
    (hsub : post1.Sublist post)
    (hmerged : ce.name.length < 0x0fff → ce_stage ce = 0 → ∀ e ∈ post1, e.name ≠ ce.name)
    (hclear : Hidden istate ce → ∀ e ∈ istate.cache, ¬ FileBelow ce e) :
    (∀ e ∈ post1, e.name ≠ ce.name) ∨ ∀ e ∈ s1.cache, ¬ FileBelow ce e := by
  have hin : ∀ e ∈ s1.cache, e ∈ istate.cache := by
    intro e he
    rw [hcache1, List.mem_append] at he
    rw [hcache, List.mem_append]
    exact he.imp_right fun he => hsub.subset he
  by_cases hb : ∃ b ∈ s1.cache, FileBelow ce b
  · left
    obtain ⟨b, hbm, hb⟩ := hb
    have hbi := hin b hbm
    have hs := hb.short hc (h.named b hbi) (hk b hbi)
    intro e he hen
    have hei : e ∈ istate.cache := by simp [hcache, hsub.subset he]
    by_cases hst : ce_stage ce = 0
    · exact hmerged hs hst e he hen
    · have hlt := hpost e (hsub.subset he)
      rw [hc.key, (h.named e hei).key, hen, Prod.Lex.toLex_lt_toLex] at hlt
      have : ce_stage ce < ce_stage e := by
        rcases hlt with hlt | ⟨_, hlt⟩
        · exact absurd hlt (lt_irrefl _)
        · simp only at hlt
          omega
      exact hclear ⟨hst, e, hei, hen, this⟩ b hbi hb
  · right
    exact fun e he hbe => hb ⟨e, he, hbe⟩

theorem absent_keeps_apart {istate : index_state} {ce : cache_entry} {option : add_option}
    {pre post : List cache_entry} (h : Ordered istate) (hc : Named ce) (hd : DFree istate.cache)
    (hj : option.just_append = false) (hadd : option.ok_to_add = true)
    (hskip : option.skip_dfcheck = false) (hcache : istate.cache = pre ++ post)
    (hpos : index_name_pos istate ce.name ce.ce_flags = .absent pre.length)
    (hpre : ∀ a ∈ pre, a.key < ce.key) (hpost : ∀ b ∈ post, ce.key < b.key) :
    KeepsApart istate ce option ↔ NoneMissed istate ce option := by
  have hk : ∀ e ∈ istate.cache, e.key ≠ ce.key := by
    intro e he
    rw [hcache, List.mem_append] at he
    rcases he with he | he
    · exact (hpre e he).ne
    · exact (hpost e he).ne'
  have hfound : ¬ ∃ e ∈ istate.cache, e.key = ce.key := fun ⟨e, he, hke⟩ => hk e he hke
  have h0 := h.invalidate_path ce.name
  obtain ⟨ht, post1, hcache1, hsub, hmerged⟩ :=
    after_same_name_spec true h0 hc hcache hpost
  have hok := after_same_name_ok (istate.invalidate_path ce.name) ce pre.length
  have heq := add_index_entry_absent hj hpos
  rw [hadd] at heq
  generalize after_same_name (istate.invalidate_path ce.name) ce pre.length true = r at *
  obtain ⟨s1, ok1⟩ := r
  simp only at hok ht hcache1 heq
  subst hok
  have h1 := ht.ordered h0
  have hd1 : DFree s1.cache := hd.subset ht.sublist.subset
  have hpost1 : ∀ b ∈ post1, ce.key < b.key := fun b hb => hpost b (hsub.subset hb)
  have hway : ∀ e, InWay ce e → (e ∈ s1.cache ↔ e ∈ istate.cache) := by
    intro e hw
    refine ⟨fun he => ht.sublist.subset he, fun he => ?_⟩
    by_contra hout
    exact hw.name_ne (ht.gone e he hout).2
  have hlen : pre.length ≤ s1.cache_nr := by simp [index_state.cache_nr, hcache1]
  unfold KeepsApart NoneMissed Arises
  rw [heq]
  simp only [hj, hskip, if_neg hfound, Bool.false_eq_true, if_false, Bool.not_true, Bool.false_or]
  cases hv : verify_path ce.name with
  | false => simp
  | true =>
    simp only [Bool.not_true, Bool.false_eq_true, if_false, reduceCtorEq, false_or]
    cases hr : ce.has CE_REMOVE with
    | true =>
      have : DFree (s1.insert pre.length ce).cache := (dfree_insert hlen hd1).mpr (Or.inl hr)
      rw [check_conflict_going hr]
      simp [this]
    | false =>
      by_cases hclear : Hidden istate ce → ∀ e ∈ istate.cache, ¬ FileBelow ce e
      · obtain ⟨hflag, hleft⟩ := check_conflict_spec option.ok_to_replace h1 hc hd1 hcache1 hpre
          hpost1 hr (scan_sees h hc hk hcache hpost hcache1 hsub hmerged hclear)
        have htc := trims_check_conflict option.ok_to_replace pre.length h1 hc
          (fun e he => hk e (ht.sublist.subset he))
        have hquiet := check_conflict_quiet ce option.ok_to_replace s1 pre.length
        generalize check_file_directory_conflict s1 ce pre.length option.ok_to_replace = q at *
        obtain ⟨s2, conflict⟩ := q
        simp only at hflag hleft htc hquiet
        rw [iff_true_right (Or.inr hclear)]
        cases conflict with
        | false =>
          have hs2 : s2 = s1 := hquiet rfl
          have hnone : ∀ e ∈ s1.cache, ¬ InWay ce e := by
            intro e he hw
            exact absurd (hflag.mpr ⟨e, he, hw⟩) (by decide)
          have hdf : DFree (s1.insert pre.length ce).cache :=
            (dfree_insert hlen hd1).mpr (Or.inr hnone)
          subst hs2
          refine ⟨fun _ => hdf, fun _ harises => ?_⟩
          obtain ⟨-, ⟨e, he, hw⟩, -⟩ := harises
          exact absurd hw (hnone e ((hway e hw).mpr he))
        | true =>
          cases hrep : option.ok_to_replace with
          | false => simp
          | true =>
            have hdf : DFree (s2.insert (index_name_pos s2 ce.name ce.ce_flags).val ce).cache :=
              (dfree_insert (index_name_pos_le s2 ce.name ce.ce_flags)
                (hd1.subset htc.sublist.subset)).mpr (Or.inr (hleft hrep))
            simp [hdf]
      · push Not at hclear
        obtain ⟨⟨hst, q, hq, hqn, hqs⟩, b, hb, hbelow⟩ := hclear
        have hbi : b ∈ s1.cache := (hway b ((inWay_iff ce b).mpr (Or.inl hbelow))).mpr hb
        have hqi : q ∈ s1.cache := by
          by_contra hout
          exact hst (ht.gone q hq hout).1
        have hqpost : q ∈ post1 := by
          rw [hcache1, List.mem_append] at hqi
          refine hqi.resolve_left fun hqpre => ?_
          have hlt := hpre q hqpre
          rw [hc.key, (h.named q hq).key, hqn, Prod.Lex.toLex_lt_toLex] at hlt
          rcases hlt with hlt | ⟨_, hlt⟩
          · exact lt_irrefl _ hlt
          · simp only at hlt
            omega
        rw [check_conflict_blind option.ok_to_replace h1 hc hd1 hcache1 hpre hpost1 hr
          (hbelow.short hc (h.named b hb) (hk b hb)) hqpost hqn hbi hbelow]
        have hnd : ¬ DFree (s1.insert pre.length ce).cache := by
          rw [dfree_insert hlen hd1, hr]
          rintro (hf | hnone)
          · cases hf
          · exact hnone b hbi ((inWay_iff ce b).mpr (Or.inl hbelow))
        have hnc : ¬ (Hidden istate ce → ∀ e ∈ istate.cache, ¬ FileBelow ce e) :=
          fun hall => hall ⟨hst, q, hq, hqn, hqs⟩ b hb hbelow
        simp [hnd, hnc]

/-- An addition to an index without conflicts keeps files and directories
apart exactly when it misses no file in its way. -/
theorem an_addition_keeps_files_and_directories_apart {istate : index_state} {ce : cache_entry}
    {option : add_option} (h : Ordered istate) (hc : Named ce) (hd : DFree istate.cache)
    (hadd : option.ok_to_add = true) (hskip : option.skip_dfcheck = false) :
    KeepsApart istate ce option ↔ NoneMissed istate ce option := by
  cases hj : option.just_append with
  | true => exact append_keeps_apart hd hj
  | false =>
    rcases index_name_pos_spec h ce.name ce.ce_flags hc.mask_le with
      ⟨pre, old, post, hcache, hpos, hkey⟩ | ⟨pre, post, hcache, hpos, hpre, hpost⟩
    · exact found_keeps_apart h hd hj hcache hpos hkey
    · exact absent_keeps_apart h hc hd hj hadd hskip hcache hpos hpre hpost

theorem file_a_apart_from_a_b :
    KeepsApart (index_of [file_a 2, file_a_b 0]) (file_a 0) OK_TO_ADD_OR_REPLACE := by
  refine (an_addition_keeps_files_and_directories_apart ⟨?_, ?_⟩ (new_entry_named _ _ _ (by decide))
    (by decide) rfl rfl).mpr (by decide)
  · exact List.pairwise_pair.mpr (by decide)
  · intro ce hce
    simp only [index_of, List.mem_cons, List.not_mem_nil, or_false] at hce
    rcases hce with rfl | rfl <;> exact new_entry_named _ _ _ (by decide)

/-- `a` at stage 2 hides `a/b` from the addition of `a` at stage 1. -/
theorem a_higher_stage_hides_a_conflict :
    ∃ (istate : index_state) (ce : cache_entry) (option : add_option),
      Ordered istate ∧ Named ce ∧ DFree istate.cache ∧ option.ok_to_add = true ∧
        option.skip_dfcheck = false ∧ option.just_append = false ∧
        ¬ KeepsApart istate ce option := by
  refine ⟨index_of [file_a 2, file_a_b 1], file_a 1, OK_TO_ADD_OR_REPLACE, ⟨?_, ?_⟩,
    new_entry_named _ _ _ (by decide), by decide, rfl, rfl, rfl, ?_⟩
  · exact List.pairwise_pair.mpr (by decide)
  · intro ce hce
    simp only [index_of, List.mem_cons, List.not_mem_nil, or_false] at hce
    rcases hce with rfl | rfl <;> exact new_entry_named _ _ _ (by decide)
  · intro hk
    have hok : (add_index_entry (index_of [file_a 2, file_a_b 1]) (file_a 1)
        OK_TO_ADD_OR_REPLACE).2 = true := by decide
    exact absurd (hk.1 hok) (by decide)

end git
