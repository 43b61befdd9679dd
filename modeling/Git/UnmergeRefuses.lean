-- What the check of a path meets does not change with entries of lower stages that belong to
-- the path: under it, above it, or of its name.
import Git.Unmerge
import Git.Coherent

open bsearch

namespace git

/-! ## Entries aside -/

instance (path n : Bytes) : Decidable (Related path n) := by unfold Related; infer_instance

/-- A lower stage of the path, or of a file or directory in its way. -/
def aside (path : Bytes) (stage : Nat) (e : cache_entry) : Bool :=
  decide (ce_stage e < stage) && decide (Related path e.name)

/-- The array without them. -/
def others (path : Bytes) (stage : Nat) (cache : List cache_entry) : List cache_entry :=
  cache.filter fun e => !aside path stage e

theorem takeWhile_filter {α : Type*} {f g : α → Bool} {l : List α}
    (h : ∀ x ∈ l, f x = false → g x = true) :
    (l.filter f).takeWhile g = (l.takeWhile g).filter f := by
  induction l with
  | nil => rfl
  | cons x l ih =>
    have ih := ih fun y hy => h y (List.mem_cons_of_mem _ hy)
    cases hf : f x with
    | false =>
      have hg := h x List.mem_cons_self hf
      rw [List.filter_cons_of_neg (by simp [hf]), List.takeWhile_cons_of_pos hg,
        List.filter_cons_of_neg (by simp [hf]), ih]
    | true =>
      rw [List.filter_cons_of_pos hf, List.takeWhile_cons, List.takeWhile_cons]
      cases hg : g x with
      | false => rfl
      | true => rw [if_pos rfl, if_pos rfl, List.filter_cons_of_pos hf, ih]

/-- Entries under the directory, of other stages, are passed over. -/
theorem matches_subdirectory_filter {name : Bytes} {len stage : Nat} {f : cache_entry → Bool}
    {l : List cache_entry} (h : ∀ e ∈ l, f e = false → ce_stage e ≠ stage ∧ len < ce_namelen e ∧
      e.name[len]? = some SLASH ∧ e.name.take len = name.take len) :
    matches_subdirectory name len stage (l.filter f) = matches_subdirectory name len stage l := by
  induction l with
  | nil => rfl
  | cons e l ih =>
    have ih := ih fun x hx => h x (List.mem_cons_of_mem _ hx)
    cases hf : f e with
    | false =>
      obtain ⟨hst, hlen, hslash, htake⟩ := h e List.mem_cons_self hf
      rw [List.filter_cons_of_neg (by simp [hf]), ih, matches_subdirectory.eq_def name len stage (e :: l)]
      simp [hst, hslash, htake, not_le.mpr hlen]
    | true =>
      rw [List.filter_cons_of_pos hf, matches_subdirectory, matches_subdirectory, ih]

/-! ## The check -/

section
variable {cache : List cache_entry} {path : Bytes} {stage : Nat}

theorem ordered_filter (h : Ordered (index_of cache)) (f : cache_entry → Bool) :
    Ordered (index_of (cache.filter f)) :=
  ⟨Ascends.sublist h.ascends List.filter_sublist, fun e he => h.named e (List.mem_of_mem_filter he)⟩

/-- The search of a key splits the array, and then any part of it that keeps that key. -/
theorem search_filter (h : Ordered (index_of cache)) {name : Bytes} {flags : BitVec 32}
    (hl : (flags &&& CE_NAMEMASK).toNat ≤ name.length) {f : cache_entry → Bool}
    (hf : ∀ e ∈ cache, e.key = cache_key name flags → f e = true) :
    (∃ pre e post, cache = pre ++ e :: post ∧ f e = true ∧ e.key = cache_key name flags ∧
        search (fun e => cache_name_compare name flags e.name e.ce_flags) cache = .found pre.length ∧
        search (fun e => cache_name_compare name flags e.name e.ce_flags) (cache.filter f) =
          .found (pre.filter f).length) ∨
      ∃ pre post, cache = pre ++ post ∧ (∀ a ∈ pre, a.key < cache_key name flags) ∧
        (∀ b ∈ post, cache_key name flags < b.key) ∧
        search (fun e => cache_name_compare name flags e.name e.ce_flags) cache = .absent pre.length ∧
        search (fun e => cache_name_compare name flags e.name e.ce_flags) (cache.filter f) =
          .absent (pre.filter f).length := by
  have h' := ordered_filter h f
  have hc : ∀ e ∈ cache.filter f, (cache_name_compare name flags e.name e.ce_flags).Compares
      (cache_key name flags) e.key := fun e he =>
    cache_name_compare_compares name flags e.name e.ce_flags hl (h'.named e he).mask_le
  rcases index_name_pos_spec h name flags hl with
    ⟨pre, e, post, hcache, hpos, hkey⟩ | ⟨pre, post, hcache, hpos, hpre, hpost⟩
  · have hcache : cache = pre ++ e :: post := hcache
    have hfe := hf e (by simp [hcache]) hkey
    have hfilter : cache.filter f = pre.filter f ++ e :: post.filter f := by
      rw [hcache, List.filter_append, List.filter_cons_of_pos hfe]
    exact Or.inl ⟨pre, e, post, hcache, hfe, hkey, hpos, search_eq_found h'.ascends hc hfilter hkey⟩
  · have hcache : cache = pre ++ post := hcache
    have hfilter : cache.filter f = pre.filter f ++ post.filter f := by
      rw [hcache, List.filter_append]
    exact Or.inr ⟨pre, post, hcache, hpre, hpost, hpos,
      search_eq_absent h'.ascends hc hfilter (fun a ha => hpre a (List.mem_of_mem_filter ha))
        fun b hb => hpost b (List.mem_of_mem_filter hb)⟩

/-- What is aside and has the key of a leading directory before it, or is behind it, is a file
under that directory. -/
theorem aside_under {e : cache_entry} {len : Nat} (he : Named e) (hst : stage < 4)
    (hslash : path[len]? = some SLASH) (haside : aside path stage e = true)
    (hkey : cache_key path (create_ce_flags len stage) ≤ e.key) :
    ce_stage e ≠ stage ∧ len < ce_namelen e ∧ e.name[len]? = some SLASH ∧
      e.name.take len = path.take len := by
  rw [aside, Bool.and_eq_true, decide_eq_true_eq, decide_eq_true_eq] at haside
  obtain ⟨hlt, hrel⟩ := haside
  have hlen : len < path.length := (List.getElem?_eq_some_iff.mp hslash).1
  have hunder : Under (path.take len) e.name := by
    rcases hrel with hn | hu | hu
    · rw [hn]
      exact under_of_slash hslash
    · exact (under_of_slash hslash).trans hu
    · -- a file above the path, behind the directory, is longer than the directory
      refine (under_of_slash hslash).of_shorter hu ?_
      rw [List.length_take_of_le hlen.le]
      by_contra hle
      rw [dir_key _ _ _ hst, he.key, Prod.Lex.toLex_le_toLex] at hkey
      have hstart : e.name = path.take e.name.length := (slash_of_under hu).2
      have hshort : e.name.take 0x0fff ≤ (path.take len).take 0x0fff := by
        refine list_order.take_le_take _ (list_order.le_of_prefix ?_)
        rw [hstart]
        exact List.take_prefix_take_left (not_lt.mp hle)
      rcases hkey with hkey | ⟨-, hkey⟩
      · exact absurd hkey (not_lt.mpr hshort)
      · dsimp only at hkey
        omega
  obtain ⟨htake, hat⟩ := (under_iff _ _).mp hunder
  rw [List.length_take_of_le hlen.le] at htake hat
  exact ⟨hlt.ne, by rw [he.namelen]; exact (List.getElem?_eq_some_iff.mp hat).1, hat, htake⟩

theorem not_aside_of_stage {e : cache_entry} (h : ce_stage e = stage) : aside path stage e = false := by
  rw [aside, h]
  simp

theorem dir_settles_found {ce e : cache_entry} {len : Nat} {pre post : List cache_entry}
    (hcache : cache = pre ++ e :: post)
    (hpos : search (fun e => cache_name_compare ce.name (create_ce_flags len (ce_stage ce)) e.name
      e.ce_flags) cache = .found pre.length) :
    dir_settles cache ce len =
      if e.has CE_REMOVE = false then some true
      else if matches_subdirectory ce.name len (ce_stage ce) (e :: post) then some false else none := by
  have hget : cache[(Pos.found pre.length).val]? = some e := by
    rw [Pos.val, hcache, List.getElem?_append_right le_rfl, Nat.sub_self, List.getElem?_cons_zero]
  have hdrop : cache.drop pre.length = e :: post := by rw [hcache, List.drop_left]
  unfold dir_settles
  rw [hpos]
  simp only [hget, Option.map_some]
  cases e.has CE_REMOVE with
  | false => rfl
  | true =>
    rw [← hdrop]
    rfl

theorem dir_settles_absent {ce : cache_entry} {len : Nat} {pre post : List cache_entry}
    (hcache : cache = pre ++ post)
    (hpos : search (fun e => cache_name_compare ce.name (create_ce_flags len (ce_stage ce)) e.name
      e.ce_flags) cache = .absent pre.length) :
    dir_settles cache ce len =
      if matches_subdirectory ce.name len (ce_stage ce) post then some false else none := by
  have hdrop : cache.drop pre.length = post := by rw [hcache, List.drop_left]
  unfold dir_settles
  rw [hpos]
  simp only [Pos.val, hdrop]

theorem dir_settles_others {ce : cache_entry} {len : Nat} (h : Ordered (index_of cache))
    (hname : ce.name = path) (hstage : ce_stage ce = stage) (hslash : path[len]? = some SLASH) :
    dir_settles (others path stage cache) ce len = dir_settles cache ce len := by
  subst hname hstage
  have hst : ce_stage ce < 4 := stage_lt ce
  have hlen : len < ce.name.length := (List.getElem?_eq_some_iff.mp hslash).1
  have hmask : (create_ce_flags len (ce_stage ce) &&& CE_NAMEMASK).toNat ≤ ce.name.length := by
    rw [create_ce_flags_mask _ _ hst]
    omega
  have hkeep : ∀ e ∈ cache, e.key = cache_key ce.name (create_ce_flags len (ce_stage ce)) →
      (!aside ce.name (ce_stage ce) e) = true := by
    intro e he hk
    rw [not_aside_of_stage, Bool.not_false]
    rw [dir_key _ _ _ hst, (h.named e he).key] at hk
    have := (Prod.mk.inj (toLex_inj.mp hk)).2
    omega
  have hskip : ∀ l : List cache_entry, (∀ e ∈ l, e ∈ cache) →
      (∀ e ∈ l, cache_key ce.name (create_ce_flags len (ce_stage ce)) ≤ e.key) →
      matches_subdirectory ce.name len (ce_stage ce) (l.filter fun e => !aside ce.name (ce_stage ce) e) =
        matches_subdirectory ce.name len (ce_stage ce) l := by
    intro l hl hle
    refine matches_subdirectory_filter fun e he hf => ?_
    exact aside_under (h.named e (hl e he)) hst hslash (by simpa using hf) (hle e he)
  rcases search_filter h hmask hkeep with
    ⟨pre, e, post, hcache, hfe, hkey, hpos, hpos'⟩ | ⟨pre, post, hcache, hpre, hpost, hpos, hpos'⟩
  · have hfilter : others ce.name (ce_stage ce) cache = others ce.name (ce_stage ce) pre ++ e :: others ce.name (ce_stage ce) post := by
      rw [others, hcache, List.filter_append,
        List.filter_cons_of_pos (p := fun e => !aside ce.name (ce_stage ce) e) hfe]
      rfl
    have hascends : Ascends cache_entry.key (pre ++ e :: post) := hcache ▸ h.ascends
    have hbehind := List.pairwise_cons.mp (List.pairwise_append.mp hascends).2.1
    have hscan := hskip (e :: post) (fun x hx => hcache ▸ List.mem_append_right _ hx) (by
      intro x hx
      rcases List.mem_cons.mp hx with rfl | hx
      · exact hkey.ge
      · exact hkey ▸ (hbehind.1 x hx).le)
    rw [List.filter_cons_of_pos (p := fun e => !aside ce.name (ce_stage ce) e) hfe] at hscan
    rw [dir_settles_found hfilter hpos', dir_settles_found hcache hpos]
    simp only [others, hscan]
  · have hfilter : others ce.name (ce_stage ce) cache = others ce.name (ce_stage ce) pre ++ others ce.name (ce_stage ce) post := by
      rw [others, hcache, List.filter_append]
      rfl
    have hscan := hskip post (fun x hx => hcache ▸ List.mem_append_right _ hx)
      fun x hx => (hpost x hx).le
    rw [dir_settles_absent hfilter hpos', dir_settles_absent hcache hpos]
    simp only [others, hscan]

theorem findSome_congr {α β : Type*} {f g : α → Option β} {l : List α} (h : ∀ x ∈ l, f x = g x) :
    l.findSome? f = l.findSome? g := by
  induction l with
  | nil => rfl
  | cons x l ih =>
    rw [List.findSome?_cons, List.findSome?_cons, h x List.mem_cons_self,
      ih fun y hy => h y (List.mem_cons_of_mem _ hy)]

/-- The check meets the same without the entries aside. -/
theorem refuses_others (h : Ordered (index_of cache)) (hst : stage < 4) :
    Refuses (others path stage cache) path stage ↔ Refuses cache path stage := by
  let ce := new_entry 0 (Vector.replicate 20 0) path stage
  have hc : Named ce := new_entry_named _ _ _ hst
  have hstage : ce_stage ce = stage := new_entry_stage _ _ _ hst
  have hmask : (create_ce_flags path.length stage &&& CE_NAMEMASK).toNat ≤ path.length := hc.mask_le
  have hflags : cache_key path (create_ce_flags path.length stage) = ce.key := rfl
  have hkeep : ∀ e ∈ cache, e.key = cache_key path (create_ce_flags path.length stage) →
      (!aside path stage e) = true := by
    intro e he hk
    rw [not_aside_of_stage, Bool.not_false]
    rw [hflags, hc.key, (h.named e he).key] at hk
    have := (Prod.mk.inj (toLex_inj.mp hk)).2
    omega
  have hdirs : (slashes (ce.name.take (ce_namelen ce))).findSome? (dir_settles (others path stage cache) ce) =
      (slashes (ce.name.take (ce_namelen ce))).findSome? (dir_settles cache ce) :=
    findSome_congr fun len hlen => dir_settles_others h rfl hstage (slashes_of_named hc len hlen)
  unfold Refuses MeetsConflict
  rcases search_filter h hmask hkeep with
    ⟨pre, e, post, -, -, -, hpos, hpos'⟩ | ⟨pre, post, hcache, hpre, hpost, hpos, hpos'⟩
  · have hno : ∀ pos, Pos.found pre.length ≠ .absent pos := by simp
    unfold others
    rw [hpos, hpos']
    simp
  · have hbehind : ∀ e ∈ post, (!aside path stage e) = false → scans ce e = true := by
      intro e he haside
      rw [Bool.not_eq_false', aside, Bool.and_eq_true, decide_eq_true_eq, decide_eq_true_eq] at haside
      obtain ⟨hlt, hrel⟩ := haside
      have hen : Named e := h.named e (hcache ▸ List.mem_append_right _ he)
      have hkey : ce.key < e.key := hpost e he
      rw [hc.key, hen.key, hstage, Prod.Lex.toLex_lt_toLex] at hkey
      have hbefore : ¬ e.name <+: path := by
        intro hp
        have := list_order.take_le_take 0x0fff (list_order.le_of_prefix hp)
        rcases hkey with hkey | ⟨-, hkey⟩
        · exact absurd hkey (not_lt.mpr this)
        · dsimp only at hkey
          omega
      rcases hrel with hn | hu | hu
      · exact absurd (hn ▸ List.prefix_rfl) hbefore
      · obtain ⟨htake, hat⟩ := (under_iff _ _).mp hu
        unfold scans
        rw [hc.namelen, hen.namelen, Bool.and_eq_true, decide_eq_true_eq, beq_iff_eq]
        refine ⟨hu.length_lt, ?_⟩
        rw [show ce.name = path from rfl, htake, List.take_length]
      · exact absurd hu.starts hbefore
    have hrun : (∃ e ∈ ((others path stage cache).drop (pre.filter fun e => !aside path stage e).length).takeWhile
          (scans ce), file_under ce e = true) ↔
        ∃ e ∈ (cache.drop pre.length).takeWhile (scans ce), file_under ce e = true := by
      rw [others, hcache, List.filter_append, List.drop_left, List.drop_left, takeWhile_filter hbehind]
      constructor
      · rintro ⟨e, he, hf⟩
        exact ⟨e, List.mem_of_mem_filter he, hf⟩
      · rintro ⟨e, he, hf⟩
        refine ⟨e, List.mem_filter.mpr ⟨he, ?_⟩, hf⟩
        rw [not_aside_of_stage, Bool.not_false]
        unfold file_under at hf
        simp only [Bool.and_eq_true, beq_iff_eq] at hf
        exact hf.1.1.trans hstage
    unfold others at hdirs hrun ⊢
    rw [hpos, hpos']
    simp only [Pos.absent.injEq, exists_eq_left']
    exact or_congr hrun (by rw [hdirs])

end

end git
