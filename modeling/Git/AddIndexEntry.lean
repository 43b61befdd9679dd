-- What `add_index_entry` does to an ordered cache array: the entries that
-- its loops take out, and the place where the entry goes.
import Git.IndexOrder

open bsearch

namespace git

/-! ## Files under a directory -/

/-- `n` is `d` plus `'/'` and more. -/
def Under (d n : Bytes) : Prop := ∃ r, n = d ++ SLASH :: r

theorem under_iff (d n : Bytes) :
    Under d n ↔ n.take d.length = d ∧ n[d.length]? = some SLASH := by
  constructor
  · rintro ⟨r, rfl⟩
    simp
  · rintro ⟨h1, h2⟩
    obtain ⟨hlt, hget⟩ := List.getElem?_eq_some_iff.mp h2
    refine ⟨n.drop (d.length + 1), ?_⟩
    calc n = n.take d.length ++ n.drop d.length := (List.take_append_drop _ _).symm
      _ = d ++ SLASH :: n.drop (d.length + 1) := by
        rw [h1, List.drop_eq_getElem_cons hlt, hget]

instance (d n : Bytes) : Decidable (Under d n) := decidable_of_iff _ (under_iff d n).symm

theorem Under.length_lt {d n : Bytes} (h : Under d n) : d.length < n.length := by
  obtain ⟨r, rfl⟩ := h
  simp

theorem Under.starts {d n : Bytes} (h : Under d n) : d <+: n := by
  obtain ⟨r, rfl⟩ := h
  exact List.prefix_append _ _

theorem Under.trans {a b c : Bytes} (h1 : Under a b) (h2 : Under b c) : Under a c := by
  obtain ⟨r, rfl⟩ := h1
  obtain ⟨r', rfl⟩ := h2
  exact ⟨r ++ SLASH :: r', by simp⟩

/-- Two directories of one path: the shorter one holds the longer one. -/
theorem Under.of_shorter {a b c : Bytes} (h1 : Under a c) (h2 : Under b c)
    (h : a.length < b.length) : Under a b := by
  obtain ⟨ha, hsa⟩ := (under_iff a c).mp h1
  obtain ⟨hb, -⟩ := (under_iff b c).mp h2
  rw [under_iff]
  constructor
  · rw [← hb, List.take_take, Nat.min_eq_left h.le, ha]
  · rw [← hb, List.getElem?_take_of_lt h, hsa]

/-- The leading directories of a name. -/
theorem mem_slashes (name : Bytes) (len : Nat) :
    len ∈ slashes name ↔ name[len]? = some SLASH := by
  unfold slashes
  rw [List.mem_reverse, List.mem_filter, List.mem_range, beq_iff_eq]
  constructor
  · exact fun h => h.2
  · intro h
    exact ⟨(List.getElem?_eq_some_iff.mp h).1, h⟩

theorem under_of_slash {name : Bytes} {len : Nat} (h : name[len]? = some SLASH) :
    Under (name.take len) name := by
  rw [under_iff]
  have hl : len < name.length := (List.getElem?_eq_some_iff.mp h).1
  rw [List.length_take, Nat.min_eq_left hl.le]
  exact ⟨rfl, h⟩

theorem slash_of_under {d name : Bytes} (h : Under d name) :
    d.length ∈ slashes name ∧ d = name.take d.length :=
  ⟨(mem_slashes _ _).mpr ((under_iff _ _).mp h).2, ((under_iff _ _).mp h).1.symm⟩

theorem slashes_descend (name : Bytes) : (slashes name).Pairwise (· > ·) := by
  unfold slashes
  rw [List.pairwise_reverse]
  exact List.Pairwise.filter _ List.pairwise_lt_range

/-! ## Entries of one name -/

theorem ce_same_name_iff {a b : cache_entry} (ha : Named a) (hb : Named b) :
    ce_same_name a b = true ↔ a.name = b.name := by
  unfold ce_same_name
  rw [ha.namelen, hb.namelen, Bool.and_eq_true, beq_iff_eq, beq_iff_eq]
  constructor
  · rintro ⟨hl, hn⟩
    rwa [List.take_length, ← hl, List.take_length] at hn
  · intro h
    rw [h]
    exact ⟨rfl, rfl⟩

theorem trims_remove_all_named (path : Bytes) (pos turns : Nat) (istate : index_state) :
    Trims (fun e => e.name = path) istate (remove_all_named path pos turns istate) := by
  induction turns generalizing istate with
  | zero => exact Trims.refl _ _
  | succ turns ih =>
    unfold remove_all_named
    cases he : istate.cache[pos]? with
    | none => exact Trims.refl _ _
    | some e =>
      simp only
      split
      · exact (trims_remove he ‹_›).trans (ih _)
      · exact Trims.refl _ _

theorem trims_remove_same_name (ce : cache_entry) (pos turns : Nat) (istate : index_state)
    (ok : Bool) :
    Trims (fun e => ce_same_name e ce = true) istate
      (remove_same_name ce pos turns istate ok).1 := by
  induction turns generalizing istate ok with
  | zero => exact Trims.refl _ _
  | succ turns ih =>
    unfold remove_same_name
    cases he : istate.cache[pos]? with
    | none => exact Trims.refl _ _
    | some e =>
      simp only
      split
      · have ht := trims_remove (P := fun e => ce_same_name e ce = true) he ‹_›
        split
        · exact ht.trans (ih _ _)
        · exact ht
      · exact Trims.refl _ _

/-- The entries that `remove_same_name` leaves after `pos`. -/
theorem remove_same_name_cache (ce : cache_entry) {pre post : List cache_entry} (turns : Nat)
    (istate : index_state) (ok : Bool) (h : istate.cache = pre ++ post)
    (ht : post.length ≤ turns) :
    (remove_same_name ce pre.length turns istate ok).1.cache =
      pre ++ post.dropWhile (ce_same_name · ce) := by
  induction turns generalizing istate ok post with
  | zero =>
    have : post = [] := List.length_eq_zero_iff.mp (by omega)
    subst this
    simpa [remove_same_name] using h
  | succ turns ih =>
    unfold remove_same_name
    cases post with
    | nil => simp [h]
    | cons e post =>
      have he : istate.cache[pre.length]? = some e := by simp [h]
      simp only [he, List.dropWhile_cons]
      split
      · have hc := remove_at_append h
        rw [remove_at_more h]
        split
        · exact ih _ true hc (by simpa using ht)
        · rename_i hm
          have hlast : post = [] := by simpa using hm
          subst hlast
          exact hc
      · simp [h]

/-! ## The scan of `has_file_name` -/

/-- The scan of `has_file_name` for `ce` goes past `p`. -/
def scans (ce p : cache_entry) : Bool :=
  decide (ce_namelen ce < ce_namelen p) &&
    p.name.take (ce_namelen ce) == ce.name.take (ce_namelen ce)

/-- `p` is a file that stands under the name of `ce`, at its stage. -/
def file_under (ce p : cache_entry) : Bool :=
  ce_stage p == ce_stage ce && p.name[ce_namelen ce]? == some SLASH && !p.has CE_REMOVE

theorem has_file_name_from_turn (ce p : cache_entry) (ok : Bool) (turns : Nat)
    (istate : index_state) (pos : Nat) (retval : Bool) (hp : istate.cache[pos]? = some p) :
    has_file_name_from ce ok (turns + 1) istate pos retval =
      if scans ce p then
        if file_under ce p then
          if ok then has_file_name_from ce ok turns (remove_index_entry_at istate pos).1 pos true
          else (istate, true)
        else has_file_name_from ce ok turns istate (pos + 1) retval
      else (istate, retval) := by
  rw [has_file_name_from]
  simp only [hp, scans, file_under, Bool.and_eq_true, decide_eq_true_eq, beq_iff_eq,
    Bool.not_eq_eq_eq_not, Bool.not_true, ← not_le]
  split_ifs <;> simp_all

theorem has_file_name_from_spec (ce : cache_entry) (ok : Bool) {pre post : List cache_entry}
    (turns : Nat) (istate : index_state) (retval : Bool) (h : istate.cache = pre ++ post)
    (ht : post.length ≤ turns) :
    (has_file_name_from ce ok turns istate pre.length retval).2 =
        (retval || (post.takeWhile (scans ce)).any (file_under ce)) ∧
      (has_file_name_from ce ok turns istate pre.length retval).1.cache =
        pre ++ if ok then (post.takeWhile (scans ce)).filter (fun p => !file_under ce p) ++
          post.dropWhile (scans ce) else post := by
  induction turns generalizing istate retval pre post with
  | zero =>
    have : post = [] := List.length_eq_zero_iff.mp (by omega)
    subst this
    simp [has_file_name_from, h]
  | succ turns ih =>
    cases post with
    | nil => simp [has_file_name_from, h]
    | cons p post =>
      rw [has_file_name_from_turn ce p ok turns istate pre.length retval (by simp [h])]
      rw [List.takeWhile_cons, List.dropWhile_cons]
      by_cases hs : scans ce p = true
      · simp only [hs, if_true, List.any_cons, List.filter_cons]
        by_cases hu : file_under ce p = true
        · cases ok with
          | false => simp [hu, h]
          | true =>
            have hrest := ih _ true (remove_at_append h) (by simpa using ht)
            simpa [hu] using hrest
        · have hcache : istate.cache = (pre ++ [p]) ++ post := by simp [h]
          have hrest := ih istate retval hcache (by simpa using ht)
          rw [List.length_append, List.length_singleton] at hrest
          cases ok <;> simpa [hu] using hrest
      · simp [hs, h]

theorem trims_has_file_name_from (ce : cache_entry) (ok : Bool) (turns : Nat)
    (istate : index_state) (pos : Nat) (retval : Bool) :
    Trims (fun e => scans ce e = true ∧ file_under ce e = true) istate
      (has_file_name_from ce ok turns istate pos retval).1 := by
  induction turns generalizing istate pos retval with
  | zero => exact Trims.refl _ _
  | succ turns ih =>
    cases hp : istate.cache[pos]? with
    | none =>
      rw [has_file_name_from, hp]
      exact Trims.refl _ _
    | some p =>
      rw [has_file_name_from_turn ce p ok turns istate pos retval hp]
      split_ifs with hs hu hok
      · exact (trims_remove hp ⟨hs, hu⟩).trans (ih _ _ _)
      · exact Trims.refl _ _
      · exact ih _ _ _
      · exact Trims.refl _ _

/-- The entries that the scan sees are the ones under the name of `ce`. -/
theorem file_under_iff {ce p : cache_entry} (hc : Named ce) (hp : Named p) :
    scans ce p = true ∧ file_under ce p = true ↔
      Under ce.name p.name ∧ ce_stage p = ce_stage ce ∧ p.has CE_REMOVE = false := by
  unfold scans file_under
  rw [hc.namelen, hp.namelen, under_iff]
  simp only [Bool.and_eq_true, decide_eq_true_eq, beq_iff_eq, Bool.not_eq_eq_eq_not,
    Bool.not_true, List.take_length]
  constructor
  · rintro ⟨⟨_, ht⟩, ⟨hst, hsl⟩, hr⟩
    exact ⟨⟨ht, hsl⟩, hst, hr⟩
  · rintro ⟨⟨ht, hsl⟩, hst, hr⟩
    exact ⟨⟨(List.getElem?_eq_some_iff.mp hsl).1, ht⟩, ⟨hst, hsl⟩, hr⟩

/-! ## The climb of `has_dir_name` -/

/-- `e` is a file in the place of a leading directory of `ce`, at its stage. -/
def FileAbove (ce e : cache_entry) : Prop :=
  Under e.name ce.name ∧ ce_stage e = ce_stage ce ∧ e.has CE_REMOVE = false

/-- The key that `has_dir_name` looks up for a leading directory. -/
theorem dir_key (name : Bytes) (len stage : Nat) (hs : stage < 4) :
    cache_key name (create_ce_flags len stage) =
      toLex ((name.take len).take 0x0fff, stage * 4096) := by
  unfold cache_key
  rw [create_ce_flags_mask _ _ hs, create_ce_flags_stage _ _ hs, List.take_take, Nat.min_comm]

/-- An entry with the key of a leading directory has its name, when no
entry has the key of `ce` itself. -/
theorem dir_name_of_key {ce e : cache_entry} {len : Nat} (hc : Named ce) (he : Named e)
    (hk : e.key ≠ ce.key) (hl : len < ce.name.length)
    (h : e.key = cache_key ce.name (create_ce_flags len (ce_stage ce))) :
    e.name = ce.name.take len ∧ ce_stage e = ce_stage ce := by
  rw [dir_key _ _ _ (stage_lt ce), he.key] at h
  simp only [EmbeddingLike.apply_eq_iff_eq, Prod.mk.injEq] at h
  obtain ⟨hn, hst⟩ := h
  refine ⟨?_, by omega⟩
  have hlen := congrArg List.length hn
  simp only [List.length_take] at hlen
  by_cases hbig : 0x0fff ≤ len
  · -- a long directory has the key of the long name
    refine absurd ?_ hk
    rw [he.key, hc.key, hn, hst, List.take_take, Nat.min_eq_left hbig]
  · rw [List.take_of_length_le (by omega), List.take_of_length_le (by simp; omega)] at hn
    exact hn

/-- The lookup of a leading directory, with `create_ce_flags`. -/
theorem dir_lookup {istate : index_state} {ce : cache_entry} {len : Nat} (h : Ordered istate)
    (hc : Named ce) (hk : ∀ e ∈ istate.cache, e.key ≠ ce.key) (hl : len < ce.name.length) :
    (∃ pos e, index_name_pos istate ce.name (create_ce_flags len (ce_stage ce)) = .found pos ∧
        istate.cache[pos]? = some e ∧ e.name = ce.name.take len ∧ ce_stage e = ce_stage ce) ∨
      ∃ pos, index_name_pos istate ce.name (create_ce_flags len (ce_stage ce)) = .absent pos ∧
        ∀ e ∈ istate.cache, e.name = ce.name.take len → ce_stage e ≠ ce_stage ce := by
  have hmask : (create_ce_flags len (ce_stage ce) &&& CE_NAMEMASK).toNat ≤ ce.name.length := by
    rw [create_ce_flags_mask _ _ (stage_lt ce)]
    omega
  rcases index_name_pos_spec h ce.name (create_ce_flags len (ce_stage ce)) hmask with
    ⟨pre, e, post, hcache, hpos, hkey⟩ | ⟨pre, post, hcache, hpos, hlt, hgt⟩
  · have he : e ∈ istate.cache := by simp [hcache]
    refine Or.inl ⟨_, e, hpos, by simp [hcache], ?_⟩
    exact dir_name_of_key hc (h.named e he) (hk e he) hl hkey
  · refine Or.inr ⟨_, hpos, ?_⟩
    intro e he hn hst
    have hkey : e.key = cache_key ce.name (create_ce_flags len (ce_stage ce)) := by
      rw [dir_key _ _ _ (stage_lt ce), (h.named e he).key, hn, hst]
    rw [hcache, List.mem_append] at he
    rcases he with he | he
    · exact (hlt e he).ne hkey
    · exact (hgt e he).ne' hkey

theorem matches_subdirectory_sound {name : Bytes} {len stage : Nat} (hl : len ≤ name.length)
    {l : List cache_entry} (hn : ∀ p ∈ l, Named p)
    (h : matches_subdirectory name len stage l = true) :
    ∃ p ∈ l, Under (name.take len) p.name ∧ ce_stage p = stage ∧ p.has CE_REMOVE = false := by
  induction l with
  | nil => simp [matches_subdirectory] at h
  | cons p l ih =>
    unfold matches_subdirectory at h
    split_ifs at h with h1 h2
    · simp only [Bool.or_eq_true, decide_eq_true_eq, bne_iff_ne, ne_eq, not_or, not_not] at h1
      simp only [Bool.and_eq_true, beq_iff_eq, Bool.not_eq_eq_eq_not, Bool.not_true] at h2
      refine ⟨p, List.mem_cons_self, ?_, h2⟩
      rw [under_iff, List.length_take, Nat.min_eq_left hl]
      exact ⟨h1.2, h1.1.2⟩
    · obtain ⟨q, hq, hrest⟩ := ih (fun p hp => hn p (List.mem_cons_of_mem _ hp)) h
      exact ⟨q, List.mem_cons_of_mem _ hq, hrest⟩

/-- One turn of the climb: the entry at the directory is in the way, or the
directory is known to be one, or the climb goes on. -/
theorem has_dir_name_from_turn {istate : index_state} {ce : cache_entry} {len : Nat}
    (ok : Bool) (lens : List Nat) (retval : Bool) (h : Ordered istate)
    (hc : Named ce) (hk : ∀ e ∈ istate.cache, e.key ≠ ce.key) (hl : len < ce.name.length) :
    (∃ pos e, istate.cache[pos]? = some e ∧ e.name = ce.name.take len ∧
        ce_stage e = ce_stage ce ∧ e.has CE_REMOVE = false ∧
        has_dir_name_from ce ok (len :: lens) istate retval =
          if ok then has_dir_name_from ce ok lens (remove_index_entry_at istate pos).1 true
          else (istate, true)) ∨
      ((∀ e ∈ istate.cache, e.name = ce.name.take len → ce_stage e = ce_stage ce →
          e.has CE_REMOVE = true) ∧
        ((has_dir_name_from ce ok (len :: lens) istate retval = (istate, retval) ∧
            ∃ p ∈ istate.cache, Under (ce.name.take len) p.name ∧ ce_stage p = ce_stage ce ∧
              p.has CE_REMOVE = false) ∨
          has_dir_name_from ce ok (len :: lens) istate retval =
            has_dir_name_from ce ok lens istate retval)) := by
  have hscan : ∀ pos, matches_subdirectory ce.name len (ce_stage ce) (istate.cache.drop pos) = true →
      ∃ p ∈ istate.cache, Under (ce.name.take len) p.name ∧ ce_stage p = ce_stage ce ∧
        p.has CE_REMOVE = false := by
    intro pos hm
    obtain ⟨p, hp, hrest⟩ := matches_subdirectory_sound hl.le
      (fun p hp => h.named p (List.mem_of_mem_drop hp)) hm
    exact ⟨p, List.mem_of_mem_drop hp, hrest⟩
  rw [has_dir_name_from]
  rcases dir_lookup h hc hk hl with ⟨pos, e, hpos, he, hn, hst⟩ | ⟨pos, hpos, hno⟩
  · simp only [hpos, Pos.val, he, Option.map_some]
    cases hr : e.has CE_REMOVE with
    | false =>
      left
      refine ⟨_, e, he, hn, hst, hr, ?_⟩
      cases ok <;> rfl
    | true =>
      right
      refine ⟨?_, ?_⟩
      · intro x hx hxn hxst
        have hkey : x.key = e.key := by
          rw [(h.named x hx).key, (h.named e (List.mem_of_getElem? he)).key, hxn, hn, hxst, hst]
        rw [h.ascends.eq_of_key hx (List.mem_of_getElem? he) hkey]
        exact hr
      · by_cases hm : matches_subdirectory ce.name len (ce_stage ce) (istate.cache.drop pos) = true
        · exact Or.inl ⟨if_pos hm, hscan _ hm⟩
        · exact Or.inr (if_neg hm)
  · right
    refine ⟨fun x hx hxn hxst => absurd hxst (hno x hx hxn), ?_⟩
    simp only [hpos, Pos.val]
    by_cases hm : matches_subdirectory ce.name len (ce_stage ce) (istate.cache.drop pos) = true
    · exact Or.inl ⟨if_pos hm, hscan _ hm⟩
    · exact Or.inr (if_neg hm)

/-- Only files above `ce` are taken out by the climb. -/
theorem trims_has_dir_name_from {ce : cache_entry} (ok : Bool) {lens : List Nat}
    {istate : index_state} (retval : Bool) (h : Ordered istate) (hc : Named ce)
    (hk : ∀ e ∈ istate.cache, e.key ≠ ce.key) (hl : ∀ len ∈ lens, ce.name[len]? = some SLASH) :
    Trims (FileAbove ce) istate (has_dir_name_from ce ok lens istate retval).1 := by
  induction lens generalizing istate retval with
  | nil => exact Trims.refl _ _
  | cons len lens ih =>
    have hslash := hl len List.mem_cons_self
    have hrest := fun l hm => hl l (List.mem_cons_of_mem _ hm)
    rcases has_dir_name_from_turn ok lens retval h hc hk (List.getElem?_eq_some_iff.mp hslash).1 with
      ⟨pos, e, he, hn, hst, hr, heq⟩ | ⟨_, ⟨heq, _⟩ | heq⟩
    · rw [heq]
      cases ok with
      | false => exact Trims.refl _ _
      | true =>
        have hout : FileAbove ce e := ⟨hn ▸ under_of_slash hslash, hst, hr⟩
        have ht := trims_remove he hout
        exact ht.trans (ih true (ht.ordered h) (fun x hx => hk x (ht.sublist.subset hx)) hrest)
    · rw [heq]
      exact Trims.refl _ _
    · rw [heq]
      exact ih retval h hk hrest

/-- The climb reports nothing only when it took nothing out. -/
theorem has_dir_name_from_quiet {ce : cache_entry} (ok : Bool) (lens : List Nat)
    (istate : index_state) (retval : Bool)
    (hf : (has_dir_name_from ce ok lens istate retval).2 = false) :
    retval = false ∧ (has_dir_name_from ce ok lens istate retval).1 = istate := by
  induction lens generalizing istate retval with
  | nil => exact ⟨hf, rfl⟩
  | cons len lens ih =>
    rw [has_dir_name_from] at hf ⊢
    split at hf
    · split at hf
      · cases hf
      · exact absurd (ih _ _ hf).1 (by decide)
    · split_ifs at hf ⊢ with hm
      · exact ⟨hf, rfl⟩
      · exact ih _ _ hf

theorem has_file_name_from_quiet (ce : cache_entry) (ok : Bool) (turns : Nat)
    (istate : index_state) (pos : Nat) (retval : Bool)
    (hf : (has_file_name_from ce ok turns istate pos retval).2 = false) :
    retval = false ∧ (has_file_name_from ce ok turns istate pos retval).1 = istate := by
  induction turns generalizing istate pos retval with
  | zero => exact ⟨hf, rfl⟩
  | succ turns ih =>
    cases hp : istate.cache[pos]? with
    | none =>
      rw [has_file_name_from, hp] at hf ⊢
      exact ⟨hf, rfl⟩
    | some p =>
      rw [has_file_name_from_turn ce p ok turns istate pos retval hp] at hf ⊢
      by_cases hs : scans ce p = true
      · by_cases hu : file_under ce p = true
        · cases ok with
          | true => exact absurd (ih _ _ _ (by simpa [hs, hu] using hf)).1 (by decide)
          | false => simp [hs, hu] at hf
        · simp only [hs, hu, if_true, if_false, Bool.false_eq_true] at hf ⊢
          exact ih _ _ _ hf
      · simp only [hs, if_false, Bool.false_eq_true] at hf ⊢
        exact ⟨hf, trivial⟩

/-- Without OK_TO_REPLACE the two loops only look. -/
theorem has_dir_name_from_looks (ce : cache_entry) (lens : List Nat) (istate : index_state)
    (retval : Bool) : (has_dir_name_from ce false lens istate retval).1 = istate := by
  induction lens generalizing retval with
  | nil => rfl
  | cons len lens ih =>
    rw [has_dir_name_from]
    split
    · rfl
    · split_ifs
      · rfl
      · exact ih _

theorem has_file_name_from_looks (ce : cache_entry) (turns : Nat) (istate : index_state)
    (pos : Nat) (retval : Bool) : (has_file_name_from ce false turns istate pos retval).1 = istate := by
  induction turns generalizing pos with
  | zero => rfl
  | succ turns ih =>
    cases hp : istate.cache[pos]? with
    | none => rw [has_file_name_from, hp]
    | some p =>
      rw [has_file_name_from_turn ce p false turns istate pos retval hp]
      by_cases hs : scans ce p = true
      · by_cases hu : file_under ce p = true
        · simp [hs, hu]
        · simpa [hs, hu] using ih (pos + 1)
      · simp [hs]

/-! ## The check of an entry against the files around it -/

/-- `e` is a file in the way of `ce`: one of the two names is the other plus
`'/'` and more, at one stage, and `e` is not to be removed. -/
def InWay (ce e : cache_entry) : Prop :=
  (Under ce.name e.name ∨ Under e.name ce.name) ∧ ce_stage e = ce_stage ce ∧
    e.has CE_REMOVE = false

instance (ce e : cache_entry) : Decidable (InWay ce e) := by unfold InWay; infer_instance

theorem trims_has_file_name {ce : cache_entry} (ok : Bool) {istate : index_state} (pos : Nat)
    (h : Ordered istate) (hc : Named ce) :
    Trims (InWay ce) istate (has_file_name istate ce pos ok).1 := by
  have ht := trims_has_file_name_from ce ok (istate.cache_nr - pos) istate pos false
  refine ⟨ht.sublist, ?_, ht.cache_tree, ht.timestamp, ht.name_hash⟩
  intro e he hn
  obtain ⟨hu, hst, hr⟩ := (file_under_iff hc (h.named e he)).mp (ht.gone e he hn)
  exact ⟨Or.inl hu, hst, hr⟩

theorem slashes_of_named {ce : cache_entry} (hc : Named ce) :
    ∀ len ∈ slashes (ce.name.take (ce_namelen ce)), ce.name[len]? = some SLASH := by
  intro len hlen
  rwa [hc.namelen, List.take_length, mem_slashes] at hlen

theorem trims_check_conflict {ce : cache_entry} (ok : Bool) {istate : index_state} (pos : Nat)
    (h : Ordered istate) (hc : Named ce) (hk : ∀ e ∈ istate.cache, e.key ≠ ce.key) :
    Trims (InWay ce) istate (check_file_directory_conflict istate ce pos ok).1 := by
  unfold check_file_directory_conflict
  split
  · exact Trims.refl _ _
  · have h1 := trims_has_file_name ok pos h hc
    refine h1.trans ?_
    refine (trims_has_dir_name_from ok false (h1.ordered h) hc
      (fun e he => hk e (h1.sublist.subset he)) (slashes_of_named hc)).mono ?_
    exact fun e he => ⟨Or.inr he.1, he.2⟩

theorem check_conflict_looks (ce : cache_entry) (istate : index_state) (pos : Nat) :
    (check_file_directory_conflict istate ce pos false).1 = istate := by
  unfold check_file_directory_conflict
  split
  · rfl
  · exact (has_dir_name_from_looks ..).trans (has_file_name_from_looks ..)

theorem check_conflict_going {ce : cache_entry} (hr : ce.has CE_REMOVE = true) (ok : Bool)
    (istate : index_state) (pos : Nat) :
    check_file_directory_conflict istate ce pos ok = (istate, false) := by
  simp [check_file_directory_conflict, hr]

/-- No conflict is reported only when the index is as it was. -/
theorem check_conflict_quiet (ce : cache_entry) (ok : Bool) (istate : index_state) (pos : Nat)
    (hf : (check_file_directory_conflict istate ce pos ok).2 = false) :
    (check_file_directory_conflict istate ce pos ok).1 = istate := by
  unfold check_file_directory_conflict at hf ⊢
  split at hf
  · simp [*]
  · rename_i hr
    simp only [hr, if_false, Bool.false_eq_true]
    simp only [Bool.or_eq_false_iff] at hf
    have h1 := (has_file_name_from_quiet ce ok _ istate pos false hf.1).2
    have h2 := (has_dir_name_from_quiet ok _ _ false hf.2).2
    exact h2.trans h1

/-! ## The cases of an insertion -/

/-- `cache_tree_invalidate_path(istate->cache_tree, path)` -/
def index_state.invalidate_path (istate : index_state) (path : Bytes) : index_state :=
  { istate with cache_tree := cache_tree_invalidate_path istate.cache_tree path }

theorem Ordered.invalidate_path {istate : index_state} (h : Ordered istate) (path : Bytes) :
    Ordered (istate.invalidate_path path) := ⟨h.ascends, h.named⟩

/-- The entries that may leave the index when `ce` comes in: the unmerged
entries of a merged one, and with OK_TO_REPLACE the files in its way. -/
def Leaves (ce : cache_entry) (option : add_option) (e : cache_entry) : Prop :=
  (ce_stage ce = 0 ∧ e.name = ce.name) ∨
    (option.ok_to_replace = true ∧ option.skip_dfcheck = false ∧ ce.has CE_REMOVE = false ∧
      InWay ce e)

/-- What `add_index_entry` can do to an ordered index, without JUST_APPEND. -/
inductive Adds (istate : index_state) (ce : cache_entry) (option : add_option) :
    index_state × Bool → Prop where
  /-- NEW_ONLY, and an entry of its name and stage is there. -/
  | kept (old : cache_entry) (hold : old ∈ istate.cache) (hkey : old.key = ce.key)
      (hnew : option.new_only = true) :
      Adds istate ce option (istate.invalidate_path ce.name, true)
  | replaced (pre post : List cache_entry) (old : cache_entry)
      (hcache : istate.cache = pre ++ old :: post) (hkey : old.key = ce.key)
      (hnew : option.new_only = false) :
      Adds istate ce option
        (replace_index_entry (istate.invalidate_path ce.name) pre.length ce, true)
  | refused (istate' : index_state) (hno : ∀ e ∈ istate.cache, e.key ≠ ce.key)
      (htrims : Trims (Leaves ce option) (istate.invalidate_path ce.name) istate') :
      Adds istate ce option (istate', false)
  | inserted (istate' : index_state) (pre post : List cache_entry)
      (hno : ∀ e ∈ istate.cache, e.key ≠ ce.key)
      (htrims : Trims (Leaves ce option) (istate.invalidate_path ce.name) istate')
      (hcache : istate'.cache = pre ++ post) (hpre : ∀ a ∈ pre, a.key < ce.key)
      (hpost : ∀ b ∈ post, ce.key < b.key)
      (hmerged : ce.name.length < 0x0fff → ce_stage ce = 0 →
        ∀ e ∈ istate'.cache, e.name ≠ ce.name) :
      Adds istate ce option
        ({ istate' with
            cache := pre ++ add_name_hash istate' ce :: post
            cache_changed := true }, true)

/-- The unmerged entries of `ce` stand together where it goes, so the loop
finds them all. -/
theorem none_named_after {ce : cache_entry} {post : List cache_entry} (hc : Named ce)
    (hn : ∀ e ∈ post, Named e) (hs : ce.name.length < 0x0fff)
    (ha : Ascends cache_entry.key post) (hpost : ∀ b ∈ post, ce.key < b.key) :
    ∀ e ∈ post.dropWhile (ce_same_name · ce), e.name ≠ ce.name := by
  induction post with
  | nil => simp
  | cons p post ih =>
    rw [List.dropWhile_cons]
    split
    · exact ih (fun e he => hn e (List.mem_cons_of_mem _ he)) ha.of_cons
        (fun b hb => hpost b (List.mem_cons_of_mem _ hb))
    · rename_i hp
      rw [ce_same_name_iff (hn p List.mem_cons_self) hc] at hp
      intro e he hen
      rcases List.mem_cons.mp he with rfl | he
      · exact hp hen
      · -- `p` stands between the place of `ce` and an entry of its name
        have hlt := List.rel_of_pairwise_cons ha he
        have hgt := hpost p List.mem_cons_self
        rw [(hn p List.mem_cons_self).key, (hn e (List.mem_cons_of_mem _ he)).key, hen,
          Prod.Lex.toLex_lt_toLex] at hlt
        rw [hc.key, (hn p List.mem_cons_self).key, Prod.Lex.toLex_lt_toLex] at hgt
        have heq : p.name.take 0x0fff = ce.name.take 0x0fff := by
          rcases hlt with h1 | ⟨h1, _⟩
          · rcases hgt with h2 | ⟨h2, _⟩
            · exact absurd (h1.trans h2) (lt_irrefl _)
            · exact h2.symm
          · exact h1
        rw [List.take_of_length_le hs.le] at heq
        have hlen := congrArg List.length heq
        rw [List.length_take] at hlen
        rw [List.take_of_length_le (by omega)] at heq
        exact hp heq

/-- The index after the unmerged entries of a merged `ce` are out, and the
flag `ok_to_add`. -/
def after_same_name (istate : index_state) (ce : cache_entry) (pos : Nat) (ok_to_add : Bool) :
    index_state × Bool :=
  if ce_stage ce = 0 then remove_same_name ce pos istate.cache_nr istate ok_to_add
  else (istate, ok_to_add)

theorem after_same_name_spec {istate : index_state} {ce : cache_entry} {pre post : List cache_entry}
    (ok : Bool) (h : Ordered istate) (hc : Named ce)
    (hcache : istate.cache = pre ++ post) (hpost : ∀ b ∈ post, ce.key < b.key) :
    Trims (fun e => ce_stage ce = 0 ∧ e.name = ce.name) istate
        (after_same_name istate ce pre.length ok).1 ∧
      (∃ post', (after_same_name istate ce pre.length ok).1.cache = pre ++ post' ∧
        post'.Sublist post ∧
        (ce.name.length < 0x0fff → ce_stage ce = 0 → ∀ e ∈ post', e.name ≠ ce.name)) := by
  have hn : ∀ e ∈ post, Named e := fun e he => h.named e (by simp [hcache, he])
  unfold after_same_name
  by_cases hs : ce_stage ce = 0
  · rw [if_pos hs]
    have ht := trims_remove_same_name ce pre.length istate.cache_nr istate ok
    have hcut := remove_same_name_cache ce istate.cache_nr istate ok hcache
      (by simp [index_state.cache_nr, hcache])
    refine ⟨⟨ht.sublist, ?_, ht.cache_tree, ht.timestamp, ht.name_hash⟩, _, hcut,
      List.dropWhile_sublist _, ?_⟩
    · intro e he hout
      exact ⟨hs, (ce_same_name_iff (h.named e he) hc).mp (ht.gone e he hout)⟩
    · intro hshort _
      have ha : Ascends cache_entry.key post :=
        h.ascends.sublist (by rw [hcache]; exact List.sublist_append_right _ _)
      exact none_named_after hc hn hshort ha hpost
  · rw [if_neg hs]
    exact ⟨Trims.refl _ _, post, hcache, List.Sublist.refl _, fun _ h0 => absurd h0 hs⟩

theorem not_named_before {ce : cache_entry} {pre : List cache_entry} (hc : Named ce)
    (hn : ∀ e ∈ pre, Named e) (hpre : ∀ a ∈ pre, a.key < ce.key) (hst : ce_stage ce = 0) :
    ∀ e ∈ pre, e.name ≠ ce.name := by
  intro e he hen
  have := hpre e he
  rw [(hn e he).key, hc.key, hen, hst, Prod.Lex.toLex_lt_toLex] at this
  rcases this with h | ⟨_, h⟩
  · exact lt_irrefl _ h
  · simp at h

/-- The end of `add_index_entry`: `ce` goes to `pos`. -/
def index_state.insert (istate : index_state) (pos : Nat) (ce : cache_entry) : index_state :=
  { istate with
    cache := istate.cache.insertIdx pos (add_name_hash istate ce)
    cache_changed := true }

theorem add_index_entry_found {istate : index_state} {ce : cache_entry} {option : add_option}
    {pos : Nat} (hj : option.just_append = false)
    (hpos : index_name_pos istate ce.name ce.ce_flags = .found pos) :
    add_index_entry istate ce option =
      (if option.new_only then istate.invalidate_path ce.name
        else replace_index_entry (istate.invalidate_path ce.name) pos ce, true) := by
  have hpos' : index_name_pos (istate.invalidate_path ce.name) ce.name ce.ce_flags = .found pos := hpos
  unfold index_state.invalidate_path at hpos' ⊢
  simp only [add_index_entry, add_index_entry_with_check, hj, hpos', Bool.false_eq_true, if_false]

theorem add_index_entry_absent {istate : index_state} {ce : cache_entry} {option : add_option}
    {pos : Nat} (hj : option.just_append = false)
    (hpos : index_name_pos istate ce.name ce.ce_flags = .absent pos) :
    add_index_entry istate ce option =
      let (s1, ok_to_add) :=
        after_same_name (istate.invalidate_path ce.name) ce pos option.ok_to_add
      let (s2, conflict) := check_file_directory_conflict s1 ce pos option.ok_to_replace
      if !ok_to_add || !verify_path ce.name then (s1, false)
      else if option.skip_dfcheck then (s1.insert pos ce, true)
      else if !conflict then (s2.insert pos ce, true)
      else if !option.ok_to_replace then (s2, false)
      else (s2.insert (index_name_pos s2 ce.name ce.ce_flags).val ce, true) := by
  have hpos' : index_name_pos (istate.invalidate_path ce.name) ce.name ce.ce_flags = .absent pos := hpos
  have hafter (s : index_state) : (if ce_stage ce = 0 then
      remove_same_name ce pos s.cache_nr s option.ok_to_add else (s, option.ok_to_add)) =
      after_same_name s ce pos option.ok_to_add := rfl
  unfold index_state.invalidate_path at hpos' ⊢
  simp only [add_index_entry, add_index_entry_with_check, hj, hpos', Bool.false_eq_true, if_false,
    hafter]
  generalize after_same_name _ ce pos option.ok_to_add = r
  obtain ⟨s1, ok⟩ := r
  simp only
  generalize check_file_directory_conflict s1 ce pos option.ok_to_replace = q
  obtain ⟨s2, conflict⟩ := q
  cases ok with
  | false => rfl
  | true =>
    cases verify_path ce.name with
    | false => rfl
    | true =>
      cases option.skip_dfcheck with
      | true => rfl
      | false =>
        cases conflict with
        | false => rfl
        | true => cases option.ok_to_replace <;> rfl

theorem add_index_entry_adds {istate : index_state} {ce : cache_entry} {option : add_option}
    (h : Ordered istate) (hc : Named ce) (hj : option.just_append = false) :
    Adds istate ce option (add_index_entry istate ce option) := by
  rcases index_name_pos_spec h ce.name ce.ce_flags hc.mask_le with
    ⟨pre, old, post, hcache, hpos, hkey⟩ | ⟨pre, post, hcache, hpos, hpre, hpost⟩
  · rw [add_index_entry_found hj hpos]
    cases hnew : option.new_only with
    | true => exact .kept old (by simp [hcache]) hkey hnew
    | false => exact .replaced pre post old hcache hkey hnew
  · rw [add_index_entry_absent hj hpos]
    have hno : ∀ e ∈ istate.cache, e.key ≠ ce.key := by
      intro e he
      rw [hcache, List.mem_append] at he
      rcases he with he | he
      · exact (hpre e he).ne
      · exact (hpost e he).ne'
    have h0 := h.invalidate_path ce.name
    obtain ⟨ht1, post1, hcache1, hsub1, hmerged1⟩ :=
      after_same_name_spec option.ok_to_add h0 hc hcache hpost
    generalize after_same_name (istate.invalidate_path ce.name) ce pre.length option.ok_to_add = r at *
    obtain ⟨s1, ok1⟩ := r
    simp only at *
    have h1 := ht1.ordered h0
    have hno1 : ∀ e ∈ s1.cache, e.key ≠ ce.key := fun e he => hno e (ht1.sublist.subset he)
    have hpre1 : ∀ e ∈ pre, Named e := fun e he => h.named e (by simp [hcache, he])
    have hmerged : ce.name.length < 0x0fff → ce_stage ce = 0 →
        ∀ e ∈ s1.cache, e.name ≠ ce.name := by
      intro hs hst e he
      rw [hcache1, List.mem_append] at he
      rcases he with he | he
      · exact not_named_before hc hpre1 hpre hst e he
      · exact hmerged1 hs hst e he
    have ht0 : Trims (Leaves ce option) (istate.invalidate_path ce.name) s1 :=
      ht1.mono fun _ => Or.inl
    have hin : Adds istate ce option (s1.insert pre.length ce, true) := by
      unfold index_state.insert
      rw [hcache1, insertIdx_append]
      exact .inserted s1 pre post1 hno ht0 hcache1 hpre (fun b hb => hpost b (hsub1.subset hb)) hmerged
    split_ifs with hok hskip hconf hrep
    · exact .refused s1 hno ht0
    · exact hin
    · rw [check_conflict_quiet ce option.ok_to_replace s1 pre.length (by simpa using hconf)]
      exact hin
    all_goals
      have ht2 : Trims (Leaves ce option) s1
          (check_file_directory_conflict s1 ce pre.length option.ok_to_replace).1 := by
        have ht := trims_check_conflict option.ok_to_replace pre.length h1 hc hno1
        cases hrep : option.ok_to_replace with
        | false =>
          rw [check_conflict_looks]
          exact Trims.refl _ _
        | true =>
          cases hr : ce.has CE_REMOVE with
          | true =>
            rw [check_conflict_going hr]
            exact Trims.refl _ _
          | false =>
            rw [hrep] at ht
            exact ht.mono fun e he => Or.inr ⟨hrep, by simpa using hskip, hr, he⟩
    · exact .refused _ hno (ht0.trans ht2)
    · generalize (check_file_directory_conflict s1 ce pre.length option.ok_to_replace).1 = s2 at *
      have ht := ht0.trans ht2
      rcases index_name_pos_spec (ht.ordered h0) ce.name ce.ce_flags hc.mask_le with
        ⟨pre2, e, post2, hcache2, _, hkey⟩ | ⟨pre2, post2, hcache2, hpos2, hpre2, hpost2⟩
      · exact absurd hkey (hno e (ht.sublist.subset (by simp [hcache2])))
      · unfold index_state.insert
        rw [hpos2, hcache2]
        simp only [Pos.val, insertIdx_append]
        exact .inserted s2 pre2 post2 hno ht hcache2 hpre2 hpost2
          (fun hs hst e he => hmerged hs hst e (ht2.sublist.subset he))

end git
