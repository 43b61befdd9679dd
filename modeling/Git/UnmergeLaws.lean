-- When the undoing of a resolution gives back the entries that were removed, and only these.
import Git.UnmergeRecord
import Git.UnmergeRefuses

open bsearch

namespace git

/-! ## One stage comes back -/

theorem add_name_hash_data (istate : index_state) (ce : cache_entry) :
    (add_name_hash istate ce).ce_mode = ce.ce_mode ∧ (add_name_hash istate ce).sha1 = ce.sha1 := by
  unfold add_name_hash
  dsimp only
  split <;> exact ⟨rfl, rfl⟩

theorem new_entry_stays (mode : BitVec 32) (sha1 : Sha1) (path : Bytes) {stage : Nat}
    (hst : stage < 4) : (new_entry mode sha1 path stage).has CE_REMOVE = false := by
  have hlow : ∀ x : BitVec 32, x.toNat < 4096 → x &&& CE_REMOVE = 0 := by
    intro x hx
    apply BitVec.eq_of_toNat_eq
    rw [BitVec.toNat_and, show CE_REMOVE.toNat = 2 ^ 17 from rfl, Nat.and_two_pow,
      Nat.testBit_lt_two_pow (hx.trans (by norm_num))]
    simp
  have hhigh : (BitVec.ofNat 32 stage <<< CE_STAGESHIFT) &&& CE_REMOVE = 0 := by
    interval_cases stage <;> decide
  have hflags : create_ce_flags path.length stage &&& CE_REMOVE = 0 := by
    unfold create_ce_flags
    rw [or_and_apart hhigh]
    refine hlow _ ?_
    split
    · decide
    · rw [BitVec.toNat_ofNat]
      omega
  show (create_ce_flags path.length stage &&& CE_REMOVE != 0) = false
  rw [hflags]
  rfl

/-- An entry of a stage goes to its place, or takes the place of an entry of its key; or it is
refused and the array stays. -/
theorem add_stage {istate : index_state} {path : Bytes} {stage : Nat} (mode : BitVec 32)
    (sha1 : Sha1) (h : Ordered istate) (hzero : stage ≠ 0) (hst : stage < 4)
    (hv : verify_path path = true) :
    let nce := new_entry mode sha1 path stage
    ((add_index_entry istate nce OK_TO_ADD).2 = false ↔ Refuses istate.cache path stage) ∧
      ((add_index_entry istate nce OK_TO_ADD).2 = false →
        (add_index_entry istate nce OK_TO_ADD).1.cache = istate.cache) ∧
      ((add_index_entry istate nce OK_TO_ADD).2 = true → ∃ x pre old post,
        SameKey x nce ∧ x.ce_mode = nce.ce_mode ∧ x.sha1 = nce.sha1 ∧
        (∀ e ∈ old, e.key = nce.key) ∧ istate.cache = pre ++ old ++ post ∧
        (add_index_entry istate nce OK_TO_ADD).1.cache = pre ++ x :: post) := by
  intro nce
  have hc : Named nce := new_entry_named _ _ _ hst
  have hstage : ce_stage nce = stage := new_entry_stage _ _ _ hst
  rcases index_name_pos_spec h nce.name nce.ce_flags hc.mask_le with
    ⟨pre, old, post, hcache, hpos, hkey⟩ | ⟨pre, post, hcache, hpos, hpre, hpost⟩
  · have hfound : ¬ Refuses istate.cache path stage := by
      rintro ⟨pos, habsent, -⟩
      have : Pos.found pre.length = .absent pos := hpos.symm.trans habsent
      cases this
    rw [add_index_entry_found rfl hpos]
    refine ⟨by simp [hfound], by simp, fun _ => ?_⟩
    have hdata := add_name_hash_data (istate.invalidate_path nce.name) nce
    refine ⟨_, pre, [old], post, add_name_hash_key (istate.invalidate_path nce.name) nce, hdata.1,
      hdata.2, List.forall_mem_singleton.mpr hkey, by simp [hcache], ?_⟩
    simp only [OK_TO_ADD, OK_TO_ADD_OR_REPLACE, Bool.false_eq_true, if_false, replace_index_entry,
      set_index_entry, index_state.invalidate_path, hcache, set_append]
  · have hle : pre.length ≤ istate.cache_nr := by simp [index_state.cache_nr, hcache]
    have hremove : nce.has CE_REMOVE = false := new_entry_stays _ _ _ hst
    have hrefuses : Refuses istate.cache path stage ↔ MeetsConflict istate.cache pre.length nce := by
      constructor
      · rintro ⟨pos, habsent, hmeets⟩
        obtain rfl : pre.length = pos := Pos.absent.inj (hpos.symm.trans habsent)
        exact hmeets
      · exact fun hmeets => ⟨pre.length, hpos, hmeets⟩
    have hflag := check_conflict_flag nce (istate.invalidate_path nce.name) hle
    have hlooks := check_conflict_looks nce (istate.invalidate_path nce.name) pre.length
    have hafter : after_same_name (istate.invalidate_path nce.name) nce pre.length
        OK_TO_ADD.ok_to_add = (istate.invalidate_path nce.name, true) := by
      rw [after_same_name, if_neg (by rw [hstage]; exact hzero)]
      rfl
    rw [hremove, eq_self_iff_true, true_and,
      show (istate.invalidate_path nce.name).cache = istate.cache from rfl, ← hrefuses] at hflag
    rw [add_index_entry_absent rfl hpos, hafter]
    simp only [show OK_TO_ADD.ok_to_replace = false from rfl, show OK_TO_ADD.skip_dfcheck = false from rfl,
      show verify_path nce.name = true from hv, Bool.not_true, Bool.or_false, Bool.false_eq_true,
      if_false]
    generalize check_file_directory_conflict (istate.invalidate_path nce.name) nce pre.length false = q
      at hflag hlooks ⊢
    obtain ⟨s2, conflict⟩ := q
    dsimp only at hflag hlooks ⊢
    subst hlooks
    cases conflict with
    | true =>
      refine ⟨by simpa using hflag, fun _ => rfl, by simp⟩
    | false =>
      refine ⟨by simpa using hflag, by simp, fun _ => ?_⟩
      have hdata := add_name_hash_data (istate.invalidate_path nce.name) nce
      refine ⟨_, pre, [], post, add_name_hash_key (istate.invalidate_path nce.name) nce, hdata.1,
        hdata.2, by simp, by simp [hcache], ?_⟩
      simp only [Bool.not_false, if_true, index_state.insert]
      rw [show (istate.invalidate_path nce.name).cache = pre ++ post from hcache, insertIdx_append]

/-! ## One turn of the loop -/

/-- The key of a path at a stage. -/
def stage_key (path : Bytes) (stage : Nat) : Bytes ×ₗ Nat := toLex (path.take 0x0fff, stage * 4096)

theorem new_entry_key (mode : BitVec 32) (sha1 : Sha1) (path : Bytes) {stage : Nat}
    (hst : stage < 4) : (new_entry mode sha1 path stage).key = stage_key path stage := by
  rw [(new_entry_named mode sha1 path hst).key, new_entry_stage _ _ _ hst]
  rfl

theorem stage_key_lt {path : Bytes} {stage stage' : Nat} (h : stage < stage') :
    stage_key path stage < stage_key path stage' := by
  rw [stage_key, stage_key, Prod.Lex.toLex_lt_toLex]
  exact Or.inr ⟨rfl, by dsimp only; omega⟩

theorem key_of_path {e : cache_entry} (he : Named e) {path : Bytes} (hn : e.name = path) :
    e.key = stage_key path (ce_stage e) := by
  rw [he.key, hn]
  rfl

/-- The entries that are not of the path. -/
def rest_of (path : Bytes) (cache : List cache_entry) : List cache_entry :=
  cache.filter fun e => e.name ≠ path

/-- The entries up to the place of the merged entry of the path. -/
def front_of (path : Bytes) (cache : List cache_entry) : List cache_entry :=
  cache.filter fun e => decide (e.key ≤ stage_key path 0)

/-- What the turn for a stage does to the index: an entry of the path comes in at the stage, if
the record has a mode there and nothing is in the way, and nothing else changes, unless an
entry of another name has the key. -/
structure Stepped (path : Bytes) (stage : Nat) (mode : BitVec 32) (sha1 : Sha1)
    (c c' : index_state) : Prop where
  ordered : Ordered c'
  entries : ∀ e ∈ c'.cache, e.name = path →
    e ∈ c.cache ∨ ce_stage e = stage ∧ e.ce_mode = create_ce_mode mode ∧ e.sha1 = sha1
  kept : ∀ e ∈ c.cache, e.name = path → e ∈ c'.cache
  put : (∃ e ∈ c'.cache, e.name = path ∧ ce_stage e = stage) ↔
    mode ≠ 0 ∧ ¬ Refuses c.cache path stage
  rest : ((∃ e ∈ c'.cache, e.name = path ∧ ce_stage e = stage) →
    ∀ e ∈ c.cache, e.key ≠ stage_key path stage) → rest_of path c'.cache = rest_of path c.cache
  front : front_of path c'.cache = front_of path c.cache

section
variable {path : Bytes} {stage : Nat} {mode : BitVec 32} {sha1 : Sha1} {c : index_state}

theorem stepped_same {c' : index_state} (h : Ordered c)
    (hnone : ∀ e ∈ c.cache, e.name = path → ce_stage e < stage) (hsame : c'.cache = c.cache)
    (hno : mode = 0 ∨ Refuses c.cache path stage) : Stepped path stage mode sha1 c c' where
  ordered := ⟨hsame ▸ h.ascends, hsame ▸ h.named⟩
  entries e he _ := Or.inl (hsame ▸ he)
  kept e he _ := hsame ▸ he
  put := by
    constructor
    · rintro ⟨e, he, hn, hst⟩
      exact absurd hst (hnone e (hsame ▸ he) hn).ne
    · rintro ⟨hmode, hfree⟩
      exact absurd (hno.resolve_left hmode) hfree
  rest _ := by rw [hsame]
  front := by rw [hsame]

theorem stepped_in {c' : index_state} (h : Ordered c) (hzero : stage ≠ 0) (hst : stage < 4)
    (hnone : ∀ e ∈ c.cache, e.name = path → ce_stage e < stage) {x : cache_entry}
    {pre old post : List cache_entry} (hkey : SameKey x (new_entry mode sha1 path stage))
    (hmode : x.ce_mode = create_ce_mode mode) (hsha1 : x.sha1 = sha1)
    (hold : ∀ e ∈ old, e.key = stage_key path stage) (hc : c.cache = pre ++ old ++ post)
    (hc' : c'.cache = pre ++ x :: post) (ho : Ordered c')
    (hput : mode ≠ 0 ∧ ¬ Refuses c.cache path stage) : Stepped path stage mode sha1 c c' := by
  have hxn : x.name = path := hkey.1
  have hxst : ce_stage x = stage := hkey.stage.trans (new_entry_stage _ _ _ hst)
  have hxk : x.key = stage_key path stage := hkey.key.trans (new_entry_key _ _ _ hst)
  have holdn : ∀ e ∈ old, e.name ≠ path := by
    intro e he hn
    have hmem : e ∈ c.cache := by simp [hc, he]
    have := hold e he
    rw [key_of_path (h.named e hmem) hn] at this
    exact absurd this (stage_key_lt (hnone e hmem hn)).ne
  have hin : ∃ e ∈ c'.cache, e.name = path ∧ ce_stage e = stage := ⟨x, by simp [hc'], hxn, hxst⟩
  refine ⟨ho, ?_, ?_, iff_of_true hin hput, ?_, ?_⟩
  · intro e he hn
    rw [hc', List.mem_append, List.mem_cons] at he
    rcases he with he | rfl | he
    · exact Or.inl (by simp [hc, he])
    · exact Or.inr ⟨hxst, hmode, hsha1⟩
    · exact Or.inl (by simp [hc, he])
  · intro e he hn
    rw [hc] at he
    simp only [List.mem_append] at he
    rcases he with (he | he) | he
    · simp [hc', he]
    · exact absurd hn (holdn e he)
    · simp [hc', he]
  · intro hfree
    have hnil : old = [] := by
      rw [List.eq_nil_iff_forall_not_mem]
      intro e he
      exact hfree hin e (by simp [hc, he]) (hold e he)
    rw [rest_of, rest_of, hc, hc', hnil, List.append_nil, List.filter_append, List.filter_append,
      List.filter_cons_of_neg (by simp [hxn])]
  · have hlater : ∀ k : Bytes ×ₗ Nat, k = stage_key path stage → ¬ k ≤ stage_key path 0 := by
      rintro _ rfl
      exact not_le.mpr (stage_key_lt (Nat.pos_of_ne_zero hzero))
    have hskip : old.filter (fun e => decide (e.key ≤ stage_key path 0)) = [] := by
      rw [List.filter_eq_nil_iff]
      intro e he
      simpa using hlater e.key (hold e he)
    rw [front_of, front_of, hc, hc', List.filter_append, List.filter_append, List.filter_append,
      List.filter_cons_of_neg (by simpa using hlater x.key hxk), hskip, List.append_nil]

/-- The turn for stage `i + 1`. -/
theorem unmerge_stage_spec {i : Nat} (h : Ordered c) (hi : i < 3) (hv : verify_path path = true)
    (hnone : ∀ e ∈ c.cache, e.name = path → ce_stage e < i + 1) :
    ∃ c' ok, unmerge_stage path mode sha1 i c = some (c', ok) ∧
      Stepped path (i + 1) mode sha1 c c' := by
  unfold unmerge_stage
  by_cases hmode : mode = 0
  · rw [if_pos hmode]
    exact ⟨c, true, rfl, stepped_same h hnone rfl (Or.inl hmode)⟩
  · have hst : i + 1 < 4 := by omega
    have hmake : make_cache_entry mode sha1 path (i + 1) = some (new_entry mode sha1 path (i + 1)) := by
      rw [make_cache_entry, hv]
      rfl
    have hnamed := new_entry_named mode sha1 path hst
    have ho := (add_index_entry_adds h hnamed (show OK_TO_ADD.just_append = false from rfl)).ordered h
      hnamed
    obtain ⟨hrefused, hsame, hin⟩ := add_stage mode sha1 h (Nat.succ_ne_zero i) hst hv
    rw [if_neg hmode, hmake, Option.map_some]
    refine ⟨_, _, rfl, ?_⟩
    cases hok : (add_index_entry c (new_entry mode sha1 path (i + 1)) OK_TO_ADD).2 with
    | false => exact stepped_same h hnone (hsame hok) (Or.inr (hrefused.mp hok))
    | true =>
      obtain ⟨x, pre, old, post, hkey, hxm, hxs, hold, hc, hc'⟩ := hin hok
      have hfree : ¬ Refuses c.cache path (i + 1) := by
        rw [← hrefused, hok]
        simp
      exact stepped_in h (Nat.succ_ne_zero i) hst hnone hkey hxm hxs
        (fun e he => (hold e he).trans (new_entry_key _ _ _ hst)) hc hc' ho ⟨hmode, hfree⟩

end

/-! ## A resolution -/

/-- What a resolution of the path leaves: its merged entry at `pos`, the record of what was
taken out, and all else that the checks of its stages can meet. -/
structure Resolution (s s1 : index_state) (path : Bytes) (pos : Nat) (ru : resolve_undo_info) :
    Prop where
  before : Ordered s
  after : Ordered s1
  verified : verify_path path = true
  rest : ∀ stage, 0 < stage →
    others path stage (rest_of path s1.cache) = others path stage (rest_of path s.cache)
  unmerged : ∀ e ∈ s.cache, e.name = path → ce_stage e ≠ 0
  some_stage : ∃ e ∈ s.cache, e.name = path
  merged : ∃ e, s1.cache[pos]? = some e ∧ e.name = path
  alone : ∀ e ∈ s1.cache, e.name = path → ce_stage e = 0
  record : ∃ list, s1.resolve_undo = some list ∧ ByName list ∧ listed (some list) path = some ru
  stages : ∀ e ∈ s.cache, e.name = path → ∀ i, ∀ hi : i < 3, ce_stage e = i + 1 →
    ru.mode[i] = e.ce_mode ∧ ru.sha1[i] = e.sha1
  earlier : ∀ i, ∀ hi : i < 3, (∀ e ∈ s.cache, e.name = path → ce_stage e ≠ i + 1) →
    ru.mode[i] = (record_of s.resolve_undo path).mode[i]

/-- The path has an entry at stage `i + 1`. -/
def HasEntry (cache : List cache_entry) (path : Bytes) (i : Nat) : Prop :=
  ∃ e ∈ cache, e.name = path ∧ ce_stage e = i + 1

section
variable {s s1 : index_state} {path : Bytes} {pos : Nat} {ru : resolve_undo_info}

/-- The record has a mode for stage `i + 1`, and nothing is in the way. -/
def Puts (s : index_state) (path : Bytes) (ru : resolve_undo_info) (i : Nat) : Prop :=
  (∃ hi : i < 3, ru.mode[i] ≠ 0) ∧ ¬ Barred s.cache path (i + 1)

theorem Resolution.recoverable_iff (h : Resolution s s1 path pos ru) :
    Recoverable s path ↔ ∀ i < 3, (HasEntry s.cache path i ↔ Puts s path ru i) := by
  constructor
  · intro hr i hi
    obtain ⟨hin, hout⟩ := hr i hi
    constructor
    · rintro ⟨e, he, hn, hst⟩
      obtain ⟨hmode, hfree⟩ := hin e he hn hst
      exact ⟨⟨hi, by rwa [(h.stages e he hn i hi hst).1]⟩, hfree⟩
    · rintro ⟨⟨_, hmode⟩, hfree⟩
      by_contra hno
      have hnone : ∀ e ∈ s.cache, e.name = path → ce_stage e ≠ i + 1 :=
        fun e he hn hst => hno ⟨e, he, hn, hst⟩
      rcases hout hnone with hzero | hbarred
      · exact hmode ((h.earlier i hi hnone).trans hzero)
      · exact hfree hbarred
  · intro hiff i hi
    constructor
    · intro e he hn hst
      obtain ⟨⟨_, hmode⟩, hfree⟩ := (hiff i hi).mp ⟨e, he, hn, hst⟩
      rw [(h.stages e he hn i hi hst).1] at hmode
      exact ⟨hmode, hfree⟩
    · intro hnone
      by_contra hno
      rw [not_or] at hno
      have hputs : Puts s path ru i := ⟨⟨hi, by rw [h.earlier i hi hnone]; exact hno.1⟩, hno.2⟩
      obtain ⟨e, he, hn, hst⟩ := (hiff i hi).mpr hputs
      exact hnone e he hn hst

/-- What the loop has done after `n` of the stages. -/
structure Replayed (s : index_state) (path : Bytes) (ru : resolve_undo_info) (c0 : index_state)
    (n : Nat) (c : index_state) : Prop where
  ordered : Ordered c
  entries : ∀ e ∈ c.cache, e.name = path → ∃ i, ∃ hi : i < 3, i < n ∧ ce_stage e = i + 1 ∧
    e.ce_mode = create_ce_mode ru.mode[i] ∧ e.sha1 = ru.sha1[i]
  front : front_of path c.cache = front_of path c0.cache
  good : (∀ i < n, HasEntry c.cache path i → Puts s path ru i → HasEntry s.cache path i) →
    rest_of path c.cache = rest_of path c0.cache ∧
      ∀ i < n, (HasEntry c.cache path i ↔ Puts s path ru i)

/-- Entries of the path at lower stages are aside. -/
theorem others_rest {cache : List cache_entry} {stage : Nat}
    (h : ∀ e ∈ cache, e.name = path → ce_stage e < stage) :
    others path stage (rest_of path cache) = others path stage cache := by
  unfold others rest_of
  rw [List.filter_filter]
  refine List.filter_congr fun e he => ?_
  by_cases hn : e.name = path
  · have haside : aside path stage e = true := by
      rw [aside, Bool.and_eq_true, decide_eq_true_eq, decide_eq_true_eq]
      exact ⟨h e he hn, Or.inl hn⟩
    simp [haside]
  · simp [hn]

theorem ordered_rest (h : Ordered s) : Ordered (index_of (rest_of path s.cache)) :=
  ⟨Ascends.sublist h.ascends List.filter_sublist, fun e he => h.named e (List.mem_of_mem_filter he)⟩

/-- The check of a stage meets what the array before the resolution has in its way. -/
theorem Resolution.refuses_iff (h : Resolution s s1 path pos ru) {c : index_state} {i : Nat}
    (hi : i < 3) (hc : Ordered c) (hnone : ∀ e ∈ c.cache, e.name = path → ce_stage e < i + 1)
    (hrest : rest_of path c.cache = rest_of path s1.cache) :
    Refuses c.cache path (i + 1) ↔ Barred s.cache path (i + 1) := by
  have hst : i + 1 < 4 := by omega
  have hsame : others path (i + 1) c.cache = others path (i + 1) (rest_of path s.cache) := by
    rw [← others_rest hnone, hrest]
    exact h.rest (i + 1) (Nat.succ_pos i)
  have hcache : Ordered (index_of c.cache) := ⟨hc.ascends, hc.named⟩
  rw [← refuses_others hcache hst, hsame, refuses_others (ordered_rest h.before) hst]
  rfl

/-- The key of a stage that the path had is free. -/
theorem Resolution.key_free (h : Resolution s s1 path pos ru) {c : index_state} {i : Nat}
    (hin : HasEntry s.cache path i) (hc : Ordered c)
    (hnone : ∀ e ∈ c.cache, e.name = path → ce_stage e < i + 1)
    (hrest : rest_of path c.cache = rest_of path s1.cache) :
    ∀ e ∈ c.cache, e.key ≠ stage_key path (i + 1) := by
  intro e he hkey
  have hen := hc.named e he
  by_cases hn : e.name = path
  · rw [key_of_path hen hn] at hkey
    exact (stage_key_lt (hnone e he hn)).ne hkey
  · have hst : ce_stage e = i + 1 := by
      rw [hen.key, stage_key, EmbeddingLike.apply_eq_iff_eq, Prod.mk.injEq] at hkey
      omega
    have hmem : e ∈ others path (i + 1) (rest_of path s1.cache) := by
      rw [← hrest]
      refine List.mem_filter.mpr ⟨List.mem_filter.mpr ⟨he, by simpa using hn⟩, ?_⟩
      rw [not_aside_of_stage hst, Bool.not_false]
    rw [h.rest (i + 1) (Nat.succ_pos i)] at hmem
    have hes : e ∈ s.cache := List.mem_of_mem_filter (List.mem_of_mem_filter hmem)
    obtain ⟨r, hr, hrn, hrst⟩ := hin
    have hrk : r.key = stage_key path (i + 1) := by rw [key_of_path (h.before.named r hr) hrn, hrst]
    have heq := h.before.ascends.eq_of_key hes hr (hkey.trans hrk.symm)
    exact hn (heq ▸ hrn)

/-- One more stage. -/
theorem Replayed.step (h : Resolution s s1 path pos ru) {c0 c c' : index_state} {n : Nat} (hn : n < 3)
    (hrest0 : rest_of path c0.cache = rest_of path s1.cache) (hc : Replayed s path ru c0 n c)
    (hstep : Stepped path (n + 1) ru.mode[n] ru.sha1[n] c c') : Replayed s path ru c0 (n + 1) c' := by
  have hnone : ∀ e ∈ c.cache, e.name = path → ce_stage e < n + 1 := by
    intro e he hen
    obtain ⟨i, -, hin, hst, -⟩ := hc.entries e he hen
    omega
  refine ⟨hstep.ordered, ?_, hstep.front.trans hc.front, ?_⟩
  · intro e he hen
    rcases hstep.entries e he hen with hin | ⟨hst, hmode, hsha1⟩
    · obtain ⟨i, hi, hin, hrest⟩ := hc.entries e hin hen
      exact ⟨i, hi, by omega, hrest⟩
    · exact ⟨n, hn, Nat.lt_succ_self n, hst, hmode, hsha1⟩
  · intro hgood
    have hmore : ∀ i, HasEntry c.cache path i → HasEntry c'.cache path i := by
      rintro i ⟨e, he, hen, hst⟩
      exact ⟨e, hstep.kept e he hen, hen, hst⟩
    obtain ⟨hrest, hiff⟩ := hc.good fun i hi hin => hgood i (Nat.lt_succ_of_lt hi) (hmore i hin)
    have hrefuses := h.refuses_iff hn hc.ordered hnone (hrest.trans hrest0)
    have hput : HasEntry c'.cache path n ↔ Puts s path ru n := by
      unfold HasEntry Puts
      rw [hstep.put, hrefuses]
      simp [hn]
    refine ⟨?_, ?_⟩
    · refine (hstep.rest fun hin => ?_).trans hrest
      have hhad := hgood n (Nat.lt_succ_self n) hin (hput.mp hin)
      exact h.key_free hhad hc.ordered hnone (hrest.trans hrest0)
    · intro i hi
      rcases Nat.lt_succ_iff_lt_or_eq.mp hi with hlt | rfl
      · rw [← hiff i hlt]
        constructor
        · rintro ⟨e, he, hen, hst⟩
          rcases hstep.entries e he hen with hin | ⟨hst', -⟩
          · exact ⟨e, hin, hen, hst⟩
          · omega
        · exact hmore i
      · exact hput

/-- The three stages. -/
theorem Resolution.unmerge_stages (h : Resolution s s1 path pos ru) {c0 : index_state}
    (h0 : Ordered c0) (hnone : ∀ e ∈ c0.cache, e.name ≠ path)
    (hrest0 : rest_of path c0.cache = rest_of path s1.cache) :
    ∃ c ok, git.unmerge_stages path ru c0 = some (c, ok) ∧ Replayed s path ru c0 3 c := by
  have hchain0 : Replayed s path ru c0 0 c0 :=
    ⟨h0, fun e he hn => absurd hn (hnone e he), rfl, fun _ => ⟨rfl, fun i hi => absurd hi (Nat.not_lt_zero i)⟩⟩
  have hnext : ∀ n, ∀ hn : n < 3, ∀ c, Replayed s path ru c0 n c → ∃ c' ok,
      unmerge_stage path ru.mode[n] ru.sha1[n] n c = some (c', ok) ∧ Replayed s path ru c0 (n + 1) c' := by
    intro n hn c hc
    have hlow : ∀ e ∈ c.cache, e.name = path → ce_stage e < n + 1 := by
      intro e he hen
      obtain ⟨i, -, hin, hst, -⟩ := hc.entries e he hen
      omega
    obtain ⟨c', ok, hrun, hstep⟩ := unmerge_stage_spec hc.ordered hn h.verified hlow
    exact ⟨c', ok, hrun, hc.step h hn hrest0 hstep⟩
  obtain ⟨c1, ok1, hrun1, hchain1⟩ := hnext 0 (by decide) c0 hchain0
  obtain ⟨c2, ok2, hrun2, hchain2⟩ := hnext 1 (by decide) c1 hchain1
  obtain ⟨c3, ok3, hrun3, hchain3⟩ := hnext 2 (by decide) c2 hchain2
  refine ⟨c3, ok1 && ok2 && ok3, ?_, hchain3⟩
  unfold git.unmerge_stages
  simp only [Option.bind_eq_bind, hrun1, Option.bind_some, hrun2, hrun3]

end

/-! ## The recursion -/

theorem unmerge_from_unmerged {istate : index_state} {pos : Nat} {e : cache_entry} (turns : Nat)
    (he : istate.cache[pos]? = some e) (hst : ce_stage e ≠ 0) :
    ∃ q, unmerge_from (turns + 1) istate pos = some (istate, q) := by
  rw [unmerge_from]
  cases istate.resolve_undo with
  | none => exact ⟨_, rfl⟩
  | some list =>
    simp only [he, if_pos hst]
    exact ⟨_, rfl⟩

/-- A stage of another name brings no entry of the path. -/
theorem unmerge_stage_other {path name : Bytes} {mode : BitVec 32} {sha1 : Sha1} {i : Nat}
    {c c' : index_state} {ok : Bool} (hi : i < 3) (hname : name ≠ path) (h : Ordered c)
    (hnone : ∀ e ∈ c.cache, e.name ≠ path)
    (hrun : unmerge_stage name mode sha1 i c = some (c', ok)) :
    Ordered c' ∧ ∀ e ∈ c'.cache, e.name ≠ path := by
  unfold unmerge_stage at hrun
  split at hrun
  · cases hrun
    exact ⟨h, hnone⟩
  · obtain ⟨nce, hmake, hadd⟩ := Option.map_eq_some_iff.mp hrun
    unfold make_cache_entry at hmake
    split at hmake
    · cases hmake
    · cases hmake
      have hnamed := new_entry_named mode sha1 name (show i + 1 < 4 by omega)
      have hadds := add_index_entry_adds h hnamed (show OK_TO_ADD.just_append = false from rfl)
      rw [hadd] at hadds
      refine ⟨hadds.ordered h hnamed, ?_⟩
      intro e he
      rcases hadds.mem e he with he | hkey
      · exact hnone e he
      · rw [hkey.1]
        exact hname

theorem unmerge_stages_other {path name : Bytes} {ru : resolve_undo_info} {c c' : index_state}
    {ok : Bool} (hname : name ≠ path) (h : Ordered c) (hnone : ∀ e ∈ c.cache, e.name ≠ path)
    (hrun : git.unmerge_stages name ru c = some (c', ok)) :
    Ordered c' ∧ ∀ e ∈ c'.cache, e.name ≠ path := by
  unfold git.unmerge_stages at hrun
  obtain ⟨⟨c1, ok1⟩, hrun1, hrun⟩ := Option.bind_eq_some_iff.mp hrun
  obtain ⟨⟨c2, ok2⟩, hrun2, hrun⟩ := Option.bind_eq_some_iff.mp hrun
  obtain ⟨⟨c3, ok3⟩, hrun3, hrun⟩ := Option.bind_eq_some_iff.mp hrun
  cases hrun
  obtain ⟨h1, hnone1⟩ := unmerge_stage_other (by decide) hname h hnone hrun1
  obtain ⟨h2, hnone2⟩ := unmerge_stage_other (by decide) hname h1 hnone1 hrun2
  exact unmerge_stage_other (by decide) hname h2 hnone2 hrun3

/-- Entries of the path never come from the records of other paths. -/
theorem unmerge_from_other {path : Bytes} {pos : Nat} (turns : Nat) :
    ∀ {c s2 : index_state} {q : Nat}, Ordered c → (∀ e ∈ c.cache, e.name ≠ path) →
      unmerge_from turns c pos = some (s2, q) → ∀ e ∈ s2.cache, e.name ≠ path := by
  induction turns with
  | zero =>
    intro c s2 q _ _ hrun
    cases hrun
  | succ turns ih =>
    intro c s2 q h hnone hrun
    rw [unmerge_from] at hrun
    cases hundo : c.resolve_undo with
    | none =>
      rw [hundo] at hrun
      cases hrun
      exact hnone
    | some list =>
      cases hget : c.cache[pos]? with
      | none =>
        simp only [hundo, hget] at hrun
        cases hrun
      | some ce =>
        have hce : ce.name ≠ path := hnone ce (List.mem_of_getElem? hget)
        have hremoved : Trims (fun _ => True) c (remove_index_entry_at c pos).1 :=
          trims_remove hget trivial
        simp only [hundo, hget] at hrun
        split at hrun
        · cases hrun
          exact hnone
        · split at hrun
          · cases hrun
            exact hnone
          · split at hrun
            · cases hrun
              exact hnone
            · split at hrun
              · cases hrun
              · next hstages =>
                cases hrun
                exact (unmerge_stages_other hce (hremoved.ordered h)
                  (fun e he => hnone e (hremoved.sublist.subset he)) hstages).2
              · next hstages =>
                obtain ⟨h', hnone'⟩ := unmerge_stages_other hce (hremoved.ordered h)
                  (fun e he => hnone e (hremoved.sublist.subset he)) hstages
                refine ih ?_ ?_ hrun
                · exact ⟨h'.ascends, h'.named⟩
                · exact hnone'

section
variable {s s1 : index_state} {path : Bytes} {pos : Nat} {ru : resolve_undo_info}

/-- The array without the merged entry. -/
theorem Resolution.removed (h : Resolution s s1 path pos ru) :
    let c0 := (remove_index_entry_at s1 pos).1
    Ordered c0 ∧ (∀ e ∈ c0.cache, e.name ≠ path) ∧ rest_of path c0.cache = rest_of path s1.cache ∧
      (front_of path c0.cache).length = pos := by
  obtain ⟨e0, hget, hn⟩ := h.merged
  obtain ⟨pre, post, hcache, rfl⟩ : ∃ pre post, s1.cache = pre ++ e0 :: post ∧ pre.length = pos :=
    ⟨_, _, split_at hget⟩
  have hcut := remove_at_append hcache
  have htrims : Trims (fun _ => True) s1 (remove_index_entry_at s1 pre.length).1 :=
    trims_remove hget trivial
  have hmem0 : e0 ∈ s1.cache := List.mem_of_getElem? hget
  have hkey0 : e0.key = stage_key path 0 := by
    rw [key_of_path (h.after.named e0 hmem0) hn, h.alone e0 hmem0 hn]
  have hascends : Ascends cache_entry.key (pre ++ e0 :: post) := hcache ▸ h.after.ascends
  obtain ⟨-, hback, hcross⟩ := List.pairwise_append.mp hascends
  have hpre : ∀ a ∈ pre, a.key < stage_key path 0 := fun a ha => hkey0 ▸ hcross a ha e0 List.mem_cons_self
  have hpost : ∀ b ∈ post, stage_key path 0 < b.key := fun b hb => hkey0 ▸ (List.pairwise_cons.mp hback).1 b hb
  have hnone : ∀ e ∈ pre ++ post, e.name ≠ path := by
    intro e he hen
    have hes : e ∈ s1.cache := by
      rw [hcache]
      simp only [List.mem_append, List.mem_cons] at he ⊢
      tauto
    have hkey : e.key = stage_key path 0 := by
      rw [key_of_path (h.after.named e hes) hen, h.alone e hes hen]
    rcases List.mem_append.mp he with he | he
    · exact (hpre e he).ne hkey
    · exact (hpost e he).ne' hkey
  refine ⟨htrims.ordered h.after, ?_, ?_, ?_⟩
  · rwa [hcut]
  · rw [hcut, hcache, rest_of, rest_of, List.filter_append, List.filter_append,
      List.filter_cons_of_neg (by simp [hn])]
  · rw [hcut, front_of, List.filter_append,
      List.filter_eq_self.mpr fun e he => by simpa using (hpre e he).le,
      List.filter_eq_nil_iff.mpr fun e he => by simpa using hpost e he, List.append_nil]

/-- An entry of the path that came back makes the place one of an unmerged entry. -/
theorem Replayed.unmerged_at {c0 c : index_state} {i : Nat} (hc : Replayed s path ru c0 3 c)
    (hlen : (front_of path c0.cache).length = pos) (hin : HasEntry c.cache path i) :
    ∃ e, c.cache[pos]? = some e ∧ ce_stage e ≠ 0 := by
  obtain ⟨x, hx, hxn, hxst⟩ := hin
  have hsplit := hc.ordered.ascends.split_le (stage_key path 0)
  have hfront : c.cache.filter (fun e => decide (e.key ≤ stage_key path 0)) = front_of path c0.cache :=
    hc.front
  rw [hfront] at hsplit
  have hxk : x.key = stage_key path (i + 1) := by
    rw [key_of_path (hc.ordered.named x hx) hxn, hxst]
  have hxback : x ∈ c.cache.filter fun e => !decide (e.key ≤ stage_key path 0) := by
    refine List.mem_filter.mpr ⟨hx, ?_⟩
    simpa [hxk] using stage_key_lt (Nat.succ_pos i)
  generalize hback : (c.cache.filter fun e => !decide (e.key ≤ stage_key path 0)) = back at *
  cases back with
  | nil => cases hxback
  | cons e back =>
    have he : e ∈ c.cache.filter fun e => !decide (e.key ≤ stage_key path 0) := by
      rw [hback]
      exact List.mem_cons_self
    have hes : e ∈ c.cache := List.mem_of_mem_filter he
    have hgt : stage_key path 0 < e.key := by simpa using (List.mem_filter.mp he).2
    have hle : e.key ≤ stage_key path (i + 1) := by
      rcases List.mem_cons.mp hxback with rfl | hlater
      · exact hxk.le
      · have hascends : Ascends cache_entry.key (e :: back) := by
          rw [← hback]
          exact Ascends.sublist hc.ordered.ascends List.filter_sublist
        exact hxk ▸ ((List.pairwise_cons.mp hascends).1 x hlater).le
    refine ⟨e, ?_, ?_⟩
    · rw [hsplit, ← hlen, List.getElem?_append_right le_rfl, Nat.sub_self, List.getElem?_cons_zero]
    · intro hzero
      rw [(hc.ordered.named e hes).key, stage_key, Prod.Lex.toLex_lt_toLex, hzero] at hgt
      rw [(hc.ordered.named e hes).key, stage_key, Prod.Lex.toLex_le_toLex] at hle
      rcases hgt with hgt | ⟨-, hgt⟩
      · rcases hle with hle | ⟨hle, -⟩
        · exact lt_asymm hgt hle
        · exact hgt.ne' hle
      · exact absurd hgt (by simp)

/-- What the undoing leaves: the entries of the loop over the stages, or no entry of the path. -/
theorem Resolution.unmerge (h : Resolution s s1 path pos ru) :
    ∃ c, Replayed s path ru (remove_index_entry_at s1 pos).1 3 c ∧
      ((∃ i, HasEntry c.cache path i) →
        ∃ s2 q, unmerge_index_entry_at s1 pos = some (s2, q) ∧ s2.cache = c.cache) ∧
      ((¬ ∃ i, HasEntry c.cache path i) → ∀ s2 q, unmerge_index_entry_at s1 pos = some (s2, q) →
        ∀ e ∈ s2.cache, e.name ≠ path) := by
  obtain ⟨h0, hnone, hrest, hlen⟩ := h.removed
  obtain ⟨c, ok, hrun, hchain⟩ := h.unmerge_stages h0 hnone hrest
  obtain ⟨e0, hget, hn⟩ := h.merged
  obtain ⟨list, hundo, hby, hlisted⟩ := h.record
  have hst0 : ce_stage e0 = 0 := h.alone e0 (List.mem_of_getElem? hget) hn
  obtain ⟨item, hlookup, hitem⟩ := string_list_lookup_found hby hlisted
  have hlistlen : 0 < list.length := by
    cases list with
    | nil => simp at hitem
    | cons a list => simp
  obtain ⟨turns, hturns⟩ : ∃ turns, list.length = turns + 1 := ⟨list.length - 1, by omega⟩
  have hbegin : unmerge_index_entry_at s1 pos =
      if ok then unmerge_from (turns + 1)
        { c with resolve_undo := c.resolve_undo.map fun list => list.set item (path, none) } pos
      else some (c, pos) := by
    rw [unmerge_index_entry_at, hundo, Option.getD_some, hturns, unmerge_from]
    simp only [hundo, hget, hst0, hn, hlookup, hitem, hrun, ne_eq, not_true_eq_false, if_false]
    cases ok <;> rfl
  refine ⟨c, hchain, ?_, ?_⟩
  · rintro ⟨i, hin⟩
    rw [hbegin]
    cases ok with
    | false => exact ⟨c, pos, rfl, rfl⟩
    | true =>
      obtain ⟨e, he, hst⟩ := hchain.unmerged_at hlen hin
      have hat : ({ c with resolve_undo :=
          c.resolve_undo.map fun list => list.set item (path, none) } : index_state).cache[pos]? =
            some e := he
      obtain ⟨q, hq⟩ := unmerge_from_unmerged turns hat hst
      exact ⟨_, q, hq, rfl⟩
  · intro hno s2 q hs2
    have hnonec : ∀ e ∈ c.cache, e.name ≠ path := by
      intro e he hen
      obtain ⟨i, -, -, hst, -⟩ := hchain.entries e he hen
      exact hno ⟨i, e, he, hen, hst⟩
    rw [hbegin] at hs2
    cases ok with
    | false =>
      cases hs2
      exact hnonec
    | true =>
      rw [if_pos rfl] at hs2
      refine unmerge_from_other _ ?_ ?_ hs2
      · exact ⟨hchain.ordered.ascends, hchain.ordered.named⟩
      · exact hnonec

end

end git
