-- Runs over the in-core index: additions, removals, renames and
-- replacements in any order. The array keeps its order, and a merged entry
-- stands alone but for the unmerged entries that came after it.
import Git.AddIndexEntry
import Git.Lib.Runs

open bsearch runs

namespace git

/-! ## The order survives each operation -/

theorem add_name_hash_key (istate : index_state) (ce : cache_entry) :
    SameKey (add_name_hash istate ce) ce := by
  have h1 : SameKey (ce.clear CE_UNHASHED) ce := sameKey_clear ce (by decide) (by decide)
  unfold add_name_hash
  simp only
  split
  · have h2 : SameKey ((ce.clear CE_UNHASHED).mark CE_HASHED) (ce.clear CE_UNHASHED) :=
      sameKey_mark _ (by decide) (by decide)
    exact ⟨h2.1.trans h1.1, h2.2.1.trans h1.2.1, h2.2.2.trans h1.2.2⟩
  · exact h1

theorem named_of_mem {pre post : List cache_entry} {e ce : cache_entry} (hc : Named ce)
    (he : SameKey e ce) (h : ∀ x ∈ pre ++ post, Named x) : ∀ x ∈ pre ++ e :: post, Named x := by
  intro x hx
  rcases List.mem_append.mp hx with hx | hx
  · exact h x (by simp [hx])
  · rcases List.mem_cons.mp hx with rfl | hx
    · exact he.named.mpr hc
    · exact h x (by simp [hx])

/-- An entry put in the place of one with its key. -/
theorem Ordered.replace {istate : index_state} (h : Ordered istate) {pre post : List cache_entry}
    {old ce : cache_entry} (hcache : istate.cache = pre ++ old :: post) (hk : ce.key = old.key)
    (hc : Named ce) : Ordered (replace_index_entry istate pre.length ce) := by
  have hs := add_name_hash_key istate ce
  have hcache' : (replace_index_entry istate pre.length ce).cache =
      pre ++ add_name_hash istate ce :: post := by
    simp only [replace_index_entry, set_index_entry, hcache]
    exact set_append ..
  constructor
  · rw [hcache']
    exact Ascends.replace (hcache ▸ h.ascends) (hs.key.trans hk)
  · rw [hcache']
    refine named_of_mem hc hs ?_
    intro x hx
    refine h.named x ?_
    rw [hcache]
    rcases List.mem_append.mp hx with hx | hx <;> simp [hx]

theorem Adds.ordered {istate : index_state} {ce : cache_entry} {option : add_option}
    {r : index_state × Bool} (ha : Adds istate ce option r) (h : Ordered istate) (hc : Named ce) :
    Ordered r.1 := by
  have h0 := h.invalidate_path ce.name
  cases ha with
  | kept old hold hkey hnew => exact h0
  | replaced pre post old hcache hkey hnew => exact h0.replace hcache hkey.symm hc
  | refused istate' hno htrims => exact htrims.ordered h0
  | inserted istate' pre post hno htrims hcache hpre hpost hmerged =>
    have h1 := htrims.ordered h0
    have hs := add_name_hash_key istate' ce
    refine ⟨Ascends.insert (hcache ▸ h1.ascends) ?_ ?_, named_of_mem hc hs (hcache ▸ h1.named)⟩
    · exact fun a hm => hs.key ▸ hpre a hm
    · exact fun b hm => hs.key ▸ hpost b hm

/-- Each entry after an addition was there before, or is the one that came in. -/
theorem Adds.mem {istate : index_state} {ce : cache_entry} {option : add_option}
    {r : index_state × Bool} (ha : Adds istate ce option r) :
    ∀ e ∈ r.1.cache, e ∈ istate.cache ∨ SameKey e ce := by
  intro e he
  cases ha with
  | kept old hold hkey hnew => exact Or.inl he
  | replaced pre post old hcache hkey hnew =>
    simp only [replace_index_entry, set_index_entry, index_state.invalidate_path, hcache,
      set_append] at he
    rw [hcache]
    rcases List.mem_append.mp he with he | he
    · exact Or.inl (by simp [he])
    · rcases List.mem_cons.mp he with rfl | he
      · exact Or.inr (add_name_hash_key _ _)
      · exact Or.inl (by simp [he])
  | refused istate' hno htrims => exact Or.inl (htrims.sublist.subset he)
  | inserted istate' pre post hno htrims hcache hpre hpost hmerged =>
    have hsub : ∀ x ∈ pre ++ post, x ∈ istate.cache :=
      fun x hx => htrims.sublist.subset (hcache ▸ hx)
    rcases List.mem_append.mp he with he | he
    · exact Or.inl (hsub e (by simp [he]))
    · rcases List.mem_cons.mp he with rfl | he
      · exact Or.inr (add_name_hash_key _ _)
      · exact Or.inl (hsub e (by simp [he]))

theorem renamed_named (old : cache_entry) (new_name : Bytes) : Named (renamed old new_name) := by
  unfold Named renamed
  have hold : (old.ce_flags &&& ~~~(CE_STATE_MASK ||| CE_NAMEMASK)) &&& CE_NAMEMASK = 0 := by
    have : ~~~(CE_STATE_MASK ||| CE_NAMEMASK) &&& CE_NAMEMASK = 0 := by decide
    rw [BitVec.and_assoc, this]
    simp
  rw [BitVec.or_comm, or_and_apart hold, create_ce_flags_mask _ _ (by decide)]

theorem renamed_stage (old : cache_entry) (new_name : Bytes) :
    ce_stage (renamed old new_name) = ce_stage old := by
  have hnew : create_ce_flags new_name.length 0 &&& CE_STAGEMASK = 0 := by
    apply BitVec.eq_of_toNat_eq
    rw [create_ce_flags_stage _ _ (by decide)]
    rfl
  have hold : (old.ce_flags &&& ~~~(CE_STATE_MASK ||| CE_NAMEMASK)) &&& CE_STAGEMASK =
      old.ce_flags &&& CE_STAGEMASK := andNot_and_apart (by decide)
  unfold ce_stage renamed
  simp only
  rw [BitVec.and_comm, or_and_apart hnew, hold, BitVec.and_comm]

theorem trims_remove_file (istate : index_state) (path : Bytes) :
    Trims (fun e => e.name = path) (istate.invalidate_path path)
      (remove_file_from_index istate path) :=
  trims_remove_all_named _ _ _ _

theorem trims_remove_at (istate : index_state) (pos : Nat) :
    Trims (fun _ => True) istate (remove_index_entry_at istate pos).1 := by
  cases he : istate.cache[pos]? with
  | none =>
    rw [remove_index_entry_at, he]
    exact Trims.refl _ _
  | some e => exact trims_remove he trivial

/-- The index when `rename_index_entry_at` comes to its addition. -/
def before_rename (istate : index_state) (nr : Nat) (old : cache_entry) : index_state :=
  (remove_index_entry_at (istate.invalidate_path old.name) nr).1

theorem rename_eq {istate : index_state} {nr : Nat} {old : cache_entry} (new_name : Bytes)
    (hold : istate.cache[nr]? = some old) :
    rename_index_entry_at istate nr new_name =
      (add_index_entry (before_rename istate nr old) (renamed old new_name)
        OK_TO_ADD_OR_REPLACE).1 := by
  rw [rename_index_entry_at, hold]
  rfl

theorem trims_before_rename (istate : index_state) (nr : Nat) (old : cache_entry) :
    Trims (fun _ => True) (istate.invalidate_path old.name) (before_rename istate nr old) :=
  trims_remove_at _ _

/-! ## Operations and their log -/

inductive op where
  | add (ce : cache_entry) (option : add_option)
  | remove_file (path : Bytes)
  | rename (nr : Nat) (new_name : Bytes)
  | remove_marked
  | replace (nr : Nat) (ce : cache_entry)

def apply_op (istate : index_state) : op → index_state
  | .add ce option => (add_index_entry istate ce option).1
  | .remove_file path => remove_file_from_index istate path
  | .rename nr new_name => rename_index_entry_at istate nr new_name
  | .remove_marked => remove_marked_cache_entries istate
  | .replace nr ce => replace_index_entry istate nr ce

/-- What the callers promise: entries whose flags tell the length of their
name, names below CE_NAMEMASK, places in the array, and a replacement with
the name and the stage of what it replaces. -/
def Admits (istate : index_state) : op → Prop
  | .add ce option => Named ce ∧ ce.name.length < 0x0fff ∧ option.just_append = false
  | .remove_file path => path.length < 0x0fff
  | .rename nr new_name => nr < istate.cache_nr ∧ new_name.length < 0x0fff
  | .remove_marked => True
  | .replace nr ce => ∃ old, istate.cache[nr]? = some old ∧ SameKey ce old

/-- `add_index_entry` puts `ce` into the index: it succeeds, and it is not
held back by NEW_ONLY. -/
def puts (istate : index_state) (ce : cache_entry) (option : add_option) : Bool :=
  (add_index_entry istate ce option).2 &&
    !(option.new_only && istate.cache.any (fun e => decide (e.key = ce.key)))

/-- The name and the stage of the entry that an operation adds. -/
def added (istate : index_state) : op → List (Bytes × Nat)
  | .add ce option => if puts istate ce option then [(ce.name, ce_stage ce)] else []
  | .rename nr new_name =>
    match istate.cache[nr]? with
    | none => []
    | some old =>
      if puts (before_rename istate nr old) (renamed old new_name) OK_TO_ADD_OR_REPLACE then
        [(new_name, ce_stage old)]
      else []
  | _ => []

/-- An index, and the names and stages that were added, the last one first. -/
structure history where
  istate : index_state
  log : List (Bytes × Nat)

def history.step (h : history) (o : op) : history :=
  ⟨apply_op h.istate o, added h.istate o ++ h.log⟩

/-- An unmerged entry of `name` was added after the last merged one. -/
def UnmergedSince (log : List (Bytes × Nat)) (name : Bytes) : Prop :=
  ∃ s ≠ 0, (name, s) ∈ log.takeWhile (· ≠ (name, 0))

/-- A merged entry and an unmerged one of one name are never together,
unless an unmerged one was added after the merged one. -/
def MergedAlone (h : history) : Prop :=
  ∀ a ∈ h.istate.cache, ∀ b ∈ h.istate.cache, a.name = b.name → ce_stage a = 0 →
    ce_stage b ≠ 0 → UnmergedSince h.log a.name

/-! ## One step -/

/-- An ordered index with names below CE_NAMEMASK. -/
structure Sound (istate : index_state) : Prop extends Ordered istate where
  short : ∀ e ∈ istate.cache, e.name.length < 0x0fff

theorem Sound.invalidate_path {istate : index_state} (h : Sound istate) (path : Bytes) :
    Sound (istate.invalidate_path path) := ⟨h.toOrdered.invalidate_path path, h.short⟩

theorem Trims.sound {P : cache_entry → Prop} {istate istate' : index_state}
    (ht : Trims P istate istate') (h : Sound istate) : Sound istate' :=
  ⟨ht.ordered h.toOrdered, fun e he => h.short e (ht.sublist.subset he)⟩

theorem sound_add {istate : index_state} {ce : cache_entry} {option : add_option}
    (h : Sound istate) (hc : Named ce) (hs : ce.name.length < 0x0fff)
    (hj : option.just_append = false) : Sound (add_index_entry istate ce option).1 := by
  have ha := add_index_entry_adds h.toOrdered hc hj
  refine ⟨ha.ordered h.toOrdered hc, ?_⟩
  intro e he
  rcases ha.mem e he with he | he
  · exact h.short e he
  · rwa [he.1]

theorem before_rename_sound {istate : index_state} (h : Sound istate) (nr : Nat)
    (old : cache_entry) : Sound (before_rename istate nr old) :=
  (trims_before_rename istate nr old).sound (h.invalidate_path _)

theorem split_at {α : Type*} {l : List α} {n : Nat} {x : α} (h : l[n]? = some x) :
    l = l.take n ++ x :: l.drop (n + 1) ∧ (l.take n).length = n := by
  obtain ⟨hn, rfl⟩ := List.getElem?_eq_some_iff.mp h
  rw [← List.drop_eq_getElem_cons hn, List.take_append_drop, List.length_take]
  exact ⟨rfl, Nat.min_eq_left hn.le⟩

theorem replace_mem {istate : index_state} {nr : Nat} {ce : cache_entry} :
    ∀ e ∈ (replace_index_entry istate nr ce).cache, e ∈ istate.cache ∨ SameKey e ce := by
  intro e he
  rcases List.mem_or_eq_of_mem_set he with he | rfl
  · exact Or.inl he
  · exact Or.inr (add_name_hash_key _ _)

theorem sound_replace {istate : index_state} {nr : Nat} {ce old : cache_entry}
    (h : Sound istate) (hold : istate.cache[nr]? = some old) (hk : SameKey ce old) :
    Sound (replace_index_entry istate nr ce) := by
  obtain ⟨hsplit, hlen⟩ := split_at hold
  have hmem := List.mem_of_getElem? hold
  constructor
  · have := h.toOrdered.replace hsplit hk.key (hk.named.mpr (h.named old hmem))
    rwa [hlen] at this
  · intro e he
    rcases replace_mem e he with he | he
    · exact h.short e he
    · rw [he.1, hk.1]
      exact h.short old hmem

/-- Every operation keeps the order. -/
theorem sound_step {istate : index_state} (h : Sound istate) (o : op) (ho : Admits istate o) :
    Sound (apply_op istate o) := by
  cases o with
  | add ce option => exact sound_add h ho.1 ho.2.1 ho.2.2
  | remove_file path => exact (trims_remove_file istate path).sound (h.invalidate_path path)
  | rename nr new_name =>
    obtain ⟨hnr, hs⟩ := ho
    have hold := List.getElem?_eq_getElem hnr
    simp only [apply_op]
    rw [rename_eq new_name hold]
    exact sound_add (before_rename_sound h _ _) (renamed_named _ _) hs rfl
  | remove_marked =>
    have hsub : (remove_marked_cache_entries istate).cache.Sublist istate.cache :=
      List.filter_sublist
    exact ⟨⟨h.ascends.sublist hsub, fun e he => h.named e (hsub.subset he)⟩,
      fun e he => h.short e (hsub.subset he)⟩
  | replace nr ce =>
    obtain ⟨old, hold, hk⟩ := ho
    exact sound_replace h hold hk

/-! ## Merged entries beside unmerged ones -/

theorem unmergedSince_cons (log : List (Bytes × Nat)) (name : Bytes) {s : Nat} (hs : s ≠ 0) :
    UnmergedSince ((name, s) :: log) name := by
  refine ⟨s, hs, ?_⟩
  rw [List.takeWhile_cons_of_pos (by simpa using hs)]
  exact List.mem_cons_self

theorem UnmergedSince.cons {log : List (Bytes × Nat)} {name n : Bytes} {s : Nat}
    (h : UnmergedSince log name) (hn : n ≠ name) : UnmergedSince ((n, s) :: log) name := by
  obtain ⟨s', hs', hm⟩ := h
  refine ⟨s', hs', ?_⟩
  rw [List.takeWhile_cons_of_pos (by simp [hn])]
  exact List.mem_cons_of_mem _ hm

/-- No entry came in: the log still answers for those that are there. -/
theorem MergedAlone.fewer {istate istate' : index_state} {log : List (Bytes × Nat)}
    (h : MergedAlone ⟨istate, log⟩)
    (hsub : ∀ e ∈ istate'.cache, ∃ e' ∈ istate.cache, SameKey e e') :
    MergedAlone ⟨istate', log⟩ := by
  intro a ha b hb hab hsa hsb
  obtain ⟨a', ha', hka⟩ := hsub a ha
  obtain ⟨b', hb', hkb⟩ := hsub b hb
  have := h a' ha' b' hb' (by rw [← hka.1, ← hkb.1, hab]) (hka.stage ▸ hsa) (hkb.stage ▸ hsb)
  rwa [← hka.1] at this

theorem MergedAlone.trims {P : cache_entry → Prop} {istate istate' : index_state}
    {log : List (Bytes × Nat)} (h : MergedAlone ⟨istate, log⟩) (ht : Trims P istate istate') :
    MergedAlone ⟨istate', log⟩ :=
  h.fewer fun e he => ⟨e, ht.sublist.subset he, rfl, rfl, rfl⟩

/-- An entry came in; a merged one found no unmerged ones of its name. -/
theorem MergedAlone.put {istate istate' : index_state} {log : List (Bytes × Nat)}
    {ce : cache_entry} (h : MergedAlone ⟨istate, log⟩)
    (hmem : ∀ e ∈ istate'.cache, e ∈ istate.cache ∨ SameKey e ce)
    (halone : ce_stage ce = 0 → ∀ e ∈ istate'.cache, e.name = ce.name → ce_stage e = 0) :
    MergedAlone ⟨istate', (ce.name, ce_stage ce) :: log⟩ := by
  intro a ha b hb hab hsa hsb
  by_cases hn : ce.name = a.name
  · have hs : ce_stage ce ≠ 0 := fun h0 => hsb (halone h0 b hb (by rw [← hab, hn]))
    rw [← hn]
    exact unmergedSince_cons _ _ hs
  · have hold : ∀ e ∈ istate'.cache, e.name = a.name → e ∈ istate.cache := by
      intro e he hea
      rcases hmem e he with he | hk
      · exact he
      · exact absurd (hk.1.symm.trans hea) hn
    exact (h a (hold a ha rfl) b (hold b hb hab.symm) hab hsa hsb).cons hn

/-- The addition does not put a merged entry over one of its name while
unmerged entries of that name are in the index. -/
def ReplacesAlone (istate : index_state) (ce : cache_entry) (option : add_option) : Prop :=
  ce_stage ce = 0 → option.new_only = false →
    (∃ e ∈ istate.cache, e.name = ce.name ∧ ce_stage e = 0) →
    ∀ e ∈ istate.cache, e.name = ce.name → ce_stage e = 0

theorem merged_add {istate : index_state} {log : List (Bytes × Nat)} {ce : cache_entry}
    {option : add_option} (hm : MergedAlone ⟨istate, log⟩) (h : Sound istate) (hc : Named ce)
    (hs : ce.name.length < 0x0fff) (hj : option.just_append = false)
    (halone : ReplacesAlone istate ce option) :
    MergedAlone ⟨(add_index_entry istate ce option).1,
      (if puts istate ce option then [(ce.name, ce_stage ce)] else []) ++ log⟩ := by
  unfold puts
  have ha := add_index_entry_adds h.toOrdered hc hj
  have hmem := ha.mem
  generalize add_index_entry istate ce option = r at *
  cases ha with
  | kept old hold hkey hnew =>
    have hany : istate.cache.any (fun e => decide (e.key = ce.key)) = true :=
      List.any_eq_true.mpr ⟨old, hold, by simpa using hkey⟩
    simp only [hnew, hany, Bool.and_self, Bool.not_true, Bool.and_false, Bool.false_eq_true, if_false,
      List.nil_append]
    exact hm
  | replaced pre post old hcache hkey hnew =>
    simp only [hnew, Bool.false_and, Bool.not_false, Bool.and_true, if_true]
    refine hm.put hmem ?_
    intro h0 e he hen
    have hmo : old ∈ istate.cache := by simp [hcache]
    have hold := (key_eq_iff (h.named old hmo) hc (h.short old hmo)).mp hkey
    rcases hmem e he with he | hk
    · exact halone h0 hnew ⟨old, hmo, hold.1, hold.2.trans h0⟩ e he hen
    · exact hk.stage.trans h0
  | refused istate' hno htrims =>
    simp only [Bool.false_and, Bool.false_eq_true, if_false, List.nil_append]
    have hm' : MergedAlone ⟨istate.invalidate_path ce.name, log⟩ := hm
    exact hm'.trims htrims
  | inserted istate' pre post hno htrims hcache hpre hpost hmerged =>
    have hany : istate.cache.any (fun e => decide (e.key = ce.key)) = false := by
      rw [List.any_eq_false]
      exact fun e he => by simpa using hno e he
    simp only [hany, Bool.and_false, Bool.not_false, Bool.and_true, if_true]
    refine hm.put hmem ?_
    intro h0 e he hen
    rcases List.mem_append.mp he with he | he
    · exact absurd hen (hmerged hs h0 e (by simp [hcache, he]))
    · rcases List.mem_cons.mp he with rfl | he
      · exact (add_name_hash_key istate' ce).stage.trans h0
      · exact absurd hen (hmerged hs h0 e (by simp [hcache, he]))

/-- The condition on the additions that an operation makes. -/
def AddsAlone (istate : index_state) : op → Prop
  | .add ce option => ReplacesAlone istate ce option
  | .rename nr new_name => ∀ old, istate.cache[nr]? = some old →
      ReplacesAlone (before_rename istate nr old) (renamed old new_name) OK_TO_ADD_OR_REPLACE
  | _ => True

theorem merged_step {h : history} (hs : Sound h.istate) (hm : MergedAlone h) (o : op)
    (ho : Admits h.istate o) (hal : AddsAlone h.istate o) : MergedAlone (h.step o) := by
  obtain ⟨istate, log⟩ := h
  cases o with
  | add ce option => exact merged_add hm hs ho.1 ho.2.1 ho.2.2 hal
  | remove_file path =>
    have hm' : MergedAlone ⟨istate.invalidate_path path, log⟩ := hm
    exact hm'.trims (trims_remove_file istate path)
  | rename nr new_name =>
    obtain ⟨hnr, hlen⟩ := ho
    have hold := List.getElem?_eq_getElem hnr
    have hm0 : MergedAlone ⟨istate.invalidate_path istate.cache[nr].name, log⟩ := hm
    have hm' := hm0.trims (trims_before_rename istate nr istate.cache[nr])
    have := merged_add hm' (before_rename_sound hs nr _) (renamed_named _ new_name) hlen rfl
      (hal _ hold)
    rw [renamed_stage] at this
    simp only [history.step, apply_op, added, hold, rename_eq new_name hold]
    exact this
  | remove_marked =>
    exact hm.fewer fun e he => ⟨e, (List.mem_filter.mp he).1, rfl, rfl, rfl⟩
  | replace nr ce =>
    obtain ⟨old, hold, hk⟩ := ho
    refine hm.fewer ?_
    intro e he
    rcases replace_mem e he with he | he
    · exact ⟨e, he, rfl, rfl, rfl⟩
    · exact ⟨old, List.mem_of_getElem? hold, he.1.trans hk.1, he.2.1.trans hk.2.1,
        he.2.2.trans hk.2.2⟩

/-! ## Runs -/

/-- Strictly sorted under `cache_name_compare`, by name and then by stage. -/
def Sorted (istate : index_state) : Prop :=
  istate.cache.Pairwise (fun a b =>
    cache_name_compare a.name a.ce_flags b.name b.ce_flags = .lt ∧
      (a.name < b.name ∨ a.name = b.name ∧ ce_stage a < ce_stage b))

/-- At most one entry for each name and stage. -/
def OneEach (istate : index_state) : Prop :=
  ∀ i j (hi : i < istate.cache.length) (hj : j < istate.cache.length),
    istate.cache[i].name = istate.cache[j].name →
    ce_stage istate.cache[i] = ce_stage istate.cache[j] → i = j

theorem Sound.sorted {istate : index_state} (h : Sound istate) : Sorted istate := by
  refine List.Pairwise.imp_of_mem ?_ h.ascends
  intro a b ha hb hab
  have hna := h.named a ha
  have hnb := h.named b hb
  constructor
  · exact (cache_name_compare_compares a.name a.ce_flags b.name b.ce_flags hna.mask_le
      hnb.mask_le).eq_lt.mpr hab
  · rw [hna.key, hnb.key, Prod.Lex.toLex_lt_toLex, List.take_of_length_le (h.short a ha).le,
      List.take_of_length_le (h.short b hb).le] at hab
    rcases hab with hn | ⟨hn, hst⟩
    · exact Or.inl hn
    · exact Or.inr ⟨hn, by simpa using hst⟩

theorem Sound.one_each {istate : index_state} (h : Sound istate) : OneEach istate := by
  intro i j hi hj hn hst
  have hmi := List.getElem_mem hi
  have hmj := List.getElem_mem hj
  have hk := (key_eq_iff (h.named _ hmi) (h.named _ hmj) (h.short _ hmi)).mpr ⟨hn, hst⟩
  rcases Nat.lt_trichotomy i j with hij | hij | hij
  · exact absurd hk (h.ascends.lt hij hi hj).ne
  · exact hij
  · exact absurd hk (h.ascends.lt hij hj hi).ne'

theorem Run.sound {h h' : history}
    (hrun : Run history.step (fun h o => Admits h.istate o) h h') (hs : Sound h.istate) :
    Sound h'.istate :=
  hrun.keeps (fun h => Sound h.istate) (fun _ o hs ho => sound_step hs o ho) hs

/-- Every run keeps the order. Where no merged entry is put over one of its
name while unmerged entries of that name are there, merged entries stand
alone but for the unmerged ones that came later. -/
theorem an_index_stays_sorted_and_merged_entries_stand_alone {h h' : history}
    (hs : Sound h.istate) (hm : MergedAlone h) :
    (Run history.step (fun h o => Admits h.istate o) h h' →
      Sorted h'.istate ∧ OneEach h'.istate) ∧
    (Run history.step (fun h o => Admits h.istate o ∧ AddsAlone h.istate o) h h' →
      Sorted h'.istate ∧ OneEach h'.istate ∧ MergedAlone h') := by
  constructor
  · intro hrun
    have := Run.sound hrun hs
    exact ⟨this.sorted, this.one_each⟩
  · intro hrun
    have hboth : Sound h'.istate ∧ MergedAlone h' :=
      hrun.keeps (fun h => Sound h.istate ∧ MergedAlone h)
        (fun _ o hh ho => ⟨sound_step hh.1 o ho.1, merged_step hh.1 hh.2 o ho.1 ho.2⟩) ⟨hs, hm⟩
    exact ⟨hboth.1.sorted, hboth.1.one_each, hboth.2⟩

/-- File `a` at a stage. -/
def file_a (stage : Nat) : cache_entry :=
  new_entry 0o100644 (Vector.replicate 20 0) [97] stage

/-- File `a/b` at a stage. -/
def file_a_b (stage : Nat) : cache_entry :=
  new_entry 0o100644 (Vector.replicate 20 0) [97, SLASH, 98] stage

/-- An index of entries. -/
def index_of (cache : List cache_entry) : index_state := { index_state.empty with cache := cache }

def add_file_a (stage : Nat) : op := .add (file_a stage) OK_TO_ADD_OR_REPLACE

/-- `a` is added merged, and then at stage 1. -/
def two_adds : history :=
  ((⟨index_state.empty, []⟩ : history).step (add_file_a 0)).step (add_file_a 1)

theorem empty_sound : Sound index_state.empty :=
  ⟨⟨List.Pairwise.nil, by simp [index_state.empty]⟩, by simp [index_state.empty]⟩

theorem empty_merged_alone (log : List (Bytes × Nat)) : MergedAlone ⟨index_state.empty, log⟩ := by
  intro a ha
  simp [index_state.empty] at ha

theorem admits_file_a (istate : index_state) {stage : Nat} (hs : stage < 4) :
    Admits istate (add_file_a stage) :=
  ⟨new_entry_named _ _ _ hs, by simp [file_a, new_entry], rfl⟩

theorem two_adds_stay_sorted_and_alone :
    Sorted two_adds.istate ∧ OneEach two_adds.istate ∧ MergedAlone two_adds := by
  refine (an_index_stays_sorted_and_merged_entries_stand_alone empty_sound
    (empty_merged_alone [])).2 ?_
  have h0 : Run history.step (fun h o => Admits h.istate o ∧ AddsAlone h.istate o)
      ⟨index_state.empty, []⟩ ⟨index_state.empty, []⟩ := Run.refl
  refine (h0.then (o := add_file_a 0) ⟨admits_file_a _ (by decide), ?_⟩).then
    (o := add_file_a 1) ⟨admits_file_a _ (by decide), ?_⟩
  · intro _ _ ⟨e, he, _⟩
    simp [index_state.empty] at he
  · intro h1
    exact absurd h1 (by decide)

/-- The third addition replaces the merged entry in its place, and the entry
at stage 1 stays beside it. -/
theorem a_merged_entry_put_over_one_keeps_the_unmerged_ones :
    ∃ h h' : history, Sound h.istate ∧ MergedAlone h ∧
      Run history.step (fun h o => Admits h.istate o) h h' ∧ ¬ MergedAlone h' := by
  refine ⟨⟨index_state.empty, []⟩, two_adds.step (add_file_a 0), empty_sound,
    empty_merged_alone _, ?_, ?_⟩
  · have h0 : Run history.step (fun h o => Admits h.istate o) ⟨index_state.empty, []⟩
        ⟨index_state.empty, []⟩ := Run.refl
    have h1 := h0.then (o := add_file_a 0) (admits_file_a _ (by decide))
    have h2 := h1.then (o := add_file_a 1) (admits_file_a _ (by decide))
    exact h2.then (o := add_file_a 0) (admits_file_a _ (by decide))
  · intro hm
    have hc : (two_adds.step (add_file_a 0)).istate.cache = [file_a 0, file_a 1] := by
      decide
    have hl : (two_adds.step (add_file_a 0)).log = [([97], 0), ([97], 1), ([97], 0)] := by
      decide
    have := hm (file_a 0) (by simp [hc]) (file_a 1) (by simp [hc]) rfl (by decide) (by decide)
    rw [UnmergedSince, hl] at this
    simp [file_a, new_entry] at this

end git
