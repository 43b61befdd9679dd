-- Entries that come into the index and leave it, with lookups between: while each of them fits
-- when it is hashed, every lookup ends and finds what is there.
import Git.NameHashLaws
import Git.Lib.Runs

open git.hashes runs threads

namespace git.index_names

/-! ## The operations -/

inductive operation where
  /-- A place is made for the entry, and `set_index_entry`. -/
  | add_index_entry (pos : Nat) (ce : address)
  | remove_index_entry_at (pos : Nat)
  | index_name_exists (name : Bytes) (icase : Bool)

section

variable (entry : address → named_entry) (ignore_case : Bool)

def step (istate : index_state) : operation → index_state
  | .add_index_entry pos ce =>
    let istate' := { istate with cache := istate.cache.take pos ++ ce :: istate.cache.drop pos }
    (add_name_hash entry ignore_case ce istate').getD istate'
  | .remove_index_entry_at pos =>
    match istate.cache[pos]? with
    | none => istate
    | some ce => { remove_name_hash ce istate with cache := istate.cache.eraseIdx pos }
  | .index_name_exists _ _ => (lazy_init_name_hash entry ignore_case istate).getD istate

/-- The entries fit one after the other. -/
def FitAll : List address → index_state → Prop
  | [], _ => True
  | ce :: rest, istate =>
    (ce ∉ hashed istate → Fits entry ignore_case istate ce) ∧
      ∀ istate', hash_index_entry entry ignore_case ce istate = some istate' → FitAll rest istate'

/-- An entry comes in once, and what is hashed fits. -/
def may (istate : index_state) : operation → Prop
  | .add_index_entry _ ce =>
    ce ∉ istate.cache ∧ (istate.name_hash_initialized = true → ce ∉ hashed istate →
      Fits entry ignore_case istate ce)
  | .remove_index_entry_at _ => True
  | .index_name_exists _ _ =>
    istate.name_hash_initialized = false → FitAll entry ignore_case istate.cache istate

/-! ## What every run keeps -/

/-- The entries that are hashed are those of the index, and some that were removed. -/
structure Kept (istate : index_state) : Prop where
  linked : ∃ f, Linked entry ignore_case istate f
  live : ∀ ce ∈ istate.cache, (istate.links ce).CE_UNHASHED = false
  removed : ∀ ce ∈ hashed istate, (istate.links ce).CE_UNHASHED = false → ce ∈ istate.cache
  nodup : istate.cache.Nodup

/-- When the names are in the hash, all of them are. -/
structure Good (istate : index_state) : Prop extends Kept entry ignore_case istate where
  all : istate.name_hash_initialized = true → ∀ ce ∈ istate.cache, ce ∈ hashed istate

variable {entry ignore_case}

theorem no_names_good : Good entry ignore_case no_names where
  linked := by
    have hnodes : hashed no_names = ∅ := Set.eq_empty_of_forall_notMem fun _ h => nomatch h
    refine ⟨fun _ => none, init_hash_maps, fun _ _ h => (nomatch h), ?_, ?_, ?_⟩
    · rw [hnodes]
      exact fun _ h => h.elim
    · rw [hnodes]
      exact Threaded.empty _ _
    · rw [hnodes]
      exact Threaded.empty _ _
  live _ h := nomatch h
  removed _ h := nomatch h
  nodup := List.nodup_nil
  all h := nomatch h

/-- Only the hash, the hash state and the links matter. -/
theorem Linked.congr {istate istate' : index_state} {f : UInt32 → Option address}
    (h : Linked entry ignore_case istate f) (hhash : istate'.name_hash = istate.name_hash)
    (hhashed : ∀ ce, (istate'.links ce).CE_HASHED = (istate.links ce).CE_HASHED)
    (hnext : ∀ ce, (istate'.links ce).next = (istate.links ce).next)
    (hdir_next : ∀ ce, (istate'.links ce).dir_next = (istate.links ce).dir_next) :
    Linked entry ignore_case istate' f := by
  have hnodes : hashed istate' = hashed istate := by
    unfold hashed
    simp only [hhashed]
  refine ⟨hhash ▸ h.maps, ?_, ?_, ?_, ?_⟩
  · rw [hnodes]
    exact h.head
  · rw [hnodes]
    exact h.apart
  · rw [hnodes, funext hnext]
    exact h.by_name
  · rw [hnodes, funext hdir_next]
    exact h.by_dir

/-- The flag of a removed entry is in no link. -/
theorem Linked.unhashed {istate : index_state} {f : UInt32 → Option address}
    (h : Linked entry ignore_case istate f) (cache : List address) (ce : address) (flag : Bool) :
    Linked entry ignore_case { istate with
      cache := cache
      links := Function.update istate.links ce { istate.links ce with CE_UNHASHED := flag } } f :=
  h.congr rfl
    (fun d => by by_cases hd : d = ce <;> simp [hd])
    (fun d => by by_cases hd : d = ce <;> simp [hd])
    fun d => by by_cases hd : d = ce <;> simp [hd]

/-- An entry of the index is hashed. -/
theorem Kept.hash {istate : index_state} {ce : address} (h : Kept entry ignore_case istate)
    (hmem : ce ∈ istate.cache) (hfits : ce ∉ hashed istate → Fits entry ignore_case istate ce) :
    ∃ istate', hash_index_entry entry ignore_case ce istate = some istate' ∧
      istate'.cache = istate.cache ∧
      istate'.name_hash_initialized = istate.name_hash_initialized ∧
      hashed istate' = insert ce (hashed istate) ∧ Kept entry ignore_case istate' := by
  by_cases hin : ce ∈ hashed istate
  · have hsame : hash_index_entry entry ignore_case ce istate = some istate := if_pos hin
    exact ⟨istate, hsame, rfl, rfl, (Set.insert_eq_of_mem hin).symm, h⟩
  · obtain ⟨f, hf⟩ := h.linked
    obtain ⟨istate', hrun, hcache, hinit, hflags, hgrown, hlinked⟩ := hf.hash (hfits hin) hin
    refine ⟨istate', hrun, hcache, hinit, hgrown, hlinked, ?_, ?_, ?_⟩
    · intro d hd
      rw [hflags]
      exact h.live d (hcache ▸ hd)
    · intro d hd hclear
      rw [hflags] at hclear
      rw [hcache]
      rw [hgrown] at hd
      rcases hd with rfl | hd
      · exact hmem
      · exact h.removed d hd hclear
    · rw [hcache]
      exact h.nodup

theorem Kept.hash_all (l : List address) :
    ∀ istate : index_state, Kept entry ignore_case istate → (∀ ce ∈ l, ce ∈ istate.cache) →
      FitAll entry ignore_case l istate →
      ∃ istate', l.foldlM (fun istate ce => hash_index_entry entry ignore_case ce istate) istate =
          some istate' ∧ istate'.cache = istate.cache ∧ Kept entry ignore_case istate' ∧
        hashed istate ⊆ hashed istate' ∧ ∀ ce ∈ l, ce ∈ hashed istate' := by
  induction l with
  | nil =>
    intro istate h _ _
    exact ⟨istate, rfl, rfl, h, Set.Subset.refl _, fun _ hce => nomatch hce⟩
  | cons ce l ih =>
    intro istate h hsub hfits
    obtain ⟨istate₁, hrun₁, hcache₁, -, hgrown₁, h₁⟩ := h.hash
      (hsub ce List.mem_cons_self) hfits.1
    obtain ⟨istate₂, hrun₂, hcache₂, h₂, hgrown₂, hall₂⟩ := ih istate₁ h₁
      (fun d hd => hcache₁.symm ▸ hsub d (List.mem_cons_of_mem ce hd)) (hfits.2 istate₁ hrun₁)
    rw [hgrown₁] at hgrown₂
    refine ⟨istate₂, ?_, hcache₂.trans hcache₁, h₂, ?_, ?_⟩
    · rw [List.foldlM_cons, hrun₁]
      exact hrun₂
    · exact (Set.subset_insert ce _).trans hgrown₂
    · intro d hd
      rcases List.mem_cons.mp hd with rfl | hd
      · exact hgrown₂ (Set.mem_insert d _)
      · exact hall₂ d hd

/-- The first lookup hashes all names. -/
theorem Good.lazy_init {istate : index_state} (h : Good entry ignore_case istate)
    (hfits : istate.name_hash_initialized = false →
      FitAll entry ignore_case istate.cache istate) :
    ∃ istate', lazy_init_name_hash entry ignore_case istate = some istate' ∧
      istate'.cache = istate.cache ∧ istate'.name_hash_initialized = true ∧
      Good entry ignore_case istate' := by
  unfold lazy_init_name_hash
  cases hinit : istate.name_hash_initialized with
  | true => exact ⟨istate, if_pos rfl, rfl, hinit, h⟩
  | false =>
    obtain ⟨istate', hrun, hcache, hkept, -, hall⟩ := Kept.hash_all istate.cache istate h.toKept
      (fun _ hce => hce) (hfits hinit)
    refine ⟨{ istate' with name_hash_initialized := true }, ?_, hcache, rfl, ?_⟩
    · rw [if_neg Bool.false_ne_true, hrun]
      rfl
    · obtain ⟨f, hf⟩ := hkept.linked
      refine ⟨⟨⟨f, hf.congr rfl (fun _ => rfl) (fun _ => rfl) fun _ => rfl⟩, hkept.live,
        hkept.removed, hkept.nodup⟩, fun _ ce hce => ?_⟩
      exact hall ce (hcache ▸ hce)

/-! ## A step -/

theorem mem_placed {cache : List address} (pos : Nat) {ce d : address} :
    d ∈ cache.take pos ++ ce :: cache.drop pos ↔ d = ce ∨ d ∈ cache := by
  rw [List.perm_middle.mem_iff, List.mem_cons, List.take_append_drop]

theorem Good.add {istate : index_state} (h : Good entry ignore_case istate) (pos : Nat)
    {ce : address} (hce : ce ∉ istate.cache)
    (hfits : istate.name_hash_initialized = true → ce ∉ hashed istate →
      Fits entry ignore_case istate ce) :
    ∃ istate', add_name_hash entry ignore_case ce
        { istate with cache := istate.cache.take pos ++ ce :: istate.cache.drop pos } =
      some istate' ∧ Good entry ignore_case istate' := by
  have hkept : Kept entry ignore_case { istate with
      cache := istate.cache.take pos ++ ce :: istate.cache.drop pos
      links := Function.update istate.links ce
        { istate.links ce with CE_UNHASHED := false } } := by
    refine ⟨?_, ?_, ?_, ?_⟩
    · obtain ⟨f, hf⟩ := h.linked
      exact ⟨f, hf.unhashed _ ce false⟩
    · intro d hd
      by_cases heq : d = ce
      · simp [heq]
      · have hold := h.live d (((mem_placed pos).mp hd).resolve_left heq)
        simpa [heq] using hold
    · intro d hd hclear
      refine (mem_placed pos).mpr ?_
      by_cases heq : d = ce
      · exact Or.inl heq
      · simp only [hashed, Set.mem_ofPred_eq, Function.update_of_ne heq] at hd hclear
        exact Or.inr (h.removed d hd hclear)
    · rw [List.perm_middle.nodup_iff, List.nodup_cons, List.take_append_drop]
      exact ⟨hce, h.nodup⟩
  have hsame : hashed { istate with
      cache := istate.cache.take pos ++ ce :: istate.cache.drop pos
      links := Function.update istate.links ce
        { istate.links ce with CE_UNHASHED := false } } = hashed istate := by
    ext d
    by_cases hd : d = ce <;> simp [hashed, hd]
  unfold add_name_hash
  simp only
  cases hinit : istate.name_hash_initialized with
  | false =>
    rw [if_neg Bool.false_ne_true]
    rw [hinit] at hkept
    exact ⟨_, rfl, hkept, fun htrue => nomatch htrue⟩
  | true =>
    rw [if_pos rfl]
    rw [hinit] at hkept hsame
    obtain ⟨istate', hrun, hcache, -, hgrown, hkept'⟩ := hkept.hash
      ((mem_placed pos).mpr (Or.inl rfl)) fun hnew => by
        have hfit := hfits hinit (hsame ▸ hnew)
        exact ⟨hfit.room, hfit.distinct, hfit.by_name, hfit.by_dir, hfit.one_link⟩
    refine ⟨istate', hrun, hkept', fun _ d hd => ?_⟩
    rw [hcache] at hd
    rw [hgrown, hsame]
    rcases (mem_placed pos).mp hd with rfl | hd
    · exact Set.mem_insert d _
    · exact Set.mem_insert_of_mem ce (h.all hinit d hd)

theorem Good.remove {istate : index_state} (h : Good entry ignore_case istate) {pos : Nat}
    {ce : address} (hce : istate.cache[pos]? = some ce) :
    Good entry ignore_case
      { remove_name_hash ce istate with cache := istate.cache.eraseIdx pos } := by
  obtain ⟨hpos, hget⟩ := List.getElem?_eq_some_iff.mp hce
  have hsplit : istate.cache.Perm (ce :: istate.cache.eraseIdx pos) := by
    rw [← hget]
    exact (List.getElem_cons_eraseIdx_perm hpos).symm
  obtain ⟨hnot, hnodup⟩ := List.nodup_cons.mp (hsplit.nodup_iff.mp h.nodup)
  have hne : ∀ d ∈ istate.cache.eraseIdx pos, d ≠ ce := fun d hd heq => hnot (heq ▸ hd)
  refine ⟨⟨?_, ?_, ?_, hnodup⟩, ?_⟩
  · obtain ⟨f, hf⟩ := h.linked
    exact ⟨f, hf.unhashed _ ce true⟩
  · intro d hd
    have hold := h.live d (hsplit.mem_iff.mpr (List.mem_cons_of_mem ce hd))
    simpa [remove_name_hash, hne d hd] using hold
  · intro d hd hclear
    by_cases heq : d = ce
    · simp [remove_name_hash, heq] at hclear
    · simp only [hashed, remove_name_hash, Set.mem_ofPred_eq, Function.update_of_ne heq]
        at hd hclear
      exact (List.mem_cons.mp (hsplit.mem_iff.mp (h.removed d hd hclear))).resolve_left heq
  · intro hinit d hd
    have hold := h.all hinit d (hsplit.mem_iff.mpr (List.mem_cons_of_mem ce hd))
    simpa [hashed, remove_name_hash, hne d hd] using hold

theorem step_good (istate : index_state) (o : operation) (h : Good entry ignore_case istate)
    (ho : may entry ignore_case istate o) :
    Good entry ignore_case (step entry ignore_case istate o) := by
  cases o with
  | add_index_entry pos ce =>
    obtain ⟨istate', hrun, hgood⟩ := h.add pos ho.1 ho.2
    simp only [step, hrun, Option.getD_some]
    exact hgood
  | remove_index_entry_at pos =>
    cases hce : istate.cache[pos]? with
    | none =>
      simp only [step, hce]
      exact h
    | some ce =>
      simp only [step, hce]
      exact h.remove hce
  | index_name_exists name icase =>
    obtain ⟨istate', hrun, -, -, hgood⟩ := h.lazy_init ho
    simp only [step, hrun, Option.getD_some]
    exact hgood

/-- In every state that is reached, each lookup ends, with an entry that is in the index, if
there is one to answer with. -/
theorem every_lookup_answers {istate : index_state}
    (h : Run (step entry ignore_case) (may entry ignore_case) no_names istate) (name : Bytes)
    (icase : Bool) (hmay : may entry ignore_case istate (.index_name_exists name icase))
    (hasked : Asked entry ignore_case istate.cache name icase) :
    ∃ levels istate' found,
      (∀ turns, levels ≤ turns →
        index_name_exists entry ignore_case turns istate name icase = some (istate', found)) ∧
      istate'.cache = istate.cache ∧
      (∀ ce, found = some ce → ce ∈ istate.cache ∧ Answers entry name icase ce) ∧
      (found ≠ none ↔ ∃ ce ∈ istate.cache, Answers entry name icase ce) := by
  have hgood := h.keeps (Good entry ignore_case) step_good no_names_good
  obtain ⟨istate', hrun, hcache, hinit, hgood'⟩ := hgood.lazy_init hmay
  obtain ⟨f, hf⟩ := hgood'.linked
  have hlive : Live istate' := fun ce =>
    ⟨fun hce => ⟨hgood'.all hinit ce hce, hgood'.live ce hce⟩, fun hce =>
      hgood'.removed ce hce.1 hce.2⟩
  rw [← hcache] at hasked
  obtain ⟨levels, found, hfound, hsome, hnone⟩ := hasked.name_exists hf hlive
  rw [hcache] at hsome hnone
  refine ⟨levels, istate', found, fun turns hturns => ?_, hcache, hsome, ?_, ?_⟩
  · unfold index_name_exists
    rw [hrun, Option.bind_eq_bind, Option.bind_some, hfound turns hturns]
    rfl
  · intro hne
    obtain ⟨ce, hce⟩ := Option.ne_none_iff_exists'.mp hne
    exact ⟨ce, hsome ce hce⟩
  · rintro ⟨ce, hmem, hans⟩ hempty
    exact hnone hempty ce hmem hans

end

/-! ## Three entries -/

/-- `a/b/x`, `a/c/y` and `a/b/z`. -/
def three_entries (ce : address) : named_entry :=
  match ce with
  | 0 => ⟨[97, 47, 98, 47, 120], S_IFREG, by decide⟩
  | 1 => ⟨[97, 47, 99, 47, 121], S_IFREG, by decide⟩
  | _ => ⟨[97, 47, 98, 47, 122], S_IFREG, by decide⟩

/-- The first two of them go into the hash, the last one comes after, and then the other two in
`a/b` are removed: nothing is found in `a` any more. -/
theorem a_directory_is_lost :
    ∃ istate, istate = [.index_name_exists [97] true, .add_index_entry 0 0, .add_index_entry 1 1,
        .add_index_entry 1 2, .remove_index_entry_at 0, .remove_index_entry_at 0].foldl
        (step three_entries true) no_names ∧
      istate.cache = [1] ∧ Answers three_entries [97, 47] true 1 ∧
      (index_name_exists three_entries true 3 istate [97, 47] true).map Prod.snd = some none := by
  refine ⟨_, rfl, by decide, Or.inr ⟨rfl, by decide, Or.inl ?_⟩, by decide⟩
  exact ⟨[67, 47, 89], by decide⟩

/-- One entry, and its directory. -/
theorem a_directory_is_found :
    ∃ levels istate' found,
      (∀ turns, levels ≤ turns →
        index_name_exists three_entries true turns
          (step three_entries true no_names (.add_index_entry 0 0)) [97, 47] true =
            some (istate', found)) ∧
      istate'.cache = [0] ∧
      (∀ ce, found = some ce → ce ∈ [0] ∧ Answers three_entries [97, 47] true ce) ∧
      (found ≠ none ↔ ∃ ce ∈ [0], Answers three_entries [97, 47] true ce) :=
  every_lookup_answers (Run.refl.then (o := operation.add_index_entry 0 0)
      ⟨List.not_mem_nil, fun h => nomatch h⟩) [97, 47] true
    (fun _ => ⟨fun _ => ⟨by decide, by decide, fun _ h => (nomatch h), fun _ _ _ h => (nomatch h),
      fun _ _ _ _ _ _ h => (nomatch h)⟩, fun _ _ => trivial⟩)
    ⟨by decide, by decide, fun _ _ => rfl, fun _ _ =>
      Or.inl ⟨0, List.mem_singleton.mpr rfl, [66, 47, 88], by decide⟩⟩

end git.index_names
