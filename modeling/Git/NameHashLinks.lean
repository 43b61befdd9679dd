-- What the links of the entries are when no link of an entry is needed twice: each hash leads
-- to all entries that have it, of their names or of their directories.
import Git.NameHash
import Git.Lib.Threads

open git.hashes forest threads

namespace git.index_names

variable {entry : address → named_entry} {ignore_case : Bool}

/-! ## The hashes of an entry -/

def name_key (entry : address → named_entry) (ce : address) : UInt32 := hash_name (entry ce).name

/-- Of its directories. -/
def dir_keys (entry : address → named_entry) (ignore_case : Bool) (ce : address) : List UInt32 :=
  if ignore_case then (directories [] (entry ce).name).map hash_name else []

/-- An entry can go first under all of its hashes without a link of it, or of another one, being
lost: before it is added, what is first under the hashes of its directories is one entry, its
own hashes differ, and no name has the hash of a directory. -/
structure Fits (entry : address → named_entry) (ignore_case : Bool) (istate : index_state)
    (ce : address) : Prop where
  room : istate.name_hash.nr + (dir_keys entry ignore_case ce).length < most_hashes
  distinct : (name_key entry ce :: dir_keys entry ignore_case ce).Nodup
  by_name : ∀ d, lookup_hash (name_key entry ce) istate.name_hash = some (some d) →
    name_key entry d = name_key entry ce
  by_dir : ∀ k ∈ dir_keys entry ignore_case ce, ∀ d,
    lookup_hash k istate.name_hash = some (some d) → k ∈ dir_keys entry ignore_case d
  one_link : ∀ k ∈ dir_keys entry ignore_case ce, ∀ k' ∈ dir_keys entry ignore_case ce, ∀ d d',
    lookup_hash k istate.name_hash = some (some d) →
    lookup_hash k' istate.name_hash = some (some d') → d = d'

/-! ## What adding does -/

/-- The first entries under the hashes `ks`. -/
def firsts (f : UInt32 → Option address) (ce : address) (ks : List UInt32) :
    UInt32 → Option address :=
  fun k => if k ∈ ks then some ce else f k

/-- The last of them that there was before. -/
def last_first (f : UInt32 → Option address) (ks : List UInt32) (old : Option address) :
    Option address :=
  ks.foldl (fun old k => (f k).or old) old

theorem firsts_nil (f : UInt32 → Option address) (ce : address) : firsts f ce [] = f := by
  funext k
  simp [firsts]

theorem firsts_cons (f : UInt32 → Option address) (ce : address) (k : UInt32) (ks : List UInt32) :
    firsts (Function.update f k (some ce)) ce ks = firsts f ce (k :: ks) := by
  funext j
  unfold firsts
  by_cases hks : j ∈ ks
  · rw [if_pos hks, if_pos (List.mem_cons_of_mem k hks)]
  · rw [if_neg hks]
    by_cases hk : j = k
    · rw [hk, Function.update_self, if_pos List.mem_cons_self]
    · rw [Function.update_of_ne hk, if_neg fun hmem => (List.mem_cons.mp hmem).elim hk hks]

theorem last_first_update {f : UInt32 → Option address} {ce : address} {k : UInt32}
    (ks : List UInt32) (hk : k ∉ ks) (old : Option address) :
    last_first (Function.update f k (some ce)) ks old = last_first f ks old := by
  unfold last_first
  refine List.foldl_ext _ _ old fun a j hj => ?_
  have hne : j ≠ k := fun heq => hk (heq ▸ hj)
  rw [Function.update_of_ne hne]

theorem hash_first_spec (istate : index_state) {f : UInt32 → Option address}
    (h : Maps istate.name_hash f) (hroom : istate.name_hash.nr < most_hashes)
    (link : Option address → ce_links → ce_links) (k : UInt32) (ce : address) :
    ∃ name_hash, name_hash.nr ≤ istate.name_hash.nr + 1 ∧
      Maps name_hash (Function.update f k (some ce)) ∧
      hash_first link k ce istate = some { istate with
        name_hash := name_hash
        links := Function.update istate.links ce
          (if (f k).isSome then link (f k) (istate.links ce) else istate.links ce) } := by
  unfold hash_first
  rcases h.insert_hash hroom k ce with
    ⟨hnone, t, ht, hnr, hmaps⟩ | ⟨q, t, pos, hsome, ht, hptr, hnr, hmaps⟩
  · refine ⟨t, hnr.le, hmaps, ?_⟩
    rw [ht, hnone]
    simp
  · refine ⟨_, by omega, hmaps, ?_⟩
    rw [ht, hsome, ← hptr]
    simp only [hptr, Option.isSome_some, if_true]

/-- The directories one after the other: each hash is another one. -/
theorem hash_directories_spec (ce : address) (dirs : List Bytes) :
    ∀ (istate : index_state) (f : UInt32 → Option address), Maps istate.name_hash f →
      istate.name_hash.nr + dirs.length ≤ most_hashes → (dirs.map hash_name).Nodup →
      ∃ name_hash, name_hash.nr ≤ istate.name_hash.nr + dirs.length ∧
        Maps name_hash (firsts f ce (dirs.map hash_name)) ∧
        dirs.foldlM (fun istate dir => hash_by_directory (hash_name dir) ce istate) istate =
          some { istate with
            name_hash := name_hash
            links := Function.update istate.links ce { istate.links ce with
              dir_next := last_first f (dirs.map hash_name) (istate.links ce).dir_next } } := by
  induction dirs with
  | nil =>
    intro istate f h _ _
    refine ⟨istate.name_hash, le_refl _, ?_, ?_⟩
    · rw [List.map_nil, firsts_nil]
      exact h
    · simp [last_first]
  | cons dir dirs ih =>
    intro istate f h hroom hnodup
    rw [List.map_cons, List.nodup_cons] at hnodup
    rw [List.length_cons] at hroom
    obtain ⟨t₁, hnr₁, hmaps₁, hfirst⟩ := hash_first_spec istate h (by omega)
      (fun first l => { l with dir_next := first }) (hash_name dir) ce
    have hrest := ih { istate with
      name_hash := t₁
      links := Function.update istate.links ce
        (if (f (hash_name dir)).isSome then
          { istate.links ce with dir_next := f (hash_name dir) } else istate.links ce) }
      _ hmaps₁ (by simp only; omega) hnodup.2
    obtain ⟨t, hnr, hmaps, hfold⟩ := hrest
    simp only at hnr
    refine ⟨t, ?_, ?_, ?_⟩
    · rw [List.length_cons]
      omega
    · rw [List.map_cons, ← firsts_cons]
      exact hmaps
    · rw [List.foldlM_cons, hash_by_directory, hfirst, List.map_cons]
      refine hfold.trans ?_
      simp only [Function.update_idem, Function.update_self, last_first_update _ hnodup.1]
      cases hf : f (hash_name dir) with
      | none => simp [last_first, hf]
      | some d => simp [last_first, hf]

theorem hash_index_entry_spec {istate : index_state} {f : UInt32 → Option address} {ce : address}
    (h : Maps istate.name_hash f) (hfits : Fits entry ignore_case istate ce)
    (hnew : (istate.links ce).CE_HASHED = false) :
    ∃ name_hash,
      Maps name_hash (firsts f ce (name_key entry ce :: dir_keys entry ignore_case ce)) ∧
      hash_index_entry entry ignore_case ce istate = some { istate with
        name_hash := name_hash
        links := Function.update istate.links ce
          { CE_HASHED := true
            CE_UNHASHED := (istate.links ce).CE_UNHASHED
            next := f (name_key entry ce)
            dir_next := last_first f (dir_keys entry ignore_case ce) none } } := by
  have hroom := hfits.room
  obtain ⟨hnot, hnodup⟩ := List.nodup_cons.mp hfits.distinct
  obtain ⟨t₁, hnr₁, hmaps₁, hfirst⟩ := hash_first_spec
    { istate with
      links := Function.update istate.links ce
        { istate.links ce with CE_HASHED := true, next := none, dir_next := none } }
    h (by simp only; omega) (fun first l => { l with next := first }) (name_key entry ce) ce
  simp only [Function.update_idem, Function.update_self] at hfirst
  have hnext : (if (f (name_key entry ce)).isSome then
      ({ istate.links ce with
        CE_HASHED := true, next := f (name_key entry ce), dir_next := none } : ce_links)
      else { istate.links ce with CE_HASHED := true, next := none, dir_next := none }) =
      { istate.links ce with
        CE_HASHED := true, next := f (name_key entry ce), dir_next := none } := by
    cases f (name_key entry ce) with
    | none => rfl
    | some d => rfl
  rw [hnext] at hfirst
  unfold hash_index_entry
  rw [if_neg (Bool.eq_false_iff.mp hnew)]
  cases ignore_case with
  | false =>
    refine ⟨t₁, ?_, ?_⟩
    · rw [dir_keys, if_neg Bool.false_ne_true, ← firsts_cons, firsts_nil]
      exact hmaps₁
    · unfold name_key at hfirst
      simp only [hash_by_name, hfirst]
      rfl
  | true =>
    have hkeys : dir_keys entry true ce = (directories [] (entry ce).name).map hash_name := rfl
    rw [hkeys] at hnot hnodup hroom ⊢
    rw [List.length_map] at hroom
    obtain ⟨t, -, hmaps, hdirs⟩ := hash_directories_spec ce (directories [] (entry ce).name)
      { istate with
        name_hash := t₁
        links := Function.update istate.links ce { istate.links ce with
          CE_HASHED := true, next := f (name_key entry ce), dir_next := none } }
      _ hmaps₁ (by simp only at hnr₁ ⊢; omega) hnodup
    simp only [Function.update_idem, Function.update_self, last_first_update _ hnot] at hdirs
    refine ⟨t, ?_, ?_⟩
    · rw [← firsts_cons]
      exact hmaps
    · unfold name_key at hfirst hdirs ⊢
      simp only [hash_by_name, hfirst]
      exact hdirs

/-! ## What the links lead to -/

/-- The entries that are in the hash, removed ones too. -/
def hashed (istate : index_state) : Set address := {ce | (istate.links ce).CE_HASHED = true}

/-- Under each hash of a name are all entries with that name, and under each hash of a
directory all entries that are in it. -/
structure Linked (entry : address → named_entry) (ignore_case : Bool) (istate : index_state)
    (f : UInt32 → Option address) : Prop where
  maps : Maps istate.name_hash f
  head : ∀ k d, f k = some d → d ∈ hashed istate ∧
    k ∈ name_key entry d :: dir_keys entry ignore_case d
  apart : ∀ d ∈ hashed istate, ∀ d' ∈ hashed istate,
    name_key entry d ∉ dir_keys entry ignore_case d'
  by_name : Threaded (fun d => (istate.links d).next) f (hashed istate)
    fun d => {k | k = name_key entry d}
  by_dir : Threaded (fun d => (istate.links d).dir_next) f (hashed istate)
    fun d => {k | k ∈ dir_keys entry ignore_case d}

/-- Either none of the hashes was there, or the last one that was decides. -/
theorem last_first_cases (f : UInt32 → Option address) (ks : List UInt32) (old : Option address) :
    ((∀ k ∈ ks, f k = none) ∧ last_first f ks old = old) ∨
      ∃ k ∈ ks, f k ≠ none ∧ last_first f ks old = f k := by
  induction ks generalizing old with
  | nil => exact Or.inl ⟨fun _ h => (nomatch h), rfl⟩
  | cons k ks ih =>
    have hstep : last_first f (k :: ks) old = last_first f ks ((f k).or old) := rfl
    rcases ih ((f k).or old) with ⟨hnone, heq⟩ | ⟨k', hk', hsome, heq⟩
    · cases hk : f k with
      | none =>
        refine Or.inl ⟨?_, ?_⟩
        · rintro j (_ | ⟨_, hj⟩)
          · exact hk
          · exact hnone j hj
        · rw [hstep, heq, hk, Option.none_or]
      | some d =>
        refine Or.inr ⟨k, List.mem_cons_self, ?_, ?_⟩
        · rw [hk]
          exact Option.some_ne_none d
        · rw [hstep, heq, hk, Option.some_or]
    · exact Or.inr ⟨k', List.mem_cons_of_mem k hk', hsome, hstep.trans heq⟩

section

variable {istate : index_state} {f : UInt32 → Option address} {ce : address}

theorem Linked.lookup (h : Linked entry ignore_case istate f) {k : UInt32} {d : address}
    (hd : f k = some d) : lookup_hash k istate.name_hash = some (some d) := by
  rw [h.maps.lookup_hash k, hd]

theorem Linked.dir_head (h : Linked entry ignore_case istate f) {d : address} {k : UInt32}
    (hd : d ∈ hashed istate) (hk : k ∈ dir_keys entry ignore_case d) : ∃ d', f k = some d' :=
  Option.ne_none_iff_exists'.mp (h.by_dir.head_ne_none hd hk)

/-- The names and directories of a new entry are apart from those that are there. -/
theorem Linked.apart_new (h : Linked entry ignore_case istate f)
    (hfits : Fits entry ignore_case istate ce) {d : address} (hd : d ∈ hashed istate) :
    name_key entry ce ∉ dir_keys entry ignore_case d ∧
      name_key entry d ∉ dir_keys entry ignore_case ce := by
  constructor
  · intro hk
    obtain ⟨d', hd'⟩ := h.dir_head hd hk
    have hname := hfits.by_name d' (h.lookup hd')
    exact h.apart d' (h.head _ d' hd').1 d hd (hname ▸ hk)
  · intro hk
    obtain ⟨d', hd'⟩ := Option.ne_none_iff_exists'.mp
      (h.by_name.head_ne_none (k := name_key entry d) hd rfl)
    exact h.apart d hd d' (h.head _ d' hd').1 (hfits.by_dir _ hk d' (h.lookup hd'))

/-- Where the link by directory of a new entry leads to, all of its directories are. -/
theorem Linked.dir_chain (h : Linked entry ignore_case istate f)
    (hfits : Fits entry ignore_case istate ce) :
    ∃ l, Chain (fun d => (istate.links d).dir_next)
        (last_first f (dir_keys entry ignore_case ce) none) l ∧
      (∀ d ∈ l, d ∈ hashed istate) ∧
      ∀ k ∈ dir_keys entry ignore_case ce, ∀ d ∈ hashed istate,
        k ∈ dir_keys entry ignore_case d → d ∈ l := by
  rcases last_first_cases f (dir_keys entry ignore_case ce) none with
    ⟨hnone, heq⟩ | ⟨k₀, hk₀, hsome, heq⟩
  · refine ⟨[], heq, fun _ hd => (nomatch hd), fun k hk d hd hkd => ?_⟩
    obtain ⟨d', hd'⟩ := h.dir_head hd hkd
    rw [hnone k hk] at hd'
    cases hd'
  · obtain ⟨d₀, hd₀⟩ := Option.ne_none_iff_exists'.mp hsome
    obtain ⟨l, hl, hsub, -⟩ := h.by_dir k₀
    refine ⟨l, heq ▸ hl, hsub, fun k hk d hd hkd => ?_⟩
    obtain ⟨d', hd'⟩ := h.dir_head hd hkd
    have hsame := hfits.one_link k hk k₀ hk₀ d' d₀ (h.lookup hd') (h.lookup hd₀)
    obtain ⟨l', hl', -, hall'⟩ := h.by_dir k
    rw [hd', hsame, ← hd₀] at hl'
    rw [chain_unique hl hl']
    exact hall' d hd hkd

end

theorem firsts_in {f : UInt32 → Option address} {ce : address} {ks : List UInt32} {k : UInt32}
    (hk : k ∈ ks) : firsts f ce ks k = some ce := if_pos hk

theorem firsts_out {f : UInt32 → Option address} {ce : address} {ks : List UInt32} {k : UInt32}
    (hk : k ∉ ks) : firsts f ce ks k = f k := if_neg hk

/-- With the links and the hash as `hash_index_entry` leaves them. -/
theorem Linked.add {istate istate' : index_state} {f : UInt32 → Option address} {ce : address}
    (h : Linked entry ignore_case istate f) (hfits : Fits entry ignore_case istate ce)
    (hnew : ce ∉ hashed istate)
    (hmaps : Maps istate'.name_hash
      (firsts f ce (name_key entry ce :: dir_keys entry ignore_case ce)))
    (hhashed : hashed istate' = insert ce (hashed istate))
    (hnext : (fun d => (istate'.links d).next) =
      Function.update (fun d => (istate.links d).next) ce (f (name_key entry ce)))
    (hdir_next : (fun d => (istate'.links d).dir_next) =
      Function.update (fun d => (istate.links d).dir_next) ce
        (last_first f (dir_keys entry ignore_case ce) none)) :
    Linked entry ignore_case istate'
      (firsts f ce (name_key entry ce :: dir_keys entry ignore_case ce)) where
  maps := hmaps
  head k d hd := by
    rw [hhashed]
    by_cases hk : k ∈ name_key entry ce :: dir_keys entry ignore_case ce
    · rw [firsts_in hk] at hd
      cases hd
      exact ⟨Set.mem_insert ce _, hk⟩
    · rw [firsts_out hk] at hd
      obtain ⟨hmem, hkey⟩ := h.head k d hd
      exact ⟨Set.mem_insert_of_mem ce hmem, hkey⟩
  apart d hd d' hd' := by
    rw [hhashed] at hd hd'
    rcases hd with rfl | hd
    · rcases hd' with rfl | hd'
      · exact (List.nodup_cons.mp hfits.distinct).1
      · exact (h.apart_new hfits hd').1
    · rcases hd' with rfl | hd'
      · exact (h.apart_new hfits hd).2
      · exact h.apart d hd d' hd'
  by_name := by
    obtain ⟨l, hl, hsub, hall⟩ := h.by_name (name_key entry ce)
    rw [hnext, hhashed]
    refine h.by_name.add hnew (s := {k | k ∈ name_key entry ce :: dir_keys entry ignore_case ce})
      (fun k hk => firsts_in hk) (fun k hk => firsts_out hk) hl hsub ?_ ?_
    · rintro k (_ | ⟨_, hk⟩) d hd hkd
      · exact hall d hd hkd
      · have hname : k = name_key entry d := hkd
        exact absurd (hname ▸ hk) (h.apart_new hfits hd).2
    · intro k hk
      rw [show k = name_key entry ce from hk]
      exact List.mem_cons_self
  by_dir := by
    obtain ⟨l, hl, hsub, hall⟩ := h.dir_chain hfits
    rw [hdir_next, hhashed]
    refine h.by_dir.add hnew (s := {k | k ∈ name_key entry ce :: dir_keys entry ignore_case ce})
      (fun k hk => firsts_in hk) (fun k hk => firsts_out hk) hl hsub ?_ ?_
    · rintro k (_ | ⟨_, hk⟩) d hd hkd
      · exact absurd hkd (h.apart_new hfits hd).1
      · exact hall k hk d hd hkd
    · exact fun k hk => List.mem_cons_of_mem _ hk

/-- Hashing an entry that fits keeps all that. -/
theorem Linked.hash {istate : index_state} {f : UInt32 → Option address} {ce : address}
    (h : Linked entry ignore_case istate f) (hfits : Fits entry ignore_case istate ce)
    (hnew : ce ∉ hashed istate) :
    ∃ istate', hash_index_entry entry ignore_case ce istate = some istate' ∧
      istate'.cache = istate.cache ∧
      istate'.name_hash_initialized = istate.name_hash_initialized ∧
      (∀ d, (istate'.links d).CE_UNHASHED = (istate.links d).CE_UNHASHED) ∧
      hashed istate' = insert ce (hashed istate) ∧
      ∃ f', Linked entry ignore_case istate' f' := by
  have hclear : (istate.links ce).CE_HASHED = false := Bool.eq_false_iff.mpr hnew
  obtain ⟨t, hmaps, hrun⟩ := hash_index_entry_spec h.maps hfits hclear
  have hgrown : hashed { istate with
      name_hash := t
      links := Function.update istate.links ce
        { CE_HASHED := true
          CE_UNHASHED := (istate.links ce).CE_UNHASHED
          next := f (name_key entry ce)
          dir_next := last_first f (dir_keys entry ignore_case ce) none } } =
      insert ce (hashed istate) := by
    ext d
    unfold hashed
    simp only [Set.mem_ofPred_eq, Set.mem_insert_iff]
    by_cases hd : d = ce
    · simp [hd]
    · simp [hd]
  refine ⟨_, hrun, rfl, rfl, ?_, hgrown, ?_⟩
  · intro d
    simp only
    by_cases hd : d = ce
    · rw [hd, Function.update_self]
    · rw [Function.update_of_ne hd]
  · refine ⟨_, h.add hfits hnew hmaps ?_ ?_ ?_⟩
    · exact hgrown
    · exact funext fun d => Function.apply_update (fun _ => ce_links.next) istate.links ce _ d
    · exact funext fun d => Function.apply_update (fun _ => ce_links.dir_next) istate.links ce _ d

end git.index_names
