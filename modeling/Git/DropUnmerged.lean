-- When `read_index_unmerged` leaves one merged entry for each path, and nothing else.
import Git.ReadIndexUnmerged

open bsearch

namespace git

/-! ## What a turn leaves -/

/-- The entry of the array is unmerged. -/
def unmerged_entry (e : cache_entry) : Bool := decide (ce_stage e ≠ 0)

section
variable {c c' : index_state} {path : Bytes}

/-- The merged entry of the path, and the entries of the other paths. -/
theorem Turned.mem (h : Turned path c c') :
    ∃ x, x.name = path ∧ ce_stage x = 0 ∧ x.has CE_REMOVE = false ∧
      ∀ e, e ∈ c'.cache ↔ e = x ∨ e ∈ c.cache ∧ e.name ≠ path := by
  obtain ⟨x, pre, old, post, hc, hc', ⟨hn, hst, hlive⟩, hold, hothers, -⟩ := h.arrays
  refine ⟨x, hn, hst, hlive, fun e => ?_⟩
  have hold' : e ∈ old → e.name = path := fun he => (hold e he).1
  have hothers' : e ∈ pre ++ post → e.name ≠ path := hothers e
  rw [hc, hc']
  simp only [List.mem_append, List.mem_cons] at hothers' ⊢
  tauto

/-- There are fewer unmerged entries. -/
theorem Turned.fewer (h : Turned path c c') :
    c'.cache.countP unmerged_entry < c.cache.countP unmerged_entry := by
  obtain ⟨x, pre, old, post, hc, hc', ⟨-, hst, -⟩, hold, -, hne⟩ := h.arrays
  have hx : unmerged_entry x = false := by simp [unmerged_entry, hst]
  have hcount : 0 < old.countP unmerged_entry := by
    obtain ⟨e, old, rfl⟩ := List.exists_cons_of_ne_nil hne
    rw [List.countP_cons_of_pos (by simpa [unmerged_entry] using (hold e List.mem_cons_self).2)]
    exact Nat.succ_pos _
  rw [hc, hc', List.countP_append, List.countP_append, List.countP_append,
    List.countP_cons_of_neg (by simp [hx])]
  omega

theorem Turned.paths (h : Turned path c c') (hpath : ∃ e ∈ c.cache, e.name = path) (n : Bytes) :
    (∃ e ∈ c'.cache, e.name = n) ↔ ∃ e ∈ c.cache, e.name = n := by
  obtain ⟨x, hn, -, -, hmem⟩ := h.mem
  constructor
  · rintro ⟨e, he, rfl⟩
    rcases (hmem e).mp he with rfl | ⟨he, -⟩
    · rwa [hn]
    · exact ⟨e, he, rfl⟩
  · rintro ⟨e, he, rfl⟩
    by_cases hen : e.name = path
    · exact ⟨x, (hmem x).mpr (Or.inl rfl), hn.trans hen.symm⟩
    · exact ⟨e, (hmem e).mpr (Or.inr ⟨he, hen⟩), rfl⟩

/-- What the lookup by the raw length meets does not change. -/
theorem resumes_congr {cache cache' : List cache_entry} (path : Bytes)
    (h : ∀ n, (∃ e ∈ cache', e.name = n) ↔ ∃ e ∈ cache, e.name = n) :
    Resumes cache' path ↔ Resumes cache path := by
  have hex : ∀ P : Bytes → Prop, (∃ e ∈ cache', P e.name) ↔ ∃ e ∈ cache, P e.name := by
    intro P
    constructor
    · rintro ⟨e, he, hP⟩
      obtain ⟨e', he', hn⟩ := (h e.name).mp ⟨e, he, rfl⟩
      exact ⟨e', he', hn ▸ hP⟩
    · rintro ⟨e, he, hP⟩
      obtain ⟨e', he', hn⟩ := (h e.name).mpr ⟨e, he, rfl⟩
      exact ⟨e', he', hn ▸ hP⟩
  have hall : (∀ e ∈ cache', raw_key path < stage_key e.name 0) ↔
      ∀ e ∈ cache, raw_key path < stage_key e.name 0 := by
    have hno := hex fun n => ¬ raw_key path < stage_key n 0
    rw [← not_iff_not]
    push Not at hno ⊢
    exact hno
  unfold Resumes
  rw [hall, hex fun n => stage_key n 0 = raw_key path]

end

/-! ## The state of the loop -/

/-- The array at place `i` of the loop: what is in front of it is merged. -/
structure Dropping (c : index_state) (i : Nat) : Prop where
  ordered : Ordered c
  dfree : DFree c.cache
  one : OnePath c.cache
  front : ∀ e ∈ c.cache.take i, ce_stage e = 0

section
variable {c c' : index_state} {i : Nat} {ce : cache_entry}

theorem Dropping.next (h : Dropping c i) (hget : c.cache[i]? = some ce) (hst : ce_stage ce = 0) :
    Dropping c (i + 1) := by
  refine ⟨h.ordered, h.dfree, h.one, fun e he => ?_⟩
  rw [List.take_add_one, hget, List.mem_append, Option.toList_some, List.mem_singleton] at he
  rcases he with he | rfl
  · exact h.front e he
  · exact hst

/-- The entry at the place is the first unmerged one. -/
theorem Dropping.first (h : Dropping c i) (hget : c.cache[i]? = some ce) :
    ∀ e ∈ c.cache, ce_stage e ≠ 0 → ce.key ≤ e.key := by
  intro e he hst
  have hcache : c.cache = c.cache.take i ++ c.cache.drop i := (List.take_append_drop _ _).symm
  have hdrop : c.cache.drop i = ce :: c.cache.drop (i + 1) := by
    obtain ⟨hlt, rfl⟩ := List.getElem?_eq_some_iff.mp hget
    exact List.drop_eq_getElem_cons hlt
  rw [hcache, hdrop, List.mem_append, List.mem_cons] at he
  rcases he with he | rfl | he
  · exact absurd (h.front e he) hst
  · exact le_rfl
  · have hascends : Ascends cache_entry.key (ce :: c.cache.drop (i + 1)) := by
      rw [← hdrop]
      exact h.ordered.ascends.sublist (List.drop_sublist _ _)
    exact (List.rel_of_pairwise_cons hascends he).le

/-- After the turn the other unmerged paths are behind the path. -/
theorem Dropping.behind (h : Dropping c i) (hget : c.cache[i]? = some ce)
    (ht : Turned ce.name c c') :
    ∀ e ∈ c'.cache, ce_stage e ≠ 0 → ce.name.take 0x0fff < e.name.take 0x0fff := by
  obtain ⟨x, -, hst0, -, hmem⟩ := ht.mem
  intro e he hst
  have hce : ce ∈ c.cache := List.mem_of_getElem? hget
  rcases (hmem e).mp he with rfl | ⟨he, hn⟩
  · exact absurd hst0 hst
  · refine lt_of_le_of_ne (take_le_of_key (h.ordered.named ce hce) (h.ordered.named e he)
      (h.first hget e he hst)) fun htake => ?_
    exact hn (h.one ce hce e he htake).1.symm

theorem Dropping.one_path (h : Dropping c i) (hget : c.cache[i]? = some ce)
    (ht : Turned ce.name c c') : OnePath c'.cache := by
  obtain ⟨x, hn, hst, -, hmem⟩ := ht.mem
  have hce : ce ∈ c.cache := List.mem_of_getElem? hget
  intro a ha b hb htake
  rcases (hmem a).mp ha with rfl | ⟨ha, hna⟩ <;> rcases (hmem b).mp hb with rfl | ⟨hb, hnb⟩
  · exact ⟨rfl, fun h0 => h0⟩
  · rw [hn] at htake
    exact absurd (h.one ce hce b hb htake).1.symm hnb
  · rw [hn] at htake
    exact absurd (h.one a ha ce hce htake).1 hna
  · exact h.one a ha b hb htake

/-! ## Where the loop goes on -/

theorem raw_key_le (path : Bytes) : (ofLex (raw_key path)).1 ≤ path.take 0x0fff := by
  refine list_order.le_of_prefix ?_
  have hle : (BitVec.ofNat 32 path.length &&& CE_NAMEMASK).toNat ≤ 0x0fff := by
    rw [BitVec.toNat_and]
    exact Nat.and_le_right
  exact List.take_prefix_take_left hle

/-- Each entry has the key of a merged one, or is behind the raw key. -/
theorem Dropping.keys (h : Dropping c i) (hget : c.cache[i]? = some ce)
    (ht : Turned ce.name c c') :
    ∀ e ∈ c'.cache, ce_stage e = 0 ∧ e.key = stage_key e.name 0 ∨
      raw_key ce.name < e.key ∧ raw_key ce.name < stage_key e.name 0 := by
  intro e he
  have hnamed := ht.ordered.named e he
  by_cases hst : ce_stage e = 0
  · refine Or.inl ⟨hst, ?_⟩
    rw [key_of_path hnamed rfl, hst]
  · have hlt := (raw_key_le ce.name).trans_lt (h.behind hget ht e he hst)
    refine Or.inr ⟨?_, ?_⟩
    · rw [hnamed.key, Prod.Lex.lt_iff]
      exact Or.inl hlt
    · rw [stage_key, Prod.Lex.lt_iff]
      exact Or.inl hlt

/-- The lookup finds where the loop goes on, unless it ends the loop. -/
theorem Dropping.resume (h : Dropping c i) (hget : c.cache[i]? = some ce)
    (ht : Turned ce.name c c') :
    match index_name_pos c' ce.name (BitVec.ofNat 32 ce.name.length) with
    | .found pos => Resumes c'.cache ce.name ∧ Dropping c' (pos + 1)
    | .absent 0 => Resumes c'.cache ce.name ∧ Dropping c' 0
    | .absent (_ + 1) => ¬ Resumes c'.cache ce.name := by
  have hkeys := h.keys hget ht
  have hone := h.one_path hget ht
  rcases index_name_pos_spec ht.ordered ce.name (BitVec.ofNat 32 ce.name.length)
      (raw_length_le ce.name) with
    ⟨pre, e, post, hcache, hpos, hkey⟩ | ⟨pre, post, hcache, hpos, hpre, hpost⟩
  · have hkey : e.key = raw_key ce.name := hkey
    have he : e ∈ c'.cache := by simp [hcache]
    rw [hpos]
    refine ⟨Or.inl ⟨e, he, ?_⟩, ht.ordered, ht.dfree, hone, fun a ha => ?_⟩
    · rcases hkeys e he with ⟨-, hk⟩ | ⟨hlt, -⟩
      · exact hk.symm.trans hkey
      · exact absurd hkey hlt.ne'
    · have htake : c'.cache.take (pre.length + 1) = pre ++ [e] := by
        rw [hcache, List.take_length_add_append, List.take_succ_cons, List.take_zero]
      have hle : a.key ≤ raw_key ce.name := by
        rw [htake, List.mem_append, List.mem_singleton] at ha
        rcases ha with ha | rfl
        · have hascends : Ascends cache_entry.key (pre ++ e :: post) := hcache ▸ ht.ordered.ascends
          exact hkey ▸ ((List.pairwise_append.mp hascends).2.2 a ha e List.mem_cons_self).le
        · exact hkey.le
      rcases hkeys a (List.mem_of_mem_take ha) with ⟨hst, -⟩ | ⟨hlt, -⟩
      · exact hst
      · exact absurd hle (not_le.mpr hlt)
  · have hpre : ∀ a ∈ pre, a.key < raw_key ce.name := hpre
    have hpost : ∀ b ∈ post, raw_key ce.name < b.key := hpost
    rw [hpos]
    cases pre with
    | nil =>
      refine ⟨Or.inr fun e he => ?_, ht.ordered, ht.dfree, hone, by simp⟩
      rcases hkeys e he with ⟨-, hk⟩ | ⟨-, hlt⟩
      · rw [← hk]
        exact hpost e (by simpa [hcache] using he)
      · exact hlt
    | cons a pre =>
      show ¬ Resumes c'.cache ce.name
      rintro (⟨e, he, hk⟩ | hall)
      · rcases hkeys e he with ⟨-, hk'⟩ | ⟨-, hlt⟩
        · rw [← hk'] at hk
          rw [hcache, List.mem_append] at he
          rcases he with he | he
          · exact (hpre e he).ne hk
          · exact (hpost e he).ne' hk
        · exact hlt.ne' hk
      · have ha : a ∈ c'.cache := by simp [hcache]
        have hlt := hpre a List.mem_cons_self
        rcases hkeys a ha with ⟨-, hk⟩ | ⟨hgt, -⟩
        · exact lt_asymm hlt (hk ▸ hall a ha)
        · exact lt_asymm hlt hgt

/-! ## The condition, over a turn -/

theorem inWay_conflicted (ce e : cache_entry) :
    InWay (conflicted ce) e ↔
      (Under ce.name e.name ∨ Under e.name ce.name) ∧ ce_stage e = 0 ∧ e.has CE_REMOVE = false := by
  unfold InWay
  rw [conflicted_stage]
  rfl

theorem droppable_merged {cache : List cache_entry} (h : ∀ e ∈ cache, ce_stage e = 0) :
    Droppable cache where
  verified u hu hst := absurd (h u hu) hst
  clear u hu hst := absurd (h u hu) hst
  resumes u hu hst := absurd (h u hu) hst

/-- What can be dropped is put in, and the rest can be dropped. -/
theorem Droppable.turn (hd : Droppable c.cache) (hce : ce ∈ c.cache) (hunmerged : ce_stage ce ≠ 0)
    (ht : Turned ce.name c c') : Droppable c'.cache := by
  obtain ⟨x, hn, hst0, -, hmem⟩ := ht.mem
  have hold : ∀ u ∈ c'.cache, ce_stage u ≠ 0 → u ∈ c.cache := by
    intro u hu hst
    rcases (hmem u).mp hu with rfl | ⟨hu, -⟩
    · exact absurd hst0 hst
    · exact hu
  refine ⟨fun u hu hst => hd.verified u (hold u hu hst) hst, ?_, ?_⟩
  · intro u hu hst e he hway
    rcases (hmem e).mp he with rfl | ⟨he, -⟩
    · rw [hn] at hway
      exact absurd (hd.clear u (hold u hu hst) hst ce hce hway).1 hunmerged
    · exact hd.clear u (hold u hu hst) hst e he hway
  · intro u hu hst v hv hst' hlt
    rw [resumes_congr u.name (ht.paths ⟨ce, hce, rfl⟩)]
    exact hd.resumes u (hold u hu hst) hst v (hold v hv hst') hst' hlt

/-- The other way round, when the loop goes on to the rest. -/
theorem Droppable.before_turn (h : Dropping c i) (hget : c.cache[i]? = some ce)
    (ht : Turned ce.name c c') (hv : verify_path ce.name = true)
    (hfree : ∀ e ∈ c.cache, ¬ InWay (conflicted ce) e) (hd : Droppable c'.cache)
    (hresumes : (∃ v ∈ c'.cache, ce_stage v ≠ 0) → Resumes c'.cache ce.name) :
    Droppable c.cache := by
  obtain ⟨x, hn, -, hlive, hmem⟩ := ht.mem
  have hce : ce ∈ c.cache := List.mem_of_getElem? hget
  have hx : x ∈ c'.cache := (hmem x).mpr (Or.inl rfl)
  have hstays : ∀ e ∈ c.cache, e.name ≠ ce.name → e ∈ c'.cache :=
    fun e he hne => (hmem e).mpr (Or.inr ⟨he, hne⟩)
  -- nothing unmerged is in the way of the entry that came in
  have hapart : ∀ u ∈ c'.cache, ce_stage u ≠ 0 →
      ¬ (Under u.name ce.name ∨ Under ce.name u.name) := by
    intro u hu hst hway
    rw [← hn] at hway
    have := (hd.clear u hu hst x hx hway).2
    rw [hlive] at this
    cases this
  have hpaths := ht.paths ⟨ce, hce, rfl⟩
  refine ⟨?_, ?_, ?_⟩
  · intro u hu hst
    by_cases hun : u.name = ce.name
    · rwa [hun]
    · exact hd.verified u (hstays u hu hun) hst
  · intro u hu hst e he hway
    by_cases hun : u.name = ce.name
    · rw [hun] at hway
      have hen : e.name ≠ ce.name := by
        intro hen
        rw [hen, or_self] at hway
        exact Under.irrefl _ hway
      have he' := hstays e he hen
      by_cases hst' : ce_stage e = 0
      · refine ⟨hst', ?_⟩
        have := hfree e he
        rw [inWay_conflicted] at this
        simpa [hway, hst'] using this
      · exact absurd hway.symm (hapart e he' hst')
    · have hu' := hstays u hu hun
      by_cases hen : e.name = ce.name
      · rw [hen] at hway
        exact absurd hway (hapart u hu' hst)
      · exact hd.clear u hu' hst e (hstays e he hen) hway
  · intro u hu hst v hv' hst' hlt
    have hvn : v.name ≠ ce.name := by
      intro hvn
      have hle := take_le_of_key (h.ordered.named ce hce) (h.ordered.named u hu)
        (h.first hget u hu hst)
      rw [hvn] at hlt
      exact absurd hlt (not_lt.mpr hle)
    rw [← resumes_congr u.name hpaths]
    by_cases hun : u.name = ce.name
    · rw [hun]
      exact hresumes ⟨v, hstays v hv' hvn, hst'⟩
    · exact hd.resumes u (hstays u hu hun) hst v (hstays v hv' hvn) hst' hlt

end

/-! ## The run of the loop -/

theorem drop_from_merged {istate : index_state} {i : Nat} {ce : cache_entry} (turns : Nat)
    (unmerged : Bool) (hget : istate.cache[i]? = some ce) (hst : ce_stage ce = 0) :
    drop_from (turns + 1) istate i unmerged = drop_from turns istate (i + 1) unmerged := by
  rw [drop_from, hget]
  simp only [hst, if_true]

theorem drop_from_unmerged {istate : index_state} {i : Nat} {ce : cache_entry} (turns : Nat)
    (unmerged : Bool) (hget : istate.cache[i]? = some ce) (hst : ce_stage ce ≠ 0) :
    drop_from (turns + 1) istate i unmerged =
      let (istate, added) := add_index_entry istate (conflicted ce) no_option
      if !added then some (istate, none)
      else
        match index_name_pos istate ce.name (BitVec.ofNat 32 ce.name.length) with
        | .found pos => drop_from turns istate (pos + 1) true
        | .absent 0 => drop_from turns istate 0 true
        | .absent (_ + 1) => some (istate, some true) := by
  rw [drop_from, hget]
  simp only [hst, if_false]
  rfl

/-- What a run without an error leaves, and that it leaves all merged only where all can be
dropped. -/
theorem drop_from_spec (turns : Nat) {c s' : index_state} {i : Nat} {unmerged flag : Bool}
    (h : Dropping c i) (hrun : drop_from turns c i unmerged = some (s', some flag)) :
    Ordered s' ∧ (∀ n, (∃ e ∈ s'.cache, e.name = n) ↔ ∃ e ∈ c.cache, e.name = n) ∧
      (flag = true ↔ unmerged = true ∨ ∃ e ∈ c.cache, ce_stage e ≠ 0) ∧
      ((∀ e ∈ s'.cache, ce_stage e = 0) → Droppable c.cache) := by
  induction turns generalizing c i unmerged with
  | zero => cases hrun
  | succ turns ih =>
    cases hget : c.cache[i]? with
    | none =>
      rw [drop_from, hget] at hrun
      cases hrun
      have hall : ∀ e ∈ s'.cache, ce_stage e = 0 := by
        intro e he
        refine h.front e ?_
        rwa [List.take_of_length_le (List.getElem?_eq_none_iff.mp hget)]
      have hno : ¬ ∃ e ∈ s'.cache, ce_stage e ≠ 0 := by
        push Not
        exact hall
      exact ⟨h.ordered, fun n => Iff.rfl, by simp [hno], droppable_merged⟩
    | some ce =>
      by_cases hst : ce_stage ce = 0
      · rw [drop_from_merged turns unmerged hget hst] at hrun
        exact ih (h.next hget hst) hrun
      · have hce : ce ∈ c.cache := List.mem_of_getElem? hget
        obtain ⟨hadds, hturned⟩ := turn_spec h.ordered h.dfree h.one hce hst
        rw [drop_from_unmerged turns unmerged hget hst] at hrun
        generalize add_index_entry c (conflicted ce) no_option = r at hadds hturned hrun
        obtain ⟨c', added⟩ := r
        dsimp only at hadds hturned hrun
        cases added with
        | false => simp at hrun
        | true =>
          have ht := hturned rfl
          obtain ⟨hv, hfree⟩ := hadds.mp rfl
          have hpaths := ht.paths ⟨ce, hce, rfl⟩
          have hresume := h.resume hget ht
          have hsome : ∃ e ∈ c.cache, ce_stage e ≠ 0 := ⟨ce, hce, hst⟩
          -- the rest of the run, from the place where the loop goes on
          have hrest : ∀ j, Resumes c'.cache ce.name → Dropping c' j →
              drop_from turns c' j true = some (s', some flag) →
              Ordered s' ∧ (∀ n, (∃ e ∈ s'.cache, e.name = n) ↔ ∃ e ∈ c.cache, e.name = n) ∧
                (flag = true ↔ unmerged = true ∨ ∃ e ∈ c.cache, ce_stage e ≠ 0) ∧
                ((∀ e ∈ s'.cache, ce_stage e = 0) → Droppable c.cache) := by
            intro j hr hj hrun
            obtain ⟨ho, hp, hf, hdrop⟩ := ih hj hrun
            have hflag : flag = true := hf.mpr (Or.inl rfl)
            exact ⟨ho, fun n => (hp n).trans (hpaths n), iff_of_true hflag (Or.inr hsome),
              fun hall => .before_turn h hget ht hv hfree (hdrop hall) fun _ => hr⟩
          simp only [Bool.not_true, Bool.false_eq_true, if_false] at hrun
          generalize index_name_pos c' ce.name (BitVec.ofNat 32 ce.name.length) = pos
            at hresume hrun
          rcases pos with pos | _ | q
          · exact hrest _ hresume.1 hresume.2 hrun
          · exact hrest _ hresume.1 hresume.2 hrun
          · cases hrun
            refine ⟨ht.ordered, hpaths, iff_of_true rfl (Or.inr hsome), fun hall => ?_⟩
            refine .before_turn h hget ht hv hfree (droppable_merged hall) ?_
            rintro ⟨v, hv, hst'⟩
            exact absurd (hall v hv) hst'

/-- The loop goes past what is merged. -/
theorem drop_from_skips (turns : Nat) {c : index_state} {i : Nat} (unmerged : Bool) (n : Nat)
    (h : ∀ k < n, ∃ ce, c.cache[i + k]? = some ce ∧ ce_stage ce = 0) :
    drop_from (turns + n) c i unmerged = drop_from turns c (i + n) unmerged := by
  induction n generalizing i with
  | zero => rfl
  | succ n ih =>
    obtain ⟨ce, hget, hst⟩ := h 0 (Nat.succ_pos n)
    rw [Nat.add_zero] at hget
    rw [← Nat.add_assoc, drop_from_merged (turns + n) unmerged hget hst, ih, Nat.add_assoc, Nat.add_comm 1]
    intro k hk
    obtain ⟨ce, hget, hst⟩ := h (k + 1) (by omega)
    exact ⟨ce, by rw [← hget, Nat.add_assoc, Nat.add_comm 1], hst⟩

/-- The place of the first unmerged entry from `i` on, if there is one. -/
theorem next_unmerged (cache : List cache_entry) (i : Nat) :
    ∃ n, (∀ k < n, ∃ ce, cache[i + k]? = some ce ∧ ce_stage ce = 0) ∧
      (cache[i + n]? = none ∨ ∃ ce, cache[i + n]? = some ce ∧ ce_stage ce ≠ 0) := by
  have hend : ∃ n, ¬ ∃ ce, cache[i + n]? = some ce ∧ ce_stage ce = 0 := by
    refine ⟨cache.length, ?_⟩
    rw [List.getElem?_eq_none (Nat.le_add_left _ _)]
    simp
  refine ⟨Nat.find hend, fun k hk => not_not.mp (Nat.find_min hend hk), ?_⟩
  have hstop := Nat.find_spec hend
  cases hget : cache[i + Nat.find hend]? with
  | none => exact Or.inl rfl
  | some ce => exact Or.inr ⟨ce, rfl, fun hst => hstop ⟨ce, hget, hst⟩⟩

theorem Dropping.skip {c : index_state} {i n : Nat} (h : Dropping c i)
    (hskip : ∀ k < n, ∃ ce, c.cache[i + k]? = some ce ∧ ce_stage ce = 0) : Dropping c (i + n) := by
  induction n with
  | zero => exact h
  | succ n ih =>
    obtain ⟨ce, hget, hst⟩ := hskip n (Nat.lt_succ_self n)
    exact (ih fun k hk => hskip k (Nat.lt_succ_of_lt hk)).next hget hst

/-- What can be dropped is dropped. The loop may go back, but each turn leaves fewer unmerged
entries. -/
theorem drop_from_ends (m : Nat) {c : index_state} {i : Nat} (unmerged : Bool) (h : Dropping c i)
    (hm : c.cache.countP unmerged_entry < m) (hd : Droppable c.cache) :
    ∃ turns s' flag, drop_from turns c i unmerged = some (s', some flag) ∧
      ∀ e ∈ s'.cache, ce_stage e = 0 := by
  induction m generalizing c i unmerged with
  | zero => cases hm
  | succ m ih =>
    obtain ⟨n, hskip, hstop⟩ := next_unmerged c.cache i
    have h := h.skip hskip
    suffices hrest : ∃ turns s' flag, drop_from turns c (i + n) unmerged = some (s', some flag) ∧
        ∀ e ∈ s'.cache, ce_stage e = 0 by
      obtain ⟨turns, s', flag, hrun, hall⟩ := hrest
      exact ⟨turns + n, s', flag, (drop_from_skips turns unmerged n hskip).trans hrun, hall⟩
    rcases hstop with hget | ⟨ce, hget, hst⟩
    · refine ⟨1, c, unmerged, by rw [drop_from, hget], fun e he => h.front e ?_⟩
      rwa [List.take_of_length_le (List.getElem?_eq_none_iff.mp hget)]
    · have hce : ce ∈ c.cache := List.mem_of_getElem? hget
      obtain ⟨hadds, hturned⟩ := turn_spec h.ordered h.dfree h.one hce hst
      have hok : (add_index_entry c (conflicted ce) no_option).2 = true := by
        refine hadds.mpr ⟨hd.verified ce hce hst, fun e he hway => ?_⟩
        obtain ⟨hway, -, hlive⟩ := (inWay_conflicted ce e).mp hway
        rw [(hd.clear ce hce hst e he hway).2] at hlive
        cases hlive
      have ht := hturned hok
      have hd' := hd.turn hce hst ht
      have hresume := h.resume hget ht
      have hstep : ∀ turns, drop_from (turns + 1) c (i + n) unmerged =
          match index_name_pos (add_index_entry c (conflicted ce) no_option).1 ce.name
            (BitVec.ofNat 32 ce.name.length) with
          | .found pos =>
            drop_from turns (add_index_entry c (conflicted ce) no_option).1 (pos + 1) true
          | .absent 0 => drop_from turns (add_index_entry c (conflicted ce) no_option).1 0 true
          | .absent (_ + 1) =>
            some ((add_index_entry c (conflicted ce) no_option).1, some true) := by
        intro turns
        rw [drop_from_unmerged turns unmerged hget hst]
        simp only [hok, Bool.not_true, Bool.false_eq_true, if_false]
      generalize (add_index_entry c (conflicted ce) no_option).1 = c' at *
      have hm' : c'.cache.countP unmerged_entry < m := by
        have := ht.fewer
        omega
      -- the rest of the run, from the place where the loop goes on
      have hrest : ∀ j, Dropping c' j →
          (∀ turns, drop_from (turns + 1) c (i + n) unmerged = drop_from turns c' j true) →
          ∃ turns s' flag, drop_from turns c (i + n) unmerged = some (s', some flag) ∧
            ∀ e ∈ s'.cache, ce_stage e = 0 := by
        intro j hj hgo
        obtain ⟨turns, s', flag, hrun, hall⟩ := ih true hj hm' hd'
        exact ⟨turns + 1, s', flag, (hgo turns).trans hrun, hall⟩
      generalize index_name_pos c' ce.name (BitVec.ofNat 32 ce.name.length) = pos at hresume hstep
      rcases pos with pos | _ | q
      · exact hrest _ hresume.2 hstep
      · exact hrest _ hresume.2 hstep
      · refine ⟨1, c', true, hstep 0, ?_⟩
        by_contra hleft
        push Not at hleft
        obtain ⟨v, hv, hst'⟩ := hleft
        obtain ⟨x, -, hst0, -, hmem⟩ := ht.mem
        have hvc : v ∈ c.cache := by
          rcases (hmem v).mp hv with rfl | ⟨hvc, -⟩
          · exact absurd hst0 hst'
          · exact hvc
        refine hresume ?_
        rw [resumes_congr ce.name (ht.paths ⟨ce, hce, rfl⟩)]
        exact hd.resumes ce hce hst v hvc hst' (h.behind hget ht v hv hst')

/-! ## Merged and unmerged entries of one path -/

/-- A merged and an unmerged entry whose names start with the same 4095 bytes. -/
def Doubled (cache : List cache_entry) : Prop :=
  ∃ a ∈ cache, ∃ b ∈ cache, a.name.take 0x0fff = b.name.take 0x0fff ∧ ce_stage a = 0 ∧ ce_stage b ≠ 0

theorem doubled_add {c : index_state} {ce : cache_entry} (h : Ordered c) (hd : Doubled c.cache)
    (hok : (add_index_entry c (conflicted ce) no_option).2 = true) :
    Doubled (add_index_entry c (conflicted ce) no_option).1.cache := by
  have hc := conflicted_named ce
  have hadds := add_index_entry_adds h hc (show no_option.just_append = false from rfl)
  obtain ⟨a, ha, b, hb, htake, hsta, hstb⟩ := hd
  generalize add_index_entry c (conflicted ce) no_option = r at hok hadds ⊢
  cases hadds with
  | kept old hold hkey hnew => cases hnew
  | refused istate' hno htrims => cases hok
  | replaced pre post old hcache hkey hnew =>
    have hold : old ∈ c.cache := by simp [hcache]
    have hx := add_name_hash_key (c.invalidate_path (conflicted ce).name) (conflicted ce)
    have hcache' : (replace_index_entry (c.invalidate_path (conflicted ce).name) pre.length
        (conflicted ce)).cache =
          pre ++ add_name_hash (c.invalidate_path (conflicted ce).name) (conflicted ce) :: post := by
      simp only [replace_index_entry, set_index_entry, index_state.invalidate_path, hcache, set_append]
    rw [(h.named old hold).key, hc.key, conflicted_stage] at hkey
    obtain ⟨htake', hstage⟩ := Prod.mk.inj (toLex_inj.mp hkey)
    have hmem : ∀ e ∈ c.cache, e ≠ old → e ∈ pre ++ post := by
      intro e he hne
      rw [hcache] at he
      simp only [List.mem_append, List.mem_cons] at he ⊢
      tauto
    have hb' : b ∈ pre ++ post := hmem b hb fun hbo => hstb (by rw [hbo]; omega)
    dsimp only
    rw [hcache']
    by_cases hao : a = old
    · refine ⟨_, List.mem_append_right _ List.mem_cons_self, b, ?_, ?_,
        hx.stage.trans (conflicted_stage ce), hstb⟩
      · simp only [List.mem_append, List.mem_cons] at hb' ⊢
        tauto
      · rw [hx.1, ← htake', ← hao, htake]
    · have ha' := hmem a ha hao
      refine ⟨a, ?_, b, ?_, htake, hsta, hstb⟩
      · simp only [List.mem_append, List.mem_cons] at ha' ⊢
        tauto
      · simp only [List.mem_append, List.mem_cons] at hb' ⊢
        tauto
  | inserted istate' pre post hno htrims hcache hpre hpost hmerged =>
    have hne : a.name.take 0x0fff ≠ ce.name.take 0x0fff := by
      intro ht
      refine hno a ha ?_
      rw [conflicted_key, key_of_path (h.named a ha) rfl, hsta, stage_key, ht]
      rfl
    have hstays : ∀ e ∈ c.cache, e.name.take 0x0fff = a.name.take 0x0fff → e ∈ pre ++ post := by
      intro e he ht
      rw [← hcache]
      by_contra hout
      rcases htrims.gone e he hout with ⟨-, hn⟩ | ⟨hreplace, -⟩
      · exact hne (ht.symm.trans (congrArg (List.take 0x0fff) hn))
      · cases hreplace
    have ha' := hstays a ha rfl
    have hb' := hstays b hb htake.symm
    refine ⟨a, ?_, b, ?_, htake, hsta, hstb⟩
    · simp only [List.mem_append, List.mem_cons] at ha' ⊢
      tauto
    · simp only [List.mem_append, List.mem_cons] at hb' ⊢
      tauto

theorem doubled_stays (turns : Nat) {c s' : index_state} {i : Nat} {unmerged flag : Bool}
    (h : Ordered c) (hd : Doubled c.cache)
    (hrun : drop_from turns c i unmerged = some (s', some flag)) : Doubled s'.cache := by
  induction turns generalizing c i unmerged with
  | zero => cases hrun
  | succ turns ih =>
    cases hget : c.cache[i]? with
    | none =>
      rw [drop_from, hget] at hrun
      cases hrun
      exact hd
    | some ce =>
      by_cases hst : ce_stage ce = 0
      · rw [drop_from_merged turns unmerged hget hst] at hrun
        exact ih h hd hrun
      · have hc := conflicted_named ce
        have hadd := @doubled_add c ce h hd
        have hordered := (add_index_entry_adds h hc (show no_option.just_append = false from rfl)).ordered h hc
        rw [drop_from_unmerged turns unmerged hget hst] at hrun
        generalize add_index_entry c (conflicted ce) no_option = r at hadd hordered hrun
        obtain ⟨c', added⟩ := r
        dsimp only at hadd hordered hrun
        cases added with
        | false => simp at hrun
        | true =>
          simp only [Bool.not_true, Bool.false_eq_true, if_false] at hrun
          generalize index_name_pos c' ce.name (BitVec.ofNat 32 ce.name.length) = pos at hrun
          rcases pos with pos | _ | q
          · exact ih hordered (hadd rfl) hrun
          · exact ih hordered (hadd rfl) hrun
          · cases hrun
            exact hadd rfl

/-! ## The result -/

/-- An index without a conflict at any one stage is read without an error, with one merged entry
for each of its paths, exactly when each path is told apart by its first 4095 bytes and its
unmerged paths can be dropped one after the other. -/
theorem reads_unmerged_iff {s : index_state} (h : Ordered s) (hd : DFree s.cache) :
    ReadsUnmerged s ↔ OnePath s.cache ∧ Droppable s.cache := by
  constructor
  · rintro ⟨turns, s', flag, hrun, hdropped⟩
    have hone : OnePath s.cache := by
      intro a ha b hb htake
      constructor
      · -- the merged entries of both paths have one key
        obtain ⟨x, ⟨hx, hxn⟩, -⟩ := hdropped.each a.name ⟨a, ha, rfl⟩
        obtain ⟨y, ⟨hy, hyn⟩, -⟩ := hdropped.each b.name ⟨b, hb, rfl⟩
        have hkey : x.key = y.key := by
          rw [(hdropped.ordered.named x hx).key, (hdropped.ordered.named y hy).key,
            hdropped.merged x hx, hdropped.merged y hy, hxn, hyn, htake]
        rw [← hxn, ← hyn, hdropped.ordered.ascends.eq_of_key hx hy hkey]
      · intro hsta
        by_contra hstb
        obtain ⟨-, -, v, hv, -, -, hst⟩ := doubled_stays turns h ⟨a, ha, b, hb, htake, hsta, hstb⟩ hrun
        exact hst (hdropped.merged v hv)
    have hdropping : Dropping s 0 := ⟨h, hd, hone, by simp⟩
    exact ⟨hone, (drop_from_spec turns hdropping hrun).2.2.2 hdropped.merged⟩
  · rintro ⟨hone, hdrop⟩
    have hdropping : Dropping s 0 := ⟨h, hd, hone, by simp⟩
    obtain ⟨turns, s', flag, hrun, hmerged⟩ :=
      drop_from_ends _ false hdropping (Nat.lt_succ_self _) hdrop
    obtain ⟨hordered, hpaths, hflag, -⟩ := drop_from_spec turns hdropping hrun
    refine ⟨turns, s', flag, hrun, hordered, hmerged, ?_, fun e he => (hpaths e.name).mp ⟨e, he, rfl⟩, ?_⟩
    · intro path hpath
      obtain ⟨x, hx, hxn⟩ := (hpaths path).mpr hpath
      refine ⟨x, ⟨hx, hxn⟩, ?_⟩
      rintro y ⟨hy, hyn⟩
      exact same_key hordered hy hx (hyn.trans hxn.symm)
        ((hmerged y hy).trans (hmerged x hx).symm)
    · simpa using hflag

instance (cache : List cache_entry) (path : Bytes) : Decidable (Resumes cache path) := by
  unfold Resumes; infer_instance

instance (cache : List cache_entry) : Decidable (OnePath cache) := by
  unfold OnePath; infer_instance

theorem droppable_iff (cache : List cache_entry) : Droppable cache ↔
    (∀ u ∈ cache, ce_stage u ≠ 0 → verify_path u.name = true) ∧
      (∀ u ∈ cache, ce_stage u ≠ 0 → ∀ e ∈ cache, Under u.name e.name ∨ Under e.name u.name →
        ce_stage e = 0 ∧ e.has CE_REMOVE = true) ∧
      ∀ u ∈ cache, ce_stage u ≠ 0 → ∀ v ∈ cache, ce_stage v ≠ 0 →
        u.name.take 0x0fff < v.name.take 0x0fff → Resumes cache u.name :=
  ⟨fun h => ⟨h.verified, h.clear, h.resumes⟩, fun h => ⟨h.1, h.2.1, h.2.2⟩⟩

instance (cache : List cache_entry) : Decidable (Droppable cache) :=
  decidable_of_iff _ (droppable_iff cache).symm

/-- The stages of `a` that a merge leaves when both sides have changed it. -/
def changed_by_both : index_state := index_of [file_a 1, file_a 2, file_a 3]

/-- One side of a merge has the file `a`, and the other one the file `a/b`. -/
def file_and_directory : index_state := index_of [file_a 2, file_a_b 3]

theorem ordered_new_entries {cache : List cache_entry} (ha : Ascends cache_entry.key cache)
    (hn : ∀ e ∈ cache, Named e) : Ordered (index_of cache) := ⟨ha, hn⟩

theorem the_stages_of_a_are_dropped : ReadsUnmerged changed_by_both :=
  (reads_unmerged_iff (ordered_new_entries (by unfold Ascends; decide) (by decide))
    (by decide)).mpr ⟨by decide, by decide⟩

theorem a_file_and_a_directory_are_not_dropped :
    ∃ s, Ordered s ∧ DFree s.cache ∧ (read_index_unmerged 3 s).map (·.2) = some none ∧
      ¬ ReadsUnmerged s := by
  have h : Ordered file_and_directory :=
    ordered_new_entries (by unfold Ascends; decide) (by decide)
  refine ⟨file_and_directory, h, by decide, by decide, ?_⟩
  rintro ⟨turns, s', flag, hrun, hdropped⟩
  have hdropping : Dropping file_and_directory 0 :=
    ⟨h, by decide, by decide, by simp⟩
  have hdrop := (drop_from_spec turns hdropping hrun).2.2.2 hdropped.merged
  revert hdrop
  decide

end git
