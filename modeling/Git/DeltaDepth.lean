-- The search makes no cycle of deltas, and no chain that is too deep: a slot
-- of the window knows the depth of its object, and the objects that hang
-- below one in a pack are counted before it becomes a delta.
import Git.FindDeltas
import Git.Lib.Acyclic

open Relation acyclic

namespace git.delta_window

variable {n : Nat}

/-! ## Chains of deltas -/

/-- `b` is the base of `a`. -/
def Base (objects : Fin n → object_entry n) (a b : Fin n) : Prop := (objects a).delta = some b

/-- How many deltas lead from the object to one that is whole, all of them
among `done`. -/
inductive DepthIn (objects : Fin n → object_entry n) (done : Fin n → Prop) : Fin n → Nat → Prop
  | whole {e : Fin n} : done e → (objects e).delta = none → DepthIn objects done e 0
  | delta {e b : Fin n} {k : Nat} : done e → (objects e).delta = some b →
      DepthIn objects done b k → DepthIn objects done e (k + 1)

/-- The delta depth of an object. -/
def Depth (objects : Fin n → object_entry n) : Fin n → Nat → Prop :=
  DepthIn objects fun _ => True

/-- `m` deltas lead from `d` to `e`. -/
inductive HangsBelow (objects : Fin n → object_entry n) (e : Fin n) : Fin n → Nat → Prop
  | self : HangsBelow objects e e 0
  | delta {d b : Fin n} {m : Nat} : (objects d).delta = some b → HangsBelow objects e b m →
      HangsBelow objects e d (m + 1)

variable {objects objects' : Fin n → object_entry n} {done done' : Fin n → Prop}

theorem DepthIn.mono {e : Fin n} {k : Nat} (h : DepthIn objects done e k)
    (hdelta : ∀ x, done x → (objects' x).delta = (objects x).delta)
    (hdone : ∀ x, done x → done' x) : DepthIn objects' done' e k := by
  induction h with
  | whole he hnone => exact .whole (hdone _ he) ((hdelta _ he).trans hnone)
  | delta he hsome _ ih => exact .delta (hdone _ he) ((hdelta _ he).trans hsome) ih

theorem DepthIn.unique {e : Fin n} {k k' : Nat} (h : DepthIn objects done e k)
    (h' : DepthIn objects done e k') : k = k' := by
  induction h generalizing k' with
  | whole _ hnone =>
    cases h' with
    | whole _ _ => rfl
    | delta _ hsome _ => simp [hnone] at hsome
  | delta _ hsome _ ih =>
    cases h' with
    | whole _ hnone => simp [hsome] at hnone
    | delta _ hsome' h' =>
      rw [hsome, Option.some.injEq] at hsome'
      subst hsome'
      rw [ih h']

/-- Every base is less deep. -/
theorem Depth.base {a b : Fin n} {k : Nat} (h : Depth objects a k)
    (hab : TransGen (Base objects) a b) : ∃ k', k' < k ∧ Depth objects b k' := by
  have hone : ∀ {a b : Fin n} {k : Nat}, Depth objects a k → Base objects a b →
      ∃ k', k' < k ∧ Depth objects b k' := by
    intro a b k h hab
    cases h with
    | whole _ hnone => simp [Base, hnone] at hab
    | delta _ hsome hb =>
      rw [Base, hsome, Option.some.injEq] at hab
      exact ⟨_, Nat.lt_succ_self _, hab ▸ hb⟩
  induction hab with
  | single hab => exact hone h hab
  | tail _ hbc ih =>
    obtain ⟨k', hk', hb⟩ := ih
    obtain ⟨k'', hk'', hc⟩ := hone hb hbc
    exact ⟨k'', by omega, hc⟩

/-- Where every object has a depth there is no cycle. -/
theorem acyclic_of_depth (h : ∀ e, ∃ k, Depth objects e k) : Acyclic (Base objects) := by
  intro e hcycle
  obtain ⟨k, hk⟩ := h e
  obtain ⟨k', hlt, hk'⟩ := hk.base hcycle
  have := hk.unique hk'
  omega

theorem HangsBelow.last {d e : Fin n} {m : Nat} (h : HangsBelow objects e d (m + 1)) :
    ∃ c, (objects c).delta = some e ∧ HangsBelow objects c d m := by
  induction m generalizing d with
  | zero =>
    cases h with
    | delta hd hb =>
      cases hb with
      | self => exact ⟨d, hd, .self⟩
  | succ m ih =>
    cases h with
    | delta hd hb =>
      obtain ⟨c, hc, hbc⟩ := ih hb
      exact ⟨c, hc, .delta hd hbc⟩

/-! ## The objects that hang below one -/

/-- `e` is the child, or one of its siblings. -/
inductive InChain (objects : Fin n → object_entry n) : Option (Fin n) → Fin n → Prop
  | child (e : Fin n) : InChain objects (some e) e
  | sibling {c e : Fin n} : InChain objects (objects c).delta_sibling e →
      InChain objects (some c) e

/-- The children and siblings are those of the reused deltas. -/
structure Family (objects : Fin n → object_entry n) : Prop where
  linked : ∀ e b, (objects e).delta = some b → InChain objects (objects b).delta_child e
  child : ∀ b c, (objects b).delta_child = some c → (objects c).delta = some b
  sibling : ∀ a c, (objects a).delta_sibling = some c →
    ∃ b, (objects a).delta = some b ∧ (objects c).delta = some b
  /-- A sibling was there first. -/
  age : ∃ (age : Fin n → Nat) (count : Nat), (∀ a, (objects a).delta ≠ none → age a < count) ∧
    ∀ a c, (objects a).delta_sibling = some c → age c < age a

/-- What the search for the deepest child returns covers all that hang below. -/
theorem check_children_ge (hlinked : ∀ e b, (objects e).delta = some b →
      InChain objects (objects b).delta_child e) {fuel : Nat} {p : Option (Fin n)} {k m r : Nat}
    (h : check_children objects fuel p k m = some r) :
    m ≤ r ∧ ∀ c, InChain objects p c → ∀ d j, HangsBelow objects c d j → k + 1 + j ≤ r := by
  induction fuel generalizing p k m r with
  | zero => simp [check_children] at h
  | succ fuel ih =>
    cases p with
    | none =>
      obtain rfl : m = r := by simpa [check_children] using h
      refine ⟨Nat.le_refl _, ?_⟩
      intro c hc
      cases hc
    | some child =>
      unfold check_children at h
      cases hfirst : check_children objects fuel (objects child).delta_child (k + 1) (k + 1) with
      | none => simp [hfirst] at h
      | some r' =>
        simp only [hfirst] at h
        obtain ⟨hge', hbelow'⟩ := ih hfirst
        obtain ⟨hge, hbelow⟩ := ih h
        refine ⟨by omega, ?_⟩
        intro c hc d j hd
        cases hc with
        | sibling hc => exact hbelow c hc d j hd
        | child =>
          cases j with
          | zero => omega
          | succ j =>
            obtain ⟨c', hc', hd'⟩ := hd.last
            have := hbelow' c' (hlinked c' _ hc') d j hd'
            omega

theorem check_delta_limit_ge (hfamily : Family objects) {fuel limit : Nat} {e : Fin n}
    (h : check_delta_limit objects fuel e 0 = some limit) {d : Fin n} {m : Nat}
    (hd : HangsBelow objects e d m) : m ≤ limit := by
  obtain ⟨_, hbelow⟩ := check_children_ge hfamily.linked h
  cases m with
  | zero => omega
  | succ m =>
    obtain ⟨c, hc, hcd⟩ := hd.last
    have := hbelow c (hfamily.linked c e hc) d m hcd
    omega

/-- Where the recursion goes from `a`. -/
def Link (objects : Fin n → object_entry n) (b a : Fin n) : Prop :=
  (objects a).delta_child = some b ∨ (objects a).delta_sibling = some b

/-- Below a base the recursion comes to its end: by induction on the bases,
and on the age of the siblings. -/
theorem Family.acc (h : Family objects) (hdag : Acyclic (Base objects)) {b e : Fin n}
    (he : (objects e).delta = some b) : Acc (Link objects) e := by
  obtain ⟨age, _, _, hage⟩ := h.age
  induction b using hdag.wf.induction generalizing e with
  | _ b ih =>
    induction hm : age e using Nat.strong_induction_on generalizing e with
    | _ m ihage =>
      refine Acc.intro e ?_
      rintro c (hc | hc)
      · exact ih e he (h.child e c hc)
      · obtain ⟨b', hb', hcb⟩ := h.sibling e c hc
        obtain rfl : b' = b := Option.some.inj (hb'.symm.trans he)
        exact ihage (age c) (hm ▸ hage e c hc) hcb rfl

theorem check_children_some {e : Fin n} (h : Acc (Link objects) e) :
    ∃ N, ∀ fuel ≥ N, ∀ k m, ∃ r, check_children objects fuel (some e) k m = some r := by
  have hnone : ∀ fuel ≥ 1, ∀ k m, ∃ r, check_children objects fuel none k m = some r := by
    intro fuel hfuel k m
    obtain ⟨fuel, rfl⟩ : ∃ f, fuel = f + 1 := ⟨fuel - 1, by omega⟩
    exact ⟨m, rfl⟩
  induction h with
  | intro e _ ih =>
    have hnext : ∀ p : Option (Fin n), (∀ c, p = some c → Link objects c e) →
        ∃ N, ∀ fuel ≥ N, ∀ k m, ∃ r, check_children objects fuel p k m = some r := by
      intro p hp
      cases p with
      | none => exact ⟨1, hnone⟩
      | some c => exact ih c (hp c rfl)
    obtain ⟨N, hN⟩ := hnext (objects e).delta_child fun c hc => Or.inl hc
    obtain ⟨N', hN'⟩ := hnext (objects e).delta_sibling fun c hc => Or.inr hc
    refine ⟨max N N' + 1, ?_⟩
    intro fuel hfuel k m
    obtain ⟨fuel, rfl⟩ : ∃ f, fuel = f + 1 := ⟨fuel - 1, by omega⟩
    obtain ⟨r, hr⟩ := hN fuel (by omega) (k + 1) (k + 1)
    obtain ⟨r', hr'⟩ := hN' fuel (by omega) k (max m r)
    refine ⟨r', ?_⟩
    unfold check_children
    simp only [hr]
    exact hr'

/-- Enough fuel for every object. -/
theorem Family.exists_fuel (h : Family objects) (hdag : Acyclic (Base objects)) :
    ∃ N, ∀ fuel ≥ N, ∀ e, ∃ limit, check_delta_limit objects fuel e 0 = some limit := by
  have hone : ∀ e, ∃ N, ∀ fuel ≥ N, ∃ limit, check_delta_limit objects fuel e 0 = some limit := by
    intro e
    unfold check_delta_limit
    cases hc : (objects e).delta_child with
    | none =>
      refine ⟨1, ?_⟩
      intro fuel hfuel
      obtain ⟨fuel, rfl⟩ : ∃ f, fuel = f + 1 := ⟨fuel - 1, by omega⟩
      exact ⟨0, rfl⟩
    | some c =>
      obtain ⟨N, hN⟩ := check_children_some (h.acc hdag (h.child e c hc))
      exact ⟨N, fun fuel hfuel => hN fuel hfuel 0 0⟩
  choose N hN using hone
  refine ⟨Finset.univ.sup N, ?_⟩
  intro fuel hfuel e
  exact hN e fuel ((Finset.le_sup (Finset.mem_univ e)).trans hfuel)

/-! ## The reused deltas -/

theorem reuse_delta_links (objects : Fin n → object_entry n) (e b x : Fin n) :
    (reuse_delta objects (e, b) x).delta = (if x = e then some b else (objects x).delta) ∧
    (reuse_delta objects (e, b) x).delta_child =
      (if x = b then some e else (objects x).delta_child) ∧
    (reuse_delta objects (e, b) x).delta_sibling =
      (if x = e then (objects b).delta_child else (objects x).delta_sibling) := by
  unfold reuse_delta
  by_cases hb : x = b
  · subst hb
    by_cases he : x = e
    · subst he
      simp
    · simp [he]
  · by_cases he : x = e
    · subst he
      simp [hb]
    · simp [hb, he]

theorem Family.reuse_delta (h : Family objects) {e b : Fin n} (hnone : (objects e).delta = none) :
    Family (reuse_delta objects (e, b)) := by
  have hdelta := fun x => (reuse_delta_links objects e b x).1
  have hchild := fun x => (reuse_delta_links objects e b x).2.1
  have hsibling := fun x => (reuse_delta_links objects e b x).2.2
  have hne : ∀ {x b' : Fin n}, (objects x).delta = some b' → x ≠ e := by
    rintro x b' hx rfl
    simp [hnone] at hx
  -- the chains go on as before: the new entry is in none of them
  have hchain : ∀ {p : Option (Fin n)} {x : Fin n}, InChain objects p x → p ≠ some e →
      InChain (delta_window.reuse_delta objects (e, b)) p x := by
    intro p x hp
    induction hp with
    | child x => exact fun _ => .child x
    | @sibling c x _ ih =>
      intro hpe
      have hce : c ≠ e := fun hc => hpe (hc ▸ rfl)
      apply InChain.sibling
      rw [hsibling, if_neg hce]
      apply ih
      intro hs
      obtain ⟨b', _, hb'⟩ := h.sibling c e hs
      exact hne hb' rfl
  have hfirst : ∀ b', (objects b').delta_child ≠ some e := by
    intro b' hc
    exact hne (h.child b' e hc) rfl
  obtain ⟨age, count, hcount, hage⟩ := h.age
  refine ⟨?_, ?_, ?_, Function.update age e count, count + 1, ?_, ?_⟩
  · intro x b' hx
    rw [hdelta] at hx
    by_cases hxe : x = e
    · rw [if_pos hxe] at hx
      obtain rfl : b = b' := Option.some.inj hx
      rw [hchild, if_pos rfl, hxe]
      exact .child e
    · rw [if_neg hxe] at hx
      have hold := hchain (h.linked x b' hx) (hfirst b')
      rw [hchild]
      by_cases hb : b' = b
      · rw [if_pos hb]
        apply InChain.sibling
        rw [hsibling, if_pos rfl]
        exact hb ▸ hold
      · rw [if_neg hb]
        exact hold
  · intro b' c hc
    rw [hchild] at hc
    rw [hdelta]
    by_cases hb : b' = b
    · rw [if_pos hb] at hc
      obtain rfl : e = c := Option.some.inj hc
      rw [if_pos rfl, hb]
    · rw [if_neg hb] at hc
      have hold := h.child b' c hc
      rw [if_neg (hne hold)]
      exact hold
  · intro a c hc
    rw [hsibling] at hc
    by_cases ha : a = e
    · rw [if_pos ha] at hc
      have hold := h.child b c hc
      exact ⟨b, by rw [hdelta, if_pos ha], by rw [hdelta, if_neg (hne hold), hold]⟩
    · rw [if_neg ha] at hc
      obtain ⟨b', hab, hcb⟩ := h.sibling a c hc
      exact ⟨b', by rw [hdelta, if_neg ha, hab], by rw [hdelta, if_neg (hne hcb), hcb]⟩
  · intro a ha
    by_cases hae : a = e
    · subst hae
      simp
    · rw [hdelta, if_neg hae] at ha
      have := hcount a ha
      simp only [Function.update_of_ne hae]
      omega
  · intro a c hc
    rw [hsibling] at hc
    by_cases ha : a = e
    · rw [if_pos ha] at hc
      have hold := h.child b c hc
      have := hcount c (by simp [hold])
      rw [ha, Function.update_self, Function.update_of_ne (hne hold)]
      exact this
    · rw [if_neg ha] at hc
      obtain ⟨b', _, hcb⟩ := h.sibling a c hc
      rw [Function.update_of_ne ha, Function.update_of_ne (hne hcb)]
      exact hage a c hc

/-- An entry that nothing hangs below, and that is no delta. -/
def Unlinked (entry : object_entry n) : Prop :=
  entry.delta = none ∧ entry.delta_child = none ∧ entry.delta_sibling = none

theorem Family.of_unlinked (h : ∀ e, Unlinked (objects e)) : Family objects := by
  refine ⟨?_, ?_, ?_, fun _ => 0, 1, ?_, ?_⟩
  · intro e b he
    simp [(h e).1] at he
  · intro b c hc
    simp [(h b).2.1] at hc
  · intro a c hc
    simp [(h a).2.2] at hc
  · intro a _
    exact Nat.one_pos
  · intro a c hc
    simp [(h a).2.2] at hc

/-- Each object is checked once. -/
theorem Family.foldl {pairs : List (Fin n × Fin n)} (h : Family objects)
    (hnodup : (pairs.map Prod.fst).Nodup) (hnone : ∀ p ∈ pairs, (objects p.1).delta = none) :
    Family (pairs.foldl delta_window.reuse_delta objects) := by
  induction pairs generalizing objects with
  | nil => exact h
  | cons p pairs ih =>
    obtain ⟨e, b⟩ := p
    obtain ⟨hout, hnodup⟩ := List.nodup_cons.mp hnodup
    apply ih (h.reuse_delta (hnone (e, b) List.mem_cons_self)) hnodup
    intro q hq
    have hqe : q.1 ≠ e := by
      intro hc
      exact hout (List.mem_map.mpr ⟨q, hq, hc⟩)
    rw [(reuse_delta_links objects e b q.1).1, if_neg hqe]
    exact hnone q (List.mem_cons_of_mem _ hq)

/-! ## The window -/

/-- `t` differs from `s` in what the slots have loaded, and in the memory that
they take. -/
structure SameSlots (s t : search n) : Prop where
  objects : t.objects = s.objects
  idx : t.idx = s.idx
  count : t.count = s.count
  entry : ∀ i, (t.array i).entry = (s.array i).entry
  depth : ∀ i, (t.array i).depth = (s.array i).depth

theorem SameSlots.refl (s : search n) : SameSlots s s :=
  ⟨rfl, rfl, rfl, fun _ => rfl, fun _ => rfl⟩

theorem SameSlots.trans {s t u : search n} (h : SameSlots s t) (h' : SameSlots t u) :
    SameSlots s u :=
  ⟨h'.objects.trans h.objects, h'.idx.trans h.idx, h'.count.trans h.count,
    fun i => (h'.entry i).trans (h.entry i), fun i => (h'.depth i).trans (h.depth i)⟩

/-- A slot that keeps its entry and its depth. -/
theorem SameSlots.fill (s : search n) (i : Nat) (slot : unpacked n) (size : Nat)
    (hentry : slot.entry = (s.array i).entry) (hdepth : slot.depth = (s.array i).depth) :
    SameSlots s (s.fill i slot size) := by
  refine ⟨rfl, rfl, rfl, ?_, ?_⟩
  · intro j
    by_cases hj : j = i
    · subst hj
      simpa [search.fill, search.set_slot] using hentry
    · simp [search.fill, search.set_slot, hj]
  · intro j
    by_cases hj : j = i
    · subst hj
      simpa [search.fill, search.set_slot] using hdepth
    · simp [search.fill, search.set_slot, hj]

theorem load_same {env : environment n} {s t : search n} {i : Nat} {e : Fin n} {optional : Bool}
    {data : Option Bytes} (h : load env s i e optional = .ok (data, t)) : SameSlots s t := by
  unfold load at h
  cases hdata : (s.array i).data with
  | some bytes =>
    simp only [hdata, Except.ok.injEq, Prod.mk.injEq] at h
    exact h.2 ▸ SameSlots.refl s
  | none =>
    simp only [hdata] at h
    cases hread : env.read_sha1_file e with
    | none =>
      simp only [hread] at h
      split_ifs at h
      simp only [Except.ok.injEq, Prod.mk.injEq] at h
      exact h.2 ▸ SameSlots.refl s
    | some bytes =>
      simp only [hread] at h
      split_ifs at h
      simp only [Except.ok.injEq, Prod.mk.injEq] at h
      have hfill := SameSlots.fill s i { s.array i with data := some bytes } bytes.length rfl rfl
      exact h.2 ▸ hfill

theorem load_index_same {env : environment n} {s t : search n} {i : Nat} {data : Bytes} {b : Bool}
    (h : load_index env s i data = (b, t)) : SameSlots s t := by
  unfold load_index at h
  split at h
  · exact (Prod.mk.inj h).2 ▸ SameSlots.refl s
  split at h
  · exact (Prod.mk.inj h).2 ▸ SameSlots.refl s
  · next size _ =>
    have hfill := SameSlots.fill s i { s.array i with index := some size } size rfl rfl
    exact (Prod.mk.inj h).2 ▸ hfill

/-- The invariant of the search behind the objects `done`, over the table that
it began with. -/
structure Windowed (objects : Fin n → object_entry n) (window depth : Nat) (done : Fin n → Prop)
    (s : search n) : Prop where
  same : ∀ e, ¬ done e → (s.objects e).delta = (objects e).delta
  links : ∀ e, (s.objects e).delta_child = (objects e).delta_child ∧
    (s.objects e).delta_sibling = (objects e).delta_sibling
  found : ∀ e, done e → ∃ k, DepthIn s.objects done e k ∧
    ((s.objects e).delta ≠ none → ∀ d m, HangsBelow objects e d m → k + m ≤ depth)
  slot : ∀ i e, (s.array i).entry = some e → done e ∧ DepthIn s.objects done e (s.array i).depth
  idx : s.idx < window
  count : s.count < window

/-- The invariant while the slot at `idx` is tried for a delta. -/
structure Trying (objects : Fin n → object_entry n) (window depth : Nat) (done : Fin n → Prop)
    (entry : Fin n) (max_depth : Nat) (s : search n) : Prop where
  fresh : ¬ done entry
  same : ∀ e, ¬ done e → e ≠ entry → (s.objects e).delta = (objects e).delta
  links : ∀ e, (s.objects e).delta_child = (objects e).delta_child ∧
    (s.objects e).delta_sibling = (objects e).delta_sibling
  found : ∀ e, done e → ∃ k, DepthIn s.objects done e k ∧
    ((s.objects e).delta ≠ none → ∀ d m, HangsBelow objects e d m → k + m ≤ depth)
  slot : ∀ i e, i ≠ s.idx → (s.array i).entry = some e →
    done e ∧ DepthIn s.objects done e (s.array i).depth
  current : (s.array s.idx).entry = some entry
  own : ((s.objects entry).delta = none ∧ (s.array s.idx).depth = 0) ∨
    ∃ b k, (s.objects entry).delta = some b ∧ DepthIn s.objects done b k ∧
      (s.array s.idx).depth = k + 1 ∧ k + 1 ≤ max_depth
  idx : s.idx < window
  count : s.count < window

theorem Trying.congr {window depth max_depth : Nat} {entry : Fin n} {s t : search n}
    (h : Trying objects window depth done entry max_depth s) (hst : SameSlots s t) :
    Trying objects window depth done entry max_depth t := by
  obtain ⟨hobjects, hidx, hcount, hentry, hdepth⟩ := hst
  refine ⟨h.fresh, ?_, ?_, ?_, ?_, ?_, ?_, hidx ▸ h.idx, hcount ▸ h.count⟩
  · rw [hobjects]
    exact h.same
  · rw [hobjects]
    exact h.links
  · rw [hobjects]
    exact h.found
  · intro i e hi he
    rw [hobjects, hdepth]
    exact h.slot i e (hidx ▸ hi) (hentry i ▸ he)
  · rw [hidx, hentry]
    exact h.current
  · rw [hobjects, hidx, hdepth]
    exact h.own

/-- What is said of the objects that are done does not depend on `entry`. -/
theorem Trying.depth_update {window depth max_depth : Nat} {entry : Fin n} {s : search n}
    (h : Trying objects window depth done entry max_depth s) (new : object_entry n) {e : Fin n}
    {k : Nat} (hk : DepthIn s.objects done e k) :
    DepthIn (Function.update s.objects entry new) done e k := by
  apply hk.mono
  · intro x hx
    have hne : x ≠ entry := by
      rintro rfl
      exact h.fresh hx
    rw [Function.update_of_ne hne]
  · exact fun _ h => h

/-- The current object becomes a delta against the object of another slot. -/
theorem Trying.record {env : environment n} {window depth max_depth : Nat} {entry m : Fin n}
    {s : search n} (h : Trying objects window depth done entry max_depth s) {src : Nat}
    (hsrc : src ≠ s.idx) (hm : (s.array src).entry = some m)
    (hlt : (s.array src).depth < max_depth) (delta_buf : Bytes) :
    Trying objects window depth done entry max_depth
      (record_delta env s s.idx entry m (s.array src).depth delta_buf) := by
  obtain ⟨_, hdepth⟩ := h.slot src m hsrc hm
  have hother : ∀ {e : Fin n}, done e → e ≠ entry := by
    rintro e he rfl
    exact h.fresh he
  unfold record_delta
  refine ⟨h.fresh, ?_, ?_, ?_, ?_, ?_, Or.inr ⟨m, (s.array src).depth, ?_, ?_, ?_, hlt⟩, h.idx,
    h.count⟩
  · intro e he hne
    simp only [Function.update_of_ne hne]
    exact h.same e he hne
  · intro e
    by_cases he : e = entry
    · subst he
      simpa using h.links e
    · simp only [Function.update_of_ne he]
      exact h.links e
  · intro e he
    obtain ⟨k, hk, hbound⟩ := h.found e he
    refine ⟨k, h.depth_update _ hk, ?_⟩
    simp only [Function.update_of_ne (hother he)]
    exact hbound
  · intro i e hi he
    have hi' : i ≠ s.idx := hi
    simp only [search.set_slot, Function.update_of_ne hi'] at he ⊢
    obtain ⟨hdone, hk⟩ := h.slot i e hi' he
    exact ⟨hdone, h.depth_update _ hk⟩
  · simpa [search.set_slot] using h.current
  · simp
  · exact h.depth_update _ hdepth
  · simp [search.set_slot]

theorem try_delta_trying {env : environment n} {window depth max_depth : Nat} {entry m : Fin n}
    {s t : search n} (h : Trying objects window depth done entry max_depth s) {src : Nat}
    (hsrc : src ≠ s.idx) (hm : (s.array src).entry = some m) {ret : Int}
    (ht : try_delta env s s.idx src entry m max_depth = .ok (ret, t)) :
    Trying objects window depth done entry max_depth t ∧ t.idx = s.idx := by
  have hsame : ∀ {u : search n} {r : Int}, SameSlots s u →
      Except.ok (r, u) = (Except.ok (ret, t) : Except stop _) →
      Trying objects window depth done entry max_depth t ∧ t.idx = s.idx := by
    intro u r hu heq
    obtain ⟨_, rfl⟩ := Prod.mk.inj (Except.ok.inj heq)
    exact ⟨h.congr hu, hu.idx⟩
  unfold try_delta at ht
  simp only at ht
  split_ifs at ht with htype htried hdeep
  · exact hsame (SameSlots.refl s) ht
  · exact hsame (SameSlots.refl s) ht
  · exact hsame (SameSlots.refl s) ht
  split at ht
  · exact hsame (SameSlots.refl s) ht
  split at ht
  · simp at ht
  · next hload => exact hsame (load_same hload) ht
  next s1 hload =>
  have h1 := load_same hload
  split at ht
  · simp at ht
  · next hload' => exact hsame (h1.trans (load_same hload')) ht
  next s2 hload' =>
  have h2 := h1.trans (load_same hload')
  split at ht
  · next hindex => exact hsame (h2.trans (load_index_same hindex)) ht
  next s3 hindex =>
  have h3 := h2.trans (load_index_same hindex)
  split at ht
  · exact hsame h3 ht
  split_ifs at ht
  · exact hsame h3 ht
  · obtain ⟨_, rfl⟩ := Prod.mk.inj (Except.ok.inj ht)
    have hlt : (s3.array src).depth < max_depth := by
      rw [h3.depth]
      omega
    have hrecord := @Trying.record n objects done env window depth max_depth entry m s3
      (h.congr h3) src (h3.idx ▸ hsrc) ((h3.entry src).trans hm) hlt
    rw [h3.idx, h3.depth] at hrecord
    exact ⟨hrecord _, h3.idx⟩

theorem try_window_trying {env : environment n} {window depth max_depth : Nat} {entry : Fin n}
    (j : Nat) {best_base best_base' : Option Nat} {s t : search n}
    (h : Trying objects window depth done entry max_depth s) (hj : j < window)
    (ht : try_window env window entry max_depth j best_base s = .ok (best_base', t)) :
    Trying objects window depth done entry max_depth t ∧ t.idx = s.idx := by
  induction j generalizing s best_base with
  | zero =>
    obtain ⟨_, rfl⟩ := Prod.mk.inj (Except.ok.inj ht)
    exact ⟨h, rfl⟩
  | succ j ih =>
    unfold try_window at ht
    simp only at ht
    generalize hother : (if window ≤ s.idx + (j + 1) then s.idx + (j + 1) - window
      else s.idx + (j + 1)) = other_idx at ht
    have hne : other_idx ≠ s.idx := by
      have := h.idx
      split_ifs at hother <;> omega
    split at ht
    · obtain ⟨_, rfl⟩ := Prod.mk.inj (Except.ok.inj ht)
      exact ⟨h, rfl⟩
    next m hm =>
    split at ht
    · simp at ht
    next ret u hu =>
    obtain ⟨hkeep, hidx⟩ := try_delta_trying h hne hm hu
    split_ifs at ht
    · obtain ⟨_, rfl⟩ := Prod.mk.inj (Except.ok.inj ht)
      exact ⟨hkeep, hidx⟩
    · obtain ⟨hend, hsame⟩ := ih hkeep (by omega) ht
      exact ⟨hend, hsame.trans hidx⟩
    · obtain ⟨hend, hsame⟩ := ih hkeep (by omega) ht
      exact ⟨hend, hsame.trans hidx⟩

/-- Another slot may be emptied. -/
theorem Trying.free {window depth max_depth : Nat} {entry : Fin n} {s : search n}
    (h : Trying objects window depth done entry max_depth s) {i count : Nat} (hi : i ≠ s.idx)
    (hcount : count < window) : Trying objects window depth done entry max_depth
      { free_unpacked s i with count := count } := by
  have hself : (free_unpacked s i).array s.idx = s.array s.idx := by
    simp [free_unpacked, search.set_slot, Function.update_of_ne hi.symm]
  refine ⟨h.fresh, h.same, h.links, h.found, ?_, ?_, ?_, h.idx, hcount⟩
  · intro j e hj he
    by_cases hji : j = i
    · subst hji
      simp [free_unpacked, search.set_slot, empty_slot] at he
    · simp only [free_unpacked, search.set_slot, Function.update_of_ne hji] at he ⊢
      exact h.slot j e hj he
  · exact (congrArg unpacked.entry hself).trans h.current
  · show ((s.objects entry).delta = none ∧ ((free_unpacked s i).array s.idx).depth = 0) ∨
      ∃ b k, (s.objects entry).delta = some b ∧ DepthIn s.objects done b k ∧
        ((free_unpacked s i).array s.idx).depth = k + 1 ∧ k + 1 ≤ max_depth
    rw [hself]
    exact h.own

theorem evict_trying (env : environment n) {window depth max_depth : Nat} {entry : Fin n} (k : Nat)
    {s : search n} (h : Trying objects window depth done entry max_depth s) :
    Trying objects window depth done entry max_depth (evict env window k s) := by
  induction k generalizing s with
  | zero => exact h
  | succ k ih =>
    unfold evict
    split_ifs with hfull
    · apply ih
      have hidx := h.idx
      have hcount := h.count
      refine h.free ?_ (by omega)
      -- the tail is not the current slot: fewer slots are in use than there are
      by_cases hle : s.count ≤ s.idx
      · have heq : s.idx + window - s.count = (s.idx - s.count) + window := by omega
        rw [heq, Nat.add_mod_right, Nat.mod_eq_of_lt (by omega)]
        omega
      · rw [Nat.mod_eq_of_lt (by omega)]
        omega
    · exact h

theorem take_slot_trying (env : environment n) {window depth : Nat} {s : search n}
    (h : Windowed objects window depth done s) {entry : Fin n} (hfresh : ¬ done entry)
    (hnone : (s.objects entry).delta = none) (max_depth : Nat) :
    Trying objects window depth done entry max_depth (take_slot env window s entry) := by
  apply evict_trying
  refine ⟨hfresh, fun e he _ => h.same e he, h.links, h.found, ?_, ?_, Or.inl ⟨hnone, ?_⟩, h.idx,
    h.count⟩
  · intro i e hi he
    have hi' : i ≠ s.idx := hi
    simp only [free_unpacked, search.set_slot, Function.update_of_ne hi'] at he ⊢
    exact h.slot i e he
  · simp [free_unpacked, search.set_slot]
  · simp [free_unpacked, search.set_slot, empty_slot]

theorem evict_idx (env : environment n) (window k : Nat) (s : search n) :
    (evict env window k s).idx = s.idx ∧ (evict env window k s).objects = s.objects := by
  induction k generalizing s with
  | zero => exact ⟨rfl, rfl⟩
  | succ k ih =>
    unfold evict
    split_ifs
    · exact ih _
    · exact ⟨rfl, rfl⟩

theorem compress_cached_trying (env : environment n) {window depth max_depth : Nat}
    {entry : Fin n} {s : search n} (h : Trying objects window depth done entry max_depth s) :
    Trying objects window depth done entry max_depth (compress_cached env s entry) := by
  have hdelta : ∀ e, ((compress_cached env s entry).objects e).delta = (s.objects e).delta ∧
      ((compress_cached env s entry).objects e).delta_child = (s.objects e).delta_child ∧
      ((compress_cached env s entry).objects e).delta_sibling = (s.objects e).delta_sibling := by
    intro e
    unfold compress_cached
    split
    · split_ifs
      · exact ⟨rfl, rfl, rfl⟩
      · by_cases he : e = entry
        · subst he
          simp
        · simp [he]
    · exact ⟨rfl, rfl, rfl⟩
  have hsame : (compress_cached env s entry).array = s.array ∧
      (compress_cached env s entry).idx = s.idx ∧
      (compress_cached env s entry).count = s.count := by
    unfold compress_cached
    split
    · split_ifs <;> exact ⟨rfl, rfl, rfl⟩
    · exact ⟨rfl, rfl, rfl⟩
  obtain ⟨harray, hidx, hcount⟩ := hsame
  have hdepth : ∀ {e : Fin n} {k : Nat}, DepthIn s.objects done e k →
      DepthIn (compress_cached env s entry).objects done e k := by
    intro e k hk
    exact hk.mono (fun x _ => (hdelta x).1) (fun _ h => h)
  refine ⟨h.fresh, ?_, ?_, ?_, ?_, ?_, ?_, hidx ▸ h.idx, hcount ▸ h.count⟩
  · intro e he hne
    rw [(hdelta e).1]
    exact h.same e he hne
  · intro e
    rw [(hdelta e).2.1, (hdelta e).2.2]
    exact h.links e
  · intro e he
    obtain ⟨k, hk, hbound⟩ := h.found e he
    refine ⟨k, hdepth hk, ?_⟩
    rw [(hdelta e).1]
    exact hbound
  · intro i e hi he
    rw [harray] at he ⊢
    obtain ⟨hdone, hk⟩ := h.slot i e (hidx ▸ hi) he
    exact ⟨hdone, hdepth hk⟩
  · rw [harray, hidx]
    exact h.current
  · rw [harray, hidx, (hdelta entry).1]
    rcases h.own with hown | ⟨b, k, hb, hk, hd, hle⟩
    · exact Or.inl hown
    · exact Or.inr ⟨b, k, hb, hdepth hk, hd, hle⟩

/-- The slots after a move are slots from before. -/
theorem move_up_slots {window : Nat} {swap : unpacked n} {array₀ : Nat → unpacked n} (dist : Nat)
    {dst : Nat} {array : Nat → unpacked n} (hswap : ∃ j, swap = array₀ j)
    (h : ∀ i, ∃ j, array i = array₀ j) (i : Nat) :
    ∃ j, move_up window swap dist dst array i = array₀ j := by
  induction dist generalizing dst array with
  | zero =>
    unfold move_up
    by_cases hi : i = dst
    · rw [hi, Function.update_self]
      exact hswap
    · rw [Function.update_of_ne hi]
      exact h i
  | succ dist ih =>
    unfold move_up
    apply ih
    intro i
    by_cases hi : i = dst
    · rw [hi, Function.update_self]
      exact h _
    · rw [Function.update_of_ne hi]
      exact h i

theorem keep_best_base_windowed {window depth : Nat} {s : search n}
    (h : Windowed objects window depth done s) (best_base : Option Nat) :
    Windowed objects window depth done (keep_best_base window s best_base) := by
  unfold keep_best_base
  cases best_base with
  | none => exact h
  | some best_base =>
    refine ⟨h.same, h.links, h.found, ?_, h.idx, h.count⟩
    intro i e he
    have hfrom : ∃ j, move_up window (s.array best_base) ((window + s.idx - best_base) % window)
        best_base s.array i = s.array j :=
      move_up_slots _ ⟨best_base, rfl⟩ (fun i => ⟨i, rfl⟩) i
    obtain ⟨j, hj⟩ := hfrom
    simp only [hj] at he ⊢
    exact h.slot j e he

theorem next_windowed {window depth : Nat} {s : search n}
    (h : Windowed objects window depth done s) :
    Windowed objects window depth done (next window s) := by
  have hidx := h.idx
  have hcount := h.count
  refine ⟨h.same, h.links, h.found, h.slot, ?_, ?_⟩
  · unfold next
    simp only
    split_ifs <;> omega
  · unfold next
    simp only
    split_ifs <;> omega

/-- The current object is done. -/
theorem Trying.finish {window depth max_depth : Nat} {entry : Fin n} {s : search n}
    (h : Trying objects window depth done entry max_depth s)
    (hbound : (s.objects entry).delta ≠ none →
      ∀ d m, HangsBelow objects entry d m → max_depth + m ≤ depth) :
    Windowed objects window depth (fun e => done e ∨ e = entry) s := by
  have hmono : ∀ {e : Fin n} {k : Nat}, DepthIn s.objects done e k →
      DepthIn s.objects (fun e => done e ∨ e = entry) e k := by
    intro e k hk
    exact hk.mono (fun _ _ => rfl) (fun _ h => Or.inl h)
  have hown : DepthIn s.objects (fun e => done e ∨ e = entry) entry (s.array s.idx).depth ∧
      ((s.objects entry).delta ≠ none → (s.array s.idx).depth ≤ max_depth) := by
    rcases h.own with ⟨hnone, hd⟩ | ⟨b, k, hb, hk, hd, hle⟩
    · rw [hd]
      exact ⟨.whole (Or.inr rfl) hnone, fun hne => absurd hnone hne⟩
    · rw [hd]
      exact ⟨.delta (Or.inr rfl) hb (hmono hk), fun _ => hle⟩
  refine ⟨?_, h.links, ?_, ?_, h.idx, h.count⟩
  · intro e he
    push Not at he
    exact h.same e he.1 he.2
  · rintro e (he | rfl)
    · obtain ⟨k, hk, hle⟩ := h.found e he
      exact ⟨k, hmono hk, hle⟩
    · refine ⟨_, hown.1, ?_⟩
      intro hne d m hd
      have := hbound hne d m hd
      have := hown.2 hne
      omega
  · intro i e he
    by_cases hi : i = s.idx
    · subst hi
      obtain rfl : entry = e := Option.some.inj (h.current.symm.trans he)
      exact ⟨Or.inr rfl, hown.1⟩
    · obtain ⟨hdone, hk⟩ := h.slot i e hi he
      exact ⟨Or.inl hdone, hmono hk⟩

/-! ## The list -/

theorem check_children_congr (h : ∀ e, (objects' e).delta_child = (objects e).delta_child ∧
      (objects' e).delta_sibling = (objects e).delta_sibling) (fuel : Nat) (p : Option (Fin n))
    (k m : Nat) : check_children objects' fuel p k m = check_children objects fuel p k m := by
  induction fuel generalizing p k m with
  | zero => rfl
  | succ fuel ih =>
    cases p with
    | none => rfl
    | some c =>
      unfold check_children
      simp only [(h c).1, (h c).2, ih]

theorem check_delta_limit_congr (h : ∀ e, (objects' e).delta_child = (objects e).delta_child ∧
      (objects' e).delta_sibling = (objects e).delta_sibling) (fuel : Nat) (e : Fin n) (k : Nat) :
    check_delta_limit objects' fuel e k = check_delta_limit objects fuel e k := by
  unfold check_delta_limit
  rw [(h e).1]
  exact check_children_congr h fuel _ k k

/-- What hangs below the entry fits above the depth that is left for it. -/
theorem depth_left_bound (hfamily : Family objects) {fuel depth : Nat} {s : search n}
    (hlinks : ∀ e, (s.objects e).delta_child = (objects e).delta_child ∧
      (s.objects e).delta_sibling = (objects e).delta_sibling) {entry : Fin n} {max_depth : Int}
    (h : depth_left fuel depth s entry = some max_depth)
    (hpos : ¬ ((s.objects entry).delta_child.isSome ∧ max_depth ≤ 0)) {d : Fin n} {m : Nat}
    (hd : HangsBelow objects entry d m) : max_depth.toNat + m ≤ depth := by
  unfold depth_left at h
  split_ifs at h with hchild
  · obtain ⟨limit, hlimit, hmax⟩ := Option.map_eq_some_iff.mp h
    rw [check_delta_limit_congr hlinks] at hlimit
    have hge := check_delta_limit_ge hfamily hlimit hd
    have : ¬ max_depth ≤ 0 := fun hle => hpos ⟨hchild, hle⟩
    omega
  · have hm : m = 0 := by
      cases m with
      | zero => rfl
      | succ m =>
        obtain ⟨c, hc, _⟩ := hd.last
        have hin := hfamily.linked c entry hc
        rw [← (hlinks entry).1] at hin
        have hnone : (s.objects entry).delta_child = none := by simpa using hchild
        rw [hnone] at hin
        cases hin
    obtain rfl : (depth : Int) = max_depth := Option.some.inj h
    omega

theorem find_delta_windowed {env : environment n} (hfamily : Family objects)
    {fuel window depth : Nat} {s t : search n} (h : Windowed objects window depth done s)
    {entry : Fin n} (hfresh : ¬ done entry) (hnone : (objects entry).delta = none)
    (ht : find_delta env fuel window depth s entry = .ok t) :
    Windowed objects window depth (fun e => done e ∨ e = entry) t := by
  have hwhole : (s.objects entry).delta = none := (h.same entry hfresh).trans hnone
  have htaken := take_slot_trying env h hfresh hwhole
  have hstill : ((take_slot env window s entry).objects entry).delta = none := by
    have hsame := (evict_idx env window s.count
      ((free_unpacked s s.idx).set_slot s.idx
        { (free_unpacked s s.idx).array s.idx with entry := some entry })).2
    have hobjects : (take_slot env window s entry).objects = s.objects := hsame
    rw [hobjects]
    exact hwhole
  unfold find_delta at ht
  simp only at ht
  generalize take_slot env window s entry = u at ht htaken hstill
  have hskip : Windowed objects window depth (fun e => done e ∨ e = entry) (next window u) :=
    next_windowed ((htaken 0).finish fun hne => absurd hstill hne)
  split_ifs at ht
  · exact Except.ok.inj ht ▸ hskip
  split at ht
  · simp at ht
  next max_depth hleft =>
  split_ifs at ht with hpos
  · exact Except.ok.inj ht ▸ hskip
  split at ht
  · simp at ht
  next best_base v hv =>
  have hwindow := h.idx
  obtain ⟨htried, _⟩ := try_window_trying _ (htaken max_depth.toNat) (by omega) hv
  have hdone := (compress_cached_trying env htried).finish fun _ d m hd =>
    depth_left_bound hfamily (htaken 0).links hleft hpos hd
  split_ifs at ht
  · exact Except.ok.inj ht ▸ hdone
  · exact Except.ok.inj ht ▸ next_windowed (keep_best_base_windowed hdone best_base)
  · exact Except.ok.inj ht ▸ next_windowed hdone

theorem find_deltas_windowed {env : environment n} (hfamily : Family objects)
    {fuel window depth : Nat} {list : List (Fin n)} {s t : search n}
    (h : Windowed objects window depth done s) (hnodup : list.Nodup)
    (hfresh : ∀ e ∈ list, ¬ done e ∧ (objects e).delta = none)
    (ht : find_deltas env fuel window depth list s = .ok t) :
    Windowed objects window depth (fun e => done e ∨ e ∈ list) t := by
  induction list generalizing s done with
  | nil =>
    obtain rfl := Except.ok.inj ht
    simpa using h
  | cons entry list ih =>
    unfold find_deltas at ht
    split at ht
    · simp at ht
    next u hu =>
    obtain ⟨hout, hnodup⟩ := List.nodup_cons.mp hnodup
    obtain ⟨hnew, hnone⟩ := hfresh entry List.mem_cons_self
    have hone := find_delta_windowed hfamily h hnew hnone hu
    have hrest := ih hone hnodup (fun e he => ⟨?_, (hfresh e (List.mem_cons_of_mem _ he)).2⟩) ht
    · simpa [or_assoc] using hrest
    · rintro (hd | rfl)
      · exact (hfresh e (List.mem_cons_of_mem _ he)).1 hd
      · exact hout he

theorem start_windowed {window depth : Nat} (hwindow : 0 < window) (delta_cache_size : Nat) :
    Windowed objects window depth (fun _ => False) (start objects delta_cache_size) := by
  refine ⟨fun _ _ => rfl, fun _ => ⟨rfl, rfl⟩, by simp, ?_, hwindow, hwindow⟩
  intro i e he
  simp [start, empty_slot] at he

/-- Behind the search every object has a depth: those that are done have one,
and the others hang below them, as they did before. -/
theorem Windowed.depth {window depth : Nat} {s : search n}
    (h : Windowed objects window depth done s) (hdag : Acyclic (Base objects)) (e : Fin n) :
    ∃ k, Depth s.objects e k := by
  induction e using hdag.swap.wf.induction with
  | _ e ih =>
    by_cases he : done e
    · obtain ⟨k, hk, _⟩ := h.found e he
      exact ⟨k, hk.mono (fun _ _ => rfl) (fun _ _ => trivial)⟩
    · cases hdelta : (objects e).delta with
      | none => exact ⟨0, .whole trivial ((h.same e he).trans hdelta)⟩
      | some b =>
        obtain ⟨k, hk⟩ := ih b hdelta
        exact ⟨k + 1, .delta trivial ((h.same e he).trans hdelta) hk⟩

/-! ## The fuel -/

theorem load_fuel (env : environment n) (s : search n) (i : Nat) (e : Fin n) (optional : Bool) :
    load env s i e optional ≠ .error .no_fuel := by
  unfold load
  split
  · simp
  split
  · split_ifs <;> simp
  · split_ifs <;> simp

theorem try_delta_fuel (env : environment n) (s : search n) (trg src : Nat) (e m : Fin n)
    (max_depth : Nat) : try_delta env s trg src e m max_depth ≠ .error .no_fuel := by
  unfold try_delta
  simp only
  split_ifs
  · simp
  · simp
  · simp
  split
  · simp
  split
  · next d hd =>
    rintro hc
    rw [Except.error.inj hc] at hd
    exact load_fuel env s trg e false hd
  · simp
  split
  · next d hd =>
    rintro hc
    rw [Except.error.inj hc] at hd
    exact load_fuel env _ src m _ hd
  · simp
  split
  · simp
  split
  · simp
  split_ifs <;> simp

theorem try_window_fuel (env : environment n) (window : Nat) (e : Fin n) (max_depth j : Nat)
    (best_base : Option Nat) (s : search n) :
    try_window env window e max_depth j best_base s ≠ .error .no_fuel := by
  induction j generalizing best_base s with
  | zero => simp [try_window]
  | succ j ih =>
    unfold try_window
    simp only
    generalize (if window ≤ s.idx + (j + 1) then s.idx + (j + 1) - window
      else s.idx + (j + 1)) = other_idx
    split
    · simp
    split
    · next d hd =>
      rintro hc
      rw [Except.error.inj hc] at hd
      exact try_delta_fuel env s s.idx _ e _ max_depth hd
    split_ifs
    · simp
    · exact ih _ _
    · exact ih _ _

theorem find_delta_fuel {env : environment n} {fuel window depth : Nat} {s : search n}
    (hlinks : ∀ e, (s.objects e).delta_child = (objects e).delta_child ∧
      (s.objects e).delta_sibling = (objects e).delta_sibling)
    (hfuel : ∀ e, ∃ limit, check_delta_limit objects fuel e 0 = some limit) (entry : Fin n) :
    find_delta env fuel window depth s entry ≠ .error .no_fuel := by
  have hobjects : (take_slot env window s entry).objects = s.objects :=
    (evict_idx env window s.count ((free_unpacked s s.idx).set_slot s.idx
      { (free_unpacked s s.idx).array s.idx with entry := some entry })).2
  have hleft : depth_left fuel depth (take_slot env window s entry) entry ≠ none := by
    obtain ⟨limit, hlimit⟩ := hfuel entry
    rw [← check_delta_limit_congr hlinks, ← hobjects] at hlimit
    unfold depth_left
    split_ifs
    · simp [hlimit]
    · simp
  unfold find_delta
  simp only
  split_ifs
  · simp
  split
  · next hnone => exact absurd hnone hleft
  split_ifs
  · simp
  split
  · next d hd =>
    rintro hc
    rw [Except.error.inj hc] at hd
    exact try_window_fuel env window entry _ _ _ _ hd
  split_ifs <;> simp

theorem find_deltas_fuel {env : environment n} (hfamily : Family objects)
    {fuel window depth : Nat} {list : List (Fin n)} {s : search n}
    (h : Windowed objects window depth done s) (hnodup : list.Nodup)
    (hfresh : ∀ e ∈ list, ¬ done e ∧ (objects e).delta = none)
    (hfuel : ∀ e, ∃ limit, check_delta_limit objects fuel e 0 = some limit) :
    find_deltas env fuel window depth list s ≠ .error .no_fuel := by
  induction list generalizing s done with
  | nil => simp [find_deltas]
  | cons entry list ih =>
    unfold find_deltas
    split
    · next d hd =>
      rintro hc
      rw [Except.error.inj hc] at hd
      exact find_delta_fuel h.links hfuel entry hd
    next u hu =>
    obtain ⟨hout, hnodup⟩ := List.nodup_cons.mp hnodup
    obtain ⟨hnew, hnone⟩ := hfresh entry List.mem_cons_self
    refine ih (find_delta_windowed hfamily h hnew hnone hu) hnodup fun e he => ⟨?_, ?_⟩
    · rintro (hd | rfl)
      · exact (hfresh e (List.mem_cons_of_mem _ he)).1 hd
      · exact hout he
    · exact (hfresh e (List.mem_cons_of_mem _ he)).2

/-! ## The search -/

/-- **Deltas make no cycle and are not too deep.** The search over a list of
objects that are not deltas, among reused deltas without a cycle, comes to
its end (or git dies of an object that cannot be read). No delta chain is a
cycle then, and the depth of an object that became a delta, with the reused
deltas that hang below it, is at most `depth`. -/
theorem deltas_make_no_cycle_and_are_not_too_deep (env : environment n)
    {checked : Fin n → object_entry n} (hnew : ∀ e, Unlinked (checked e))
    {pairs : List (Fin n × Fin n)} (hpairs : (pairs.map Prod.fst).Nodup)
    (hdag : Acyclic (Base (pairs.foldl reuse_delta checked))) {window : Nat}
    (hwindow : 0 < window) (depth : Nat) {list : List (Fin n)} (hlist : list.Nodup)
    (hwhole : ∀ e ∈ list, (pairs.foldl reuse_delta checked e).delta = none)
    (delta_cache_size : Nat) :
    ∃ N, ∀ fuel ≥ N,
      find_deltas env fuel window depth list
        (start (pairs.foldl reuse_delta checked) delta_cache_size) ≠ .error .no_fuel ∧
      ∀ t, find_deltas env fuel window depth list
          (start (pairs.foldl reuse_delta checked) delta_cache_size) = .ok t →
        Acyclic (Base t.objects) ∧
        ∀ e ∈ list, (t.objects e).delta ≠ none → ∃ k, Depth t.objects e k ∧
          ∀ d m, HangsBelow (pairs.foldl reuse_delta checked) e d m → k + m ≤ depth := by
  have hfamily : Family (pairs.foldl reuse_delta checked) :=
    (Family.of_unlinked hnew).foldl hpairs fun p _ => (hnew p.1).1
  obtain ⟨N, hN⟩ := hfamily.exists_fuel hdag
  have hstart := @start_windowed n (pairs.foldl reuse_delta checked) window depth hwindow
    delta_cache_size
  refine ⟨N, fun fuel hfuel => ⟨?_, ?_⟩⟩
  · exact find_deltas_fuel hfamily hstart hlist (fun e he => ⟨id, hwhole e he⟩) (hN fuel hfuel)
  · intro t ht
    have hend := find_deltas_windowed hfamily hstart hlist (fun e he => ⟨id, hwhole e he⟩) ht
    refine ⟨acyclic_of_depth (hend.depth hdag), ?_⟩
    intro e he hne
    obtain ⟨k, hk, hbound⟩ := hend.found e (Or.inr he)
    exact ⟨k, hk.mono (fun _ _ => rfl) (fun _ _ => trivial), hbound hne⟩

def a_blob (n : Nat) : object_entry n :=
  { size := 100, in_pack := some 0, in_pack_type := .whole .OBJ_BLOB, type := .whole .OBJ_BLOB
    delta := none, delta_child := none, delta_sibling := none, delta_data := none
    delta_size := 0, z_delta_size := 0, preferred_base := false }

/-- Any object has a hundred bytes, and any two have a delta of seven. -/
def hundred_bytes (n : Nat) : environment n :=
  { reuse_delta := false, pack_to_stdout := true, window_memory_limit := 0
    max_delta_cache_size := 0, cache_max_small_delta_size := 1000
    read_sha1_file := fun _ => some (List.replicate 100 0)
    create_delta_index := fun _ => some 10
    create_delta := fun _ _ _ => some (List.replicate 7 0)
    do_compress := fun buf => buf }

theorem one_reused_delta_and_a_window_of_two :
    ∃ N, ∀ fuel ≥ N, ∀ t, find_deltas (hundred_bytes 3) fuel 2 5 [1, 0]
        (start ([(2, 0)].foldl reuse_delta fun _ => a_blob 3) 0) = .ok t →
      Acyclic (Base t.objects) := by
  have hbase : ∀ a b, Base ([(2, 0)].foldl reuse_delta fun _ => a_blob 3) a b → a = 2 ∧ b = 0 := by
    intro a b hab
    have hdelta := (reuse_delta_links (fun _ => a_blob 3) 2 0 a).1
    have hab' : (reuse_delta (fun _ => a_blob 3) (2, 0) a).delta = some b := hab
    rw [hdelta] at hab'
    split_ifs at hab' with ha
    · exact ⟨ha, (Option.some.inj hab').symm⟩
    · simp [a_blob] at hab'
  have hdag : Acyclic (Base ([(2, 0)].foldl reuse_delta fun _ => a_blob 3)) := by
    intro e he
    obtain ⟨b, hb, _⟩ := TransGen.head'_iff.mp he
    obtain ⟨c, _, hc⟩ := TransGen.tail'_iff.mp he
    have h1 := (hbase e b hb).1
    have h2 := (hbase c e hc).2
    simp [h1] at h2
  have hwindow : 0 < 2 := by omega
  have hlist : [(1 : Fin 3), 0].Nodup := by decide
  have hwhole : ∀ e ∈ [(1 : Fin 3), 0],
      ([(2, 0)].foldl reuse_delta (fun _ => a_blob 3) e).delta = none := by
    intro e he
    have hdelta := (reuse_delta_links (fun _ => a_blob 3) 2 0 e).1
    have hne : e ≠ 2 := by
      rintro rfl
      simp at he
    exact hdelta.trans (if_neg hne)
  obtain ⟨N, hN⟩ := deltas_make_no_cycle_and_are_not_too_deep (hundred_bytes 3)
    (fun _ => ⟨rfl, rfl, rfl⟩) (by simp) hdag hwindow 5 hlist hwhole 0
  exact ⟨N, fun fuel hfuel t ht => ((hN fuel hfuel).2 t ht).1⟩

end git.delta_window
