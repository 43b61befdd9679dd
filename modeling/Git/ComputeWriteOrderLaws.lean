-- The order of the objects holds each of them once: the walk over the links of a family
-- comes to every member, and ends. Where the bases of an object that is left for the
-- families go round in a cycle, the search for its root does not end.
import Git.ComputeWriteOrder

open Relation

namespace git.pack_objects

open forest turns

variable {n : Nat} {objects : Fin n → object_entry n} {tagged : Fin n → Bool}
  {links : delta_links n}

/-! ## The links -/

/-- The links go through the deltas in `l`. -/
structure Linked (objects : Fin n → object_entry n) (l : List (Fin n)) (links : delta_links n) :
    Prop where
  chain : ∀ base, Chain links.delta_sibling (links.delta_child base)
    (l.filter fun e => (objects e).delta = some base)
  outside : ∀ e, e ∉ l ∨ (objects e).delta = none → links.delta_sibling e = none

theorem connect_linked {l : List (Fin n)} {e : Fin n} (he : e ∉ l) (h : Linked objects l links) :
    Linked objects (e :: l) (connect objects e links) := by
  unfold connect
  cases hdelta : (objects e).delta with
  | none =>
    refine ⟨fun base => ?_, fun x hx => h.outside x ?_⟩
    · rw [List.filter_cons_of_neg (by rw [hdelta]; simp)]
      exact h.chain base
    · exact hx.imp_left fun hx hl => hx (List.mem_cons_of_mem e hl)
  | some base =>
    have hother : ∀ x ∈ l, Function.update links.delta_sibling e (links.delta_child base) x =
        links.delta_sibling x := by
      intro x hx
      rw [Function.update_of_ne]
      rintro rfl
      exact he hx
    refine ⟨fun base' => ?_, fun x hx => ?_⟩ <;> dsimp only
    · by_cases hbase : base' = base
      · subst hbase
        rw [List.filter_cons_of_pos (by rw [hdelta]; simp), Function.update_self]
        refine ⟨rfl, ?_⟩
        rw [Function.update_self]
        exact (h.chain base').congr fun x hx => hother x (List.mem_filter.mp hx).1
      · rw [List.filter_cons_of_neg (by rw [hdelta]; simpa using fun h => hbase h.symm),
          Function.update_of_ne hbase]
        exact (h.chain base').congr fun x hx => hother x (List.mem_filter.mp hx).1
    · have hxe : x ≠ e := by
        rintro rfl
        rcases hx with hx | hx
        · exact hx List.mem_cons_self
        · rw [hdelta] at hx
          cases hx
      rw [Function.update_of_ne hxe]
      exact h.outside x (hx.imp_left fun hx hl => hx (List.mem_cons_of_mem e hl))

theorem connected_linked (objects : Fin n → object_entry n) :
    Linked objects (List.finRange n) (connected objects) := by
  unfold connected
  have hnodup := List.nodup_finRange n
  generalize List.finRange n = l at hnodup ⊢
  induction l with
  | nil => exact ⟨fun _ => rfl, fun _ _ => rfl⟩
  | cons e l ih =>
    obtain ⟨he, hl⟩ := List.nodup_cons.mp hnodup
    exact connect_linked he (ih hl)

/-! ## More turns change nothing -/

@[simp] theorem add_siblings_none (turns : Nat) (s : write_order n) :
    add_siblings links turns none s = some s := by
  cases turns <;> rfl

@[simp] theorem climb_none (turns : Nat) : climb objects links turns none = some none := by
  cases turns <;> rfl

@[simp] theorem add_descendants_from_none (turns : Nat) (add_to_order : Bool)
    (s : write_order n) :
    add_descendants_from objects links turns add_to_order none s = some s := by
  cases turns <;> rfl

theorem add_siblings_mono (o : Option (Fin n)) (s : write_order n) :
    Mono fun turns => add_siblings links turns o s := by
  intro turns r h
  induction turns generalizing o s with
  | zero =>
    cases o with
    | none => simpa using h
    | some e => cases h
  | succ turns ih =>
    cases o with
    | none => simpa using h
    | some e => exact ih _ _ h

theorem climb_mono (o : Option (Fin n)) : Mono fun turns => climb objects links turns o := by
  intro turns r h
  induction turns generalizing o with
  | zero =>
    cases o with
    | none => simpa using h
    | some e => cases h
  | succ turns ih =>
    cases o with
    | none => simpa using h
    | some e =>
      simp only [climb] at h ⊢
      split_ifs at h ⊢
      · exact h
      · exact ih _ h

theorem add_descendants_from_mono (add_to_order : Bool) (o : Option (Fin n))
    (s : write_order n) :
    Mono fun turns => add_descendants_from objects links turns add_to_order o s := by
  intro turns r h
  induction turns generalizing add_to_order o s with
  | zero =>
    cases o with
    | none => simpa using h
    | some e => cases h
  | succ turns ih =>
    cases o with
    | none => simpa using h
    | some e =>
      simp only [add_descendants_from] at h ⊢
      obtain ⟨s', hadded, hrest⟩ := Option.bind_eq_some_iff.mp h
      refine Option.bind_eq_some_iff.mpr ⟨s', ?_, ?_⟩
      · split_ifs at hadded ⊢
        · exact add_siblings_mono _ _ _ _ hadded
        · exact hadded
      · cases hchild : links.delta_child e with
        | some child =>
          rw [hchild] at hrest
          exact ih _ _ _ hrest
        | none =>
          rw [hchild] at hrest
          cases hsibling : links.delta_sibling e with
          | some sibling =>
            rw [hsibling] at hrest
            exact ih _ _ _ hrest
          | none =>
            rw [hsibling] at hrest
            obtain ⟨o, hclimb, hlast⟩ := Option.bind_eq_some_iff.mp hrest
            refine Option.bind_eq_some_iff.mpr ⟨o, climb_mono _ _ _ hclimb, ?_⟩
            cases o with
            | none => exact hlast
            | some e => exact ih _ _ _ hlast

theorem find_root_mono (e : Fin n) : Mono fun turns => find_root objects turns e := by
  intro turns r h
  induction turns generalizing e with
  | zero => cases h
  | succ turns ih =>
    simp only [find_root] at h ⊢
    cases hdelta : (objects e).delta with
    | none =>
      rw [hdelta] at h
      exact h
    | some base =>
      rw [hdelta] at h
      exact ih base h

theorem add_families_mono (l : List (Fin n)) (s : write_order n) :
    Mono fun turns => add_families objects links turns l s := by
  induction l generalizing s with
  | nil => exact Mono.const _
  | cons e l ih =>
    simp only [add_families]
    split_ifs
    · exact ih s
    · refine Mono.bind (Mono.bind (find_root_mono e) fun root => ?_) fun s' => ih s'
      exact add_descendants_from_mono true (some root) s

/-! ## The walk below an object -/

/-- The objects one after another. -/
def add_all (s : write_order n) (l : List (Fin n)) : write_order n := l.foldl add_to_write_order s

theorem add_all_append (s : write_order n) (l l' : List (Fin n)) :
    add_all s (l ++ l') = add_all (add_all s l) l' := List.foldl_append ..

theorem add_siblings_ends {o : Option (Fin n)} {l : List (Fin n)}
    (h : Chain links.delta_sibling o l) (s : write_order n) :
    Ends (fun turns => add_siblings links turns o s) (add_all s l) := by
  induction l generalizing o s with
  | nil =>
    obtain rfl : o = none := h
    simp only [add_siblings_none]
    exact Ends.const s
  | cons e l ih =>
    obtain ⟨rfl, hrest⟩ := h
    exact Ends.step (fun _ => rfl) (ih hrest (add_to_write_order s e))

/-- The way up from a node whose children are done, and on from there. -/
def resume (objects : Fin n → object_entry n) (links : delta_links n) (turns : Nat)
    (o : Option (Fin n)) (s : write_order n) : Option (write_order n) :=
  (climb objects links turns o).bind fun e =>
    match e with
    | none => some s
    | some e => add_descendants_from objects links turns false (links.delta_sibling e) s

theorem resume_mono (o : Option (Fin n)) (s : write_order n) :
    Mono fun turns => resume objects links turns o s := by
  refine Mono.bind (climb_mono o) fun e => ?_
  cases e with
  | none => exact Mono.const _
  | some e => exact add_descendants_from_mono _ _ _

/-- What follows when all below `e` is there. -/
def go_on (objects : Fin n → object_entry n) (links : delta_links n) (turns : Nat) (e : Fin n)
    (s : write_order n) : Option (write_order n) :=
  match links.delta_sibling e with
  | some sibling => add_descendants_from objects links turns false (some sibling) s
  | none => resume objects links turns (objects e).delta s

theorem resume_ends {e : Fin n} {s r : write_order n}
    (h : Ends (fun turns => go_on objects links turns e s) r) :
    Ends (fun turns => resume objects links turns (some e) s) r := by
  cases hsibling : links.delta_sibling e with
  | some sibling =>
    have hstep : ∀ turns, resume objects links (turns + 1) (some e) s =
        go_on objects links (turns + 1) e s := by
      intro turns
      unfold resume go_on
      simp only [climb, hsibling, Option.isSome_some, if_true, Option.bind_some]
    exact Ends.step hstep h.shift
  | none =>
    obtain ⟨k, hk⟩ := h
    refine (resume_mono (some e) s).ends (n := k + 1) ?_
    have hgo := hk k (le_refl k)
    unfold go_on at hgo
    rw [hsibling] at hgo
    unfold resume at hgo ⊢
    simp only [climb, hsibling, Option.isSome_none, Bool.false_eq_true, if_false]
    obtain ⟨o, hclimb, hrest⟩ := Option.bind_eq_some_iff.mp hgo
    rw [hclimb, Option.bind_some]
    cases o with
    | none => exact hrest
    | some e => exact add_descendants_from_mono _ _ _ _ _ hrest

/-- A node with its siblings is added first. -/
theorem add_level_ends {e : Fin n} {l : List (Fin n)} {s r : write_order n}
    (hchain : Chain links.delta_sibling (some e) (e :: l))
    (h : Ends (fun turns => add_descendants_from objects links turns false (some e)
      (add_all s (e :: l))) r) :
    Ends (fun turns => add_descendants_from objects links turns true (some e) s) r := by
  have hstep : ∀ turns, add_descendants_from objects links (turns + 1) true (some e) s =
      (add_siblings links turns (links.delta_sibling e) (add_to_write_order s e)).bind fun s =>
        add_descendants_from objects links (turns + 1) false (some e) s := fun _ => rfl
  exact Ends.step hstep (Ends.bind (add_siblings_ends hchain.2 _) h.shift)

/-- From a node on, the walk adds what is below it and its siblings, and comes back to
their parent. -/
theorem walk_ends (hlinks : Linked objects (List.finRange n) links) {l out : List (Fin n)}
    (h : Below (deltas_of objects) l out) :
    ∀ e rest, l = e :: rest → Chain links.delta_sibling (some e) l →
      ∀ base, (∀ x ∈ l, (objects x).delta = base) → ∀ s r,
        Ends (fun turns => resume objects links turns base (add_all s out)) r →
        Ends (fun turns => add_descendants_from objects links turns false (some e) s) r := by
  induction h with
  | nil =>
    intro e rest hl
    cases hl
  | @cons a l below after hbelow hafter ihbelow ihafter =>
    intro e rest hl hchain base hbase s r hend
    obtain ⟨rfl, rfl⟩ := List.cons.inj hl
    rw [add_all_append] at hend
    have hnext : Ends (fun turns => go_on objects links turns a
        (add_all s (deltas_of objects a ++ below))) r := by
      have hsibling := hchain.2
      unfold go_on
      cases l with
      | nil =>
        obtain hsibling : links.delta_sibling a = none := hsibling
        rw [hsibling, hbase a List.mem_cons_self]
        cases hafter
        exact hend
      | cons b l =>
        rw [hsibling.1]
        exact ihafter b l rfl ⟨rfl, hsibling.2⟩ base
          (fun x hx => hbase x (List.mem_cons_of_mem a hx)) _ r hend
    have hkids := hlinks.chain a
    change Chain links.delta_sibling (links.delta_child a) (deltas_of objects a) at hkids
    cases hdeltas : deltas_of objects a with
    | nil =>
      rw [hdeltas] at hbelow hnext hkids
      cases hbelow
      obtain hkids : links.delta_child a = none := hkids
      have hstep : ∀ turns, add_descendants_from objects links (turns + 1) false (some a) s =
          go_on objects links turns a s := by
        intro turns
        change (match links.delta_child a with
          | some child => add_descendants_from objects links turns true (some child) s
          | none => go_on objects links turns a s) = _
        rw [hkids]
      exact Ends.step hstep hnext
    | cons c cs =>
      have hparent : ∀ x ∈ deltas_of objects a, (objects x).delta = some a := by
        intro x hx
        simpa [deltas_of] using hx
      rw [hdeltas] at hnext hkids hparent
      rw [hdeltas] at ihbelow
      have hstep : ∀ turns, add_descendants_from objects links (turns + 1) false (some a) s =
          add_descendants_from objects links turns true (some c) s := by
        intro turns
        simp only [add_descendants_from, Bool.false_eq_true, if_false, Option.bind_some, hkids.1]
      have hlevel : Chain links.delta_sibling (some c) (c :: cs) := ⟨rfl, hkids.2⟩
      refine Ends.step hstep (add_level_ends hlevel ?_)
      refine ihbelow c cs rfl hlevel (some a) hparent _ r ?_
      rw [← add_all_append]
      exact resume_ends hnext

/-- `add_descendants_to_write_order` ends, and adds the family. -/
theorem add_descendants_ends {root : Fin n} {below : List (Fin n)} (h : Family objects root below)
    (s : write_order n) :
    Ends (fun turns => add_descendants_to_write_order objects (connected objects) turns root s)
      (add_all s (root :: below)) := by
  have hlinks := connected_linked objects
  have hchain : Chain (connected objects).delta_sibling (some root) [root] :=
    ⟨rfl, hlinks.outside root (Or.inr h.whole)⟩
  refine add_level_ends hchain ?_
  refine walk_ends hlinks h.levels root [] rfl hchain none ?_ _ _ ?_
  · intro x hx
    rw [List.mem_singleton.mp hx]
    exact h.whole
  · simp only [resume, climb_none, Option.bind_some]
    exact Ends.const _

/-! ## Families -/

/-- `b` is a delta against `a`. -/
def Delta (objects : Fin n → object_entry n) (a b : Fin n) : Prop := (objects b).delta = some a

theorem mem_deltas_of {a b : Fin n} : b ∈ deltas_of objects a ↔ (objects b).delta = some a := by
  unfold deltas_of
  rw [List.mem_filter, decide_eq_true_eq]
  exact and_iff_right (List.mem_finRange b)

theorem delta_rel : (fun a b => b ∈ deltas_of objects a) = Delta objects := by
  funext a b
  exact propext mem_deltas_of

/-- Going from delta to base comes to an end. -/
def Grounded (objects : Fin n → object_entry n) (e : Fin n) : Prop :=
  Rooted (fun e => (objects e).delta) e

theorem family_of_whole {root : Fin n} (h : (objects root).delta = none) :
    ∃ below, Family objects root below := by
  have hrooted : Grounded objects root := Rooted.of_root h
  have hacc : Acc (fun b a => b ∈ deltas_of objects a) root := by
    have hrel : (fun b a => b ∈ deltas_of objects a) =
        fun b a => (objects b).delta = some a := by
      funext b a
      exact propext mem_deltas_of
    rw [hrel]
    exact hrooted.acc_children
  obtain ⟨below, hbelow⟩ := Below.exists_of_forall (l := [root]) fun a ha => by
    rw [List.mem_singleton.mp ha]
    exact Below.exists_of_acc hacc
  have honce := @Below.nodup _ _ _ _ (fun e => (objects e).delta) (fun _ _ => mem_deltas_of)
    (fun a => (List.nodup_finRange n).filter _) hbelow (List.nodup_singleton root) (by
      intro a ha b hb
      rw [List.mem_singleton.mp ha, List.mem_singleton.mp hb]
      exact hrooted.no_cycle)
  exact ⟨below, h, hbelow, List.nodup_cons.mpr ⟨honce.2 root List.mem_cons_self, honce.1⟩⟩

theorem Family.mem_iff {root : Fin n} {below : List (Fin n)} (h : Family objects root below)
    {x : Fin n} : x ∈ root :: below ↔ ReflTransGen (Delta objects) root x := by
  have hbelow := h.levels.mem_iff (x := x)
  rw [delta_rel] at hbelow
  rw [List.mem_cons, hbelow, reflTransGen_iff_eq_or_transGen]
  exact or_congr Iff.rfl ⟨fun ⟨a, ha, hpath⟩ => List.mem_singleton.mp ha ▸ hpath,
    fun hpath => ⟨root, List.mem_singleton_self root, hpath⟩⟩

/-- An object is in no more than one family. -/
theorem Family.root_unique {root root' x : Fin n} {below below' : List (Fin n)}
    (h : Family objects root below) (h' : Family objects root' below') (hx : x ∈ root :: below)
    (hx' : x ∈ root' :: below') : root = root' := by
  have honly : ∀ {a b : Fin n}, (objects b).delta = none → ReflTransGen (Delta objects) a b →
      a = b := by
    intro a b hb hpath
    rcases ReflTransGen.cases_tail hpath with heq | ⟨c, -, hlast⟩
    · exact heq.symm
    · rw [Delta, hb] at hlast
      cases hlast
  rcases above_total (h.mem_iff.mp hx) (h'.mem_iff.mp hx') with hpath | hpath
  · exact honly h'.whole hpath
  · exact (honly h.whole hpath).symm

theorem Grounded.of_path {a b : Fin n} (h : Grounded objects a)
    (hpath : ReflTransGen (Delta objects) a b) : Grounded objects b := by
  induction hpath with
  | refl => exact h
  | tail _ hlast ih => exact Rooted.of_parent hlast ih

theorem Family.grounded {root x : Fin n} {below : List (Fin n)} (h : Family objects root below)
    (hx : x ∈ root :: below) : Grounded objects x :=
  Grounded.of_path (Rooted.of_root h.whole) (h.mem_iff.mp hx)

/-- The search for the root ends just where the bases do. -/
theorem find_root_ends {e : Fin n} (h : Grounded objects e) :
    ∃ root below, Ends (fun turns => find_root objects turns e) root ∧
      Family objects root below ∧ e ∈ root :: below := by
  induction h with
  | intro e _ ih =>
    cases hdelta : (objects e).delta with
    | none =>
      obtain ⟨below, hfamily⟩ := family_of_whole hdelta
      refine ⟨e, below, Ends.step (g := fun _ => some e) ?_ (Ends.const e), hfamily,
        List.mem_cons_self⟩
      intro turns
      simp only [find_root, hdelta]
    | some base =>
      obtain ⟨root, below, hends, hfamily, hmem⟩ := ih base hdelta
      refine ⟨root, below, Ends.step ?_ hends, hfamily, ?_⟩
      · intro turns
        simp only [find_root, hdelta]
      · rw [hfamily.mem_iff] at hmem ⊢
        exact hmem.tail hdelta

theorem grounded_of_find_root {turns : Nat} {e root : Fin n}
    (h : find_root objects turns e = some root) : Grounded objects e := by
  induction turns generalizing e with
  | zero => cases h
  | succ turns ih =>
    simp only [find_root] at h
    cases hdelta : (objects e).delta with
    | none => exact Rooted.of_root hdelta
    | some base =>
      rw [hdelta] at h
      exact Rooted.of_parent hdelta (ih h)

/-- `add_family_to_write_order` adds the family of an object whose bases come to an end. -/
theorem add_family_ends {e root : Fin n} {below : List (Fin n)}
    (hroot : Ends (fun turns => find_root objects turns e) root)
    (h : Family objects root below) (s : write_order n) :
    Ends (fun turns => add_family_to_write_order objects (connected objects) turns e s)
      (add_all s (root :: below)) :=
  Ends.bind (h := fun turns root =>
    add_descendants_to_write_order objects (connected objects) turns root s) hroot
    (add_descendants_ends h s)

/-! ## What is added -/

theorem add_all_filled (s : write_order n) (l : List (Fin n)) (x : Fin n) :
    (add_all s l).filled x = true ↔ s.filled x = true ∨ x ∈ l := by
  induction l generalizing s with
  | nil => simp [add_all]
  | cons e l ih =>
    change (add_all (add_to_write_order s e) l).filled x = true ↔ _
    rw [ih, List.mem_cons, ← or_assoc]
    refine or_congr_left ?_
    unfold add_to_write_order
    by_cases he : s.filled e = true
    · rw [if_pos he]
      exact ⟨Or.inl, fun h => h.elim id fun hx => hx ▸ he⟩
    · rw [if_neg he]
      dsimp only
      by_cases hx : x = e
      · rw [hx, Function.update_self]
        simp
      · rw [Function.update_of_ne hx]
        simp [hx]

theorem add_all_wo (s : write_order n) {l : List (Fin n)} (hl : l.Nodup) :
    (add_all s l).wo = s.wo ++ l.filter fun x => !s.filled x := by
  induction l generalizing s with
  | nil => simp [add_all]
  | cons e l ih =>
    obtain ⟨he, hl'⟩ := List.nodup_cons.mp hl
    change (add_all (add_to_write_order s e) l).wo = _
    rw [ih _ hl']
    unfold add_to_write_order
    by_cases hfilled : s.filled e = true
    · rw [if_pos hfilled, List.filter_cons_of_neg (by rw [hfilled]; decide)]
    · rw [if_neg hfilled, List.filter_cons_of_pos (by simpa using hfilled)]
      dsimp only
      rw [List.append_assoc, List.singleton_append]
      congr 2
      apply List.filter_congr
      intro x hx
      rw [Function.update_of_ne]
      rintro rfl
      exact he hx

/-- What is in the order is marked, and nothing is in it twice. -/
structure Coherent (s : write_order n) : Prop where
  nodup : s.wo.Nodup
  filled : ∀ x, s.filled x = true ↔ x ∈ s.wo

theorem Coherent.add {s : write_order n} (h : Coherent s) (e : Fin n) :
    Coherent (add_to_write_order s e) := by
  unfold add_to_write_order
  by_cases he : s.filled e = true
  · rw [if_pos he]
    exact h
  · rw [if_neg he]
    have hout : e ∉ s.wo := fun hin => he ((h.filled e).mpr hin)
    refine ⟨?_, fun x => ?_⟩
    · exact List.nodup_append.mpr ⟨h.nodup, List.nodup_singleton e, fun a ha b hb hab =>
        hout (List.mem_singleton.mp hb ▸ hab ▸ ha)⟩
    · dsimp only
      rw [List.mem_append, List.mem_singleton]
      by_cases hx : x = e
      · rw [hx, Function.update_self]
        simp
      · rw [Function.update_of_ne hx, h.filled]
        simp [hx]

theorem Coherent.add_all {s : write_order n} (h : Coherent s) (l : List (Fin n)) :
    Coherent (add_all s l) := by
  induction l generalizing s with
  | nil => exact h
  | cons e l ih => exact ih (h.add e)

theorem add_those_eq (P : Fin n → Bool) (l : List (Fin n)) (s : write_order n) :
    add_those P l s = add_all s (l.filter P) := by
  unfold add_those add_all
  rw [List.foldl_filter]

theorem add_until_tagged_eq (l : List (Fin n)) (s : write_order n) :
    add_until_tagged tagged l s =
      (add_all s (l.takeWhile fun e => !tagged e), l.dropWhile fun e => !tagged e) := by
  induction l generalizing s with
  | nil => rfl
  | cons e l ih =>
    rw [add_until_tagged, List.takeWhile_cons, List.dropWhile_cons]
    cases htagged : tagged e with
    | true => rfl
    | false =>
      rw [if_neg Bool.false_ne_true, ih]
      rfl

/-! ## The order before the families -/

theorem untagged_append (tagged : Fin n → Bool) :
    untagged tagged ++ from_tagged tagged = List.finRange n := List.takeWhile_append_dropWhile

theorem not_untagged {e : Fin n} (h : e ∈ from_tagged tagged) : e ∉ untagged tagged := by
  have hnodup := untagged_append tagged ▸ List.nodup_finRange n
  exact fun hin => (List.nodup_append.mp hnodup).2.2 e hin e h rfl

theorem untagged_or (tagged : Fin n → Bool) (e : Fin n) :
    e ∈ untagged tagged ∨ e ∈ from_tagged tagged := by
  rw [← List.mem_append, untagged_append]
  exact List.mem_finRange e

theorem from_tagged_nodup (tagged : Fin n → Bool) : (from_tagged tagged).Nodup :=
  (List.nodup_finRange n).sublist (List.dropWhile_sublist _)

theorem add_those_wo (P : Fin n → Bool) {l : List (Fin n)} (hl : l.Nodup) (s : write_order n) :
    (add_those P l s).wo = s.wo ++ l.filter fun x => !s.filled x && P x := by
  rw [add_those_eq, add_all_wo s (hl.filter P), List.filter_filter]

theorem add_those_filled (P : Fin n → Bool) (l : List (Fin n)) (s : write_order n) (x : Fin n) :
    (add_those P l s).filled x = true ↔ s.filled x = true ∨ x ∈ l ∧ P x = true := by
  rw [add_those_eq, add_all_filled, List.mem_filter]

/-- The order when the trees are there. -/
def stages (objects : Fin n → object_entry n) (tagged : Fin n → Bool) : write_order n :=
  add_those (is_tree objects) (from_tagged tagged)
    (add_those (commit_or_tag objects) (from_tagged tagged)
      (add_those tagged (from_tagged tagged)
        (add_all ⟨[], fun _ => false⟩ (untagged tagged))))

theorem compute_write_order_eq (objects : Fin n → object_entry n) (tagged : Fin n → Bool)
    (turns : Nat) :
    compute_write_order objects tagged turns =
      (add_families objects (connected objects) turns (from_tagged tagged)
        (stages objects tagged)).map fun s =>
          if s.wo.length ≠ n then .error s.wo.length else .ok s.wo := by
  unfold compute_write_order
  rw [add_until_tagged_eq]
  rfl

theorem stages_coherent (objects : Fin n → object_entry n) (tagged : Fin n → Bool) :
    Coherent (stages objects tagged) := by
  unfold stages
  simp only [add_those_eq]
  have hempty : Coherent (⟨[], fun _ => false⟩ : write_order n) :=
    ⟨List.nodup_nil, fun x => by simp⟩
  exact (((hempty.add_all _).add_all _).add_all _).add_all _

theorem stages_filled (objects : Fin n → object_entry n) (tagged : Fin n → Bool) (x : Fin n) :
    (stages objects tagged).filled x = true ↔ remaining objects tagged x = false := by
  unfold stages
  rw [add_those_filled, add_those_filled, add_those_filled, add_all_filled]
  unfold remaining
  have hor := untagged_or tagged x
  have hnot : x ∈ from_tagged tagged → x ∉ untagged tagged := not_untagged
  by_cases hin : x ∈ from_tagged tagged
  · have hout := hnot hin
    cases htagged : tagged x <;> cases hct : commit_or_tag objects x <;>
      cases htree : is_tree objects x <;> simp [hin, hout]
  · simp [hin, hor.resolve_right hin]

theorem tree_is_no_commit {e : Fin n} (h : is_tree objects e = true) :
    commit_or_tag objects e = false := by
  unfold is_tree at h
  unfold commit_or_tag
  rw [of_decide_eq_true h]
  rfl

theorem stages_wo (objects : Fin n → object_entry n) (tagged : Fin n → Bool) :
    (stages objects tagged).wo = before_families objects tagged := by
  have hnodup := from_tagged_nodup tagged
  have huntagged : (untagged tagged).Nodup :=
    (List.nodup_finRange n).sublist (List.takeWhile_sublist _)
  unfold stages before_families
  rw [add_those_wo _ hnodup, add_those_wo _ hnodup, add_those_wo _ hnodup, add_all_wo _ huntagged]
  -- What each loop leaves out was added by one before it.
  have hfirst : ∀ x ∈ from_tagged tagged,
      (add_all ⟨[], fun _ => false⟩ (untagged tagged)).filled x = false := by
    intro x hx
    rw [← Bool.not_eq_true, add_all_filled]
    simpa using not_untagged hx
  have hsecond : ∀ x ∈ from_tagged tagged,
      (add_those tagged (from_tagged tagged)
        (add_all ⟨[], fun _ => false⟩ (untagged tagged))).filled x = tagged x := by
    intro x hx
    rw [Bool.eq_iff_iff, add_those_filled, hfirst x hx]
    simp [hx]
  have hthird : ∀ x ∈ from_tagged tagged,
      (add_those (commit_or_tag objects) (from_tagged tagged)
        (add_those tagged (from_tagged tagged)
          (add_all ⟨[], fun _ => false⟩ (untagged tagged)))).filled x =
        (tagged x || commit_or_tag objects x) := by
    intro x hx
    rw [Bool.eq_iff_iff, add_those_filled, hsecond x hx]
    simp [hx]
  congr 1
  · congr 1
    · congr 1
      · simp
      · exact List.filter_congr fun x hx => by rw [hfirst x hx]; rfl
    · exact List.filter_congr fun x hx => by rw [hsecond x hx]
  · refine List.filter_congr fun x hx => ?_
    rw [hthird x hx]
    cases htree : is_tree objects x with
    | false => simp
    | true => simp [tree_is_no_commit htree]

/-! ## The families one after another -/

/-- The families that were added so far. -/
structure Families (objects : Fin n → object_entry n) (tagged : Fin n → Bool)
    (families : List (Fin n × List (Fin n))) (s : write_order n) : Prop where
  wo : s.wo = before_families objects tagged ++
    families.flatMap fun f => (f.1 :: f.2).filter (remaining objects tagged)
  filled : ∀ x, s.filled x = true ↔
    remaining objects tagged x = false ∨ ∃ f ∈ families, x ∈ f.1 :: f.2
  family : ∀ f ∈ families, Family objects f.1 f.2
  some_left : ∀ f ∈ families, ∃ x ∈ f.1 :: f.2, remaining objects tagged x = true
  nodup : (families.map Prod.fst).Nodup

theorem stages_families (objects : Fin n → object_entry n) (tagged : Fin n → Bool) :
    Families objects tagged [] (stages objects tagged) := by
  refine ⟨?_, fun x => ?_, fun f hf => absurd hf List.not_mem_nil,
    fun f hf => absurd hf List.not_mem_nil, List.nodup_nil⟩
  · rw [stages_wo]
    exact (List.append_nil _).symm
  · rw [stages_filled]
    simp

/-- The family of an object that is not there yet. -/
theorem Families.add {families : List (Fin n × List (Fin n))} {s : write_order n}
    (h : Families objects tagged families s) {e root : Fin n} {below : List (Fin n)}
    (he : s.filled e ≠ true) (hfamily : Family objects root below) (hmem : e ∈ root :: below) :
    Families objects tagged (families ++ [(root, below)]) (add_all s (root :: below)) := by
  have hleft : remaining objects tagged e = true := by
    rw [← Bool.not_eq_false]
    exact fun hnot => he ((h.filled e).mpr (Or.inl hnot))
  have hnew : ∀ f ∈ families, f.1 ≠ root := by
    intro f hf heq
    have hsame : f.1 :: f.2 = root :: f.2 := by rw [heq]
    have hin : e ∈ f.1 :: f.2 := by
      rw [(h.family f hf).mem_iff, heq, ← hfamily.mem_iff]
      exact hmem
    exact he ((h.filled e).mpr (Or.inr ⟨f, hf, hin⟩))
  -- No member was there before the families and is left for them.
  have hfilled : ∀ x ∈ root :: below, (!s.filled x) = remaining objects tagged x := by
    intro x hx
    have hiff := h.filled x
    have hnone : ¬∃ f ∈ families, x ∈ f.1 :: f.2 := by
      rintro ⟨f, hf, hxf⟩
      exact hnew f hf ((h.family f hf).root_unique hfamily hxf hx)
    rw [or_iff_left hnone] at hiff
    cases hrem : remaining objects tagged x with
    | true =>
      rw [hrem] at hiff
      simpa using hiff
    | false =>
      rw [hiff.mpr hrem]
      rfl
  refine ⟨?_, fun x => ?_, ?_, ?_, ?_⟩
  · rw [add_all_wo s hfamily.nodup, h.wo, List.flatMap_append, List.append_assoc,
      List.flatMap_singleton, List.filter_congr hfilled]
  · rw [add_all_filled, h.filled, or_assoc]
    refine or_congr_right ?_
    constructor
    · rintro (⟨f, hf, hx⟩ | hx)
      · exact ⟨f, List.mem_append_left _ hf, hx⟩
      · exact ⟨_, List.mem_append_right _ (List.mem_singleton_self _), hx⟩
    · rintro ⟨f, hf, hx⟩
      rcases List.mem_append.mp hf with hf | hf
      · exact Or.inl ⟨f, hf, hx⟩
      · rw [List.mem_singleton.mp hf] at hx
        exact Or.inr hx
  · intro f hf
    rcases List.mem_append.mp hf with hf | hf
    · exact h.family f hf
    · rw [List.mem_singleton.mp hf]
      exact hfamily
  · intro f hf
    rcases List.mem_append.mp hf with hf | hf
    · exact h.some_left f hf
    · rw [List.mem_singleton.mp hf]
      exact ⟨e, hmem, hleft⟩
  · rw [List.map_append, List.nodup_append]
    refine ⟨h.nodup, List.nodup_singleton _, ?_⟩
    intro a ha b hb
    obtain ⟨f, hf, rfl⟩ := List.mem_map.mp ha
    obtain rfl : b = root := by simpa using hb
    exact hnew f hf

/-- The loop ends where the objects that are left have their bases' end. -/
theorem add_families_ends (l : List (Fin n)) :
    ∀ (families : List (Fin n × List (Fin n))) (s : write_order n),
      Coherent s → Families objects tagged families s →
      (∀ e ∈ l, remaining objects tagged e = true → Grounded objects e) →
      ∃ families' s', Ends (fun turns => add_families objects (connected objects) turns l s) s' ∧
        Coherent s' ∧ Families objects tagged families' s' ∧
        (∀ x, s.filled x = true → s'.filled x = true) ∧ ∀ e ∈ l, s'.filled e = true := by
  induction l with
  | nil =>
    intro families s hs h _
    exact ⟨families, s, Ends.const s, hs, h, fun _ hx => hx, fun e he => absurd he List.not_mem_nil⟩
  | cons e l ih =>
    intro families s hs h hgrounded
    have hrest := fun x hx => hgrounded x (List.mem_cons_of_mem e hx)
    simp only [add_families]
    by_cases he : s.filled e = true
    · simp only [he, if_true]
      obtain ⟨families', s', hends, hs', h', hkeep, hall⟩ := ih families s hs h hrest
      refine ⟨families', s', hends, hs', h', hkeep, fun x hx => ?_⟩
      rcases List.mem_cons.mp hx with rfl | hx
      · exact hkeep x he
      · exact hall x hx
    · simp only [he]
      have hleft : remaining objects tagged e = true := by
        rw [← Bool.not_eq_false]
        exact fun hnot => he ((h.filled e).mpr (Or.inl hnot))
      obtain ⟨root, below, hroot, hfamily, hmem⟩ :=
        find_root_ends (hgrounded e List.mem_cons_self hleft)
      obtain ⟨families', s', hends, hs', h', hkeep, hall⟩ :=
        ih _ _ (hs.add_all _) (h.add he hfamily hmem) hrest
      have hadded : ∀ x, s.filled x = true ∨ x ∈ root :: below → s'.filled x = true :=
        fun x hx => hkeep x ((add_all_filled _ _ _).mpr hx)
      refine ⟨families', s', ?_, hs', h', fun x hx => hadded x (Or.inl hx), fun x hx => ?_⟩
      · exact Ends.bind (add_family_ends hroot hfamily s) hends
      · rcases List.mem_cons.mp hx with rfl | hx
        · exact hadded x (Or.inr hmem)
        · exact hall x hx

/-- The loop only ends where they do. -/
theorem grounded_of_ends (l : List (Fin n)) :
    ∀ (families : List (Fin n × List (Fin n))) (s r : write_order n),
      Families objects tagged families s →
      Ends (fun turns => add_families objects (connected objects) turns l s) r →
      ∀ e ∈ l, remaining objects tagged e = true → Grounded objects e := by
  induction l with
  | nil => exact fun _ _ _ _ _ e he => absurd he List.not_mem_nil
  | cons e l ih =>
    intro families s r h hends x hx hleft
    simp only [add_families] at hends
    by_cases he : s.filled e = true
    · simp only [he, if_true] at hends
      rcases List.mem_cons.mp hx with rfl | hx
      · rcases (h.filled x).mp he with hnot | ⟨f, hf, hin⟩
        · rw [hleft] at hnot
          cases hnot
        · exact (h.family f hf).grounded hin
      · exact ih families s r h hends x hx hleft
    · simp only [he] at hends
      -- the search for the root had a result
      obtain ⟨turns, s', hfamily⟩ := hends.of_bind
      obtain ⟨root, hfind, -⟩ := Option.bind_eq_some_iff.mp hfamily
      have hgrounded : Grounded objects e := grounded_of_find_root hfind
      rcases List.mem_cons.mp hx with rfl | hx
      · exact hgrounded
      · obtain ⟨root, below, hroot, hfamily, hmem⟩ := find_root_ends hgrounded
        have hadd := add_family_ends hroot hfamily s
        exact ih _ _ r (h.add he hfamily hmem) (hadd.of_bind_left hends) x hx hleft

/-! ## The whole order -/

/-- Where the bases of all objects that are left come to an end, so does the order. -/
theorem compute_write_order_ends
    (h : ∀ e, remaining objects tagged e = true → Grounded objects e) :
    ∃ wo families, Ends (compute_write_order objects tagged) (.ok wo) ∧
      wo.Perm (List.finRange n) ∧ ∃ s, s.wo = wo ∧ Families objects tagged families s := by
  obtain ⟨families, s, hends, hs, hfamilies, hkeep, hall⟩ :=
    add_families_ends (from_tagged tagged) [] (stages objects tagged)
      (stages_coherent objects tagged) (stages_families objects tagged) fun e _ => h e
  have hevery : ∀ e, e ∈ s.wo := by
    intro e
    rw [← hs.filled]
    rcases untagged_or tagged e with hin | hin
    · apply hkeep
      rw [(stages_coherent objects tagged).filled, stages_wo]
      unfold before_families
      rw [List.append_assoc, List.append_assoc]
      exact List.mem_append_left _ hin
    · exact hall e hin
  have hperm : s.wo.Perm (List.finRange n) := by
    rw [List.perm_ext_iff_of_nodup hs.nodup (List.nodup_finRange n)]
    exact fun e => ⟨fun _ => List.mem_finRange e, fun _ => hevery e⟩
  refine ⟨s.wo, families, ?_, hperm, s, rfl, hfamilies⟩
  obtain ⟨k, hk⟩ := hends
  refine ⟨k, fun turns hturns => ?_⟩
  have hlen : s.wo.length = n := by rw [hperm.length_eq, List.length_finRange]
  have hs' := hk turns hturns
  dsimp only at hs'
  rw [compute_write_order_eq, hs', Option.map_some, if_neg (not_not.mpr hlen)]

/-- **The order is one of all objects.** Where no object is its own base over any number
of deltas, the order ends. It is the objects up to the first that is tagged, the tagged
ones, the other commits and tags, the other trees, and what is left family by family. The
walk below any object that is no delta ends too, and adds its family, each member once. -/
theorem compute_write_order_layout (objects : Fin n → object_entry n) (tagged : Fin n → Bool)
    (h : ∀ e, ¬TransGen (Delta objects) e e) :
    (∃ (wo : List (Fin n)) (families : List (Fin n × List (Fin n))),
      Ends (compute_write_order objects tagged) (.ok wo) ∧ wo.Perm (List.finRange n) ∧
      wo = untagged tagged ++ (from_tagged tagged).filter tagged ++
        (from_tagged tagged).filter (fun e => !tagged e && commit_or_tag objects e) ++
        (from_tagged tagged).filter (fun e => !tagged e && is_tree objects e) ++
        families.flatMap (fun f => (f.1 :: f.2).filter (remaining objects tagged)) ∧
      (families.map Prod.fst).Nodup ∧ ∀ f ∈ families, Family objects f.1 f.2) ∧
    ∀ root, (objects root).delta = none → ∃ below, Family objects root below ∧
      (∀ x, x ∈ root :: below ↔ ReflTransGen (Delta objects) root x) ∧
      ∀ s, Ends (fun turns =>
          add_descendants_to_write_order objects (connected objects) turns root s)
        (add_all s (root :: below)) := by
  have hgrounded : ∀ e, Grounded objects e := (show acyclic.Acyclic (Delta objects) from h).wf.apply
  constructor
  · obtain ⟨wo, families, hends, hperm, s, rfl, hfamilies⟩ :=
      @compute_write_order_ends _ _ tagged fun e _ => hgrounded e
    exact ⟨s.wo, families, hends, hperm, hfamilies.wo, hfamilies.nodup, hfamilies.family⟩
  · intro root hroot
    obtain ⟨below, hfamily⟩ := family_of_whole hroot
    exact ⟨below, hfamily, fun x => hfamily.mem_iff, fun s => add_descendants_ends hfamily s⟩

/-- What has an order has no cycle in what is left for the families. -/
theorem grounded_of_order {turns : Nat} {o : Except Nat (List (Fin n))}
    (h : compute_write_order objects tagged turns = some o) {e : Fin n}
    (hleft : remaining objects tagged e = true) : Grounded objects e := by
  rw [compute_write_order_eq] at h
  obtain ⟨s, hs, -⟩ := Option.map_eq_some_iff.mp h
  have hin : e ∈ from_tagged tagged := by
    unfold remaining at hleft
    simp only [Bool.and_eq_true, decide_eq_true_eq] at hleft
    exact hleft.1.1.1
  exact grounded_of_ends _ _ _ s (stages_families objects tagged)
    ((add_families_mono _ _).ends hs) e hin hleft

/-- The order ends with each object once just where the bases of every object that is left
for the families come to an end. Elsewhere it does not end at all. -/
theorem compute_write_order_ends_iff (objects : Fin n → object_entry n) (tagged : Fin n → Bool) :
    ((∃ wo, Ends (compute_write_order objects tagged) (.ok wo) ∧ wo.Perm (List.finRange n)) ↔
      ∀ e, remaining objects tagged e = true → Grounded objects e) ∧
    ((∃ e, remaining objects tagged e = true ∧ ¬Grounded objects e) →
      ∀ turns, compute_write_order objects tagged turns = none) := by
  refine ⟨⟨?_, ?_⟩, ?_⟩
  · rintro ⟨wo, ⟨k, hk⟩, -⟩ e hleft
    exact grounded_of_order (hk k (le_refl k)) hleft
  · intro h
    obtain ⟨wo, -, hends, hperm, -⟩ := compute_write_order_ends h
    exact ⟨wo, hends, hperm⟩
  · rintro ⟨e, hleft, hnot⟩ turns
    by_contra hsome
    obtain ⟨o, ho⟩ := Option.ne_none_iff_exists'.mp hsome
    exact hnot (grounded_of_order ho hleft)

/-! ## A commit and two blobs -/

-- for the literals
local instance three : NeZero 3 := ⟨by decide⟩

/-- Object 0 is a commit, the others are blobs. -/
def commit_and_blobs (delta : Fin 3 → Option (Fin 3)) (e : Fin 3) : object_entry 3 :=
  { sha1 := Vector.replicate 20 0, offset := 0, size := 0, in_pack := none, delta := delta e
    delta_data := none, delta_size := 0, z_delta_size := 0
    type := if e = 0 then .whole .OBJ_COMMIT else .whole .OBJ_BLOB, preferred_base := false }

/-- The first blob is a delta against the second. -/
def one_delta : Fin 3 → object_entry 3 :=
  commit_and_blobs fun e => if e = 1 then some 2 else none

theorem one_delta_is_ordered :
    ∃ wo, Ends (compute_write_order one_delta fun e => e = 0) (.ok wo) ∧
      wo.Perm (List.finRange 3) := by
  have hless : ∀ a b, Delta one_delta a b → b < a := by
    unfold Delta one_delta commit_and_blobs
    decide
  have hacyclic : ∀ e, ¬TransGen (Delta one_delta) e e := by
    intro e hpath
    have hall : ∀ a b, TransGen (Delta one_delta) a b → b < a := by
      intro a b hab
      induction hab with
      | single h => exact hless _ _ h
      | tail _ h ih => exact (hless _ _ h).trans ih
    exact lt_irrefl e (hall e e hpath)
  obtain ⟨⟨wo, -, hends, hperm, -⟩, -⟩ :=
    compute_write_order_layout one_delta (fun e => e = 0) hacyclic
  exact ⟨wo, hends, hperm⟩

/-- Each blob is a delta against the other one. -/
def deltas_in_a_cycle : Fin 3 → object_entry 3 :=
  commit_and_blobs fun e => if e = 1 then some 2 else if e = 2 then some 1 else none

/-- Behind a tagged commit their order does not end. -/
theorem deltas_in_a_cycle_have_no_order :
    (∀ turns, compute_write_order deltas_in_a_cycle (fun e => e = 0) turns = none) ∧
      ¬∀ (n : Nat) (objects : Fin n → object_entry n) (tagged : Fin n → Bool),
        ∃ wo, Ends (compute_write_order objects tagged) (.ok wo) ∧ wo.Perm (List.finRange n) := by
  have hnot : ¬Grounded deltas_in_a_cycle 1 := fun h =>
    h.no_cycle (TransGen.tail (b := 2) (TransGen.single rfl) rfl)
  have hnone : ∀ turns o,
      compute_write_order deltas_in_a_cycle (fun e => e = 0) turns ≠ some o :=
    fun turns o ho => hnot (grounded_of_order ho (by decide))
  refine ⟨fun turns => Option.eq_none_iff_forall_ne_some.mpr (hnone turns), fun h => ?_⟩
  obtain ⟨wo, ⟨k, hk⟩, -⟩ := h 3 deltas_in_a_cycle (fun e => e = 0)
  exact hnone k _ (hk k (le_refl k))

end git.pack_objects
