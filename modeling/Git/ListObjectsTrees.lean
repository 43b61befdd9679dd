-- Trees, files and tags in the listing: what is shown is seen, and a tree that
-- was shown has all that it names shown, unless it is uninteresting.
import Git.ListObjects

open Relation

namespace git.list_objects

open revision

set_option linter.unusedSectionVars false

variable {commit tree blob tag : Type} [DecidableEq commit] [DecidableEq tree] [DecidableEq blob]
  [DecidableEq tag] {g : object_graph commit tree blob tag} {opt : rev_options}

/-- What the tree names is done with: seen, or uninteresting. -/
def EntriesDone (g : object_graph commit tree blob tag) (revs : rev_info commit tree blob tag)
    (t : tree) : Prop :=
  (∀ s, entry.tree s ∈ g.entries t → .tree s ∈ revs.SEEN ∨ .tree s ∈ revs.UNINTERESTING) ∧
  ∀ b, entry.blob b ∈ g.entries t → .blob b ∈ revs.SEEN ∨ .blob b ∈ revs.UNINTERESTING

/-- `t` comes from `s` by showing trees, files and tags. -/
structure Shows (s t : listing commit tree blob tag) : Prop where
  flags : t.revs.UNINTERESTING = s.revs.UNINTERESTING
  seen : s.revs.SEEN ⊆ t.revs.SEEN
  kept : s.shown ⊆ t.shown
  shown : ∀ o, o ∈ t.revs.SEEN → o ∉ s.revs.SEEN → o ∈ t.shown
  new : ∀ o ∈ t.shown, o ∈ s.shown ∨ o ∈ t.revs.SEEN ∧ o ∉ s.revs.SEEN ∧ ∀ c, o ≠ .commit c
  nodup : s.shown.Nodup → (∀ o ∈ s.shown, o ∈ s.revs.SEEN ∨ ∃ c, o = .commit c) → t.shown.Nodup

theorem Shows.refl (s : listing commit tree blob tag) : Shows s s :=
  ⟨rfl, subset_rfl, fun _ h => h, fun _ h hno => absurd h hno, fun _ h => Or.inl h,
    fun h _ => h⟩

theorem Shows.seen_of_shown {s t : listing commit tree blob tag} (h : Shows s t)
    (hs : ∀ o ∈ s.shown, o ∈ s.revs.SEEN ∨ ∃ c, o = .commit c) :
    ∀ o ∈ t.shown, o ∈ t.revs.SEEN ∨ ∃ c, o = .commit c := by
  intro o ho
  rcases h.new o ho with ho | ⟨ho, -⟩
  · exact (hs o ho).imp_left fun ho => h.seen ho
  · exact Or.inl ho

theorem Shows.trans {s t u : listing commit tree blob tag} (h : Shows s t) (h' : Shows t u) :
    Shows s u where
  flags := h'.flags.trans h.flags
  seen := h.seen.trans h'.seen
  kept := fun _ ho => h'.kept (h.kept ho)
  shown := by
    intro o ho hno
    by_cases ht : o ∈ t.revs.SEEN
    · exact h'.kept (h.shown o ht hno)
    · exact h'.shown o ho ht
  new := by
    intro o ho
    rcases h'.new o ho with ho | ⟨hin, hno, hkind⟩
    · rcases h.new o ho with ho | ⟨hin, hno, hkind⟩
      · exact Or.inl ho
      · exact Or.inr ⟨h'.seen hin, hno, hkind⟩
    · exact Or.inr ⟨hin, fun hs => hno (h.seen hs), hkind⟩
  nodup := fun hnodup hs => h'.nodup (h.nodup hnodup hs) (h.seen_of_shown hs)

theorem Shows.object {s : listing commit tree blob tag} {o : object commit tree blob tag}
    (hno : o ∉ s.revs.SEEN) (hkind : ∀ c, o ≠ .commit c) : Shows s (show_object o s) where
  flags := rfl
  seen := Finset.subset_insert _ _
  kept := fun _ h => List.mem_append_left _ h
  shown := by
    intro x hx hnx
    rcases Finset.mem_insert.mp hx with rfl | hx
    · exact List.mem_append_right _ (List.mem_singleton_self _)
    · exact absurd hx hnx
  new := by
    intro x hx
    rcases List.mem_append.mp hx with hx | hx
    · exact Or.inl hx
    · rw [List.mem_singleton.mp hx]
      exact Or.inr ⟨Finset.mem_insert_self _ _, hno, hkind⟩
  nodup := by
    intro hnodup hs
    have hgoal : (s.shown ++ [o]).Nodup := by
      rw [List.nodup_append]
      refine ⟨hnodup, List.nodup_singleton o, ?_⟩
      intro x hx y hy
      rw [List.mem_singleton.mp hy]
      rintro rfl
      rcases hs x hx with hx | ⟨c, hc⟩
      · exact hno hx
      · exact hkind c hc
    exact hgoal

theorem EntriesDone.of_shows {s t : listing commit tree blob tag} {r : tree}
    (hr : EntriesDone g s.revs r) (h : Shows s t) : EntriesDone g t.revs r := by
  unfold EntriesDone
  rw [h.flags]
  exact ⟨fun x hx => (hr.1 x hx).imp_left fun hx => h.seen hx,
    fun x hx => (hr.2 x hx).imp_left fun hx => h.seen hx⟩

/-- The trees that come to be seen between `s` and `t` are done with. -/
def NewTreesDone (g : object_graph commit tree blob tag) (s t : listing commit tree blob tag) :
    Prop :=
  ∀ r, .tree r ∈ t.revs.SEEN → .tree r ∈ s.revs.SEEN ∨ EntriesDone g t.revs r

theorem NewTreesDone.trans {s t u : listing commit tree blob tag} (h : NewTreesDone g s t)
    (h' : NewTreesDone g t u) (hu : Shows t u) : NewTreesDone g s u := by
  intro r hr
  rcases h' r hr with hr | hr
  · exact (h r hr).imp_right fun hr => hr.of_shows hu
  · exact Or.inr hr

/-! ## Files -/

theorem process_blob_spec (hblobs : opt.blob_objects = true) (b : blob)
    (s : listing commit tree blob tag) :
    Shows s (process_blob opt b s) ∧ NewTreesDone g s (process_blob opt b s) ∧
      (.blob b ∈ (process_blob opt b s).revs.SEEN ∨ .blob b ∈ s.revs.UNINTERESTING) := by
  unfold process_blob
  rw [hblobs, Bool.not_true, if_neg Bool.false_ne_true]
  split_ifs with hdone
  · exact ⟨Shows.refl s, fun r hr => Or.inl hr, hdone.symm⟩
  · rw [not_or] at hdone
    refine ⟨Shows.object hdone.2 fun c h => (by cases h), ?_, Or.inl (Finset.mem_insert_self _ _)⟩
    intro r hr
    rcases Finset.mem_insert.mp hr with heq | hr
    · cases heq
    · exact Or.inl hr

/-! ## Trees -/

/-- The entries, one after the other. -/
theorem process_entries (hblobs : opt.blob_objects = true) {n : Nat} {P : tree → Prop}
    (ih : ∀ (t : tree) (s : listing commit tree blob tag), g.tree_height t < n → P t →
      ∃ s', process_tree g opt n t s = some s' ∧ Shows s s' ∧ NewTreesDone g s s' ∧
        (.tree t ∈ s'.revs.SEEN ∨ .tree t ∈ s.revs.UNINTERESTING))
    (entries : List (entry tree blob))
    (hP : ∀ t, entry.tree t ∈ entries → g.tree_height t < n ∧ P t) :
    ∀ s : listing commit tree blob tag,
      ∃ s', entries.foldlM (fun s e =>
          match e with
          | .tree t => process_tree g opt n t s
          | .blob b => some (process_blob opt b s)
          | .gitlink => some s) s = some s' ∧ Shows s s' ∧ NewTreesDone g s s' ∧
        (∀ t, entry.tree t ∈ entries → .tree t ∈ s'.revs.SEEN ∨ .tree t ∈ s'.revs.UNINTERESTING) ∧
        ∀ b, entry.blob b ∈ entries →
          .blob b ∈ s'.revs.SEEN ∨ .blob b ∈ s'.revs.UNINTERESTING := by
  induction entries with
  | nil =>
    intro s
    exact ⟨s, rfl, Shows.refl s, fun r hr => Or.inl hr, fun t ht => absurd ht List.not_mem_nil,
      fun b hb => absurd hb List.not_mem_nil⟩
  | cons e entries ihe =>
    intro s
    -- the first entry
    have hfirst : ∃ s₁, (match e with
          | .tree t => process_tree g opt n t s
          | .blob b => some (process_blob opt b s)
          | .gitlink => some s) = some s₁ ∧ Shows s s₁ ∧ NewTreesDone g s s₁ ∧
        (∀ t, e = .tree t → .tree t ∈ s₁.revs.SEEN ∨ .tree t ∈ s₁.revs.UNINTERESTING) ∧
        ∀ b, e = .blob b → .blob b ∈ s₁.revs.SEEN ∨ .blob b ∈ s₁.revs.UNINTERESTING := by
      cases e with
      | tree t =>
        obtain ⟨hlt, hPt⟩ := hP t List.mem_cons_self
        obtain ⟨s₁, hs₁, hshows, hnew, hdone⟩ := ih t s hlt hPt
        refine ⟨s₁, hs₁, hshows, hnew, ?_, fun b hb => by cases hb⟩
        intro t' ht'
        rw [← entry.tree.inj ht', hshows.flags]
        exact hdone
      | blob b =>
        obtain ⟨hshows, hnew, hdone⟩ := process_blob_spec (g := g) hblobs b s
        refine ⟨_, rfl, hshows, hnew, (fun t ht => by cases ht), ?_⟩
        intro b' hb'
        rw [← entry.blob.inj hb', hshows.flags]
        exact hdone
      | gitlink =>
        exact ⟨s, rfl, Shows.refl s, fun r hr => Or.inl hr, (fun t ht => by cases ht),
          fun b hb => by cases hb⟩
    obtain ⟨s₁, hs₁, hshows, hnew, htree, hblob⟩ := hfirst
    obtain ⟨s', hs', hshows', hnew', htrees, hblobs'⟩ :=
      ihe (fun t ht => hP t (List.mem_cons_of_mem e ht)) s₁
    refine ⟨s', ?_, hshows.trans hshows', hnew.trans hnew' hshows', ?_, ?_⟩
    · rw [List.foldlM_cons, hs₁]
      exact hs'
    · intro t ht
      rcases List.mem_cons.mp ht with heq | ht
      · rw [hshows'.flags]
        exact (htree t heq.symm).imp_left fun h => hshows'.seen h
      · exact htrees t ht
    · intro b hb
      rcases List.mem_cons.mp hb with heq | hb
      · rw [hshows'.flags]
        exact (hblob b heq.symm).imp_left fun h => hshows'.seen h
      · exact hblobs' b hb

/-- A tree that is there, as all trees in it are: it is done with afterwards, and so are the
trees that were shown on the way. -/
theorem process_tree_spec (htrees : opt.tree_objects = true) (hblobs : opt.blob_objects = true)
    {P : tree → Prop} (hhas : ∀ t, P t → g.has_sha1_file (.tree t) = true)
    (hdown : ∀ t s, P t → entry.tree s ∈ g.entries t → P s) (n : Nat) :
    ∀ (t : tree) (s : listing commit tree blob tag), g.tree_height t < n → P t →
      ∃ s', process_tree g opt n t s = some s' ∧ Shows s s' ∧ NewTreesDone g s s' ∧
        (.tree t ∈ s'.revs.SEEN ∨ .tree t ∈ s.revs.UNINTERESTING) := by
  induction n with
  | zero => exact fun t s h _ => absurd h (Nat.not_lt_zero _)
  | succ n ih =>
    intro t s hheight hPt
    unfold process_tree
    rw [htrees, Bool.not_true, if_neg Bool.false_ne_true, if_pos (hhas t hPt)]
    split_ifs with hdone
    · exact ⟨s, rfl, Shows.refl s, fun r hr => Or.inl hr, hdone.symm⟩
    · rw [not_or] at hdone
      have hself : Shows s (show_object (.tree t) s) := Shows.object hdone.2 fun c h => (by cases h)
      obtain ⟨s', hs', hshows, hnew, htree, hblob⟩ := process_entries hblobs ih (g.entries t)
        (fun r hr => ⟨lt_of_lt_of_le (g.subtree_lt t r hr) (Nat.lt_succ_iff.mp hheight),
          hdown t r hPt hr⟩) (show_object (.tree t) s)
      refine ⟨s', hs', hself.trans hshows, ?_, Or.inl (hshows.seen (Finset.mem_insert_self _ _))⟩
      intro r hr
      rcases hnew r hr with hr | hr
      · rcases Finset.mem_insert.mp hr with heq | hr
        · rw [object.tree.inj heq]
          exact Or.inr ⟨htree, hblob⟩
        · exact Or.inl hr
      · exact Or.inr hr

/-! ## What is pending -/

/-- All that is pending is seen afterwards, or uninteresting. -/
theorem process_pending_spec (htrees : opt.tree_objects = true) (hblobs : opt.blob_objects = true)
    {P : object commit tree blob tag → Prop} (hhas : ∀ o, P o → g.has_sha1_file o = true)
    (hdown : ∀ o x, P o → Names g o x → P x) (pending : List (object commit tree blob tag)) :
    ∀ s : listing commit tree blob tag, (∀ o ∈ pending, P o ∧ ∀ c, o ≠ .commit c) →
      ∃ s', process_pending g opt pending s = some s' ∧ Shows s s' ∧ NewTreesDone g s s' ∧
        ∀ o ∈ pending, o ∈ s'.revs.SEEN ∨ o ∈ s'.revs.UNINTERESTING := by
  induction pending with
  | nil =>
    intro s _
    exact ⟨s, rfl, Shows.refl s, fun r hr => Or.inl hr, fun o ho => absurd ho List.not_mem_nil⟩
  | cons o pending ih =>
    intro s h
    obtain ⟨hPo, hkind⟩ := h o List.mem_cons_self
    have hfirst : ∃ s₁, process_pending g opt (o :: pending) s = process_pending g opt pending s₁ ∧
        Shows s s₁ ∧ NewTreesDone g s s₁ ∧
        (o ∈ s₁.revs.SEEN ∨ o ∈ s₁.revs.UNINTERESTING) := by
      by_cases hdone : o ∈ s.revs.UNINTERESTING ∨ o ∈ s.revs.SEEN
      · refine ⟨s, ?_, Shows.refl s, fun r hr => Or.inl hr, hdone.symm⟩
        cases o <;> exact if_pos hdone
      · cases o with
        | commit c => exact absurd rfl (hkind c)
        | tag t =>
          rw [not_or] at hdone
          refine ⟨_, if_neg (not_or.mpr hdone), Shows.object hdone.2 hkind, ?_,
            Or.inl (Finset.mem_insert_self _ _)⟩
          intro r hr
          rcases Finset.mem_insert.mp hr with heq | hr
          · cases heq
          · exact Or.inl hr
        | tree t =>
          obtain ⟨s₁, hs₁, hshows, hnew, hself⟩ := process_tree_spec htrees hblobs
            (P := fun t => P (.tree t)) (fun t ht => hhas _ ht)
            (fun t s ht hs => hdown _ _ ht (Names.subtree hs)) (g.tree_height t + 1) t s
            (Nat.lt_succ_self _) hPo
          refine ⟨s₁, ?_, hshows, hnew, ?_⟩
          · rw [process_pending, if_neg hdone, hs₁, Option.bind_some]
          · rw [hshows.flags]
            exact hself
        | blob b =>
          obtain ⟨hshows, hnew, hself⟩ := process_blob_spec (g := g) hblobs b s
          refine ⟨_, if_neg hdone, hshows, hnew, ?_⟩
          rw [hshows.flags]
          exact hself
    obtain ⟨s₁, hturn, hshows, hnew, hself⟩ := hfirst
    obtain ⟨s', hs', hshows', hnew', hall⟩ :=
      ih s₁ fun x hx => h x (List.mem_cons_of_mem o hx)
    refine ⟨s', hturn.trans hs', hshows.trans hshows', hnew.trans hnew' hshows', ?_⟩
    intro x hx
    rcases List.mem_cons.mp hx with rfl | hx
    · rw [hshows'.flags]
      exact hself.imp_left fun h => hshows'.seen h
    · exact hall x hx

end git.list_objects
