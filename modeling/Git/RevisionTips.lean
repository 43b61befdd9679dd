-- What `prepare_revision_walk` makes of the tips: tags are peeled, commits come
-- into the list once, and what a positive tip names waits in `pending`.
import Git.RevisionLimit

open Relation

namespace git.revision

set_option linter.unusedSectionVars false

variable {commit tree blob tag : Type} [DecidableEq commit] [DecidableEq tree] [DecidableEq blob]
  [DecidableEq tag] {g : object_graph commit tree blob tag} {opt : rev_options}

/-! ## Tags -/

/-- What the tags of a chain name. -/
inductive Peels (g : object_graph commit tree blob tag) :
    object commit tree blob tag → object commit tree blob tag → Prop
  | refl (o : object commit tree blob tag) : Peels g o o
  | tagged (t : tag) {o : object commit tree blob tag} : Peels g (g.tagged t) o →
      Peels g (.tag t) o

theorem Peels.reach {o x : object commit tree blob tag} (h : Peels g o x) :
    ReflTransGen (Names g) o x := by
  induction h with
  | refl o => exact ReflTransGen.refl
  | tagged t _ ih => exact ih.head (Names.tagged t)

theorem Peels.target {a : object commit tree blob tag} {t : tag} (h : Peels g a (.tag t)) :
    Peels g a (g.tagged t) := by
  generalize hx : object.tag t = x at h
  induction h with
  | refl =>
    subst hx
    exact Peels.tagged t (Peels.refl _)
  | tagged t' _ ih => exact Peels.tagged t' (ih hx)

/-- `t` comes from `s` by parsing and by adding to the pending objects. -/
structure Peeled (s t : rev_info commit tree blob tag) : Prop where
  commits : t.commits = s.commits
  limited : t.limited = s.limited
  flags : t.UNINTERESTING = s.UNINTERESTING
  seen : t.SEEN = s.SEEN
  added : t.ADDED = s.ADDED
  shown : t.SHOWN = s.SHOWN
  parsed : s.parsed ⊆ t.parsed
  pending : s.pending ⊆ t.pending

theorem Peeled.refl (s : rev_info commit tree blob tag) : Peeled s s :=
  ⟨rfl, rfl, rfl, rfl, rfl, rfl, subset_rfl, fun _ h => h⟩

theorem Peeled.trans {s t u : rev_info commit tree blob tag} (h : Peeled s t) (h' : Peeled t u) :
    Peeled s u :=
  ⟨h'.commits.trans h.commits, h'.limited.trans h.limited, h'.flags.trans h.flags,
    h'.seen.trans h.seen, h'.added.trans h.added, h'.shown.trans h.shown,
    h.parsed.trans h'.parsed, fun _ ho => h'.pending (h.pending ho)⟩

theorem Peeled.pending_object (s : rev_info commit tree blob tag)
    (o : object commit tree blob tag) : Peeled s (add_pending_object o s) :=
  ⟨rfl, rfl, rfl, rfl, rfl, rfl, subset_rfl, fun _ h => List.mem_append_left _ h⟩

theorem parse_commit_peeled {s t : rev_info commit tree blob tag} {c : commit}
    (h : parse_commit g c s = some t) : Peeled s t ∧ t.pending = s.pending := by
  unfold parse_commit at h
  split_ifs at h with hparsed hhas
  · rw [← Option.some.inj h]
    exact ⟨Peeled.refl s, rfl⟩
  · rw [← Option.some.inj h]
    exact ⟨⟨rfl, rfl, rfl, rfl, rfl, rfl, Finset.subset_insert _ _, fun _ h => h⟩, rfl⟩

theorem parse_object_peeled {s t : rev_info commit tree blob tag} {o : object commit tree blob tag}
    (h : parse_object g o s = some t) : Peeled s t ∧ t.pending = s.pending := by
  unfold parse_object at h
  split at h
  · exact parse_commit_peeled h
  · split_ifs at h
    rw [← Option.some.inj h]
    exact ⟨Peeled.refl s, rfl⟩

theorem parse_object_present {s : rev_info commit tree blob tag} {o : object commit tree blob tag}
    (h : g.has_sha1_file o = true) : ∃ t, parse_object g o s = some t := by
  unfold parse_object
  split
  · exact parse_commit_present h
  · rw [if_pos h]
    exact ⟨s, rfl⟩

/-- What the loop over the tags comes to: nothing, for a negative tip, or what is behind the
tags. The tags of a positive tip are pending then. -/
theorem peel_tags_spec (uninteresting : Bool) (htags : opt.tag_objects = true) (fuel : Nat) :
    ∀ (o : object commit tree blob tag) (s : rev_info commit tree blob tag),
      tags_above g o ≤ fuel →
      (uninteresting = false → ∀ x, Peels g o x → g.has_sha1_file x = true) →
      ∃ t y, peel_tags g opt uninteresting fuel o s = some (t, y) ∧ Peeled s t ∧
        (∀ z ∈ t.pending, z ∈ s.pending ∨
          Peels g o z ∧ uninteresting = false ∧ ∃ t', z = .tag t') ∧
        (y = none → uninteresting = true) ∧
        (∀ x ∈ y, Peels g o x ∧ (∀ t', x ≠ .tag t') ∧
          (∀ c, x = .commit c → x = o ∨ c ∈ t.parsed) ∧
          (uninteresting = false → ∀ z, Peels g o z → z = x ∨ z ∈ t.pending)) := by
  have hdone : ∀ (fuel : Nat) (o : object commit tree blob tag)
      (s : rev_info commit tree blob tag), (∀ t', o ≠ .tag t') →
      ∃ t y, some (s, some o) = some (t, y) ∧ Peeled s t ∧
        (∀ z ∈ t.pending, z ∈ s.pending ∨
          Peels g o z ∧ uninteresting = false ∧ ∃ t', z = .tag t') ∧
        (y = none → uninteresting = true) ∧
        (∀ x ∈ y, Peels g o x ∧ (∀ t', x ≠ .tag t') ∧
          (∀ c, x = .commit c → x = o ∨ c ∈ t.parsed) ∧
          (uninteresting = false → ∀ z, Peels g o z → z = x ∨ z ∈ t.pending)) := by
    intro fuel o s ho
    refine ⟨s, some o, rfl, Peeled.refl s, fun _ h => Or.inl h, fun h => (by cases h), ?_⟩
    intro x hx
    obtain rfl := Option.some.inj hx
    refine ⟨Peels.refl _, ho, fun c _ => Or.inl rfl, ?_⟩
    intro _ z hz
    cases hz with
    | refl => exact Or.inl rfl
    | tagged t' _ => exact absurd rfl (ho t')
  induction fuel with
  | zero =>
    intro o s hfuel _
    have ho : ∀ t', o ≠ .tag t' := by
      rintro t' rfl
      exact Nat.not_succ_le_zero _ hfuel
    have hturn : peel_tags g opt uninteresting 0 o s = some (s, some o) := by
      unfold peel_tags
      rfl
    rw [hturn]
    exact hdone 0 o s ho
  | succ fuel ih =>
    intro o s hfuel hpresent
    cases o with
    | commit c => exact hdone (fuel + 1) _ s fun _ h => by cases h
    | tree c => exact hdone (fuel + 1) _ s fun _ h => by cases h
    | blob c => exact hdone (fuel + 1) _ s fun _ h => by cases h
    | tag t₀ =>
      have hheight : tags_above g (g.tagged t₀) ≤ fuel := by
        unfold tags_above at hfuel ⊢
        split
        · rename_i t' heq
          have := g.tagged_lt t₀ t' heq
          simp only at hfuel
          omega
        · exact Nat.zero_le _
      rw [peel_tags, htags, Bool.true_and]
      cases hun : uninteresting with
      | true =>
        subst hun
        simp only [Bool.not_true, Bool.false_eq_true, if_false, if_true]
        cases hparse : parse_object g (g.tagged t₀) s with
        | none =>
          exact ⟨s, none, rfl, Peeled.refl s, fun _ h => Or.inl h, fun _ => trivial,
            fun x hx => by cases hx⟩
        | some s' =>
          obtain ⟨hpeeled, hpending⟩ := parse_object_peeled hparse
          obtain ⟨t, y, ht, hpeeled', hpend, hnone, hsome⟩ := ih (g.tagged t₀) s' hheight
            fun h => by cases h
          refine ⟨t, y, ht, hpeeled.trans hpeeled', ?_, fun _ => trivial, ?_⟩
          · intro z hz
            rcases hpend z hz with hz | ⟨-, h⟩
            · rw [hpending] at hz
              exact Or.inl hz
            · cases h.1
          · intro x hx
            obtain ⟨hpeels, hnotag, hcommit, -⟩ := hsome x hx
            refine ⟨Peels.tagged t₀ hpeels, hnotag, ?_, fun h => by cases h⟩
            rintro c rfl
            rcases hcommit c rfl with heq | hparsed
            · rw [← heq] at hparse
              exact Or.inr (hpeeled'.parsed (parse_commit_parsed hparse))
            · exact Or.inr hparsed
      | false =>
        subst hun
        simp only [Bool.not_false, if_true]
        have hpresent' := hpresent rfl
        obtain ⟨s', hparse⟩ := parse_object_present (s := add_pending_object (.tag t₀) s)
          (hpresent' _ (Peels.tagged t₀ (Peels.refl _)))
        obtain ⟨hpeeled, hpending⟩ := parse_object_peeled hparse
        obtain ⟨t, y, ht, hpeeled', hpend, hnone, hsome⟩ := ih (g.tagged t₀) s' hheight
          fun _ x hx => hpresent' x (Peels.tagged t₀ hx)
        rw [hparse]
        have hself : .tag t₀ ∈ t.pending := by
          apply hpeeled'.pending
          rw [hpending]
          exact List.mem_append_right _ (List.mem_singleton_self _)
        refine ⟨t, y, ht, ((Peeled.pending_object s _).trans hpeeled).trans hpeeled', ?_, hnone, ?_⟩
        · intro z hz
          rcases hpend z hz with hz | ⟨hz, -, htag⟩
          · rw [hpending] at hz
            rcases List.mem_append.mp hz with hz | hz
            · exact Or.inl hz
            · rw [List.mem_singleton.mp hz]
              exact Or.inr ⟨Peels.refl _, trivial, t₀, rfl⟩
          · exact Or.inr ⟨Peels.tagged t₀ hz, trivial, htag⟩
        · intro x hx
          obtain ⟨hpeels, hnotag, hcommit, hall⟩ := hsome x hx
          refine ⟨Peels.tagged t₀ hpeels, hnotag, ?_, ?_⟩
          · rintro c rfl
            rcases hcommit c rfl with heq | hparsed
            · rw [← heq] at hparse
              exact Or.inr (hpeeled'.parsed (parse_commit_parsed hparse))
            · exact Or.inr hparsed
          · intro _ z hz
            cases hz with
            | refl => exact Or.inr hself
            | tagged _ hz => exact hall rfl z hz

/-! ## Uninteresting trees -/

theorem mark_tree_entries {n : Nat} {P : object commit tree blob tag → Prop}
    (ih : ∀ (t : tree) (flags : Finset (object commit tree blob tag)),
      flags ⊆ mark_tree_loop g n t flags ∧
      ∀ o ∈ mark_tree_loop g n t flags, o ∈ flags ∨
        ReflTransGen (Names g) (.tree t) o ∧ ∀ c, o ≠ .commit c)
    (entries : List (entry tree blob))
    (hP : ∀ (t : tree) (o : object commit tree blob tag), entry.tree t ∈ entries →
      ReflTransGen (Names g) (.tree t) o → P o)
    (hblob : ∀ b, entry.blob b ∈ entries → P (.blob b)) :
    ∀ flags : Finset (object commit tree blob tag),
      flags ⊆ entries.foldl (fun flags e =>
        match e with
        | .tree t => mark_tree_loop g n t flags
        | .blob b => insert (.blob b) flags
        | .gitlink => flags) flags ∧
      ∀ o ∈ entries.foldl (fun flags e =>
        match e with
        | .tree t => mark_tree_loop g n t flags
        | .blob b => insert (.blob b) flags
        | .gitlink => flags) flags, o ∈ flags ∨ P o ∧ ∀ c, o ≠ .commit c := by
  induction entries with
  | nil => exact fun flags => ⟨subset_rfl, fun _ h => Or.inl h⟩
  | cons e entries ihe =>
    intro flags
    have hrest := ihe (fun t o ht => hP t o (List.mem_cons_of_mem e ht))
      (fun b hb => hblob b (List.mem_cons_of_mem e hb))
    rw [List.foldl_cons]
    cases e with
    | tree t =>
      obtain ⟨hgrow, hsound⟩ := ih t flags
      obtain ⟨hgrow', hsound'⟩ := hrest (mark_tree_loop g n t flags)
      refine ⟨hgrow.trans hgrow', ?_⟩
      intro o ho
      rcases hsound' o ho with ho | ho
      · rcases hsound o ho with ho | ⟨hreach, hkind⟩
        · exact Or.inl ho
        · exact Or.inr ⟨hP t o List.mem_cons_self hreach, hkind⟩
      · exact Or.inr ho
    | blob b =>
      obtain ⟨hgrow', hsound'⟩ := hrest (insert (.blob b) flags)
      refine ⟨(Finset.subset_insert _ _).trans hgrow', ?_⟩
      intro o ho
      rcases hsound' o ho with ho | ho
      · rcases Finset.mem_insert.mp ho with rfl | ho
        · exact Or.inr ⟨hblob b List.mem_cons_self, fun c h => by cases h⟩
        · exact Or.inl ho
      · exact Or.inr ho
    | gitlink => exact hrest flags

/-- A tree has only its own trees and files flagged. -/
theorem mark_tree_loop_spec (n : Nat) :
    ∀ (t : tree) (flags : Finset (object commit tree blob tag)),
      flags ⊆ mark_tree_loop g n t flags ∧
      ∀ o ∈ mark_tree_loop g n t flags, o ∈ flags ∨
        ReflTransGen (Names g) (.tree t) o ∧ ∀ c, o ≠ .commit c := by
  induction n with
  | zero => exact fun t flags => ⟨subset_rfl, fun _ h => Or.inl h⟩
  | succ n ih =>
    intro t flags
    have hself : ∀ o ∈ insert (object.tree t) flags, o ∈ flags ∨
        ReflTransGen (Names g) (.tree t) o ∧ ∀ c, o ≠ .commit c := by
      intro o ho
      rcases Finset.mem_insert.mp ho with rfl | ho
      · exact Or.inr ⟨ReflTransGen.refl, fun c h => by cases h⟩
      · exact Or.inl ho
    unfold mark_tree_loop
    split_ifs with hflag hhas
    · exact ⟨subset_rfl, fun _ h => Or.inl h⟩
    · obtain ⟨hgrow, hsound⟩ := mark_tree_entries
        (P := fun o => ReflTransGen (Names g) (.tree t) o) ih (g.entries t)
        (fun s o hs hreach => hreach.head (Names.subtree hs))
        (fun b hb => ReflTransGen.single (Names.file hb)) (insert (.tree t) flags)
      refine ⟨(Finset.subset_insert _ _).trans hgrow, ?_⟩
      intro o ho
      rcases hsound o ho with ho | ho
      · exact hself o ho
      · exact Or.inr ho
    · exact ⟨Finset.subset_insert _ _, hself⟩

/-! ## The tips -/

section

variable [Fintype commit] {P N : object commit tree blob tag → Prop}

theorem Reaches.peels (h : Reaches g P N) {o x : object commit tree blob tag} (hx : Peels g o x)
    (ho : P o) : P x := by
  induction hx with
  | refl => exact ho
  | tagged t _ ih => exact ih (h.tagged ho)

theorem Reaches.negative_star (h : Reaches g P N) {o x : object commit tree blob tag} (ho : N o)
    (hx : ReflTransGen (Names g) o x) : N x := by
  induction hx with
  | refl => exact ho
  | tail _ hname ih => exact h.negative ih hname

/-- Where `limit_list` starts. -/
def start (revs : rev_info commit tree blob tag) : limiting commit tree blob tag :=
  ⟨revs, revs.commits, [], 2 ^ 64 - 1, SLOP⟩

/-- What holds between the tips. -/
structure Tips (g : object_graph commit tree blob tag) (P N : object commit tree blob tag → Prop)
    (revs : rev_info commit tree blob tag) : Prop where
  walk : Walk g P N (start revs)
  added : revs.ADDED = ∅
  shown : revs.SHOWN = ∅
  pending : ∀ o ∈ revs.pending, P o ∧ ∀ c, o ≠ .commit c
  seen : ∀ o ∈ revs.SEEN, ∃ c, o = .commit c

/-- Flags and parsed commits can be added. -/
theorem Tips.grow {s t : rev_info commit tree blob tag} (h : Tips g P N s)
    (hcommits : t.commits = s.commits) (hseen : t.SEEN = s.SEEN) (hadded : t.ADDED = s.ADDED)
    (hshown : t.SHOWN = s.SHOWN) (hflags : s.UNINTERESTING ⊆ t.UNINTERESTING)
    (hparsed : s.parsed ⊆ t.parsed) (hsound : ∀ o ∈ t.UNINTERESTING, N o)
    (hpending : ∀ o ∈ t.pending, P o ∧ ∀ c, o ≠ .commit c) : Tips g P N t := by
  refine ⟨h.walk.grow hseen hadded hcommits rfl hflags hsound hparsed, hadded.trans h.added,
    hshown.trans h.shown, hpending, ?_⟩
  rw [hseen]
  exact h.seen

/-- A commit that was not seen comes into the list. -/
theorem Tips.append {revs : rev_info commit tree blob tag} (h : Tips g P N revs) {c : commit}
    (hparsed : c ∈ revs.parsed) (hreached : P (.commit c) ∨ .commit c ∈ revs.UNINTERESTING)
    (hnew : .commit c ∉ revs.SEEN) :
    Tips g P N { revs with
      SEEN := insert (.commit c) revs.SEEN
      commits := revs.commits ++ [c] } := by
  have hnone : ∀ d, d ∉ revs.ADDED := by
    intro d hd
    rw [h.added] at hd
    cases hd
  refine ⟨⟨h.walk.sound, ?_, fun d _ => hnone d, ?_, ?_, ?_, fun d hd => absurd hd (hnone d),
    fun d hd => absurd hd List.not_mem_nil, List.nodup_nil⟩, h.added, h.shown, h.pending, ?_⟩
  · intro d
    have hd : .commit d ∈ revs.SEEN ↔ d ∈ revs.commits ∨ d ∈ revs.ADDED := h.walk.seen d
    unfold start
    simp only [Finset.mem_insert, object.commit.injEq, List.mem_append, List.mem_singleton]
    rw [hd]
    tauto
  · have hnot : c ∉ revs.commits := fun hc => hnew ((h.walk.seen c).mpr (Or.inl hc))
    have hgoal : (revs.commits ++ [c]).Nodup := by
      rw [List.nodup_append]
      refine ⟨h.walk.nodup, List.nodup_singleton c, ?_⟩
      intro a ha b hb
      rw [List.mem_singleton.mp hb]
      rintro rfl
      exact hnot ha
    exact hgoal
  · intro d hd
    rcases Finset.mem_insert.mp hd with heq | hd
    · rw [object.commit.inj heq]
      exact hparsed
    · exact h.walk.parsed d hd
  · intro d hd
    rcases Finset.mem_insert.mp hd with heq | hd
    · rw [object.commit.inj heq]
      exact hreached
    · exact h.walk.reached d hd
  · intro o ho
    rcases Finset.mem_insert.mp ho with rfl | ho
    · exact ⟨c, rfl⟩
    · exact h.seen o ho

/-- What one tip does. A positive one has what it names in the list, when the commit that
comes out of it is there, or pending. -/
theorem handle_commit_spec (hr : Reaches g P N) (htags : opt.tag_objects = true)
    (htrees : opt.tree_objects = true) (hblobs : opt.blob_objects = true)
    {o : object commit tree blob tag} {s : rev_info commit tree blob tag} (h : Tips g P N s)
    (hhas : g.has_sha1_file o = true) (ho : o ∈ s.UNINTERESTING ∨ P o) :
    ∃ t c, handle_commit g opt o s = some (t, c) ∧ Tips g P N t ∧ t.commits = s.commits ∧
      t.SEEN = s.SEEN ∧ s.UNINTERESTING ⊆ t.UNINTERESTING ∧ s.pending ⊆ t.pending ∧
      (s.limited = true → t.limited = true) ∧
      (t.limited = true ∨ ∀ d, .commit d ∈ t.UNINTERESTING → .commit d ∈ s.UNINTERESTING) ∧
      (∀ d, o = .commit d → .commit d ∈ s.UNINTERESTING → t.limited = true) ∧
      (∀ d ∈ c, d ∈ t.parsed ∧ (P (.commit d) ∨ .commit d ∈ t.UNINTERESTING)) ∧
      (o ∉ s.UNINTERESTING → ∀ z, Peels g o z →
        z ∈ t.pending ∨ ∃ d ∈ c, z = .commit d) := by
  have hpos : o ∉ s.UNINTERESTING → P o := ho.resolve_left
  obtain ⟨t, y, ht, hpeeled, hpend, hnone, hsome⟩ :=
    peel_tags_spec (decide (o ∈ s.UNINTERESTING)) htags (tags_above g o) o s (le_refl _)
      fun hno x hx => hr.present (hr.peels hx (hpos (of_decide_eq_false hno)))
  have hsound : ∀ x ∈ t.UNINTERESTING, N x := by
    rw [hpeeled.flags]
    exact h.walk.sound
  have hpending : ∀ x ∈ t.pending, P x ∧ ∀ c, x ≠ .commit c := by
    intro x hx
    rcases hpend x hx with hx | ⟨hx, hno, t', rfl⟩
    · exact h.pending x hx
    · exact ⟨hr.peels hx (hpos (of_decide_eq_false hno)), fun c hc => by cases hc⟩
  have htips : Tips g P N t := h.grow hpeeled.commits hpeeled.seen hpeeled.added hpeeled.shown
    (by rw [hpeeled.flags]) hpeeled.parsed hsound hpending
  have hcommit : ∀ d, o = .commit d → y = some (.commit d) := by
    rintro d rfl
    exact (Prod.mk.inj (Option.some.inj ht)).2.symm
  unfold handle_commit
  simp only
  rw [ht, Option.bind_some]
  cases y with
  | none =>
    refine ⟨t, none, rfl, htips, hpeeled.commits, hpeeled.seen, by rw [hpeeled.flags],
      hpeeled.pending, fun hl => hpeeled.limited.trans hl, Or.inr ?_, ?_, ?_, ?_⟩
    · rw [hpeeled.flags]
      exact fun d hd => hd
    · intro d hd
      cases hcommit d hd
    · intro d hd
      cases hd
    · intro hno
      exact absurd (of_decide_eq_true (hnone rfl)) hno
  | some x =>
    obtain ⟨hpeels, hnotag, hparsed, hall⟩ := hsome x rfl
    have hN : o ∈ s.UNINTERESTING → N x := fun hu =>
      hr.negative_star (h.walk.sound o hu) hpeels.reach
    have hP : o ∉ s.UNINTERESTING → P x := fun hno => hr.peels hpeels (hpos hno)
    cases x with
    | tag t' => exact absurd rfl (hnotag t')
    | commit c =>
      have hread : ∃ t', parse_commit g c t = some t' := by
        rcases hparsed c rfl with heq | hin
        · rw [← heq] at hhas
          exact parse_commit_present hhas
        · unfold parse_commit
          rw [if_pos hin]
          exact ⟨t, rfl⟩
      obtain ⟨t', ht'⟩ := hread
      obtain ⟨hpeeled', hpending'⟩ := parse_commit_peeled ht'
      simp only
      rw [ht', Option.map_some]
      by_cases hu : o ∈ s.UNINTERESTING
      · have hmarked := (Marked.flag t' (.commit c)).trans
          (mark_parents_marked (g := g) c (flag_uninteresting (.commit c) t'))
        have hself : .commit c ∈
            (mark_parents_uninteresting g c (flag_uninteresting (.commit c) t')).UNINTERESTING :=
          (mark_parents_marked (g := g) c _).flags (Finset.mem_insert_self _ _)
        have hgrow : s.UNINTERESTING ⊆
            (mark_parents_uninteresting g c (flag_uninteresting (.commit c) t')).UNINTERESTING := by
          rw [← hpeeled.flags, ← hpeeled'.flags]
          exact hmarked.flags
        simp only [decide_eq_true hu, if_true]
        refine ⟨_, some c, rfl, h.grow ?_ ?_ ?_ ?_ hgrow ?_ ?_ ?_, ?_, ?_, hgrow, ?_,
          fun _ => rfl, Or.inl rfl, fun _ _ _ => rfl, ?_, fun hno => absurd hu hno⟩
        · exact hmarked.commits.trans (hpeeled'.commits.trans hpeeled.commits)
        · exact hmarked.seen.trans (hpeeled'.seen.trans hpeeled.seen)
        · exact hmarked.added.trans (hpeeled'.added.trans hpeeled.added)
        · exact hmarked.shown.trans (hpeeled'.shown.trans hpeeled.shown)
        · exact (hpeeled.parsed.trans hpeeled'.parsed).trans hmarked.parsed
        · intro z hz
          rcases mark_parents_sound hz with hz | ⟨d, rfl, hd⟩
          · rcases Finset.mem_insert.mp hz with rfl | hz
            · exact hN hu
            · rw [hpeeled'.flags] at hz
              exact hsound z hz
          · exact hr.ancestor (hN hu) hd
        · intro z hz
          have hz : z ∈ t'.pending := by
            rw [← hmarked.pending]
            exact hz
          rw [hpending'] at hz
          exact hpending z hz
        · exact hmarked.commits.trans (hpeeled'.commits.trans hpeeled.commits)
        · exact hmarked.seen.trans (hpeeled'.seen.trans hpeeled.seen)
        · intro z hz
          have hgoal : z ∈ (mark_parents_uninteresting g c
              (flag_uninteresting (.commit c) t')).pending := by
            rw [hmarked.pending]
            exact hpeeled'.pending (hpeeled.pending hz)
          exact hgoal
        · intro d hd
          rw [← Option.some.inj hd]
          exact ⟨hmarked.parsed (parse_commit_parsed ht'), Or.inr hself⟩
      · simp only [decide_eq_false hu, Bool.false_eq_true, if_false]
        have htips' : Tips g P N t' := htips.grow hpeeled'.commits hpeeled'.seen hpeeled'.added
          hpeeled'.shown (by rw [hpeeled'.flags]) hpeeled'.parsed
          (by rw [hpeeled'.flags]; exact hsound) (by rw [hpending']; exact hpending)
        have hflags : t'.UNINTERESTING = s.UNINTERESTING := hpeeled'.flags.trans hpeeled.flags
        refine ⟨t', some c, rfl, htips', hpeeled'.commits.trans hpeeled.commits,
          hpeeled'.seen.trans hpeeled.seen, by rw [hflags],
          fun z hz => hpeeled'.pending (hpeeled.pending hz),
          fun hl => hpeeled'.limited.trans (hpeeled.limited.trans hl), Or.inr ?_, ?_, ?_, ?_⟩
        · rw [hflags]
          exact fun d hd => hd
        · intro d hd hdu
          rw [hd] at hu
          exact absurd hdu hu
        · intro d hd
          rw [← Option.some.inj hd]
          exact ⟨parse_commit_parsed ht', Or.inl (hP hu)⟩
        · intro _ z hz
          rcases hall (decide_eq_false hu) z hz with rfl | hz
          · exact Or.inr ⟨c, rfl, rfl⟩
          · exact Or.inl (hpeeled'.pending hz)
    | tree r =>
      simp only [htrees, Bool.not_true, Bool.false_eq_true, if_false]
      by_cases hu : o ∈ s.UNINTERESTING
      · obtain ⟨hgrow, hsound'⟩ := mark_tree_loop_spec (g := g) (g.tree_height r + 1) r
          t.UNINTERESTING
        simp only [decide_eq_true hu, if_true]
        refine ⟨mark_tree_uninteresting g r t, none, rfl,
          htips.grow rfl rfl rfl rfl hgrow subset_rfl ?_ hpending, hpeeled.commits, hpeeled.seen,
          ?_, hpeeled.pending, fun hl => hpeeled.limited.trans hl, Or.inr ?_, ?_, ?_,
          fun hno => absurd hu hno⟩
        · intro z hz
          rcases hsound' z hz with hz | ⟨hz, -⟩
          · exact hsound z hz
          · exact hr.negative_star (hN hu) hz
        · rw [← hpeeled.flags]
          exact hgrow
        · intro d hd
          rcases hsound' _ hd with hd | ⟨-, hkind⟩
          · rw [hpeeled.flags] at hd
            exact hd
          · exact absurd rfl (hkind d)
        · intro d hd
          cases hcommit d hd
        · intro d hd
          cases hd
      · simp only [decide_eq_false hu, Bool.false_eq_true, if_false]
        refine ⟨add_pending_object (.tree r) t, none, rfl,
          htips.grow rfl rfl rfl rfl subset_rfl subset_rfl hsound ?_, hpeeled.commits,
          hpeeled.seen, by rw [← hpeeled.flags]; exact subset_rfl,
          fun z hz => List.mem_append_left _ (hpeeled.pending hz),
          fun hl => hpeeled.limited.trans hl, Or.inr ?_, ?_, ?_, ?_⟩
        · intro z hz
          rcases List.mem_append.mp hz with hz | hz
          · exact hpending z hz
          · rw [List.mem_singleton.mp hz]
            exact ⟨hP hu, fun c hc => by cases hc⟩
        · intro d hd
          rw [← hpeeled.flags]
          exact hd
        · intro d hd
          cases hcommit d hd
        · intro d hd
          cases hd
        · intro _ z hz
          rcases hall (decide_eq_false hu) z hz with rfl | hz
          · exact Or.inl (List.mem_append_right _ (List.mem_singleton_self _))
          · exact Or.inl (List.mem_append_left _ hz)
    | blob b =>
      simp only [hblobs, Bool.not_true, Bool.false_eq_true, if_false]
      by_cases hu : o ∈ s.UNINTERESTING
      · simp only [decide_eq_true hu, if_true]
        refine ⟨flag_uninteresting (.blob b) t, none, rfl,
          htips.grow rfl rfl rfl rfl (Finset.subset_insert _ _) subset_rfl ?_ hpending,
          hpeeled.commits, hpeeled.seen, ?_, hpeeled.pending, fun hl => hpeeled.limited.trans hl,
          Or.inr ?_, ?_, ?_, fun hno => absurd hu hno⟩
        · intro z hz
          rcases Finset.mem_insert.mp hz with rfl | hz
          · exact hN hu
          · exact hsound z hz
        · rw [← hpeeled.flags]
          exact Finset.subset_insert _ _
        · intro d hd
          rcases Finset.mem_insert.mp hd with heq | hd
          · cases heq
          · rw [hpeeled.flags] at hd
            exact hd
        · intro d hd
          cases hcommit d hd
        · intro d hd
          cases hd
      · simp only [decide_eq_false hu, Bool.false_eq_true, if_false]
        refine ⟨add_pending_object (.blob b) t, none, rfl,
          htips.grow rfl rfl rfl rfl subset_rfl subset_rfl hsound ?_, hpeeled.commits,
          hpeeled.seen, by rw [← hpeeled.flags]; exact subset_rfl,
          fun z hz => List.mem_append_left _ (hpeeled.pending hz),
          fun hl => hpeeled.limited.trans hl, Or.inr ?_, ?_, ?_, ?_⟩
        · intro z hz
          rcases List.mem_append.mp hz with hz | hz
          · exact hpending z hz
          · rw [List.mem_singleton.mp hz]
            exact ⟨hP hu, fun c hc => by cases hc⟩
        · intro d hd
          rw [← hpeeled.flags]
          exact hd
        · intro d hd
          cases hcommit d hd
        · intro d hd
          cases hd
        · intro _ z hz
          rcases hall (decide_eq_false hu) z hz with rfl | hz
          · exact Or.inl (List.mem_append_right _ (List.mem_singleton_self _))
          · exact Or.inl (List.mem_append_left _ hz)

theorem handle_tips_spec (hr : Reaches g P N) (htags : opt.tag_objects = true)
    (htrees : opt.tree_objects = true) (hblobs : opt.blob_objects = true)
    (tips : List (object commit tree blob tag)) :
    ∀ s : rev_info commit tree blob tag, Tips g P N s → (∀ o ∈ tips, g.has_sha1_file o = true) →
      (∀ o ∈ tips, o ∈ s.UNINTERESTING ∨ P o) →
      ∃ t, handle_tips g opt tips s = some t ∧ Tips g P N t ∧ s.UNINTERESTING ⊆ t.UNINTERESTING ∧
        s.SEEN ⊆ t.SEEN ∧ s.pending ⊆ t.pending ∧ (s.limited = true → t.limited = true) ∧
        (t.limited = true ∨ ∀ d, .commit d ∈ t.UNINTERESTING → .commit d ∈ s.UNINTERESTING) ∧
        (∀ d, .commit d ∈ tips → .commit d ∈ s.UNINTERESTING → t.limited = true) ∧
        (∀ o ∈ tips, o ∉ t.UNINTERESTING → ∀ z, Peels g o z →
          z ∈ t.pending ∨ ∃ d, z = .commit d ∧ .commit d ∈ t.SEEN) := by
  induction tips with
  | nil =>
    intro s h _ _
    exact ⟨s, rfl, h, subset_rfl, subset_rfl, fun _ h => h, id, Or.inr fun _ h => h,
      fun _ hd => absurd hd List.not_mem_nil, fun _ ho => absurd ho List.not_mem_nil⟩
  | cons o tips ih =>
    intro s h hhas hmarked
    obtain ⟨s₁, c, hhandle, htips₁, hcommits, hseen, hflags, hpending, hlimited, hclean, hself,
      hcommit, hcovered⟩ := handle_commit_spec hr htags htrees hblobs h (hhas o List.mem_cons_self)
        (hmarked o List.mem_cons_self)
    -- the commit, if there is one, is in the list afterwards
    have hnext : ∃ s₂, handle_tips g opt (o :: tips) s = handle_tips g opt tips s₂ ∧
        Tips g P N s₂ ∧ s₂.UNINTERESTING = s₁.UNINTERESTING ∧ s₂.pending = s₁.pending ∧
        s₂.limited = s₁.limited ∧ s.SEEN ⊆ s₂.SEEN ∧ ∀ d ∈ c, .commit d ∈ s₂.SEEN := by
      rw [handle_tips, hhandle, Option.bind_some]
      cases c with
      | none => exact ⟨s₁, rfl, htips₁, rfl, rfl, rfl, by rw [hseen], fun d hd => by cases hd⟩
      | some c =>
        simp only
        by_cases hin : .commit c ∈ s₁.SEEN
        · rw [if_pos hin]
          refine ⟨s₁, rfl, htips₁, rfl, rfl, rfl, by rw [hseen], ?_⟩
          intro d hd
          rw [← Option.some.inj hd]
          exact hin
        · rw [if_neg hin]
          obtain ⟨hparsed, hreached⟩ := hcommit c rfl
          refine ⟨_, rfl, htips₁.append hparsed hreached hin, rfl, rfl, rfl, ?_, ?_⟩
          · rw [← hseen]
            exact Finset.subset_insert _ _
          · intro d hd
            rw [← Option.some.inj hd]
            exact Finset.mem_insert_self _ _
    obtain ⟨s₂, hturn, htips₂, hflags₂, hpending₂, hlimited₂, hseen₂, hcommit₂⟩ := hnext
    obtain ⟨t, ht, htips, hflagst, hseent, hpendingt, hlimitedt, hcleant, hselft, hcoveredt⟩ :=
      ih s₂ htips₂ (fun x hx => hhas x (List.mem_cons_of_mem o hx)) (by
        intro x hx
        rw [hflags₂]
        exact (hmarked x (List.mem_cons_of_mem o hx)).imp_left fun hu => hflags hu)
    rw [hflags₂] at hflagst hcleant hselft
    rw [hpending₂] at hpendingt
    rw [hlimited₂] at hlimitedt
    refine ⟨t, hturn.trans ht, htips, hflags.trans hflagst, hseen₂.trans hseent,
      fun _ hz => hpendingt (hpending hz), fun hl => hlimitedt (hlimited hl), ?_, ?_, ?_⟩
    · rcases hcleant with hl | hcleant
      · exact Or.inl hl
      · rcases hclean with hl | hclean
        · exact Or.inl (hlimitedt hl)
        · exact Or.inr fun d hd => hclean d (hcleant d hd)
    · intro d hd hu
      rcases List.mem_cons.mp hd with heq | hd
      · exact hlimitedt (hself d heq.symm hu)
      · exact hselft d hd (hflags hu)
    · intro x hx hno z hz
      rcases List.mem_cons.mp hx with rfl | hx
      · have hno' : x ∉ s.UNINTERESTING := fun hu => hno (hflagst (hflags hu))
        rcases hcovered hno' z hz with hz | ⟨d, hd, rfl⟩
        · exact Or.inl (hpendingt hz)
        · exact Or.inr ⟨d, rfl, hseent (hcommit₂ d hd)⟩
      · exact hcoveredt x hx hno z hz

/-! ## From the arguments -/

theorem add_tips_flags (tips : List (object commit tree blob tag × Bool)) (parsed : Finset commit)
    (limited : Bool) (o : object commit tree blob tag) :
    o ∈ (add_tips tips parsed limited).UNINTERESTING ↔ (o, true) ∈ tips := by
  unfold add_tips
  simp only [List.mem_toFinset, List.mem_map, List.mem_filter, Prod.exists, exists_and_right,
    exists_eq_right]

/-- Before the first tip. -/
theorem add_tips_start (tips : List (object commit tree blob tag × Bool)) (parsed : Finset commit)
    (limited : Bool) {P N : object commit tree blob tag → Prop}
    (hN : ∀ o, (o, true) ∈ tips → N o) :
    Tips g P N { add_tips tips parsed limited with pending := [] } := by
  have hnone : ∀ {α : Type} (x : α), x ∉ (∅ : Finset α) := fun x => Finset.notMem_empty x
  have hsound : ∀ o ∈ (add_tips tips parsed limited).UNINTERESTING, N o :=
    fun o ho => hN o ((add_tips_flags tips parsed limited o).mp ho)
  refine ⟨⟨hsound, ?_, fun c hc => absurd hc List.not_mem_nil, List.nodup_nil,
    fun c hc => absurd hc (hnone _), fun c hc => absurd hc (hnone _),
    fun c hc => absurd hc (hnone _), fun c hc => absurd hc List.not_mem_nil, List.nodup_nil⟩,
    rfl, rfl, fun o ho => absurd ho List.not_mem_nil, fun o ho => absurd ho (hnone _)⟩
  intro c
  constructor
  · exact fun hc => absurd hc (hnone _)
  · rintro (hc | hc)
    · exact absurd hc List.not_mem_nil
    · exact absurd hc (hnone _)

theorem Tips.sort {revs : rev_info commit tree blob tag} (h : Tips g P N revs) :
    Tips g P N { revs with commits := commit_list_sort_by_date g revs.commits } := by
  have hperm := sort_by_date_perm (g := g) revs.commits
  refine ⟨⟨h.walk.sound, ?_, ?_, ?_, h.walk.parsed, h.walk.reached, h.walk.taken, h.walk.listed,
    List.nodup_nil⟩, h.added, h.shown, h.pending, h.seen⟩
  · intro c
    unfold start
    simp only
    rw [hperm.mem_iff]
    exact h.walk.seen c
  · intro c hc
    exact h.walk.apart c (hperm.mem_iff.mp hc)
  · exact hperm.nodup_iff.mpr h.walk.nodup

end

end git.revision
