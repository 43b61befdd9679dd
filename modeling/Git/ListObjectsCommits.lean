-- Commits in the listing: whether the walk was limited before or goes on while
-- they are shown, each comes once, and its tree is pending then.
import Git.ListObjectsTrees

open Relation

namespace git.list_objects

open revision

set_option linter.unusedSectionVars false

variable {commit tree blob tag : Type} [DecidableEq commit] [DecidableEq tree] [DecidableEq blob]
  [DecidableEq tag] [Fintype commit] {g : object_graph commit tree blob tag} {opt : rev_options}
  {P N : object commit tree blob tag → Prop}

/-! ## Edges -/

/-- `t` comes from `s` by marking edges. -/
structure Edged (N : object commit tree blob tag → Prop) (s t : rev_info commit tree blob tag) :
    Prop where
  pending : t.pending = s.pending
  commits : t.commits = s.commits
  limited : t.limited = s.limited
  seen : t.SEEN = s.SEEN
  added : t.ADDED = s.ADDED
  parsed : t.parsed = s.parsed
  flags : s.UNINTERESTING ⊆ t.UNINTERESTING
  sound : ∀ o ∈ t.UNINTERESTING, o ∈ s.UNINTERESTING ∨ N o ∧ ∀ c, o ≠ .commit c
  shown : ∀ c ∈ t.SHOWN, c ∈ s.SHOWN ∨ .commit c ∈ s.UNINTERESTING

theorem Edged.refl (s : rev_info commit tree blob tag) : Edged N s s :=
  ⟨rfl, rfl, rfl, rfl, rfl, rfl, subset_rfl, fun _ h => Or.inl h, fun _ h => Or.inl h⟩

theorem Edged.commit_flag {s t : rev_info commit tree blob tag} (h : Edged N s t) (c : commit) :
    .commit c ∈ t.UNINTERESTING ↔ .commit c ∈ s.UNINTERESTING := by
  constructor
  · intro hc
    rcases h.sound _ hc with hc | ⟨-, hkind⟩
    · exact hc
    · exact absurd rfl (hkind c)
  · exact fun hc => h.flags hc

theorem Edged.trans {s t u : rev_info commit tree blob tag} (h : Edged N s t)
    (h' : Edged N t u) : Edged N s u where
  pending := h'.pending.trans h.pending
  commits := h'.commits.trans h.commits
  limited := h'.limited.trans h.limited
  seen := h'.seen.trans h.seen
  added := h'.added.trans h.added
  parsed := h'.parsed.trans h.parsed
  flags := h.flags.trans h'.flags
  sound := by
    intro o ho
    rcases h'.sound o ho with ho | ho
    · exact h.sound o ho
    · exact Or.inr ho
  shown := by
    intro c hc
    rcases h'.shown c hc with hc | hc
    · exact h.shown c hc
    · exact Or.inr ((h.commit_flag c).mp hc)

theorem Edged.commit_tree (hr : Reaches g P N) {c : commit} {s : rev_info commit tree blob tag}
    (hc : N (.commit c)) : Edged N s (mark_commit_tree_uninteresting g c s) := by
  unfold mark_commit_tree_uninteresting list_objects.commit_tree
  split_ifs with hparsed
  · obtain ⟨hgrow, hsound⟩ := mark_tree_loop_spec (g := g) (g.tree_height (g.tree_of c) + 1)
      (g.tree_of c) s.UNINTERESTING
    refine ⟨rfl, rfl, rfl, rfl, rfl, rfl, hgrow, ?_, fun _ h => Or.inl h⟩
    intro o ho
    rcases hsound o ho with ho | ⟨hreach, hkind⟩
    · exact Or.inl ho
    · exact Or.inr ⟨hr.negative_star (hr.negative hc (Names.root c)) hreach, hkind⟩
  · exact Edged.refl s

theorem mark_edge_parents_spec (opt : rev_options) (hr : Reaches g P N) (parents : List commit) :
    ∀ s : rev_info commit tree blob tag × List commit,
      (∀ c, .commit c ∈ s.1.UNINTERESTING → N (.commit c)) →
      Edged N s.1 (mark_edge_parents_uninteresting g opt parents s).1 := by
  induction parents with
  | nil => exact fun s _ => Edged.refl s.1
  | cons p parents ih =>
    rintro ⟨revs, edges⟩ hN
    rw [mark_edge_parents_uninteresting]
    by_cases hflag : .commit p ∈ revs.UNINTERESTING
    · have htree : Edged N revs (mark_commit_tree_uninteresting g p revs) :=
        Edged.commit_tree hr (hN p hflag)
      have hN' : ∀ c, .commit c ∈ (mark_commit_tree_uninteresting g p revs).UNINTERESTING →
          N (.commit c) := fun c hc => hN c ((htree.commit_flag c).mp hc)
      have hshow : Edged N revs { mark_commit_tree_uninteresting g p revs with
          SHOWN := insert p (mark_commit_tree_uninteresting g p revs).SHOWN } := by
        apply htree.trans
        refine ⟨rfl, rfl, rfl, rfl, rfl, rfl, subset_rfl, fun _ h => Or.inl h, ?_⟩
        intro c hc
        rcases Finset.mem_insert.mp hc with rfl | hc
        · exact Or.inr ((htree.commit_flag c).mpr hflag)
        · exact Or.inl hc
      rw [if_pos hflag]
      simp only
      split_ifs with hedge
      · exact hshow.trans (ih (_, edges ++ [p]) hN')
      · exact htree.trans (ih (_, _) hN')
    · rw [if_neg hflag]
      exact ih (_, _) hN

theorem mark_edges_spec (opt : rev_options) (hr : Reaches g P N) (list : List commit) :
    ∀ s : rev_info commit tree blob tag × List commit,
      (∀ c, .commit c ∈ s.1.UNINTERESTING → N (.commit c)) →
      Edged N s.1 (mark_edges_uninteresting g opt list s).1 := by
  induction list with
  | nil => exact fun s _ => Edged.refl s.1
  | cons c list ih =>
    rintro ⟨revs, edges⟩ hN
    rw [mark_edges_uninteresting]
    split_ifs with hflag
    · have htree : Edged N revs (mark_commit_tree_uninteresting g c revs) :=
        Edged.commit_tree hr (hN c hflag)
      exact htree.trans (ih (_, _) fun d hd => hN d ((htree.commit_flag d).mp hd))
    · have hparents := mark_edge_parents_spec opt hr (parents_of g revs c) (revs, edges) hN
      exact hparents.trans (ih (_, _) fun d hd => hN d ((hparents.commit_flag d).mp hd))

/-! ## One commit -/

/-- What the loop over the commits keeps. -/
structure Listed (g : object_graph commit tree blob tag) (P : object commit tree blob tag → Prop)
    (s : listing commit tree blob tag) : Prop where
  commits : ∀ o ∈ s.shown, ∃ c, o = .commit c
  nodup : s.shown.Nodup
  marked : ∀ c, .commit c ∈ s.shown → c ∈ s.revs.SHOWN
  shown : ∀ c ∈ s.revs.SHOWN, .commit c ∈ s.shown ∨ .commit c ∈ s.revs.UNINTERESTING
  pending : ∀ o ∈ s.revs.pending, P o ∧ ∀ c, o ≠ .commit c
  trees : ∀ c, .commit c ∈ s.shown → .tree (g.tree_of c) ∈ s.revs.pending

/-- A commit that comes out of the list is shown. -/
def show_commit (g : object_graph commit tree blob tag) (c : commit)
    (revs : rev_info commit tree blob tag) (shown : List (object commit tree blob tag)) :
    listing commit tree blob tag :=
  let revs := { revs with SHOWN := insert c revs.SHOWN }
  ⟨match commit_tree g revs c with
    | some t => add_pending_object (.tree t) revs
    | none => revs, shown ++ [.commit c]⟩

theorem show_commit_eq {c : commit} (revs : rev_info commit tree blob tag)
    (shown : List (object commit tree blob tag)) (hparsed : c ∈ revs.parsed)
    (hhas : g.has_sha1_file (.commit c) = true) :
    show_commit g c revs shown =
      ⟨{ revs with
          SHOWN := insert c revs.SHOWN
          pending := revs.pending ++ [.tree (g.tree_of c)] }, shown ++ [.commit c]⟩ := by
  have htree : commit_tree g { revs with SHOWN := insert c revs.SHOWN } c = some (g.tree_of c) :=
    if_pos ⟨hparsed, hhas⟩
  unfold show_commit
  simp only
  rw [htree]
  rfl

theorem Listed.next {s : listing commit tree blob tag} (h : Listed g P s) {c : commit}
    {revs : rev_info commit tree blob tag} (hflags : revs.UNINTERESTING = s.revs.UNINTERESTING)
    (hshown : revs.SHOWN = s.revs.SHOWN) (hpending : revs.pending = s.revs.pending)
    (hparsed : c ∈ revs.parsed) (hhas : g.has_sha1_file (.commit c) = true)
    (hnew : c ∉ s.revs.SHOWN) (htree : P (.tree (g.tree_of c))) :
    Listed g P (show_commit g c revs s.shown) := by
  rw [show_commit_eq revs s.shown hparsed hhas]
  refine ⟨?_, ?_, ?_, ?_, ?_, ?_⟩
  · intro o ho
    rcases List.mem_append.mp ho with ho | ho
    · exact h.commits o ho
    · exact ⟨c, List.mem_singleton.mp ho⟩
  · have hgoal : (s.shown ++ [object.commit c]).Nodup := by
      rw [List.nodup_append]
      refine ⟨h.nodup, List.nodup_singleton _, ?_⟩
      intro x hx y hy
      rw [List.mem_singleton.mp hy]
      rintro rfl
      exact hnew (h.marked c hx)
    exact hgoal
  · intro d hd
    have hgoal : d ∈ insert c revs.SHOWN := by
      rw [hshown]
      rcases List.mem_append.mp hd with hd | hd
      · exact Finset.mem_insert_of_mem (h.marked d hd)
      · rw [object.commit.inj (List.mem_singleton.mp hd)]
        exact Finset.mem_insert_self _ _
    exact hgoal
  · intro d hd
    have hd : d ∈ insert c revs.SHOWN := hd
    rw [hshown] at hd
    have hgoal : .commit d ∈ s.shown ++ [.commit c] ∨ .commit d ∈ revs.UNINTERESTING := by
      rw [hflags]
      rcases Finset.mem_insert.mp hd with rfl | hd
      · exact Or.inl (List.mem_append_right _ (List.mem_singleton_self _))
      · exact (h.shown d hd).imp_left fun hd => List.mem_append_left _ hd
    exact hgoal
  · intro o ho
    have ho : o ∈ revs.pending ++ [.tree (g.tree_of c)] := ho
    rw [hpending] at ho
    rcases List.mem_append.mp ho with ho | ho
    · exact h.pending o ho
    · rw [List.mem_singleton.mp ho]
      exact ⟨htree, fun d hd => by cases hd⟩
  · intro d hd
    have hgoal : .tree (g.tree_of d) ∈ revs.pending ++ [.tree (g.tree_of c)] := by
      rw [hpending]
      rcases List.mem_append.mp hd with hd | hd
      · exact List.mem_append_left _ (h.trees d hd)
      · rw [object.commit.inj (List.mem_singleton.mp hd)]
        exact List.mem_append_right _ (List.mem_singleton_self _)
    exact hgoal

end git.list_objects
