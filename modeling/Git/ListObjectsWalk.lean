-- The loop over the commits comes to its end, and has shown every commit that
-- the walk leads to, but for uninteresting ones.
import Git.ListObjectsCommits

open Relation

namespace git.list_objects

open revision

set_option linter.unusedSectionVars false

variable {commit tree blob tag : Type} [DecidableEq commit] [DecidableEq tree] [DecidableEq blob]
  [DecidableEq tag] [Fintype commit] {g : object_graph commit tree blob tag} {opt : rev_options}
  {P N : object commit tree blob tag → Prop}

/-! ## A turn -/

theorem show_commits_some {fuel : Nat} {s : listing commit tree blob tag}
    {revs : rev_info commit tree blob tag} {c : commit}
    (h : get_revision_1 g (commits_left s.revs) s.revs = some (revs, some c)) :
    show_commits g (fuel + 1) s = show_commits g fuel (show_commit g c revs s.shown) := by
  rw [show_commits, get_revision, h]
  rfl

theorem show_commits_none {fuel : Nat} {s : listing commit tree blob tag}
    {revs : rev_info commit tree blob tag}
    (h : get_revision_1 g (commits_left s.revs) s.revs = some (revs, none)) :
    show_commits g (fuel + 1) s = some { s with revs := revs } := by
  rw [show_commits, get_revision, h]
  rfl

/-- What the loop over the commits came to. -/
structure Shown (g : object_graph commit tree blob tag) (P : object commit tree blob tag → Prop)
    (s t : listing commit tree blob tag) : Prop where
  listed : Listed g P t
  flags : t.revs.UNINTERESTING = s.revs.UNINTERESTING
  only : ∀ o ∈ t.revs.SEEN, o ∈ s.revs.SEEN ∨ ∃ c, o = .commit c
  pending : s.revs.pending ⊆ t.revs.pending

/-! ## After limiting -/

theorem get_revision_1_limited (fuel : Nat) :
    ∀ revs : rev_info commit tree blob tag, revs.limited = true → revs.commits.length < fuel →
      ∃ skipped rest, revs.commits = skipped ++ rest ∧
        (∀ c ∈ skipped, c ∈ revs.SHOWN ∨ .commit c ∈ revs.UNINTERESTING) ∧
        (∀ c ∈ rest.head?, ¬ (c ∈ revs.SHOWN ∨ .commit c ∈ revs.UNINTERESTING)) ∧
        get_revision_1 g fuel revs = some ({ revs with commits := rest.tail }, rest.head?) := by
  induction fuel with
  | zero => exact fun revs _ h => absurd h (Nat.not_lt_zero _)
  | succ fuel ih =>
    intro revs hlimited hfuel
    cases hcommits : revs.commits with
    | nil =>
      refine ⟨[], [], rfl, fun c hc => absurd hc List.not_mem_nil, fun c hc => (by cases hc), ?_⟩
      rw [get_revision_1, hcommits]
      simp only [List.tail_nil, List.head?_nil]
      rw [← hcommits]
    | cons c list =>
      have hturn : get_revision_1 g (fuel + 1) revs =
          if c ∈ revs.SHOWN ∨ .commit c ∈ revs.UNINTERESTING then
            get_revision_1 g fuel { revs with commits := list }
          else some ({ revs with commits := list }, some c) := by
        rw [get_revision_1, hcommits]
        simp only
        rw [if_pos hlimited]
        rfl
      rw [hcommits, List.length_cons] at hfuel
      by_cases hskip : c ∈ revs.SHOWN ∨ .commit c ∈ revs.UNINTERESTING
      · obtain ⟨skipped, rest, hsplit, hskipped, hrest, hget⟩ :=
          ih { revs with commits := list } hlimited (Nat.lt_of_succ_lt_succ hfuel)
        refine ⟨c :: skipped, rest, congrArg (c :: ·) hsplit, ?_, hrest, ?_⟩
        · intro d hd
          rcases List.mem_cons.mp hd with rfl | hd
          · exact hskip
          · exact hskipped d hd
        · rw [hturn, if_pos hskip, hget]
      · refine ⟨[], c :: list, rfl, fun d hd => absurd hd List.not_mem_nil, ?_, ?_⟩
        · intro d hd
          obtain rfl : c = d := Option.some.inj hd
          exact hskip
        · rw [hturn, if_neg hskip]
          rfl

theorem show_commits_limited (hdown : ∀ o x, P o → Names g o x → P x)
    (hhas : ∀ o, P o → g.has_sha1_file o = true) (fuel : Nat) :
    ∀ s : listing commit tree blob tag, s.revs.limited = true → Listed g P s →
      (∀ c ∈ s.revs.commits, P (.commit c) ∧ c ∈ s.revs.parsed) →
      s.revs.commits.length < fuel →
      ∃ t, show_commits g fuel s = some t ∧ Shown g P s t ∧
        (∀ c ∈ s.revs.commits, .commit c ∈ t.shown ∨ .commit c ∈ s.revs.UNINTERESTING) ∧
        s.shown ⊆ t.shown ∧ ∀ o ∈ t.shown, o ∈ s.shown ∨ ∃ c ∈ s.revs.commits, o = .commit c := by
  induction fuel with
  | zero => exact fun s _ _ _ h => absurd h (Nat.not_lt_zero _)
  | succ fuel ih =>
    intro s hlimited hlisted hcommits hfuel
    have hleft : s.revs.commits.length < commits_left s.revs := by
      unfold commits_left
      omega
    obtain ⟨skipped, rest, hsplit, hskipped, hhead, hget⟩ :=
      get_revision_1_limited (g := g) (commits_left s.revs) s.revs hlimited hleft
    have hold : ∀ c ∈ skipped, .commit c ∈ s.shown ∨ .commit c ∈ s.revs.UNINTERESTING := by
      intro c hc
      rcases hskipped c hc with hc | hc
      · exact hlisted.shown c hc
      · exact Or.inr hc
    cases rest with
    | nil =>
      refine ⟨_, show_commits_none hget, ⟨⟨hlisted.commits, hlisted.nodup, hlisted.marked,
        hlisted.shown, hlisted.pending, hlisted.trees⟩, rfl, fun _ h => Or.inl h, fun _ h => h⟩,
        ?_, fun _ h => h, fun _ h => Or.inl h⟩
      intro c hc
      rw [hsplit, List.append_nil] at hc
      exact hold c hc
    | cons c list =>
      have hc : c ∈ s.revs.commits := by
        rw [hsplit]
        exact List.mem_append_right _ List.mem_cons_self
      obtain ⟨hPc, hparsed⟩ := hcommits c hc
      have hno := not_or.mp (hhead c rfl)
      have hnext : Listed g P (show_commit g c { s.revs with commits := list } s.shown) :=
        hlisted.next rfl rfl rfl hparsed (hhas _ hPc) hno.1 (hdown _ _ hPc (Names.root c))
      have heq := show_commit_eq (g := g) { s.revs with commits := list } s.shown hparsed
        (hhas _ hPc)
      rw [heq] at hnext
      obtain ⟨t, ht, hshown, hall, hkept, honly⟩ := ih
        ⟨{ s.revs with
            commits := list
            SHOWN := insert c s.revs.SHOWN
            pending := s.revs.pending ++ [.tree (g.tree_of c)] }, s.shown ++ [.commit c]⟩
        hlimited hnext
        (fun d hd => hcommits d (by
          rw [hsplit]
          exact List.mem_append_right _ (List.mem_cons_of_mem c hd)))
        (by
          rw [hsplit, List.length_append, List.length_cons] at hfuel
          simp only
          omega)
      refine ⟨t, ?_, ⟨hshown.listed, hshown.flags, hshown.only, ?_⟩, ?_, ?_, ?_⟩
      · rw [show_commits_some hget]
        simp only [List.tail_cons]
        rw [heq]
        exact ht
      · exact fun o ho => hshown.pending (List.mem_append_left _ ho)
      · intro d hd
        rw [hsplit] at hd
        rcases List.mem_append.mp hd with hd | hd
        · exact (hold d hd).imp_left fun hd => hkept (List.mem_append_left _ hd)
        · rcases List.mem_cons.mp hd with rfl | hd
          · exact Or.inl (hkept (List.mem_append_right _ (List.mem_singleton_self _)))
          · exact hall d hd
      · exact fun o ho => hkept (List.mem_append_left _ ho)
      · intro o ho
        rcases honly o ho with ho | ⟨d, hd, rfl⟩
        · rcases List.mem_append.mp ho with ho | ho
          · exact Or.inl ho
          · exact Or.inr ⟨c, hc, List.mem_singleton.mp ho⟩
        · refine Or.inr ⟨d, ?_, rfl⟩
          rw [hsplit]
          exact List.mem_append_right _ (List.mem_cons_of_mem c hd)

/-! ## Without limiting -/

/-- The walk that goes on while commits are shown. -/
def walking (s : listing commit tree blob tag) (shown : List commit) :
    limiting commit tree blob tag :=
  ⟨s.revs, s.revs.commits, shown, 0, 0⟩

theorem show_commits_unlimited (hr : Reaches g P N) (hdown : ∀ o x, P o → Names g o x → P x)
    (fuel : Nat) :
    ∀ (s : listing commit tree blob tag) (shown : List commit), s.revs.limited = false →
      Listed g P s → Walk g P N (walking s shown) → s.shown = shown.map .commit →
      (∀ c, .commit c ∉ s.revs.UNINTERESTING) → (walking s shown).room < fuel →
      ∃ t shown', show_commits g fuel s = some t ∧ Shown g P s t ∧ s.revs.SEEN ⊆ t.revs.SEEN ∧
        Walk g P N (walking t shown') ∧ t.revs.commits = [] ∧ t.shown = shown'.map .commit := by
  induction fuel with
  | zero => exact fun s _ _ _ _ _ _ h => absurd h (Nat.not_lt_zero _)
  | succ fuel ih =>
    intro s shown hlimited hlisted hwalk heq hclean hroom
    have hpositive : 0 < commits_left s.revs := Nat.succ_pos _
    obtain ⟨left, hleft⟩ := Nat.exists_eq_succ_of_ne_zero hpositive.ne'
    cases hcommits : s.revs.commits with
    | nil =>
      have hget : get_revision_1 g (commits_left s.revs) s.revs = some (s.revs, none) := by
        rw [hleft, get_revision_1, hcommits]
      exact ⟨s, shown, show_commits_none hget, ⟨hlisted, rfl, fun _ h => Or.inl h, fun _ h => h⟩,
        subset_rfl, hwalk, hcommits, heq⟩
    | cons c list =>
      obtain ⟨htaken, hseen, -⟩ := hwalk.taken_seen hcommits
      have hnew : c ∉ s.revs.ADDED := htaken
      obtain ⟨hknown, hPc, hpresent⟩ := hwalk.keep_parents hr hcommits (hclean c)
      have hparents : parents_of g (take c s.revs) c = g.parents c := hknown
      obtain ⟨q, hq, hqueued, hflags, hall, honly, -⟩ := add_interesting_parents_spec (g := g)
        (g.parents c) (take c s.revs, list) hpresent
      have hkeep := hwalk.keep hr hcommits (hclean c) hqueued hflags hall honly
      have hadd : add_parents_to_list g c s.revs list = some q := by
        unfold add_parents_to_list
        rw [if_neg hnew, ← hq, ← hparents]
        exact if_neg (hclean c)
      have hnotshown : c ∉ s.revs.SHOWN := by
        intro hc
        rcases hlisted.shown c hc with hc | hc
        · rw [heq] at hc
          obtain ⟨d, hd, hdc⟩ := List.mem_map.mp hc
          rw [object.commit.inj hdc] at hd
          exact hnew (hwalk.listed c hd).1
        · exact hclean c hc
      have hcarried := hqueued.carried
      have hskip : ¬ (c ∈ q.1.SHOWN ∨ .commit c ∈ q.1.UNINTERESTING) := by
        rw [hcarried.shown, hflags]
        exact not_or.mpr ⟨hnotshown, hclean c⟩
      have hget : get_revision_1 g (commits_left s.revs) s.revs =
          some ({ q.1 with commits := q.2 }, some c) := by
        rw [hleft, get_revision_1, hcommits]
        simp only
        rw [if_neg (by rw [hlimited]; exact Bool.false_ne_true), hadd, Option.bind_some]
        exact if_neg hskip
      have hparsed : c ∈ q.1.parsed := hqueued.parsed (hwalk.parsed c hseen)
      have hhas := hr.present hPc
      have hnext : Listed g P (show_commit g c { q.1 with commits := q.2 } s.shown) :=
        hlisted.next hflags hcarried.shown hcarried.pending hparsed hhas hnotshown
          (hdown _ _ hPc (Names.root c))
      have hshow := show_commit_eq (g := g) { q.1 with commits := q.2 } s.shown hparsed hhas
      rw [hshow] at hnext
      obtain ⟨t, shown', ht, hshown, hgrow, hwalk', hnil, heq'⟩ := ih
        ⟨{ q.1 with
            commits := q.2
            SHOWN := insert c q.1.SHOWN
            pending := q.1.pending ++ [.tree (g.tree_of c)] }, s.shown ++ [.commit c]⟩
        (shown ++ [c]) (hcarried.limited.trans hlimited) hnext
        (hkeep.grow rfl rfl rfl rfl subset_rfl hkeep.sound subset_rfl)
        (by rw [heq, List.map_append]; rfl)
        (by
          intro d hd
          have hd : .commit d ∈ q.1.UNINTERESTING := hd
          rw [hflags] at hd
          exact hclean d hd)
        (by
          have hless : limiting.room (walking ⟨{ q.1 with
              commits := q.2
              SHOWN := insert c q.1.SHOWN
              pending := q.1.pending ++ [.tree (g.tree_of c)] }, s.shown ++ [.commit c]⟩
              (shown ++ [c])) < (walking s shown).room := room_insert hqueued.added hnew
          omega)
      refine ⟨t, shown', ?_, ⟨hshown.listed, hshown.flags.trans hflags, ?_, ?_⟩, ?_, hwalk', hnil,
        heq'⟩
      · rw [show_commits_some hget, hshow]
        exact ht
      · intro o ho
        rcases hshown.only o ho with ho | ho
        · exact hcarried.only o ho
        · exact Or.inr ho
      · intro o ho
        apply hshown.pending
        apply List.mem_append_left
        rw [hcarried.pending]
        exact ho
      · exact hcarried.seen.trans hgrow

end git.list_objects
