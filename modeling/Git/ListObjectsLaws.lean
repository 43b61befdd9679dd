-- The listing is complete: who has everything that the negative tips lead to,
-- and gets what is shown, has everything that the positive tips lead to.
import Git.ListObjectsWalk

open Relation

namespace git.list_objects

open revision

set_option linter.unusedSectionVars false

variable {commit tree blob tag : Type} [DecidableEq commit] [DecidableEq tree] [DecidableEq blob]
  [DecidableEq tag] [Fintype commit] {g : object_graph commit tree blob tag} {opt : rev_options}
  {P N : object commit tree blob tag → Prop}

/-- A tip of the side leads to `o`. -/
def Leads (g : object_graph commit tree blob tag)
    (tips : List (object commit tree blob tag × Bool)) (negative : Bool)
    (o : object commit tree blob tag) : Prop :=
  ∃ a, (a, negative) ∈ tips ∧ ReflTransGen (Names g) a o

theorem Leads.names {tips : List (object commit tree blob tag × Bool)} {negative : Bool}
    {o x : object commit tree blob tag} (h : Leads g tips negative o) (hx : Names g o x) :
    Leads g tips negative x := by
  obtain ⟨a, ha, hao⟩ := h
  exact ⟨a, ha, hao.tail hx⟩

/-! ## After prepare_revision_walk -/

/-- The walk was limited, or it has nothing that is uninteresting among its commits. -/
inductive Walkable (g : object_graph commit tree blob tag)
    (P N : object commit tree blob tag → Prop) (revs : rev_info commit tree blob tag) : Prop
  | limited {s : limiting commit tree blob tag} (hlimited : revs.limited = true)
      (hwalk : Walk g P N s) (hdone : AllUninteresting s)
      (hrevs : revs = { s.revs with commits := s.newlist })
  | unlimited (hlimited : revs.limited = false) (hwalk : Walk g P N (start revs))
      (hclean : ∀ c, .commit c ∉ revs.UNINTERESTING)

structure Prepared (g : object_graph commit tree blob tag)
    (tips : List (object commit tree blob tag × Bool)) (revs : rev_info commit tree blob tag) :
    Prop where
  walkable : Walkable g (Leads g tips false) (Leads g tips true) revs
  sound : ∀ o ∈ revs.UNINTERESTING, Leads g tips true o
  shown : revs.SHOWN = ∅
  seen : ∀ o ∈ revs.SEEN, ∃ c, o = .commit c
  pending : ∀ o ∈ revs.pending, Leads g tips false o ∧ ∀ c, o ≠ .commit c
  tips_there : ∀ a, (a, false) ∈ tips → ¬ Leads g tips true a → ∀ z, Peels g a z →
    z ∈ revs.pending ∨ ∃ c, z = .commit c ∧ .commit c ∈ revs.SEEN

theorem leads_reaches {tips : List (object commit tree blob tag × Bool)}
    (hpresent : ∀ o, Leads g tips false o → g.has_sha1_file o = true) :
    Reaches g (Leads g tips false) (Leads g tips true) where
  positive h hp := h.names (Names.parent hp)
  tagged h := h.names (Names.tagged _)
  negative h hx := h.names hx
  present h := hpresent _ h

theorem prepare_revision_walk_spec (htags : opt.tag_objects = true)
    (htrees : opt.tree_objects = true) (hblobs : opt.blob_objects = true)
    (tips : List (object commit tree blob tag × Bool)) (parsed : Finset commit) (limited : Bool)
    (htips : ∀ n, (n, true) ∈ tips → g.has_sha1_file n = true)
    (hpresent : ∀ o, Leads g tips false o → g.has_sha1_file o = true) :
    ∃ revs, prepare_revision_walk g opt (add_tips tips parsed limited) = some revs ∧
      Prepared g tips revs := by
  have hr := leads_reaches hpresent
  have hflagged := add_tips_flags tips parsed limited
  have hstart : Tips g (Leads g tips false) (Leads g tips true)
      { add_tips tips parsed limited with pending := [] } :=
    add_tips_start tips parsed limited fun o ho => ⟨o, ho, ReflTransGen.refl⟩
  obtain ⟨revs, hrevs, htipsr, -, -, -, -, hclean, hself, hcovered⟩ :=
    handle_tips_spec hr htags htrees hblobs (tips.map Prod.fst) _ hstart
      (by
        intro o ho
        obtain ⟨⟨o, negative⟩, htip, rfl⟩ := List.mem_map.mp ho
        cases negative with
        | true => exact htips o htip
        | false => exact hpresent o ⟨o, htip, ReflTransGen.refl⟩)
      (by
        intro o ho
        obtain ⟨⟨o, negative⟩, htip, rfl⟩ := List.mem_map.mp ho
        cases negative with
        | true => exact Or.inl ((hflagged o).mpr htip)
        | false => exact Or.inr ⟨o, htip, ReflTransGen.refl⟩)
  have hthere : ∀ a, (a, false) ∈ tips → ¬ Leads g tips true a → ∀ z, Peels g a z →
      z ∈ revs.pending ∨ ∃ c, z = .commit c ∧ .commit c ∈ revs.SEEN := by
    intro a ha hno
    exact hcovered a (List.mem_map.mpr ⟨_, ha, rfl⟩) fun hu => hno (htipsr.walk.sound a hu)
  have hprepare : prepare_revision_walk g opt (add_tips tips parsed limited) =
      if revs.limited then
        limit_list g { revs with commits := commit_list_sort_by_date g revs.commits }
      else some { revs with commits := commit_list_sort_by_date g revs.commits } := by
    unfold prepare_revision_walk
    have hpending : (add_tips tips parsed limited).pending = tips.map Prod.fst := rfl
    rw [hpending, hrevs, Option.bind_some]
  rw [hprepare]
  have hsort := htipsr.sort
  by_cases hlimited : revs.limited = true
  · obtain ⟨t, hloop, hwalk, hdone⟩ := hsort.walk.run hr (Nat.lt_succ_of_le (Nat.le_add_left _
      (commit_list_sort_by_date g revs.commits).length))
    have hcarried := limit_loop_carried _ _ _ hloop
    refine ⟨{ t.revs with commits := t.newlist }, ?_, ⟨Walkable.limited ?_ hwalk hdone rfl,
      hwalk.sound, hcarried.shown.trans hsort.shown, ?_, ?_, ?_⟩⟩
    · rw [if_pos hlimited]
      exact congrArg (Option.map _) hloop
    · exact hcarried.limited.trans hlimited
    · intro o ho
      rcases hcarried.only o ho with ho | ho
      · exact hsort.seen o ho
      · exact ho
    · intro o ho
      have ho : o ∈ t.revs.pending := ho
      rw [hcarried.pending] at ho
      exact hsort.pending o ho
    · intro a ha hno z hz
      have hgoal : z ∈ t.revs.pending ∨ ∃ c, z = .commit c ∧ .commit c ∈ t.revs.SEEN := by
        rw [hcarried.pending]
        refine (hthere a ha hno z hz).imp_right ?_
        rintro ⟨c, rfl, hc⟩
        exact ⟨c, rfl, hcarried.seen hc⟩
      exact hgoal
  · have hunlimited : revs.limited = false := Bool.eq_false_iff.mpr hlimited
    rw [if_neg hlimited]
    refine ⟨_, rfl, ⟨Walkable.unlimited hunlimited hsort.walk ?_, hsort.walk.sound, hsort.shown,
      hsort.seen, hsort.pending, hthere⟩⟩
    -- a commit that is flagged was a tip, and would have limited the walk
    intro c hc
    rcases hclean with hl | hclean
    · exact hlimited hl
    · have hu := hclean c hc
      exact hlimited (hself c (List.mem_map.mpr ⟨_, (hflagged _).mp hu, rfl⟩) hu)

/-! ## After the commits -/

structure CommitsDone (g : object_graph commit tree blob tag)
    (tips : List (object commit tree blob tag × Bool)) (revs : rev_info commit tree blob tag)
    (t : listing commit tree blob tag) : Prop where
  listed : Listed g (Leads g tips false) t
  sound : ∀ o ∈ t.revs.UNINTERESTING, Leads g tips true o
  seen : ∀ o ∈ t.revs.SEEN, ∃ c, o = .commit c
  pending : revs.pending ⊆ t.revs.pending
  covers : ∀ c, .commit c ∈ revs.SEEN → ¬ Leads g tips true (.commit c) → .commit c ∈ t.shown
  closed : ∀ c, .commit c ∈ t.shown → ∀ p, Parent g c p → ¬ Leads g tips true (.commit p) →
    .commit p ∈ t.shown

theorem show_commits_spec {tips : List (object commit tree blob tag × Bool)}
    (hpresent : ∀ o, Leads g tips false o → g.has_sha1_file o = true)
    {revs : rev_info commit tree blob tag} (h : Prepared g tips revs)
    {edged : rev_info commit tree blob tag} (hedged : Edged (Leads g tips true) revs edged) :
    ∃ t, show_commits g (commits_left edged) ⟨edged, []⟩ = some t ∧
      CommitsDone g tips revs t := by
  have hr := leads_reaches hpresent
  have hdown : ∀ o x, Leads g tips false o → Names g o x → Leads g tips false x :=
    fun _ _ ho hx => ho.names hx
  have hbegin : Listed g (Leads g tips false) ⟨edged, []⟩ := by
    refine ⟨fun o ho => absurd ho List.not_mem_nil, List.nodup_nil,
      fun c hc => absurd hc List.not_mem_nil, ?_, ?_, fun c hc => absurd hc List.not_mem_nil⟩
    · intro c hc
      rcases hedged.shown c hc with hc | hc
      · rw [h.shown] at hc
        cases hc
      · exact Or.inr (hedged.flags hc)
    · intro o ho
      have ho : o ∈ edged.pending := ho
      rw [hedged.pending] at ho
      exact h.pending o ho
  have hsound : ∀ o ∈ edged.UNINTERESTING, Leads g tips true o := by
    intro o ho
    rcases hedged.sound o ho with ho | ⟨ho, -⟩
    · exact h.sound o ho
    · exact ho
  have hedges : ∀ {t : listing commit tree blob tag}, Shown g (Leads g tips false) ⟨edged, []⟩ t →
      (∀ o ∈ t.revs.UNINTERESTING, Leads g tips true o) ∧
      (∀ o ∈ t.revs.SEEN, ∃ c, o = .commit c) ∧ revs.pending ⊆ t.revs.pending := by
    intro t ht
    refine ⟨?_, ?_, ?_⟩
    · rw [ht.flags]
      exact hsound
    · intro o ho
      rcases ht.only o ho with ho | ho
      · have ho : o ∈ edged.SEEN := ho
        rw [hedged.seen] at ho
        exact h.seen o ho
      · exact ho
    · rw [← hedged.pending]
      exact ht.pending
  cases h.walkable with
  | @limited s hlimited hwalk hdone hrevs =>
    have hcommits : edged.commits = s.newlist := by
      rw [hedged.commits, hrevs]
    have hseen : revs.SEEN = s.revs.SEEN := by
      rw [hrevs]
    have hparsed : edged.parsed = s.revs.parsed := by
      rw [hedged.parsed, hrevs]
    obtain ⟨t, ht, hshown, hall, -, honly⟩ := show_commits_limited (P := Leads g tips false) hdown
      hpresent (commits_left edged) ⟨edged, []⟩ (hedged.limited.trans hlimited) hbegin
      (by
        intro c hc
        have hc : c ∈ edged.commits := hc
        rw [hcommits] at hc
        obtain ⟨hadded, hP, -⟩ := hwalk.listed c hc
        have hgoal : c ∈ edged.parsed := by
          rw [hparsed]
          exact hwalk.parsed c ((hwalk.seen c).mpr (Or.inr hadded))
        exact ⟨hP, hgoal⟩)
      (by
        unfold commits_left
        simp only
        omega)
    obtain ⟨hcovers, hclosed⟩ := hwalk.covers hdone
    have hlisted : ∀ c ∈ s.newlist, ¬ Leads g tips true (.commit c) → .commit c ∈ t.shown := by
      intro c hc hno
      rw [← hcommits] at hc
      exact (hall c hc).resolve_right fun hu => hno (hsound _ hu)
    obtain ⟨hflags, honlyseen, hpending⟩ := hedges hshown
    refine ⟨t, ht, hshown.listed, hflags, honlyseen, hpending, ?_, ?_⟩
    · intro c hc hno
      rw [hseen] at hc
      exact hlisted c (hcovers c hc hno) hno
    · intro c hc p hp hno
      rcases honly _ hc with hc | ⟨d, hd, heq⟩
      · cases hc
      · have hd : d ∈ edged.commits := hd
        rw [hcommits, ← object.commit.inj heq] at hd
        exact hlisted p (hclosed c hd p hp hno) hno
  | unlimited hlimited hwalk hclean =>
    have hbefore : Walk g (Leads g tips false) (Leads g tips true) (walking ⟨edged, []⟩ []) :=
      hwalk.grow hedged.seen hedged.added hedged.commits rfl hedged.flags hsound
        hedged.parsed.symm.subset
    obtain ⟨t, shown, ht, hshown, hgrow, hafter, hnil, heq⟩ := show_commits_unlimited hr hdown
      (commits_left edged) ⟨edged, []⟩ [] (hedged.limited.trans hlimited) hbegin hbefore rfl
      (fun c hc => hclean c ((hedged.commit_flag c).mp hc))
      (by
        apply lt_of_le_of_lt (Finset.card_le_univ _)
        unfold commits_left
        omega)
    obtain ⟨hcovers, hclosed⟩ := hafter.covers (by
      intro c hc
      have hc : c ∈ t.revs.commits := hc
      rw [hnil] at hc
      cases hc)
    have hmem : ∀ c, .commit c ∈ t.shown ↔ c ∈ shown := by
      intro c
      rw [heq, List.mem_map]
      constructor
      · rintro ⟨d, hd, hdc⟩
        rwa [object.commit.inj hdc] at hd
      · exact fun hc => ⟨c, hc, rfl⟩
    obtain ⟨hflags, honlyseen, hpending⟩ := hedges hshown
    refine ⟨t, ht, hshown.listed, hflags, honlyseen, hpending, ?_, ?_⟩
    · intro c hc hno
      rw [← hedged.seen] at hc
      exact (hmem c).mpr (hcovers c (hgrow hc) hno)
    · intro c hc p hp hno
      exact (hmem p).mpr (hclosed c ((hmem c).mp hc) p hp hno)

/-! ## The whole listing -/

/-- From tips of any kind: each object is shown at most once, and all are shown that a positive
tip leads to and no negative one. -/
theorem the_listing_is_complete (htags : opt.tag_objects = true)
    (htrees : opt.tree_objects = true) (hblobs : opt.blob_objects = true)
    (tips : List (object commit tree blob tag × Bool)) (parsed : Finset commit) (limited : Bool)
    (htips : ∀ n, (n, true) ∈ tips → g.has_sha1_file n = true)
    (hpresent : ∀ o, Leads g tips false o → g.has_sha1_file o = true) :
    ∃ shown, listed_objects g opt (add_tips tips parsed limited) = some shown ∧ shown.Nodup ∧
      ∀ o, Leads g tips false o → ¬ Leads g tips true o → o ∈ shown := by
  obtain ⟨revs, hprepare, hprepared⟩ :=
    prepare_revision_walk_spec htags htrees hblobs tips parsed limited htips hpresent
  have hr := leads_reaches hpresent
  have hedged := mark_edges_spec opt hr revs.commits (revs, [])
    fun c hc => hprepared.sound _ hc
  obtain ⟨t, ht, hcommits⟩ := show_commits_spec hpresent hprepared hedged
  obtain ⟨s, hs, hshows, hnew, hpending⟩ := process_pending_spec htrees hblobs hpresent
    (fun o x ho hx => ho.names hx) t.revs.pending t hcommits.listed.pending
  have hlist : listed_objects g opt (add_tips tips parsed limited) = some s.shown := by
    unfold listed_objects traverse_commit_list
    rw [hprepare, Option.bind_some, ht, Option.bind_some, hs, Option.map_some]
  have hnodup : s.shown.Nodup := hshows.nodup hcommits.listed.nodup fun o ho =>
    Or.inr (hcommits.listed.commits o ho)
  -- what is not a commit and was seen in the end was shown, unless it is uninteresting
  have hseen : ∀ o, (∀ c, o ≠ .commit c) → ¬ Leads g tips true o →
      o ∈ s.revs.SEEN ∨ o ∈ s.revs.UNINTERESTING → o ∈ s.shown := by
    intro o hkind hno ho
    rcases ho with ho | ho
    · apply hshows.shown o ho
      intro hbefore
      obtain ⟨c, hc⟩ := hcommits.seen o hbefore
      exact hkind c hc
    · rw [hshows.flags] at ho
      exact absurd (hcommits.sound o ho) hno
  have hentries : ∀ r, .tree r ∈ s.shown → EntriesDone g s.revs r := by
    intro r hr
    rcases hshows.new _ hr with hr | ⟨hr, -⟩
    · obtain ⟨c, hc⟩ := hcommits.listed.commits _ hr
      cases hc
    · refine (hnew r hr).resolve_left ?_
      intro hbefore
      obtain ⟨c, hc⟩ := hcommits.seen _ hbefore
      cases hc
  refine ⟨s.shown, hlist, hnodup, ?_⟩
  rintro o ⟨a, ha, hao⟩ ho
  -- down the path: behind the tags of the tip there are no more tags
  have hpath : (Peels g a o ∨ ∀ t, o ≠ .tag t) ∧ (¬ Leads g tips true o → o ∈ s.shown) := by
    clear ho
    have hpeeled : ∀ x, Peels g a x → ¬ Leads g tips true x → x ∈ s.shown := by
      intro x hx hno
      have hnoa : ¬ Leads g tips true a := fun hn => hno (hr.negative_star hn hx.reach)
      rcases hprepared.tips_there a ha hnoa x hx with hx | ⟨c, rfl, hc⟩
      · exact hseen x (hprepared.pending x hx).2 hno (hpending x (hcommits.pending hx))
      · exact hshows.kept (hcommits.covers c hc hno)
    induction hao with
    | refl => exact ⟨Or.inl (Peels.refl a), hpeeled a (Peels.refl a)⟩
    | tail _ hname ih =>
      have hback : ∀ {b x}, Names g b x → ¬ Leads g tips true x → ¬ Leads g tips true b :=
        fun hx hno hb => hno (hb.names hx)
      cases hname with
      | parent hp =>
        refine ⟨Or.inr fun t h => (by cases h), ?_⟩
        intro hno
        have hc := ih.2 (hback (Names.parent hp) hno)
        rcases hshows.new _ hc with hc | ⟨-, -, hkind⟩
        · exact hshows.kept (hcommits.closed _ hc _ hp hno)
        · exact absurd rfl (hkind _)
      | root c =>
        refine ⟨Or.inr fun t h => (by cases h), ?_⟩
        intro hno
        have hc := ih.2 (hback (Names.root c) hno)
        apply hseen _ (fun d h => (by cases h)) hno
        apply hpending
        rcases hshows.new _ hc with hc | ⟨-, -, hkind⟩
        · exact hcommits.listed.trees c hc
        · exact absurd rfl (hkind _)
      | subtree hs =>
        refine ⟨Or.inr fun t h => (by cases h), ?_⟩
        intro hno
        have hc := ih.2 (hback (Names.subtree hs) hno)
        exact hseen _ (fun d h => (by cases h)) hno ((hentries _ hc).1 _ hs)
      | file hb =>
        refine ⟨Or.inr fun t h => (by cases h), ?_⟩
        intro hno
        have hc := ih.2 (hback (Names.file hb) hno)
        exact hseen _ (fun d h => (by cases h)) hno ((hentries _ hc).2 _ hb)
      | tagged t =>
        have hpeels : Peels g a (g.tagged t) :=
          (ih.1.resolve_right fun h => h t rfl).target
        exact ⟨Or.inl hpeels, hpeeled _ hpeels⟩
  exact hpath.2 ho

/-- A commit with one file, and a tag on it. -/
def tagged_commit : object_graph Unit Unit Unit Unit where
  parents _ := []
  tree_of _ := ()
  date _ := 1
  entries _ := [.blob ()]
  tagged _ := .commit ()
  has_sha1_file _ := true
  tree_height _ := 0
  tag_height _ := 0
  date_lt _ := by decide
  subtree_lt _ _ h := by cases h with | tail _ h => cases h
  tagged_lt _ _ h := by cases h

theorem a_tag_is_listed : ∃ shown,
    listed_objects tagged_commit ⟨true, true, true, true⟩
        (add_tips [(.tag (), false), (.blob (), true)] ∅ false) = some shown ∧ shown.Nodup ∧
      ∀ o, Leads tagged_commit [(.tag (), false), (.blob (), true)] false o →
        ¬ Leads tagged_commit [(.tag (), false), (.blob (), true)] true o → o ∈ shown :=
  the_listing_is_complete rfl rfl rfl _ _ _ (fun _ _ => rfl) (fun _ _ => rfl)

end git.list_objects
