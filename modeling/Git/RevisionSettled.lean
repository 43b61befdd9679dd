-- Where all commits can be read: how far the flags have come. An uninteresting
-- commit that has not been taken yet has its parents flagged too, or a child of
-- its kind.
import Git.RevisionTips
import Git.Lib.Acyclic

open Relation

namespace git.revision

set_option linter.unusedSectionVars false

variable {commit tree blob tag : Type} [DecidableEq commit] [DecidableEq tree] [DecidableEq blob]
  [DecidableEq tag] [Fintype commit] {g : object_graph commit tree blob tag}

/-- In the list, with its parents flagged. -/
def Deep (g : object_graph commit tree blob tag) (revs : rev_info commit tree blob tag)
    (f : commit) : Prop :=
  .commit f ∈ revs.SEEN ∧ ∀ q ∈ g.parents f, .commit q ∈ revs.UNINTERESTING

/-- `flag` are commits still to be flagged, and `seen` those still to be seen. -/
structure Settled (g : object_graph commit tree blob tag) (revs : rev_info commit tree blob tag)
    (flag seen : commit → Prop) : Prop where
  parsed : ∀ c, .commit c ∈ revs.SEEN → c ∈ revs.parsed
  added : ∀ c ∈ revs.ADDED, .commit c ∈ revs.SEEN
  parents_seen : ∀ r ∈ revs.ADDED, ∀ p ∈ g.parents r, .commit p ∈ revs.SEEN ∨ seen p
  parents_flagged : ∀ r ∈ revs.ADDED, .commit r ∈ revs.UNINTERESTING →
    ∀ p ∈ g.parents r, .commit p ∈ revs.UNINTERESTING ∨ flag p
  source : ∀ f, .commit f ∈ revs.UNINTERESTING → f ∉ revs.ADDED →
    Deep g revs f ∨ (∃ r, .commit r ∈ revs.UNINTERESTING ∧ r ∉ revs.ADDED ∧ Parent g r f) ∨ flag f

theorem parents_of_parsed (hhas : ∀ c, g.has_sha1_file (.commit c) = true)
    {revs : rev_info commit tree blob tag} {c : commit} (h : c ∈ revs.parsed) :
    parents_of g revs c = g.parents c := by
  unfold parents_of
  exact if_pos ⟨h, hhas c⟩

/-! ## Steps -/

/-- Only more commits count as parsed. -/
theorem Settled.of_same {s t : rev_info commit tree blob tag} {flag seen : commit → Prop}
    (h : Settled g s flag seen) (hflags : t.UNINTERESTING = s.UNINTERESTING)
    (hseen : t.SEEN = s.SEEN) (hadded : t.ADDED = s.ADDED) (hparsed : s.parsed ⊆ t.parsed) :
    Settled g t flag seen := by
  constructor
  · rw [hseen]
    exact fun c hc => hparsed (h.parsed c hc)
  · rw [hseen, hadded]
    exact h.added
  · rw [hseen, hadded]
    exact h.parents_seen
  · rw [hflags, hadded]
    exact h.parents_flagged
  · unfold Deep
    rw [hflags, hadded, hseen]
    exact h.source

/-- A commit that is flagged, with all the ancestors of it that are known, and then seen. -/
theorem Settled.visit (hhas : ∀ c, g.has_sha1_file (.commit c) = true)
    {s s₁ t : rev_info commit tree blob tag} {flag flag' seen seen' : commit → Prop} {p : commit}
    (h : Settled g s flag seen) (hsub : ∀ x, seen x → flag x)
    (hflag : ∀ x, flag x → x = p ∨ flag' x) (hseen : ∀ x, seen x → x = p ∨ seen' x)
    (hflags₁ : s₁.UNINTERESTING = insert (.commit p) s.UNINTERESTING)
    (hparsed₁ : s.parsed ⊆ s₁.parsed) (hp : p ∈ s₁.parsed)
    (hflags : t.UNINTERESTING = (mark_parents_uninteresting g p s₁).UNINTERESTING)
    (hadded : t.ADDED = s.ADDED) (hgrow : s.SEEN ⊆ t.SEEN)
    (honly : ∀ o ∈ t.SEEN, o ∈ s.SEEN ∨ o = .commit p) (hself : .commit p ∈ t.SEEN)
    (hparsed : s₁.parsed ⊆ t.parsed) : Settled g t flag' seen' := by
  obtain ⟨hclosed, hnew⟩ := mark_parents_closed (g := g) p s₁
  have hmarked := mark_parents_marked (g := g) p s₁
  rw [parents_of_parsed hhas hp] at hclosed
  rw [← hflags] at hclosed hnew
  have hu₁ : s₁.UNINTERESTING ⊆ t.UNINTERESTING := by
    rw [hflags]
    exact hmarked.flags
  have hu : s.UNINTERESTING ⊆ t.UNINTERESTING := by
    refine Finset.Subset.trans ?_ hu₁
    rw [hflags₁]
    exact Finset.subset_insert _ _
  have hpu : .commit p ∈ t.UNINTERESTING := by
    apply hu₁
    rw [hflags₁]
    exact Finset.mem_insert_self _ _
  have hread : ∀ c, .commit c ∈ s.SEEN → parents_of g s₁ c = g.parents c :=
    fun c hc => parents_of_parsed hhas (hparsed₁ (h.parsed c hc))
  -- what is flagged here and was seen before has its parents flagged
  have hdeep : ∀ f, .commit f ∈ t.UNINTERESTING → .commit f ∉ s₁.UNINTERESTING →
      .commit f ∈ s.SEEN → Deep g t f := by
    intro f hf hno hseenf
    refine ⟨hgrow hseenf, ?_⟩
    have hparents := hnew f hf hno
    rw [hread f hseenf] at hparents
    exact hparents
  constructor
  · intro c hc
    rcases honly _ hc with hc | heq
    · exact hparsed (hparsed₁ (h.parsed c hc))
    · rw [object.commit.inj heq]
      exact hparsed hp
  · rw [hadded]
    exact fun c hc => hgrow (h.added c hc)
  · rw [hadded]
    intro r hr q hq
    rcases h.parents_seen r hr q hq with hq | hq
    · exact Or.inl (hgrow hq)
    · rcases hseen q hq with rfl | hq
      · exact Or.inl hself
      · exact Or.inr hq
  · rw [hadded]
    intro r hr hru q hq
    by_cases hrs : .commit r ∈ s.UNINTERESTING
    · rcases h.parents_flagged r hr hrs q hq with hq | hq
      · exact Or.inl (hu hq)
      · rcases hflag q hq with rfl | hq
        · exact Or.inl hpu
        · exact Or.inr hq
    · by_cases hrp : r = p
      · subst hrp
        exact Or.inl (hclosed q hq)
      · have hr₁ : .commit r ∉ s₁.UNINTERESTING := by
          rw [hflags₁, Finset.mem_insert, not_or]
          exact ⟨fun heq => hrp (object.commit.inj heq), hrs⟩
        exact Or.inl ((hdeep r hru hr₁ (h.added r hr)).2 q hq)
  · rw [hadded]
    intro f hf hfa
    by_cases hfp : f = p
    · rw [hfp]
      exact Or.inl ⟨hself, hclosed⟩
    have htodo : ∀ r, r ∈ s.ADDED → Parent g r f → .commit f ∉ s₁.UNINTERESTING →
        Deep g t f ∨ flag' f := by
      intro r hr hrf hno
      rcases h.parents_seen r hr f hrf with hfs | hfs
      · exact Or.inl (hdeep f hf hno hfs)
      · exact Or.inr ((hflag f (hsub f hfs)).resolve_left hfp)
    by_cases hfs : .commit f ∈ s.UNINTERESTING
    · rcases h.source f hfs hfa with hdeepf | ⟨r, hr, hra, hrf⟩ | hflagf
      · exact Or.inl ⟨hgrow hdeepf.1, fun q hq => hu (hdeepf.2 q hq)⟩
      · exact Or.inr (Or.inl ⟨r, hu hr, hra, hrf⟩)
      · exact Or.inr (Or.inr ((hflag f hflagf).resolve_left hfp))
    · have hno : .commit f ∉ s₁.UNINTERESTING := by
        rw [hflags₁, Finset.mem_insert, not_or]
        exact ⟨fun heq => hfp (object.commit.inj heq), hfs⟩
      have horigin : ∃ r, .commit r ∈ t.UNINTERESTING ∧ Parent g r f := by
        have hf' := hf
        rw [hflags] at hf'
        rcases mark_parents_origin hf' hno with hmem | ⟨r, hr, -, hfr⟩
        · exact ⟨p, hpu, mem_parents_of hmem⟩
        · rw [← hflags] at hr
          exact ⟨r, hr, mem_parents_of hfr⟩
      obtain ⟨r, hr, hrf⟩ := horigin
      by_cases hra : r ∈ s.ADDED
      · exact (htodo r hra hrf hno).imp_right Or.inr
      · exact Or.inr (Or.inl ⟨r, hr, hra, hrf⟩)

/-- A commit that is only seen. -/
theorem Settled.see {s t : rev_info commit tree blob tag} {flag seen seen' : commit → Prop}
    {p : commit} (h : Settled g s flag seen) (hseen : ∀ x, seen x → x = p ∨ seen' x)
    (hflags : t.UNINTERESTING = s.UNINTERESTING) (hadded : t.ADDED = s.ADDED)
    (hgrow : s.SEEN ⊆ t.SEEN) (honly : ∀ o ∈ t.SEEN, o ∈ s.SEEN ∨ o = .commit p)
    (hself : .commit p ∈ t.SEEN) (hparsed : s.parsed ⊆ t.parsed) (hp : p ∈ t.parsed) :
    Settled g t flag seen' := by
  constructor
  · intro c hc
    rcases honly _ hc with hc | heq
    · exact hparsed (h.parsed c hc)
    · rw [object.commit.inj heq]
      exact hp
  · rw [hadded]
    exact fun c hc => hgrow (h.added c hc)
  · rw [hadded]
    intro r hr q hq
    rcases h.parents_seen r hr q hq with hq | hq
    · exact Or.inl (hgrow hq)
    · rcases hseen q hq with rfl | hq
      · exact Or.inl hself
      · exact Or.inr hq
  · rw [hadded, hflags]
    exact h.parents_flagged
  · rw [hadded, hflags]
    intro f hf hfa
    rcases h.source f hf hfa with hdeepf | hf | hf
    · refine Or.inl ⟨hgrow hdeepf.1, ?_⟩
      rw [hflags]
      exact hdeepf.2
    · exact Or.inr (Or.inl hf)
    · exact Or.inr (Or.inr hf)

def Nothing (_ : commit) : Prop := False

/-- An uninteresting commit is taken from the list, and its parents are to be visited. -/
theorem Settled.take_flagged {s : rev_info commit tree blob tag} {c : commit}
    (h : Settled g s Nothing Nothing) (hc : .commit c ∈ s.SEEN) :
    Settled g (take c s) (· ∈ g.parents c) (· ∈ g.parents c) := by
  constructor
  · exact h.parsed
  · intro d hd
    rcases Finset.mem_insert.mp hd with rfl | hd
    · exact hc
    · exact h.added d hd
  · intro r hr p hp
    rcases Finset.mem_insert.mp hr with rfl | hr
    · exact Or.inr hp
    · exact (h.parents_seen r hr p hp).imp_right False.elim
  · intro r hr hru p hp
    rcases Finset.mem_insert.mp hr with rfl | hr
    · exact Or.inr hp
    · exact (h.parents_flagged r hr hru p hp).imp_right False.elim
  · intro f hf hfa
    have hfs : f ∉ s.ADDED := fun hin => hfa (Finset.mem_insert_of_mem hin)
    rcases h.source f hf hfs with hdeepf | ⟨r, hr, hra, hrf⟩ | hf
    · exact Or.inl hdeepf
    · by_cases hrc : r = c
      · subst hrc
        exact Or.inr (Or.inr hrf)
      · refine Or.inr (Or.inl ⟨r, hr, ?_, hrf⟩)
        unfold take
        rw [Finset.mem_insert, not_or]
        exact ⟨hrc, hra⟩
    · exact hf.elim

/-- An interesting commit is taken, and its parents are only to be seen. -/
theorem Settled.take_unflagged {s : rev_info commit tree blob tag} {c : commit}
    (h : Settled g s Nothing Nothing) (hc : .commit c ∈ s.SEEN)
    (hno : .commit c ∉ s.UNINTERESTING) :
    Settled g (take c s) Nothing (· ∈ g.parents c) := by
  constructor
  · exact h.parsed
  · intro d hd
    rcases Finset.mem_insert.mp hd with rfl | hd
    · exact hc
    · exact h.added d hd
  · intro r hr p hp
    rcases Finset.mem_insert.mp hr with rfl | hr
    · exact Or.inr hp
    · exact (h.parents_seen r hr p hp).imp_right False.elim
  · intro r hr hru p hp
    rcases Finset.mem_insert.mp hr with rfl | hr
    · exact absurd hru hno
    · exact h.parents_flagged r hr hru p hp
  · intro f hf hfa
    have hfs : f ∉ s.ADDED := fun hin => hfa (Finset.mem_insert_of_mem hin)
    rcases h.source f hf hfs with hdeepf | ⟨r, hr, hra, hrf⟩ | hf
    · exact Or.inl hdeepf
    · refine Or.inr (Or.inl ⟨r, hr, ?_, hrf⟩)
      unfold take
      rw [Finset.mem_insert, not_or]
      refine ⟨?_, hra⟩
      rintro rfl
      exact hno hr
    · exact hf.elim

/-! ## Parents -/

theorem Settled.uninteresting_parents (hhas : ∀ c, g.has_sha1_file (.commit c) = true)
    (parents : List commit) :
    ∀ s : rev_info commit tree blob tag × List commit,
      Settled g s.1 (· ∈ parents) (· ∈ parents) →
      Settled g (add_uninteresting_parents g parents s).1 Nothing Nothing := by
  induction parents with
  | nil =>
    intro s h
    have hnone : (fun c : commit => c ∈ ([] : List commit)) = Nothing := by
      funext c
      exact propext ⟨fun h => List.not_mem_nil h, fun h => h.elim⟩
    rw [hnone] at h
    exact h
  | cons p parents ih =>
    rintro ⟨revs, list⟩ h
    obtain ⟨revs', hparse⟩ := parse_commit_present (s := flag_uninteresting (.commit p) revs) (hhas p)
    obtain ⟨hmarked, hflags⟩ := visit_eq (g := g) p revs'
    obtain ⟨hpeeled, -⟩ := parse_commit_peeled hparse
    have hqueued := Queued.add_unseen (g := g) p (revision.visit g p revs', list)
    have hvisited : Settled g (add_unseen g p (revision.visit g p revs', list)).1 (· ∈ parents)
        (· ∈ parents) := by
      apply Settled.visit hhas h (fun _ hx => hx)
        (fun _ hx => List.mem_cons.mp hx) (fun _ hx => List.mem_cons.mp hx)
      · rw [hpeeled.flags]
        rfl
      · exact hpeeled.parsed
      · exact parse_commit_parsed hparse
      · rw [add_unseen_flags]
        exact hflags
      · rw [hqueued.added]
        exact hmarked.added.trans hpeeled.added
      · have hseen : (revision.visit g p revs').SEEN = revs.SEEN := hmarked.seen.trans hpeeled.seen
        rw [← hseen]
        exact hqueued.seen
      · intro o ho
        have hseen : (revision.visit g p revs').SEEN = revs.SEEN := hmarked.seen.trans hpeeled.seen
        have honly := add_unseen_only p _ o ho
        rw [hseen] at honly
        exact honly
      · exact add_unseen_seen _ _
      · rw [add_unseen_parsed]
        exact hmarked.parsed
    rw [add_uninteresting_parents_cons, hparse]
    exact ih _ hvisited

theorem Settled.interesting_parents {flag : commit → Prop} (parents : List commit) :
    ∀ s t : rev_info commit tree blob tag × List commit, Settled g s.1 flag (· ∈ parents) →
      add_interesting_parents g parents s = some t → Settled g t.1 flag Nothing := by
  induction parents with
  | nil =>
    intro s t h ht
    have hnone : (fun c : commit => c ∈ ([] : List commit)) = Nothing := by
      funext c
      exact propext ⟨fun h => List.not_mem_nil h, fun h => h.elim⟩
    rw [hnone] at h
    rw [← Option.some.inj ht]
    exact h
  | cons p parents ih =>
    rintro ⟨revs, list⟩ t h ht
    rw [add_interesting_parents] at ht
    obtain ⟨revs', hparse, hrest⟩ := Option.bind_eq_some_iff.mp ht
    obtain ⟨hpeeled, -⟩ := parse_commit_peeled hparse
    have hqueued := Queued.add_unseen (g := g) p (revs', list)
    apply ih _ t _ hrest
    apply h.see (fun _ hx => List.mem_cons.mp hx)
    · rw [add_unseen_flags]
      exact hpeeled.flags
    · rw [hqueued.added]
      exact hpeeled.added
    · have hseen : revs'.SEEN = revs.SEEN := hpeeled.seen
      rw [← hseen]
      exact hqueued.seen
    · intro o ho
      have hseen : revs'.SEEN = revs.SEEN := hpeeled.seen
      have honly := add_unseen_only p _ o ho
      rw [hseen] at honly
      exact honly
    · exact add_unseen_seen _ _
    · rw [add_unseen_parsed]
      exact hpeeled.parsed
    · rw [add_unseen_parsed]
      exact parse_commit_parsed hparse

/-! ## Turns -/

variable {P N : object commit tree blob tag → Prop}

theorem Settled.drop (hhas : ∀ c, g.has_sha1_file (.commit c) = true)
    {s : limiting commit tree blob tag} (h : Settled g s.revs Nothing Nothing) (c : commit)
    (list : List commit) (hc : .commit c ∈ s.revs.SEEN) :
    Settled g (drop_step g s c list).revs Nothing Nothing := by
  have hparents : parents_of g (take c s.revs) c = g.parents c :=
    parents_of_parsed hhas (h.parsed c hc)
  have hadded : c ∈ (take c s.revs).ADDED := Finset.mem_insert_self _ _
  have hall := (add_uninteresting_parents_spec (g := g) (g.parents c) (take c s.revs, list)).2.1
  have hsettled := Settled.uninteresting_parents hhas (g.parents c) (take c s.revs, list)
    (h.take_flagged hc)
  have hmarked := mark_parents_marked (g := g) c
    (add_uninteresting_parents g (g.parents c) (take c s.revs, list)).1
  unfold drop_step
  simp only
  rw [hparents]
  apply hsettled.of_same _ hmarked.seen hmarked.added hmarked.parsed
  exact mark_parents_idle fun p hp => hall p (mem_parents_of hp)

theorem Settled.keep {s : limiting commit tree blob tag} (h : Settled g s.revs Nothing Nothing)
    {c : commit} {list : List commit} {t : rev_info commit tree blob tag × List commit}
    (hc : .commit c ∈ s.revs.SEEN) (hno : .commit c ∉ s.revs.UNINTERESTING)
    (ht : add_interesting_parents g (g.parents c) (take c s.revs, list) = some t) :
    Settled g (keep_step g s c t).revs Nothing Nothing :=
  Settled.interesting_parents (g.parents c) _ t (h.take_unflagged hc hno) ht

/-! ## From the uninteresting end -/

/-- What is flagged and was not taken comes down from a flagged commit of the list. -/
theorem Settled.below (hdag : ∀ c, ¬ TransGen (Parent g) c c) {s : limiting commit tree blob tag}
    (h : Settled g s.revs Nothing Nothing)
    (hlist : ∀ c, .commit c ∈ s.revs.SEEN → c ∉ s.revs.ADDED → c ∈ s.list) {f : commit}
    (hf : .commit f ∈ s.revs.UNINTERESTING) (hfa : f ∉ s.revs.ADDED) :
    ∃ b ∈ s.list, Ancestor g b f := by
  have hwf : WellFounded (fun a b => Parent g a b) := by
    have := acyclic.Acyclic.wf (r := Parent g) hdag
    exact this
  induction f using hwf.induction with
  | _ f ih =>
    rcases h.source f hf hfa with hdeepf | ⟨r, hr, hra, hrf⟩ | hnone
    · exact ⟨f, hlist f hdeepf.1 hfa, ReflTransGen.refl⟩
    · obtain ⟨b, hb, hbr⟩ := ih r hrf hr hra
      exact ⟨b, hb, hbr.tail hrf⟩
    · exact hnone.elim

end git.revision
