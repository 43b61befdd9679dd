-- What marking parents uninteresting does: it reaches ancestors only, and of
-- every commit that it flags it flags all parents that are known.
import Git.Revision

open Relation

namespace git.revision

set_option linter.unusedSectionVars false

variable {commit tree blob tag : Type} [DecidableEq commit] [DecidableEq tree] [DecidableEq blob]
  [DecidableEq tag] {g : object_graph commit tree blob tag}

/-! ## Ancestors -/

def Parent (g : object_graph commit tree blob tag) (c p : commit) : Prop := p ∈ g.parents c

/-- `x` is named in `o`. The commit of a gitlink is not. -/
inductive Names (g : object_graph commit tree blob tag) :
    object commit tree blob tag → object commit tree blob tag → Prop
  | parent {c p : commit} : Parent g c p → Names g (.commit c) (.commit p)
  | root (c : commit) : Names g (.commit c) (.tree (g.tree_of c))
  | subtree {t s : tree} : entry.tree s ∈ g.entries t → Names g (.tree t) (.tree s)
  | file {t : tree} {b : blob} : entry.blob b ∈ g.entries t → Names g (.tree t) (.blob b)
  | tagged (t : tag) : Names g (.tag t) (g.tagged t)

/-- `a` is `c` or an ancestor of it. -/
def Ancestor (g : object_graph commit tree blob tag) (c a : commit) : Prop :=
  ReflTransGen (Parent g) c a

theorem mem_parents_of {revs : rev_info commit tree blob tag} {c p : commit}
    (h : p ∈ parents_of g revs c) : Parent g c p := by
  unfold parents_of at h
  split_ifs at h with hparsed
  · exact h
  · cases h

/-! ## What marking leaves alone -/

/-- `t` comes from `s` by marking. -/
structure Marked (g : object_graph commit tree blob tag) (s t : rev_info commit tree blob tag) :
    Prop where
  pending : t.pending = s.pending
  commits : t.commits = s.commits
  limited : t.limited = s.limited
  seen : t.SEEN = s.SEEN
  added : t.ADDED = s.ADDED
  shown : t.SHOWN = s.SHOWN
  flags : s.UNINTERESTING ⊆ t.UNINTERESTING
  parsed : s.parsed ⊆ t.parsed
  missing : ∀ c ∈ t.parsed, c ∈ s.parsed ∨ g.has_sha1_file (.commit c) = false

theorem Marked.refl (s : rev_info commit tree blob tag) : Marked g s s :=
  ⟨rfl, rfl, rfl, rfl, rfl, rfl, subset_rfl, subset_rfl, fun _ h => Or.inl h⟩

theorem Marked.trans {s t u : rev_info commit tree blob tag} (h : Marked g s t)
    (h' : Marked g t u) : Marked g s u where
  pending := h'.pending.trans h.pending
  commits := h'.commits.trans h.commits
  limited := h'.limited.trans h.limited
  seen := h'.seen.trans h.seen
  added := h'.added.trans h.added
  shown := h'.shown.trans h.shown
  flags := h.flags.trans h'.flags
  parsed := h.parsed.trans h'.parsed
  missing := by
    intro c hc
    rcases h'.missing c hc with ht | hmissing
    · exact h.missing c ht
    · exact Or.inr hmissing

theorem Marked.flag (s : rev_info commit tree blob tag) (o : object commit tree blob tag) :
    Marked g s (flag_uninteresting o s) :=
  ⟨rfl, rfl, rfl, rfl, rfl, rfl, Finset.subset_insert _ _, subset_rfl, fun _ h => Or.inl h⟩

theorem Marked.parents_of {s t : rev_info commit tree blob tag} (h : Marked g s t) (c : commit) :
    parents_of g t c = parents_of g s c := by
  unfold revision.parents_of
  by_cases hhas : g.has_sha1_file (.commit c) = true
  · have hiff : c ∈ t.parsed ↔ c ∈ s.parsed := by
      constructor
      · intro hc
        rcases h.missing c hc with hs | hmissing
        · exact hs
        · rw [hhas] at hmissing
          cases hmissing
      · exact fun hc => h.parsed hc
    rw [if_congr (and_congr_left' hiff) rfl rfl]
  · rw [if_neg fun hc => hhas hc.2, if_neg fun hc => hhas hc.2]

/-- A missing commit counts as parsed. -/
def touch (g : object_graph commit tree blob tag) (c : commit)
    (revs : rev_info commit tree blob tag) : rev_info commit tree blob tag :=
  if g.has_sha1_file (.commit c) then revs else { revs with parsed := insert c revs.parsed }

theorem Marked.touch (s : rev_info commit tree blob tag) (c : commit) :
    Marked g s (touch g c s) := by
  unfold revision.touch
  split_ifs with hhas
  · exact Marked.refl s
  · refine ⟨rfl, rfl, rfl, rfl, rfl, rfl, subset_rfl, Finset.subset_insert _ _, ?_⟩
    intro d hd
    rcases Finset.mem_insert.mp hd with rfl | hd
    · exact Or.inr (Bool.not_eq_true _ ▸ hhas)
    · exact Or.inl hd

@[simp] theorem touch_flags (c : commit) (s : rev_info commit tree blob tag) :
    (touch g c s).UNINTERESTING = s.UNINTERESTING := by
  unfold touch
  split_ifs <;> rfl

/-! ## A turn of the loop -/

theorem mark_parents_loop_flagged {fuel : Nat} {c : commit} {stack : List commit}
    {s : rev_info commit tree blob tag} (h : .commit c ∈ s.UNINTERESTING) :
    mark_parents_loop g (fuel + 1) (c :: stack) s =
      mark_parents_loop g fuel stack (touch g c s) := by
  have hflag : .commit c ∈ (touch g c s).UNINTERESTING := by
    rw [touch_flags]
    exact h
  exact if_pos hflag

theorem mark_parents_loop_new (fuel : Nat) {c : commit} (stack : List commit)
    {s : rev_info commit tree blob tag} (h : .commit c ∉ s.UNINTERESTING) :
    ∃ more, more.Perm (parents_of g s c) ∧
      mark_parents_loop g (fuel + 1) (c :: stack) s =
        mark_parents_loop g fuel (more ++ stack) (flag_uninteresting (.commit c) (touch g c s)) := by
  have hflag : .commit c ∉ (touch g c s).UNINTERESTING := by
    rw [touch_flags]
    exact h
  have hparents : parents_of g (flag_uninteresting (.commit c) (touch g c s)) c =
      parents_of g s c :=
    ((Marked.touch s c).trans (Marked.flag _ _)).parents_of c
  unfold touch at hparents
  rw [show mark_parents_loop g (fuel + 1) (c :: stack) s = _ from if_neg hflag, hparents]
  cases parents_of g s c with
  | nil => exact ⟨[], List.Perm.refl _, rfl⟩
  | cons first rest =>
    refine ⟨first :: rest.reverse, ?_, rfl⟩
    exact List.Perm.cons first (List.reverse_perm rest)

theorem mark_parents_loop_marked (fuel : Nat) :
    ∀ (stack : List commit) (s : rev_info commit tree blob tag),
      Marked g s (mark_parents_loop g fuel stack s) := by
  induction fuel with
  | zero => exact fun _ s => Marked.refl s
  | succ fuel ih =>
    intro stack s
    cases stack with
    | nil => exact Marked.refl s
    | cons c stack =>
      by_cases hc : .commit c ∈ s.UNINTERESTING
      · rw [mark_parents_loop_flagged hc]
        exact (Marked.touch s c).trans (ih _ _)
      · obtain ⟨more, -, hturn⟩ := mark_parents_loop_new (g := g) fuel stack hc
        rw [hturn]
        exact ((Marked.touch s c).trans (Marked.flag _ _)).trans (ih _ _)

/-- Only ancestors of what is on the stack are flagged. -/
theorem mark_parents_loop_sound (fuel : Nat) :
    ∀ (stack : List commit) (s : rev_info commit tree blob tag) (o : object commit tree blob tag),
      o ∈ (mark_parents_loop g fuel stack s).UNINTERESTING → o ∈ s.UNINTERESTING ∨
        ∃ a ∈ stack, ∃ c, o = .commit c ∧ Ancestor g a c := by
  induction fuel with
  | zero => exact fun _ _ _ h => Or.inl h
  | succ fuel ih =>
    intro stack s o ho
    cases stack with
    | nil => exact Or.inl ho
    | cons c stack =>
      by_cases hc : .commit c ∈ s.UNINTERESTING
      · rw [mark_parents_loop_flagged hc] at ho
        rcases ih _ _ o ho with hflag | ⟨a, ha, hreach⟩
        · rw [touch_flags] at hflag
          exact Or.inl hflag
        · exact Or.inr ⟨a, List.mem_cons_of_mem c ha, hreach⟩
      · obtain ⟨more, hmore, hturn⟩ :=
          mark_parents_loop_new (g := g) fuel stack hc
        rw [hturn] at ho
        rcases ih _ _ o ho with hflag | ⟨a, ha, d, rfl, hreach⟩
        · rcases Finset.mem_insert.mp hflag with rfl | hflag
          · exact Or.inr ⟨c, List.mem_cons_self, c, rfl, ReflTransGen.refl⟩
          · rw [touch_flags] at hflag
            exact Or.inl hflag
        · rcases List.mem_append.mp ha with ha | ha
          · have hparent := mem_parents_of (hmore.mem_iff.mp ha)
            exact Or.inr ⟨c, List.mem_cons_self, d, rfl, hreach.head hparent⟩
          · exact Or.inr ⟨a, List.mem_cons_of_mem c ha, d, rfl, hreach⟩

/-- What is flagged was on the stack, or is a known parent of what is flagged too. -/
theorem mark_parents_loop_origin (fuel : Nat) :
    ∀ (stack : List commit) (s : rev_info commit tree blob tag) (f : commit),
      .commit f ∈ (mark_parents_loop g fuel stack s).UNINTERESTING →
      .commit f ∉ s.UNINTERESTING → f ∈ stack ∨
        ∃ r, .commit r ∈ (mark_parents_loop g fuel stack s).UNINTERESTING ∧
          .commit r ∉ s.UNINTERESTING ∧ f ∈ parents_of g s r := by
  induction fuel with
  | zero => exact fun _ _ _ h hno => absurd h hno
  | succ fuel ih =>
    intro stack s f hf hno
    cases stack with
    | nil => exact absurd hf hno
    | cons c stack =>
      by_cases hc : .commit c ∈ s.UNINTERESTING
      · rw [mark_parents_loop_flagged hc] at hf ⊢
        rcases ih stack (touch g c s) f hf (by rwa [touch_flags]) with hmem | ⟨r, hr, hnew, hfr⟩
        · exact Or.inl (List.mem_cons_of_mem c hmem)
        · rw [touch_flags] at hnew
          rw [(Marked.touch s c).parents_of] at hfr
          exact Or.inr ⟨r, hr, hnew, hfr⟩
      · obtain ⟨more, hmore, hturn⟩ := mark_parents_loop_new (g := g) fuel stack hc
        have hmarked := mark_parents_loop_marked (g := g) fuel (more ++ stack)
          (flag_uninteresting (.commit c) (touch g c s))
        have hflags : (flag_uninteresting (.commit c) (touch g c s)).UNINTERESTING =
            insert (.commit c) s.UNINTERESTING := by
          unfold flag_uninteresting
          rw [touch_flags]
        have hself : .commit c ∈ (flag_uninteresting (.commit c) (touch g c s)).UNINTERESTING := by
          rw [hflags]
          exact Finset.mem_insert_self _ _
        rw [hturn] at hf ⊢
        by_cases hfc : f = c
        · exact Or.inl (by rw [hfc]; exact List.mem_cons_self)
        have hnew : .commit f ∉ (flag_uninteresting (.commit c) (touch g c s)).UNINTERESTING := by
          rw [hflags, Finset.mem_insert, not_or]
          exact ⟨fun heq => hfc (object.commit.inj heq), hno⟩
        rcases ih _ _ f hf hnew with hmem | ⟨r, hr, hrnew, hfr⟩
        · rcases List.mem_append.mp hmem with hmem | hmem
          · exact Or.inr ⟨c, hmarked.flags hself, hc, hmore.mem_iff.mp hmem⟩
          · exact Or.inl (List.mem_cons_of_mem c hmem)
        · rw [hflags, Finset.mem_insert, not_or] at hrnew
          rw [((Marked.touch s c).trans (Marked.flag _ _)).parents_of] at hfr
          exact Or.inr ⟨r, hr, hrnew.2, hfr⟩

/-- Nothing happens where all is flagged. -/
theorem mark_parents_loop_idle (fuel : Nat) :
    ∀ (stack : List commit) (s : rev_info commit tree blob tag),
      (∀ a ∈ stack, .commit a ∈ s.UNINTERESTING) →
      (mark_parents_loop g fuel stack s).UNINTERESTING = s.UNINTERESTING := by
  induction fuel with
  | zero => exact fun _ _ _ => rfl
  | succ fuel ih =>
    intro stack s h
    cases stack with
    | nil => rfl
    | cons c stack =>
      rw [mark_parents_loop_flagged (h c List.mem_cons_self), ih, touch_flags]
      intro a ha
      rw [touch_flags]
      exact h a (List.mem_cons_of_mem c ha)

/-! ## All of the known ancestors -/

section

variable [Fintype commit]

/-- What unflagged commits can still put on the stack. -/
def unmarked (g : object_graph commit tree blob tag) (flags : Finset (object commit tree blob tag)) :
    Nat :=
  ∑ d, if .commit d ∈ flags then 0 else (g.parents d).length + 1

theorem unmarked_insert {flags : Finset (object commit tree blob tag)} {c : commit}
    (h : .commit c ∉ flags) :
    unmarked g (insert (.commit c) flags) + ((g.parents c).length + 1) = unmarked g flags := by
  unfold unmarked
  rw [← Finset.add_sum_erase _ _ (Finset.mem_univ c),
    ← Finset.add_sum_erase Finset.univ
      (fun d => if object.commit d ∈ flags then 0 else (g.parents d).length + 1)
      (Finset.mem_univ c)]
  have hrest : ∑ d ∈ Finset.univ.erase c,
        (if object.commit d ∈ insert (.commit c) flags then 0 else (g.parents d).length + 1) =
      ∑ d ∈ Finset.univ.erase c,
        (if object.commit d ∈ flags then 0 else (g.parents d).length + 1) := by
    apply Finset.sum_congr rfl
    intro d hd
    have hne : object.commit d ≠ (object.commit c : object commit tree blob tag) :=
      fun heq => Finset.ne_of_mem_erase hd (object.commit.inj heq)
    exact if_congr (by rw [Finset.mem_insert, or_iff_right hne]) rfl rfl
  rw [hrest, if_pos (Finset.mem_insert_self _ _), if_neg h]
  omega

/-- With enough fuel everything on the stack is flagged, and the known parents of what
the marking flags. -/
theorem mark_parents_loop_closed (fuel : Nat) :
    ∀ (stack : List commit) (s : rev_info commit tree blob tag),
      stack.length + unmarked g s.UNINTERESTING ≤ fuel →
      (∀ a ∈ stack, .commit a ∈ (mark_parents_loop g fuel stack s).UNINTERESTING) ∧
      (∀ c, .commit c ∈ (mark_parents_loop g fuel stack s).UNINTERESTING →
        .commit c ∉ s.UNINTERESTING → ∀ p ∈ parents_of g s c,
          .commit p ∈ (mark_parents_loop g fuel stack s).UNINTERESTING) := by
  induction fuel with
  | zero =>
    intro stack s hfuel
    have hstack : stack = [] := List.length_eq_zero_iff.mp (by omega)
    subst hstack
    exact ⟨fun a ha => absurd ha List.not_mem_nil, fun c hc hno => absurd hc hno⟩
  | succ fuel ih =>
    intro stack s hfuel
    cases stack with
    | nil => exact ⟨fun a ha => absurd ha List.not_mem_nil, fun c hc hno => absurd hc hno⟩
    | cons c stack =>
      rw [List.length_cons] at hfuel
      by_cases hc : .commit c ∈ s.UNINTERESTING
      · have hmarked := mark_parents_loop_marked (g := g) fuel stack (touch g c s)
        obtain ⟨hstack, hclosed⟩ := ih stack (touch g c s) (by rw [touch_flags]; omega)
        rw [mark_parents_loop_flagged hc]
        refine ⟨?_, ?_⟩
        · intro a ha
          rcases List.mem_cons.mp ha with rfl | ha
          · apply hmarked.flags
            rw [touch_flags]
            exact hc
          · exact hstack a ha
        · intro d hd hno p hp
          apply hclosed d hd
          · rw [touch_flags]
            exact hno
          · rw [(Marked.touch s c).parents_of]
            exact hp
      · obtain ⟨more, hmore, hturn⟩ :=
          mark_parents_loop_new (g := g) fuel stack hc
        have hstep := (Marked.touch (g := g) s c).trans (Marked.flag _ (.commit c))
        have hmarked := mark_parents_loop_marked (g := g) fuel (more ++ stack)
          (flag_uninteresting (.commit c) (touch g c s))
        have hflags : (flag_uninteresting (.commit c) (touch g c s)).UNINTERESTING =
            insert (.commit c) s.UNINTERESTING := by
          unfold flag_uninteresting
          rw [touch_flags]
        have hlen : more.length ≤ (g.parents c).length := by
          rw [hmore.length_eq]
          unfold parents_of
          split_ifs
          · exact le_refl _
          · exact Nat.zero_le _
        have hroom := unmarked_insert (g := g) hc
        obtain ⟨hstack, hclosed⟩ := ih (more ++ stack)
          (flag_uninteresting (.commit c) (touch g c s)) (by
            rw [hflags, List.length_append]
            omega)
        rw [hturn]
        have hself : .commit c ∈ (mark_parents_loop g fuel (more ++ stack)
            (flag_uninteresting (.commit c) (touch g c s))).UNINTERESTING := by
          apply hmarked.flags
          rw [hflags]
          exact Finset.mem_insert_self _ _
        refine ⟨?_, ?_⟩
        · intro a ha
          rcases List.mem_cons.mp ha with rfl | ha
          · exact hself
          · exact hstack a (List.mem_append_right _ ha)
        · intro d hd hno p hp
          by_cases hdc : d = c
          · subst hdc
            exact hstack p (List.mem_append_left _ (hmore.mem_iff.mpr hp))
          · apply hclosed d hd
            · rw [hflags, Finset.mem_insert, not_or]
              exact ⟨fun heq => hdc (object.commit.inj heq), hno⟩
            · rw [hstep.parents_of]
              exact hp

/-! ## mark_parents_uninteresting -/

theorem mark_parents_marked (c : commit) (s : rev_info commit tree blob tag) :
    Marked g s (mark_parents_uninteresting g c s) :=
  mark_parents_loop_marked _ _ _

theorem mark_parents_sound {c : commit} {s : rev_info commit tree blob tag}
    {o : object commit tree blob tag} (h : o ∈ (mark_parents_uninteresting g c s).UNINTERESTING) :
    o ∈ s.UNINTERESTING ∨ ∃ d, o = .commit d ∧ Ancestor g c d := by
  rcases mark_parents_loop_sound _ _ _ o h with hflag | ⟨a, ha, d, rfl, hreach⟩
  · exact Or.inl hflag
  · have hparent := mem_parents_of (List.mem_reverse.mp ha)
    exact Or.inr ⟨d, rfl, hreach.head hparent⟩

theorem mark_parents_closed (c : commit) (s : rev_info commit tree blob tag) :
    (∀ p ∈ parents_of g s c, .commit p ∈ (mark_parents_uninteresting g c s).UNINTERESTING) ∧
    (∀ d, .commit d ∈ (mark_parents_uninteresting g c s).UNINTERESTING →
      .commit d ∉ s.UNINTERESTING → ∀ p ∈ parents_of g s d,
        .commit p ∈ (mark_parents_uninteresting g c s).UNINTERESTING) := by
  have hlen : (parents_of g s c).length ≤ (g.parents c).length := by
    unfold parents_of
    split_ifs
    · exact le_refl _
    · exact Nat.zero_le _
  have hroom : unmarked g s.UNINTERESTING ≤ ∑ d, ((g.parents d).length + 1) := by
    apply Finset.sum_le_sum
    intro d _
    split_ifs
    · exact Nat.zero_le _
    · exact le_refl _
  obtain ⟨hstack, hclosed⟩ := mark_parents_loop_closed (g := g)
    ((g.parents c).length + ∑ d, ((g.parents d).length + 1)) (parents_of g s c).reverse s
    (by rw [List.length_reverse]; omega)
  exact ⟨fun p hp => hstack p (List.mem_reverse.mpr hp), hclosed⟩

theorem mark_parents_origin {c f : commit} {s : rev_info commit tree blob tag}
    (hf : .commit f ∈ (mark_parents_uninteresting g c s).UNINTERESTING)
    (hno : .commit f ∉ s.UNINTERESTING) :
    f ∈ parents_of g s c ∨ ∃ r, .commit r ∈ (mark_parents_uninteresting g c s).UNINTERESTING ∧
      .commit r ∉ s.UNINTERESTING ∧ f ∈ parents_of g s r := by
  rcases mark_parents_loop_origin _ _ _ f hf hno with hmem | hr
  · exact Or.inl (List.mem_reverse.mp hmem)
  · exact Or.inr hr

theorem mark_parents_idle {c : commit} {s : rev_info commit tree blob tag}
    (h : ∀ p ∈ parents_of g s c, .commit p ∈ s.UNINTERESTING) :
    (mark_parents_uninteresting g c s).UNINTERESTING = s.UNINTERESTING :=
  mark_parents_loop_idle _ _ _ fun a ha => h a (List.mem_reverse.mp ha)

end

end git.revision
