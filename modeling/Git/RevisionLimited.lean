-- The limited walk from commit tips: it leaves exactly the commits that a
-- positive tip reaches and no negative one.
import Git.RevisionExact

open Relation

namespace git.revision

set_option linter.unusedSectionVars false

variable {commit tree blob tag : Type} [DecidableEq commit] [DecidableEq tree] [DecidableEq blob]
  [DecidableEq tag]

def commit_tips (tips : List (commit × Bool)) : List (object commit tree blob tag × Bool) :=
  tips.map fun tip => (.commit tip.1, tip.2)

theorem mem_commit_tips {tips : List (commit × Bool)} {c : commit} {negative : Bool} :
    ((object.commit c : object commit tree blob tag), negative) ∈ commit_tips tips ↔
      (c, negative) ∈ tips := by
  unfold commit_tips
  rw [List.mem_map]
  constructor
  · rintro ⟨⟨d, b⟩, hmem, heq⟩
    obtain ⟨hd, hb⟩ := Prod.mk.inj heq
    obtain rfl : d = c := object.commit.inj hd
    obtain rfl : b = negative := hb
    exact hmem
  · exact fun h => ⟨(c, negative), h, rfl⟩

variable [Fintype commit] {g : object_graph commit tree blob tag} {opt : rev_options}

/-! ## One tip -/

theorem handle_commit_tip (hhas : ∀ c, g.has_sha1_file (.commit c) = true) (opt : rev_options)
    (c : commit) (s : rev_info commit tree blob tag) :
    ∃ s₁, parse_commit g c s = some s₁ ∧ handle_commit g opt (.commit c) s =
      some (if .commit c ∈ s.UNINTERESTING then
          { mark_parents_uninteresting g c (flag_uninteresting (.commit c) s₁) with
            limited := true }
        else s₁, some c) := by
  obtain ⟨s₁, hparse⟩ := parse_commit_present (s := s) (hhas c)
  refine ⟨s₁, hparse, ?_⟩
  have hpeel : ∀ b, peel_tags g opt b (tags_above g (.commit c)) (.commit c) s =
      some (s, some (.commit c)) := by
    intro b
    unfold tags_above peel_tags
    rfl
  unfold handle_commit
  simp only
  rw [hpeel, Option.bind_some]
  simp only
  rw [hparse, Option.map_some]
  by_cases hflag : .commit c ∈ s.UNINTERESTING
  · rw [if_pos hflag, if_pos (decide_eq_true hflag)]
  · rw [if_neg hflag, decide_eq_false hflag]
    rfl

/-- The commit is seen then, and flagged with its known ancestors if it is negative. -/
theorem handle_tips_commit (hhas : ∀ c, g.has_sha1_file (.commit c) = true) (opt : rev_options)
    (c : commit) (list : List (object commit tree blob tag)) (s : rev_info commit tree blob tag) :
    ∃ s₁ s₂, parse_commit g c s = some s₁ ∧
      handle_tips g opt (.commit c :: list) s = handle_tips g opt list s₂ ∧
      s₂.SEEN = insert (.commit c) s.SEEN ∧ s₂.ADDED = s.ADDED ∧ s₁.parsed ⊆ s₂.parsed ∧
      s₂.UNINTERESTING = if .commit c ∈ s.UNINTERESTING then
        (mark_parents_uninteresting g c (flag_uninteresting (.commit c) s₁)).UNINTERESTING
        else s.UNINTERESTING := by
  obtain ⟨s₁, hparse, hhandle⟩ := handle_commit_tip hhas opt c s
  obtain ⟨hpeeled, -⟩ := parse_commit_peeled hparse
  have hmarked := (Marked.flag s₁ (.commit c)).trans
    (mark_parents_marked (g := g) c (flag_uninteresting (.commit c) s₁))
  -- before the commit comes into the list
  have hfirst : ∃ t, handle_commit g opt (.commit c) s = some (t, some c) ∧ t.SEEN = s.SEEN ∧
      t.ADDED = s.ADDED ∧ s₁.parsed ⊆ t.parsed ∧
      t.UNINTERESTING = if .commit c ∈ s.UNINTERESTING then
        (mark_parents_uninteresting g c (flag_uninteresting (.commit c) s₁)).UNINTERESTING
        else s.UNINTERESTING := by
    rw [hhandle]
    split_ifs with hflag
    · exact ⟨_, rfl, hmarked.seen.trans hpeeled.seen, hmarked.added.trans hpeeled.added,
        hmarked.parsed, rfl⟩
    · exact ⟨s₁, rfl, hpeeled.seen, hpeeled.added, subset_rfl, hpeeled.flags⟩
  obtain ⟨t, ht, hseen, hadded, hparsed, hflags⟩ := hfirst
  rw [handle_tips, ht, Option.bind_some]
  simp only
  by_cases hin : .commit c ∈ t.SEEN
  · refine ⟨s₁, t, hparse, if_pos hin, ?_, hadded, hparsed, hflags⟩
    rw [hseen] at hin ⊢
    exact (Finset.insert_eq_of_mem hin).symm
  · refine ⟨s₁, _, hparse, if_neg hin, ?_, hadded, hparsed, hflags⟩
    simp only
    rw [hseen]

theorem Settled.weaken {s : rev_info commit tree blob tag} {flag flag' seen : commit → Prop}
    (h : Settled g s flag seen) (hflag : ∀ c, flag c → flag' c) : Settled g s flag' seen := by
  refine ⟨h.parsed, h.added, h.parents_seen, ?_, ?_⟩
  · intro r hr hu p hp
    exact (h.parents_flagged r hr hu p hp).imp_right (hflag p)
  · intro f hf hfa
    exact (h.source f hf hfa).imp_right (Or.imp_right (hflag f))

/-- Negative tips stay to be flagged until their turn. -/
theorem Settled.tips (hhas : ∀ c, g.has_sha1_file (.commit c) = true) {negative : commit → Prop}
    (tips : List commit) :
    ∀ s t : rev_info commit tree blob tag,
      Settled g s (fun c => c ∈ tips ∧ negative c) Nothing →
      (∀ c, negative c → .commit c ∈ s.UNINTERESTING) →
      handle_tips g opt (tips.map .commit) s = some t →
      Settled g t Nothing Nothing ∧ s.SEEN ⊆ t.SEEN ∧ ∀ c ∈ tips, .commit c ∈ t.SEEN := by
  induction tips with
  | nil =>
    intro s t h _ ht
    obtain rfl : s = t := Option.some.inj ht
    refine ⟨h.weaken ?_, subset_rfl, fun c hc => absurd hc List.not_mem_nil⟩
    exact fun c hc => absurd hc.1 List.not_mem_nil
  | cons p tips ih =>
    intro s t h hnegative ht
    obtain ⟨s₁, s₂, hparse, hturn, hseen, hadded, hparsed, hflags⟩ :=
      handle_tips_commit hhas opt p (tips.map .commit) s
    obtain ⟨hpeeled, -⟩ := parse_commit_peeled hparse
    have hparsed₁ := parse_commit_parsed hparse
    rw [List.map_cons, hturn] at ht
    have hgrow : s.SEEN ⊆ s₂.SEEN := by
      rw [hseen]
      exact Finset.subset_insert _ _
    have hself : .commit p ∈ s₂.SEEN := by
      rw [hseen]
      exact Finset.mem_insert_self _ _
    have honly : ∀ o ∈ s₂.SEEN, o ∈ s.SEEN ∨ o = .commit p := by
      intro o ho
      rw [hseen] at ho
      exact (Finset.mem_insert.mp ho).symm
    have hnext : Settled g s₂ (fun c => c ∈ tips ∧ negative c) Nothing ∧
        ∀ c, negative c → .commit c ∈ s₂.UNINTERESTING := by
      split_ifs at hflags with hflag
      · have hmarked := mark_parents_marked (g := g) p (flag_uninteresting (.commit p) s₁)
        have hflagged : (flag_uninteresting (.commit p) s₁).UNINTERESTING =
            insert (.commit p) s.UNINTERESTING := by
          rw [← hpeeled.flags]
          rfl
        have hread : s.parsed ⊆ (flag_uninteresting (.commit p) s₁).parsed := hpeeled.parsed
        refine ⟨?_, ?_⟩
        · apply Settled.visit hhas h (fun _ hx => hx.elim) _ (fun _ hx => hx.elim) hflagged hread
            hparsed₁ hflags hadded hgrow honly hself hparsed
          rintro x ⟨hx, hneg⟩
          exact (List.mem_cons.mp hx).imp_right fun hx => ⟨hx, hneg⟩
        · intro c hc
          rw [hflags]
          apply hmarked.flags
          apply Finset.mem_insert_of_mem
          rw [hpeeled.flags]
          exact hnegative c hc
      · refine ⟨?_, by rw [hflags]; exact hnegative⟩
        have hsee : Settled g s₂ (fun c => c ∈ p :: tips ∧ negative c) Nothing :=
          h.see (fun _ hx => hx.elim) hflags hadded hgrow honly hself
            (hpeeled.parsed.trans hparsed) (hparsed hparsed₁)
        apply hsee.weaken
        rintro x ⟨hx, hneg⟩
        rcases List.mem_cons.mp hx with rfl | hx
        · exact absurd (hnegative x hneg) hflag
        · exact ⟨hx, hneg⟩
    obtain ⟨hsettled, hgrow', hall⟩ := ih s₂ t hnext.1 hnext.2 ht
    refine ⟨hsettled, hgrow.trans hgrow', ?_⟩
    intro c hc
    rcases List.mem_cons.mp hc with rfl | hc
    · exact hgrow' hself
    · exact hall c hc

/-! ## The whole walk -/

/-- A tip of the side leads to `c`. -/
def ReachedFrom (g : object_graph commit tree blob tag) (tips : List (commit × Bool))
    (negative : Bool) (c : commit) : Prop :=
  ∃ a, (a, negative) ∈ tips ∧ Ancestor g a c

/-- Fewer than eight commits that negative tips reach share the date of one that a positive
tip reaches too. -/
def FewShareADate (g : object_graph commit tree blob tag) (tips : List (commit × Bool)) : Prop :=
  ∀ c, ReachedFrom g tips false c → ReachedFrom g tips true c →
    {d | ReachedFrom g tips true d ∧ g.date d = g.date c}.ncard < 8

/-- `limit_list` stops while the next commit of its list has the date of the last it listed. -/
def WalkStopsAtATie (g : object_graph commit tree blob tag) (opt : rev_options)
    (revs : rev_info commit tree blob tag) : Prop :=
  ∃ revs', handle_tips g opt revs.pending { revs with pending := [] } = some revs' ∧
    StopsAtATie g (start { revs' with commits := commit_list_sort_by_date g revs'.commits })

/-- From a commit: its ancestors, and trees and files. -/
theorem commit_names {a : commit} {o : object commit tree blob tag}
    (h : ReflTransGen (Names g) (.commit a) o) :
    (∃ c, o = .commit c ∧ Ancestor g a c) ∨ (∀ c, o ≠ .commit c) ∧ ∀ t, o ≠ .tag t := by
  induction h with
  | refl => exact Or.inl ⟨a, rfl, ReflTransGen.refl⟩
  | tail _ hname ih =>
    cases hname with
    | parent hparent =>
      rcases ih with ⟨c, hc, hac⟩ | hno
      · obtain rfl := object.commit.inj hc
        exact Or.inl ⟨_, rfl, hac.tail hparent⟩
      · exact absurd rfl (hno.1 _)
    | root c => exact Or.inr ⟨fun _ h => (by cases h), fun _ h => (by cases h)⟩
    | subtree _ => exact Or.inr ⟨fun _ h => (by cases h), fun _ h => (by cases h)⟩
    | file _ => exact Or.inr ⟨fun _ h => (by cases h), fun _ h => (by cases h)⟩
    | tagged t =>
      rcases ih with ⟨c, hc, -⟩ | hno
      · cases hc
      · exact absurd rfl (hno.2 t)

/-- What the walk starts from. -/
theorem limiting_start (hdates : Dates g) {P N : object commit tree blob tag → Prop}
    {revs : rev_info commit tree blob tag} (htips : Tips g P N revs)
    (hsettled : Settled g revs Nothing Nothing) :
    Limiting g P N (start { revs with commits := commit_list_sort_by_date g revs.commits })
      (start { revs with commits := commit_list_sort_by_date g revs.commits }) where
  walk := htips.sort.walk
  settled := hsettled.of_same rfl rfl rfl subset_rfl
  turns := ReflTransGen.refl
  dated :=
    { sorted := sort_by_date_sorted revs.commits
      older := by
        intro a ha
        have ha : a ∈ revs.ADDED := ha
        rw [htips.added] at ha
        cases ha
      ahead := by
        intro b _
        rw [hdates.date_of]
        exact Nat.le_sub_one_of_lt (g.date_lt b)
      after := fun l hl => absurd hl List.not_mem_nil
      closing := fun hless => absurd hless (lt_irrefl _)
      countdown := ⟨∅, Nat.le_add_right _ _, fun k hk => absurd hk (Finset.notMem_empty k)⟩ }

/-! ## From commit tips -/

def Positive (g : object_graph commit tree blob tag) (tips : List (commit × Bool))
    (o : object commit tree blob tag) : Prop :=
  ∃ c, o = .commit c ∧ ReachedFrom g tips false c

def Negative (g : object_graph commit tree blob tag) (tips : List (commit × Bool))
    (o : object commit tree blob tag) : Prop :=
  ∃ n, (n, true) ∈ tips ∧ ReflTransGen (Names g) (.commit n) o

theorem negative_commit {tips : List (commit × Bool)} {c : commit} :
    Negative g tips (.commit c) ↔ ReachedFrom g tips true c := by
  constructor
  · rintro ⟨n, hn, hreach⟩
    rcases commit_names hreach with ⟨d, hd, hnd⟩ | ⟨hno, -⟩
    · rw [object.commit.inj hd]
      exact ⟨n, hn, hnd⟩
    · exact absurd rfl (hno c)
  · rintro ⟨n, hn, hreach⟩
    exact ⟨n, hn, hreach.lift object.commit fun _ _ h => Names.parent h⟩

theorem commit_reaches (hdates : Dates g) (tips : List (commit × Bool)) :
    Reaches g (Positive g tips) (Negative g tips) := by
  refine ⟨?_, ?_, ?_, ?_⟩
  · rintro c p ⟨d, hd, a, ha, had⟩ hp
    rw [← object.commit.inj hd] at had
    exact ⟨p, rfl, a, ha, had.tail hp⟩
  · rintro t ⟨d, hd, -⟩
    cases hd
  · rintro o x ⟨n, hn, hreach⟩ hname
    exact ⟨n, hn, hreach.tail hname⟩
  · rintro o ⟨c, rfl, -⟩
    exact hdates.has c

/-- The options are about other tips. -/
theorem handle_commit_tips_options (hhas : ∀ c, g.has_sha1_file (.commit c) = true)
    (opt opt' : rev_options) (tips : List commit) :
    ∀ s : rev_info commit tree blob tag,
      handle_tips g opt (tips.map .commit) s = handle_tips g opt' (tips.map .commit) s := by
  induction tips with
  | nil => exact fun _ => rfl
  | cons c tips ih =>
    intro s
    obtain ⟨s₁, hparse, hhandle⟩ := handle_commit_tip hhas opt c s
    obtain ⟨s₁', hparse', hhandle'⟩ := handle_commit_tip hhas opt' c s
    rw [hparse] at hparse'
    obtain rfl := Option.some.inj hparse'
    rw [List.map_cons, handle_tips, handle_tips, hhandle, hhandle', Option.bind_some,
      Option.bind_some]
    simp only
    rw [ih, ih]

theorem handle_commit_tips (hdates : Dates g) (opt : rev_options) (tips : List (commit × Bool))
    (parsed : Finset commit) {limited : Bool}
    (hlimited : limited = true ∨ ∃ n, (n, true) ∈ tips) :
    ∃ t, handle_tips g opt (add_tips (commit_tips tips) parsed limited).pending
        { add_tips (commit_tips tips) parsed limited with pending := [] } = some t ∧
      Tips g (Positive g tips) (Negative g tips) t ∧ Settled g t Nothing Nothing ∧
      t.limited = true ∧
      ∀ c b, (c, b) ∈ tips → .commit c ∈ t.SEEN ∧ (b = true → .commit c ∈ t.UNINTERESTING) := by
  have hr := commit_reaches hdates tips
  have hstart : Tips g (Positive g tips) (Negative g tips)
      { add_tips (commit_tips tips) parsed limited with pending := [] } := by
    apply add_tips_start
    intro o ho
    obtain ⟨⟨n, b⟩, hmem, heq⟩ := List.mem_map.mp ho
    obtain ⟨rfl, rfl⟩ := Prod.mk.inj heq
    exact negative_commit.mpr ⟨n, hmem, ReflTransGen.refl⟩
  have hpending : (add_tips (commit_tips tips) parsed limited).pending =
      ((tips.map Prod.fst).map .commit : List (object commit tree blob tag)) := by
    unfold add_tips commit_tips
    rw [List.map_map, List.map_map]
    rfl
  have hflagged : ∀ c, (object.commit c : object commit tree blob tag) ∈
      (add_tips (commit_tips tips) parsed limited).UNINTERESTING ↔ (c, true) ∈ tips :=
    fun c => (add_tips_flags _ parsed limited _).trans mem_commit_tips
  have hall : (⟨true, true, true, true⟩ : rev_options).tag_objects = true := rfl
  obtain ⟨t, ht, htips, hgrow, -, -, hlimitedt, -, hself, -⟩ := handle_tips_spec hr hall rfl rfl
    ((tips.map Prod.fst).map .commit) _ hstart
    (by
      intro o ho
      obtain ⟨c, -, rfl⟩ := List.mem_map.mp ho
      exact hdates.has c)
    (by
      intro o ho
      obtain ⟨c, hc, rfl⟩ := List.mem_map.mp ho
      obtain ⟨⟨d, b⟩, hmem, rfl⟩ := List.mem_map.mp hc
      cases b with
      | true => exact Or.inl ((hflagged d).mpr hmem)
      | false => exact Or.inr ⟨d, rfl, d, hmem, ReflTransGen.refl⟩)
  have hbefore : Settled g { add_tips (commit_tips tips) parsed limited with pending := [] }
      (fun c => c ∈ tips.map Prod.fst ∧ (c, true) ∈ tips) Nothing := by
    refine ⟨fun c hc => absurd hc (Finset.notMem_empty _),
      fun c hc => absurd hc (Finset.notMem_empty _), fun c hc => absurd hc (Finset.notMem_empty _),
      fun c hc => absurd hc (Finset.notMem_empty _), ?_⟩
    intro f hf _
    have hmem := (hflagged f).mp hf
    exact Or.inr (Or.inr ⟨List.mem_map.mpr ⟨_, hmem, rfl⟩, hmem⟩)
  obtain ⟨hsettled, -, hseen⟩ := Settled.tips hdates.has (tips.map Prod.fst) _ t hbefore
    (fun c hc => (hflagged c).mpr hc) ht
  rw [hpending, handle_commit_tips_options hdates.has opt ⟨true, true, true, true⟩]
  refine ⟨t, ht, htips, hsettled, ?_, ?_⟩
  · rcases hlimited with hlimited | ⟨n, hn⟩
    · exact hlimitedt hlimited
    · apply hself n (List.mem_map.mpr ⟨n, List.mem_map.mpr ⟨_, hn, rfl⟩, rfl⟩)
      exact (hflagged n).mpr hn
  · intro c b hmem
    refine ⟨hseen c (List.mem_map.mpr ⟨_, hmem, rfl⟩), ?_⟩
    rintro rfl
    exact hgrow ((hflagged c).mpr hmem)

def line (n : Nat) : object_graph (Fin n) Unit Empty Empty where
  parents c := if h : 0 < c.val then [⟨c.val - 1, by omega⟩] else []
  tree_of _ := ()
  date _ := 1
  entries _ := []
  tagged t := t.elim
  has_sha1_file _ := true
  tree_height _ := 0
  tag_height _ := 0
  date_lt _ := by decide
  subtree_lt _ _ h := absurd h List.not_mem_nil
  tagged_lt t := t.elim

theorem line_parent {n : Nat} {c p : Fin n} :
    Parent (line n) c p ↔ c.val = p.val + 1 := by
  unfold Parent line
  simp only
  split_ifs with h
  · rw [List.mem_singleton, Fin.ext_iff]
    simp only
    omega
  · constructor
    · exact fun hp => absurd hp List.not_mem_nil
    · intro hp
      omega

theorem line_dates (n : Nat) : Dates (line n) where
  has _ := rfl
  acyclic := by
    intro c hc
    have hless : ∀ p, TransGen (Parent (line n)) c p → p.val < c.val := by
      intro p hp
      induction hp with
      | single hp => exact Nat.lt_of_succ_le (line_parent.mp hp).ge
      | tail _ hp ih => exact (Nat.lt_of_succ_le (line_parent.mp hp).ge).trans ih
    exact lt_irrefl _ (hless c hc)
  parents _ _ _ := le_refl _

theorem line_ancestor {n : Nat} (k : Nat) :
    ∀ c : Fin (n + 1), c.val = k → Ancestor (line (n + 1)) c 0 := by
  induction k with
  | zero =>
    intro c hc
    obtain rfl : c = 0 := Fin.ext hc
    exact ReflTransGen.refl
  | succ k ih =>
    intro c hc
    have hlt : k < n + 1 := by omega
    exact (ih ⟨k, hlt⟩ rfl).head (line_parent.mpr hc)

theorem sort_line {n : Nat} (list : List (Fin n)) :
    commit_list_sort_by_date (line n) list = list := by
  apply List.mergeSort_of_pairwise
  exact List.pairwise_of_forall fun _ _ => decide_eq_true (le_refl _)

end git.revision
