-- Whether a path is excluded does not depend on the paths that were asked about
-- before: it is the sign of the last pattern that matches it.
import Git.ExcludeMatch

namespace git.dir

open compat chain_stack

variable {w : surroundings} {fresh dir : dir_struct} {p : Bytes}

/-! ## The directories of a path -/

/-- No slash in front, and none behind another. -/
def Clean (p : Bytes) : Prop :=
  p.head? ≠ some SLASH ∧ ∀ i, p[i]? = some SLASH → p[i + 1]? ≠ some SLASH

/-- A directory that `p` is in, by the length of its part of the path. -/
def Holds (p : Bytes) (l : Nat) : Prop := l = 0 ∨ p[l - 1]? = some SLASH

instance (p : Bytes) (l : Nat) : Decidable (Holds p l) := inferInstanceAs (Decidable (_ ∨ _))

/-- All of them, the root first. -/
def ancestors (p : Bytes) : List Nat :=
  (List.range (base_length p + 1)).filter fun l => Holds p l

theorem mem_ancestors {l : Nat} : l ∈ ancestors p ↔ l ≤ base_length p ∧ Holds p l := by
  unfold ancestors
  rw [List.mem_filter, List.mem_range, Nat.lt_succ_iff, decide_eq_true_eq]

/-- Behind a directory of a clean path comes no slash at once. -/
theorem Clean.no_slash (h : Clean p) {l : Nat} (hl : Holds p l) : p[l]? ≠ some SLASH := by
  rcases hl with rfl | hslash
  · rw [← List.head?_eq_getElem?]
    exact h.1
  · cases l with
    | zero =>
      rw [← List.head?_eq_getElem?]
      exact h.1
    | succ l => exact h.2 l hslash

theorem chain_holds {ls : List Nat} (h : Chain (next_dir p) ls) : ∀ l ∈ ls, Holds p l := by
  induction h with
  | root =>
    intro l hl
    exact Or.inl (List.mem_singleton.mp hl)
  | push hchain hnext ih =>
    intro k hk
    rcases List.mem_cons.mp hk with rfl | hk
    · obtain ⟨j, rfl, hj⟩ := next_dir_some.mp hnext
      exact Or.inr (strchr_slash_some.mp hj).2.1
    · exact ih k hk

theorem chain_sorted {ls : List Nat} (h : Chain (next_dir p) ls) : ls.Pairwise (· > ·) := by
  induction h with
  | root => exact List.pairwise_singleton _ _
  | @push l m ls hchain hnext ih =>
    refine List.Pairwise.cons ?_ ih
    intro k hk
    exact (hchain.le_top (next_dir_up p) k hk).trans_lt (next_dir_up p l m hnext)

/-- The chain of a clean path passes none of them by. -/
theorem Clean.chain_complete (h : Clean p) {ls : List Nat} (hchain : Chain (next_dir p) ls) :
    ∀ l, Holds p l → l ≤ ls.headD 0 → l ∈ ls := by
  induction hchain with
  | root =>
    intro l _ hl
    rw [Nat.le_zero.mp hl]
    exact List.mem_singleton_self 0
  | @push l m ls hchain hnext ih =>
    intro k hk hle
    rw [List.headD_cons] at hle
    by_cases hbelow : k ≤ l
    · exact List.mem_cons_of_mem m (ih k hk hbelow)
    · obtain ⟨j, rfl, hj⟩ := next_dir_some.mp hnext
      obtain ⟨-, -, hbefore⟩ := strchr_slash_some.mp hj
      have hslash := hk.resolve_left (by omega)
      have hnot : k - 1 ≠ l := by
        rintro rfl
        exact h.no_slash (chain_holds hchain _ List.mem_cons_self) hslash
      have htop : j ≤ k - 1 := by
        by_contra hlt
        exact hbefore (k - 1) (by omega) (not_le.mp hlt) hslash
      have heq : k = j + 1 := by omega
      rw [heq]
      exact List.mem_cons_self

theorem chain_sublist {ls : List Nat} (h : Chain (next_dir p) ls)
    (htop : ls.headD 0 = base_length p) : ls.reverse.Sublist (ancestors p) := by
  have hsorted : ls.reverse.Pairwise (· < ·) := List.pairwise_reverse.mpr (chain_sorted h)
  have hall : (ancestors p).Pairwise (· < ·) := List.pairwise_lt_range.filter _
  apply List.sublist_of_subperm_of_pairwise _ hsorted hall
  apply List.subperm_of_subset hsorted.nodup
  intro l hl
  have hmem := List.mem_reverse.mp hl
  refine mem_ancestors.mpr ⟨?_, chain_holds h l hmem⟩
  rw [← htop]
  exact h.le_top (next_dir_up p) l hmem

theorem Clean.chain_eq (hclean : Clean p) {ls : List Nat} (h : Chain (next_dir p) ls)
    (htop : ls.headD 0 = base_length p) : ls.reverse = ancestors p := by
  have hsorted : ls.reverse.Pairwise (· < ·) := List.pairwise_reverse.mpr (chain_sorted h)
  have hall : (ancestors p).Pairwise (· < ·) := List.pairwise_lt_range.filter _
  apply List.Pairwise.eq_of_mem_iff hsorted hall
  intro l
  constructor
  · exact fun hl => (chain_sublist h htop).mem hl
  · intro hl
    obtain ⟨hle, hholds⟩ := mem_ancestors.mp hl
    exact List.mem_reverse.mpr (hclean.chain_complete h l hholds (by rw [htop]; exact hle))

/-- On a clean path it does not die. -/
theorem Clean.grow_total (h : Clean p) (fuel : Nat) :
    ∃ ls, grow (next_dir p) (base_length p) fuel [0] = some ls := by
  apply chain_stack.grow_total _ fuel [0] Chain.root
  intro l ls hchain hl
  have hends : p[base_length p - 1]? = some SLASH := base_ends (by omega)
  have hnot : base_length p - 1 ≠ l := by
    intro heq
    rw [heq] at hends
    exact h.no_slash (chain_holds hchain l List.mem_cons_self) hends
  cases hslash : strchr_slash p (l + 1) with
  | some j => exact ⟨j + 1, next_dir_some.mpr ⟨j, rfl, hslash⟩⟩
  | none => exact absurd hends (strchr_slash_none.mp hslash _ (by omega))

/-! ## Runs -/

/-- The state that calls for any paths, in any order, leave of `fresh`. -/
inductive Queried (w : surroundings) (fresh : dir_struct) : dir_struct → Prop
  | fresh : Queried w fresh fresh
  | call {dir dir' : dir_struct} {p : Bytes} {dt : dtype} {answer : Bool × dtype} :
      Queried w fresh dir → excluded w dir p dt = some (answer, dir') → Queried w fresh dir'

/-- Nothing was asked yet, and the lists hold what was loaded before. -/
structure Fresh (dir : dir_struct) : Prop where
  stack : dir.stack = []
  bases : ∀ x ∈ dir.EXC_CMDL ++ dir.EXC_DIRS ++ dir.EXC_FILE, x.base ≠ .basebuf

/-- The stack follows some path. -/
def Kept (w : surroundings) (fresh dir : dir_struct) : Prop :=
  fresh.exclude_per_dir = none ∧ dir = fresh ∨
    ∃ per_dir q ls, fresh.exclude_per_dir = some per_dir ∧ Following w fresh per_dir q ls dir ∧
      (ls = [] ∨ Chain (next_dir q) ls)

theorem Fresh.kept (h : Fresh fresh) : Kept w fresh fresh := by
  cases hname : fresh.exclude_per_dir with
  | none => exact Or.inl ⟨hname, rfl⟩
  | some per_dir =>
    refine Or.inr ⟨per_dir, [], [], hname, ⟨hname, rfl, rfl, rfl, h.stack, rfl⟩, Or.inl rfl⟩

/-- A path that is too long changes nothing; after any other the stack follows it. -/
theorem Kept.prep (h : Kept w fresh dir) {dir' : dir_struct}
    (hprep : prep_exclude w dir p (base_length p) = some dir') : Kept w fresh dir' := by
  rcases h with ⟨hname, rfl⟩ | ⟨per_dir, q, ls, hname, hfollow, hchain⟩
  · unfold prep_exclude at hprep
    rw [hname] at hprep
    obtain rfl := Option.some.inj hprep
    exact Or.inl ⟨hname, rfl⟩
  · by_cases hfits : base_length p + per_dir.length < PATH_MAX
    · rcases prep_exclude_spec hfollow hchain hfits with
        ⟨ls', dir₁, hgrow, hprep', hfollow', -⟩ | ⟨-, hdies⟩
      · rw [hprep'] at hprep
        obtain rfl := Option.some.inj hprep
        obtain ⟨hchain', -⟩ := grow_spec (next_dir_up p) (next_dir_max p) _ [0] ls' Chain.root
          (Nat.zero_le _) (Nat.le_add_left _ _) hgrow
        exact Or.inr ⟨per_dir, p, ls', hname, hfollow', Or.inr hchain'⟩
      · rw [hdies] at hprep
        cases hprep
    · unfold prep_exclude at hprep
      rw [hfollow.name] at hprep
      simp only at hprep
      rw [if_pos (not_lt.mp hfits)] at hprep
      obtain rfl := Option.some.inj hprep
      exact Or.inr ⟨per_dir, q, ls, hname, hfollow, hchain⟩

theorem Queried.kept (hfresh : Fresh fresh) (h : Queried w fresh dir) : Kept w fresh dir := by
  induction h with
  | fresh => exact hfresh.kept
  | call _ hcall ih =>
    obtain ⟨dir₁, hprep, heq⟩ := Option.map_eq_some_iff.mp hcall
    obtain rfl := (Prod.mk.inj heq).2
    exact ih.prep hprep

/-! ## Answers -/

/-- The patterns of the directories `ls`. -/
def directory_patterns (w : surroundings) (dir : dir_struct) (p : Bytes) (ls : List Nat) :
    List exclude :=
  match dir.exclude_per_dir with
  | none => []
  | some per_dir => ls.flatMap fun l => file_patterns w (p.take l ++ per_dir) .basebuf l

theorem dirs_list_eq {per_dir : Bytes} (hname : fresh.exclude_per_dir = some per_dir)
    (ls : List Nat) :
    dirs_list w per_dir p fresh.EXC_DIRS ls =
      fresh.EXC_DIRS ++ directory_patterns w fresh p ls.reverse := by
  unfold directory_patterns
  rw [hname]
  simp only
  induction ls with
  | nil => exact (List.append_nil _).symm
  | cons l ls ih =>
    rw [dirs_list, ih, List.reverse_cons, List.flatMap_append, List.append_assoc,
      List.flatMap_singleton]

theorem add_entries_base (base : base_pointer) (baselen : Nat) (buf : Bytes) :
    ∀ entry : Bytes, ∀ x ∈ add_entries base baselen entry buf [],
      x.base = base ∧ x.baselen = baselen := by
  induction buf with
  | nil => exact fun _ x hx => absurd hx List.not_mem_nil
  | cons c buf ih =>
    intro entry x hx
    rw [add_entries] at hx
    by_cases hend : c = NEWLINE
    · rw [if_pos hend] at hx
      by_cases hentry : entry ≠ [] ∧ entry.head? ≠ some HASH
      · rw [if_pos hentry, add_entries_append] at hx
        rcases List.mem_append.mp hx with hx | hx
        · obtain rfl := List.mem_singleton.mp hx
          exact ⟨rfl, rfl⟩
        · exact ih [] x hx
      · rw [if_neg hentry] at hx
        exact ih [] x hx
    · rw [if_neg hend] at hx
      exact ih _ x hx

/-- The patterns of a file have the base of its directory. -/
theorem file_patterns_base (w : surroundings) (fname : Bytes) (base : base_pointer)
    (baselen : Nat) :
    ∀ x ∈ file_patterns w fname base baselen, x.base = base ∧ x.baselen = baselen := by
  intro x hx
  unfold file_patterns add_excludes_from_file_to_list at hx
  cases hfile : w.open_file fname with
  | missing =>
    rw [hfile] at hx
    simp only [if_true] at hx
    cases hindex : w.read_skip_worktree_file_from_index fname with
    | none =>
      rw [hindex] at hx
      exact absurd hx List.not_mem_nil
    | some buf =>
      rw [hindex, Option.map_some, Option.getD_some] at hx
      split_ifs at hx with hbuf hend
      · exact absurd hx List.not_mem_nil
      · exact add_entries_base base baselen _ [] x hx
      · exact add_entries_base base baselen _ [] x hx
  | unreadable =>
    rw [hfile] at hx
    exact absurd hx List.not_mem_nil
  | buffer buf =>
    rw [hfile] at hx
    simp only at hx
    split_ifs at hx with hbuf
    · exact absurd hx List.not_mem_nil
    · exact add_entries_base base baselen _ [] x hx

theorem directory_patterns_based (w : surroundings) (dir : dir_struct) {ls : List Nat}
    (h : ∀ l ∈ ls, l ≤ base_length p) :
    Based (p.take (base_length p)) p (directory_patterns w dir p ls) := by
  intro x hx _
  unfold directory_patterns at hx
  cases hname : dir.exclude_per_dir with
  | none =>
    rw [hname] at hx
    exact absurd hx List.not_mem_nil
  | some per_dir =>
    rw [hname] at hx
    obtain ⟨l, hl, hmem⟩ := List.mem_flatMap.mp hx
    rw [(file_patterns_base w _ _ l x hmem).2, List.take_take, Nat.min_eq_left (h l hl)]

/-- The last pattern decides, and only the path's own directories have a say. -/
def Decided (w : surroundings) (fresh : dir_struct) (p : Bytes) (dt : dtype) (verdict : Bool) :
    Prop :=
  ∃ ls, ls.Sublist (ancestors p) ∧ (Clean p → ls = ancestors p) ∧
    verdict = last_match w p dt
      (fresh.EXC_FILE ++ (fresh.EXC_DIRS ++ directory_patterns w fresh p ls) ++ fresh.EXC_CMDL)

/-- The answer is a function of `fresh` and of what is prepared for the path. -/
theorem excluded_last_match (hfresh : Fresh fresh) {basebuf : Bytes} {el : List exclude}
    (hel : Based basebuf p el) (dt : dtype) :
    (excluded_from_lists w basebuf p (p.drop (base_length p))
        [fresh.EXC_CMDL, fresh.EXC_DIRS ++ el, fresh.EXC_FILE] dt).1 =
      last_match w p dt (fresh.EXC_FILE ++ (fresh.EXC_DIRS ++ el) ++ fresh.EXC_CMDL) := by
  have hbased : ∀ el', el' ⊆ fresh.EXC_CMDL ++ fresh.EXC_DIRS ++ fresh.EXC_FILE →
      Based basebuf p el' := fun el' hsub x hx hbase => absurd hbase (hfresh.bases x (hsub hx))
  rw [excluded_from_lists_eq]
  · simp only [List.reverse_cons, List.reverse_nil, List.nil_append, List.cons_append,
      List.flatten_cons, List.flatten_nil, List.append_nil, List.append_assoc]
  · intro el' hel'
    rw [List.mem_cons, List.mem_cons, List.mem_singleton] at hel'
    rcases hel' with rfl | rfl | rfl
    · exact hbased _ fun x hx => List.mem_append_left _ (List.mem_append_left _ hx)
    · apply Based.append _ hel
      exact hbased _ fun x hx => List.mem_append_left _ (List.mem_append_right _ hx)
    · exact hbased _ fun x hx => List.mem_append_right _ hx

/-- With no files by directory the lists are those that were loaded. -/
theorem excluded_plain (hfresh : Fresh fresh) (hname : fresh.exclude_per_dir = none)
    (p : Bytes) (dt : dtype) :
    ∃ answer, (excluded w fresh p dt).map Prod.fst = some answer ∧
      Decided w fresh p dt answer.1 := by
  have hprep : prep_exclude w fresh p (base_length p) = some fresh := by
    unfold prep_exclude
    rw [hname]
  have hnone : directory_patterns w fresh p (ancestors p) = [] := by
    unfold directory_patterns
    rw [hname]
  have hbased : Based fresh.basebuf p [] := fun x hx => absurd hx List.not_mem_nil
  have hlast := excluded_last_match (w := w) hfresh hbased dt
  rw [List.append_nil] at hlast
  refine ⟨_, by unfold excluded; rw [hprep]; rfl, ancestors p, List.Sublist.refl _,
    fun _ => rfl, ?_⟩
  rw [hnone, List.append_nil]
  exact hlast

/-- With them, the stack is that of the path. -/
theorem excluded_stacked (hfresh : Fresh fresh) {per_dir q : Bytes} {ls : List Nat}
    (hname : fresh.exclude_per_dir = some per_dir) (h : Following w fresh per_dir q ls dir)
    (hchain : ls = [] ∨ Chain (next_dir q) ls)
    (hfits : base_length p + per_dir.length < PATH_MAX) (dt : dtype) :
    (∃ ls answer, grow (next_dir p) (base_length p) (base_length p) [0] = some ls ∧
      (excluded w dir p dt).map Prod.fst = some answer ∧
      answer = excluded_from_lists w (p.take (base_length p)) p (p.drop (base_length p))
        [fresh.EXC_CMDL, fresh.EXC_DIRS ++ directory_patterns w fresh p ls.reverse,
          fresh.EXC_FILE] dt ∧
      Decided w fresh p dt answer.1) ∨
    grow (next_dir p) (base_length p) (base_length p) [0] = none ∧ excluded w dir p dt = none := by
  rcases prep_exclude_spec h hchain hfits with
    ⟨ls', dir', hgrow, hprep, hfollow, hbuf⟩ | ⟨hgrow, hdies⟩
  · left
    obtain ⟨hchain', htop⟩ := grow_spec (next_dir_up p) (next_dir_max p) _ [0] ls' Chain.root
      (Nat.zero_le _) (Nat.le_add_left _ _) hgrow
    have hbased : Based (p.take (base_length p)) p (directory_patterns w fresh p ls'.reverse) := by
      apply directory_patterns_based
      intro l hl
      exact (mem_ancestors.mp ((chain_sublist hchain' htop).mem hl)).1
    refine ⟨ls', _, hgrow, ?_, rfl, ls'.reverse, chain_sublist hchain' htop,
      fun hclean => hclean.chain_eq hchain' htop, excluded_last_match hfresh hbased dt⟩
    unfold excluded
    rw [hprep, Option.map_some, Option.map_some, hfollow.cmdl, hfollow.dirs, hfollow.file, hbuf,
      dirs_list_eq hname]
  · right
    refine ⟨hgrow, ?_⟩
    unfold excluded
    rw [hdies, Option.map_none]

/-- Whatever was asked before, a path that is not too long is answered as if it were the
first: by the last pattern that matches it, of the lists and of its own directories. -/
theorem answers_do_not_depend_on_history (hfresh : Fresh fresh) (h : Queried w fresh dir)
    (hfits : Fits fresh p) (dt : dtype) :
    (excluded w dir p dt).map Prod.fst = (excluded w fresh p dt).map Prod.fst ∧
      (Clean p → excluded w dir p dt ≠ none) ∧
      ∀ answer, (excluded w dir p dt).map Prod.fst = some answer →
        Decided w fresh p dt answer.1 := by
  rcases h.kept hfresh with ⟨hname, rfl⟩ | ⟨per_dir, q, ls, hname, hfollow, hchain⟩
  · obtain ⟨answer, hanswer, hdecided⟩ := excluded_plain (w := w) hfresh hname p dt
    refine ⟨rfl, ?_, ?_⟩
    · intro _ hnone
      rw [hnone] at hanswer
      cases hanswer
    · intro answer' hanswer'
      rw [hanswer] at hanswer'
      obtain rfl := Option.some.inj hanswer'
      exact hdecided
  · have hroom := hfits per_dir hname
    have hfirst : Following w fresh per_dir [] [] fresh :=
      ⟨hname, rfl, rfl, rfl, hfresh.stack, rfl⟩
    rcases excluded_stacked hfresh hname hfollow hchain hroom dt with
      ⟨ls₁, answer, hgrow, hanswer, heq, hdecided⟩ | ⟨hgrow, hnone⟩
    · rcases excluded_stacked hfresh hname hfirst (Or.inl rfl) hroom dt with
        ⟨ls₂, answer', hgrow', hanswer', heq', -⟩ | ⟨hgrow', -⟩
      · rw [hgrow] at hgrow'
        obtain rfl := Option.some.inj hgrow'
        refine ⟨by rw [hanswer, hanswer', heq, heq'], ?_, ?_⟩
        · intro _ hnone
          rw [hnone] at hanswer
          cases hanswer
        · intro answer₁ hanswer₁
          rw [hanswer] at hanswer₁
          obtain rfl := Option.some.inj hanswer₁
          exact hdecided
      · rw [hgrow] at hgrow'
        cases hgrow'
    · rcases excluded_stacked hfresh hname hfirst (Or.inl rfl) hroom dt with
        ⟨ls₂, answer', hgrow', -⟩ | ⟨-, hnone'⟩
      · rw [hgrow] at hgrow'
        cases hgrow'
      · refine ⟨by rw [hnone, hnone'], ?_, ?_⟩
        · intro hclean _
          obtain ⟨ls', hgrown⟩ := hclean.grow_total (base_length p)
          rw [hgrow] at hgrown
          cases hgrown
        · intro answer hanswer
          rw [hnone] at hanswer
          cases hanswer

/-! ## A work tree -/

/-- `.gitignore` -/
def gitignore : Bytes := [46, 103, 105, 116, 105, 103, 110, 111, 114, 101]

/-- `s/.gitignore` says `x`. -/
def one_file : surroundings :=
  { ignore_case := false
    open_file := fun fname => if fname = [115, SLASH] ++ gitignore then .buffer [120] else .missing
    read_skip_worktree_file_from_index := fun _ => none
    get_dtype := fun _ => .DT_REG }

def new_dir : dir_struct :=
  { exclude_per_dir := some gitignore
    EXC_CMDL := []
    EXC_DIRS := []
    EXC_FILE := []
    stack := []
    basebuf := [] }

theorem new_dir_fresh : Fresh new_dir := ⟨rfl, fun _ hx => absurd hx List.not_mem_nil⟩

/-- After the question about `s/y`. -/
def dir_of_s : dir_struct :=
  { new_dir with
    EXC_DIRS := add_exclude [120] .basebuf 2 []
    stack := [⟨2, 0⟩, ⟨0, 0⟩]
    basebuf := [115, SLASH] }

theorem dir_of_s_queried : Queried one_file new_dir dir_of_s := by
  have hcall : excluded one_file new_dir [115, SLASH, 121] .DT_REG =
      some ((false, .DT_REG), dir_of_s) := by rfl
  exact Queried.fresh.call hcall

/-- Then `t/x` is asked about, which the pattern of `s` does not reach. -/
theorem another_directory_is_answered_afresh :
    (excluded one_file dir_of_s [116, SLASH, 120] .DT_REG).map Prod.fst = some (false, .DT_REG) ∧
      (excluded one_file dir_of_s [116, SLASH, 120] .DT_REG).map Prod.fst =
        (excluded one_file new_dir [116, SLASH, 120] .DT_REG).map Prod.fst := by
  refine ⟨by rfl, ?_⟩
  have hfits : Fits new_dir [116, SLASH, 120] := by
    intro per_dir hname
    obtain rfl := Option.some.inj hname
    decide
  exact (answers_do_not_depend_on_history new_dir_fresh dir_of_s_queried hfits .DT_REG).1

/-- `d/d/.../d` -/
def long_dir : Bytes := (List.replicate 2042 [100, SLASH]).flatten ++ [100]

theorem long_dir_length : long_dir.length = 4085 := by
  unfold long_dir
  rw [List.length_append, List.length_flatten, List.map_replicate, List.sum_replicate_nat]
  rfl

/-- It is too long for the name of an exclude file. -/
theorem long_dir_ignored (dir : dir_struct) (hname : dir.exclude_per_dir = some gitignore) :
    prep_exclude one_file dir (long_dir ++ SLASH :: [120])
      (base_length (long_dir ++ SLASH :: [120])) = some dir := by
  have hbase : base_length (long_dir ++ SLASH :: [120]) = 4086 := by
    rw [base_length_append _ (by decide), long_dir_length]
  unfold prep_exclude
  rw [hname, hbase]
  rfl

theorem long_dir_excluded (dir : dir_struct) (hname : dir.exclude_per_dir = some gitignore) :
    (excluded one_file dir (long_dir ++ SLASH :: [120]) .DT_REG).map Prod.fst =
      some (excluded_from_lists one_file dir.basebuf (long_dir ++ SLASH :: [120]) [120]
        [dir.EXC_CMDL, dir.EXC_DIRS, dir.EXC_FILE] .DT_REG) := by
  have hname' : (long_dir ++ SLASH :: [120]).drop (base_length (long_dir ++ SLASH :: [120])) =
      [120] := by
    have hsplit : long_dir ++ SLASH :: [120] = (long_dir ++ [SLASH]) ++ [120] := by
      rw [List.append_assoc]
      rfl
    rw [base_length_append _ (by decide), hsplit]
    exact List.drop_left' (by rw [List.length_append, List.length_singleton])
  unfold excluded
  rw [long_dir_ignored dir hname, hname']
  rfl

/-- `d/d/.../d/x` is shorter than `PATH_MAX`, but is still asked of the patterns of `s`. -/
theorem a_long_path_is_asked_of_another_directory :
    (long_dir ++ SLASH :: [120]).length < PATH_MAX ∧ Fresh new_dir ∧
      Queried one_file new_dir dir_of_s ∧
      (excluded one_file dir_of_s (long_dir ++ SLASH :: [120]) .DT_REG).map Prod.fst =
        some (true, .DT_REG) ∧
      (excluded one_file new_dir (long_dir ++ SLASH :: [120]) .DT_REG).map Prod.fst =
        some (false, .DT_REG) := by
  refine ⟨?_, new_dir_fresh, dir_of_s_queried, ?_, ?_⟩
  · rw [List.length_append, long_dir_length]
    decide
  · rw [long_dir_excluded dir_of_s rfl]
    rfl
  · rw [long_dir_excluded new_dir rfl]
    rfl

end git.dir
