-- The stack of directories is that of the last path that was asked about: what
-- is popped and pushed leaves the patterns of the new path's own directories.
import Git.Exclude
import Git.Lib.ChainStack

namespace git.dir

open compat chain_stack

/-! ## Slashes -/

theorem strchr_slash_some {s : Bytes} {k j : Nat} :
    strchr_slash s k = some j ↔
      k ≤ j ∧ s[j]? = some SLASH ∧ ∀ i, k ≤ i → i < j → s[i]? ≠ some SLASH := by
  unfold strchr_slash
  rw [Option.map_eq_some_iff]
  constructor
  · rintro ⟨i, hfind, rfl⟩
    obtain ⟨hi, hslash, hbefore⟩ := List.findIdx?_eq_some_iff_getElem.mp hfind
    rw [List.length_drop] at hi
    rw [List.getElem_drop, decide_eq_true_eq] at hslash
    refine ⟨Nat.le_add_right k i, ?_, ?_⟩
    · rw [List.getElem?_eq_getElem (by omega), hslash]
    · intro a hka ha hslasha
      have hless : a - k < i := by omega
      apply hbefore (a - k) hless
      rw [List.getElem_drop, decide_eq_true_eq]
      have hlt : a < s.length := by omega
      rw [List.getElem?_eq_getElem hlt] at hslasha
      have hindex : k + (a - k) = a := by omega
      simp only [hindex]
      exact Option.some.inj hslasha
  · rintro ⟨hkj, hslash, hbefore⟩
    obtain ⟨hj, hvalue⟩ := List.getElem?_eq_some_iff.mp hslash
    refine ⟨j - k, ?_, by omega⟩
    rw [List.findIdx?_eq_some_iff_getElem]
    refine ⟨by rw [List.length_drop]; omega, ?_, ?_⟩
    · rw [List.getElem_drop, decide_eq_true_eq]
      have hindex : k + (j - k) = j := by omega
      simp only [hindex]
      exact hvalue
    · intro i hi
      rw [List.getElem_drop, decide_eq_true_eq]
      intro heq
      apply hbefore (k + i) (Nat.le_add_right k i) (by omega)
      rw [List.getElem?_eq_getElem (by omega), heq]

theorem strchr_slash_none {s : Bytes} {k : Nat} :
    strchr_slash s k = none ↔ ∀ i, k ≤ i → s[i]? ≠ some SLASH := by
  constructor
  · intro hnone i hi hslash
    -- the first slash from `k` on would have been found
    obtain ⟨j, hj, hmin⟩ : ∃ j, (k ≤ j ∧ s[j]? = some SLASH) ∧
        ∀ a, k ≤ a → a < j → s[a]? ≠ some SLASH := by
      have hex : ∃ j, k ≤ j ∧ s[j]? = some SLASH := ⟨i, hi, hslash⟩
      classical
      refine ⟨Nat.find hex, Nat.find_spec hex, ?_⟩
      intro a hka ha hslasha
      exact Nat.find_min hex ha ⟨hka, hslasha⟩
    have hfound := strchr_slash_some.mpr ⟨hj.1, hj.2, hmin⟩
    rw [hnone] at hfound
    cases hfound
  · intro hno
    cases hfind : strchr_slash s k with
    | none => rfl
    | some j =>
      obtain ⟨hkj, hslash, -⟩ := strchr_slash_some.mp hfind
      exact absurd hslash (hno j hkj)

theorem base_length_le (p : Bytes) : base_length p ≤ p.length := Nat.sub_le _ _

theorem base_length_none {p : Bytes} (h : SLASH ∉ p) : base_length p = 0 := by
  have hall : (p.reverse.takeWhile fun c => c ≠ SLASH) = p.reverse := by
    rw [List.takeWhile_eq_self_iff]
    intro c hc
    rw [decide_eq_true_eq]
    rintro rfl
    exact h (List.mem_reverse.mp hc)
  unfold base_length
  rw [hall, List.length_reverse, Nat.sub_self]

theorem base_length_append (a : Bytes) {b : Bytes} (h : SLASH ∉ b) :
    base_length (a ++ SLASH :: b) = a.length + 1 := by
  have htail : ((a ++ SLASH :: b).reverse.takeWhile fun c => c ≠ SLASH) = b.reverse := by
    rw [List.reverse_append, List.reverse_cons, List.append_assoc, List.takeWhile_append_of_pos]
    · simp
    · intro c hc
      rw [decide_eq_true_eq]
      rintro rfl
      exact h (List.mem_reverse.mp hc)
  unfold base_length
  rw [htail, List.length_append, List.length_cons, List.length_reverse]
  omega

/-- Behind the last slash. -/
theorem base_split (p : Bytes) :
    (SLASH ∉ p ∧ base_length p = 0) ∨
      ∃ a b, p = a ++ SLASH :: b ∧ SLASH ∉ b ∧ base_length p = a.length + 1 := by
  by_cases hmem : SLASH ∈ p
  · right
    obtain ⟨b, a, hsplit, hb⟩ := List.eq_append_cons_of_mem (List.mem_reverse.mpr hmem)
    have hp : p = a.reverse ++ SLASH :: b.reverse := by
      rw [← List.reverse_reverse p, hsplit, List.reverse_append, List.reverse_cons,
        List.append_assoc]
      rfl
    have hnot : SLASH ∉ b.reverse := fun h => hb (List.mem_reverse.mp h)
    refine ⟨a.reverse, b.reverse, hp, hnot, ?_⟩
    rw [hp]
    exact base_length_append _ hnot
  · exact Or.inl ⟨hmem, base_length_none hmem⟩

/-- All slashes are in the base. -/
theorem slash_in_base {p : Bytes} {j : Nat} (h : p[j]? = some SLASH) : j < base_length p := by
  rcases base_split p with ⟨hno, -⟩ | ⟨a, b, rfl, hb, hlength⟩
  · exact absurd (List.mem_of_getElem? h) hno
  · rw [hlength]
    by_contra hnot
    obtain ⟨i, rfl⟩ : ∃ i, j = a.length + (i + 1) := ⟨j - a.length - 1, by omega⟩
    rw [List.getElem?_append_right (Nat.le_add_right _ _), Nat.add_sub_cancel_left,
      List.getElem?_cons_succ] at h
    exact hb (List.mem_of_getElem? h)

/-- The base ends with a slash. -/
theorem base_ends {p : Bytes} (h : base_length p ≠ 0) :
    p[base_length p - 1]? = some SLASH := by
  rcases base_split p with ⟨-, hzero⟩ | ⟨a, b, hp, -, hlength⟩
  · exact absurd hzero h
  · rw [hlength, Nat.add_sub_cancel, hp, List.getElem?_append_right (le_refl _), Nat.sub_self]
    rfl

/-! ## The chain of directories -/

/-- The next directory of the path, by the length of its part of the path. -/
def next_dir (p : Bytes) (l : Nat) : Option Nat := (strchr_slash p (l + 1)).map (· + 1)

theorem next_dir_some {p : Bytes} {l m : Nat} :
    next_dir p l = some m ↔ ∃ j, m = j + 1 ∧ strchr_slash p (l + 1) = some j := by
  unfold next_dir
  rw [Option.map_eq_some_iff]
  constructor
  · rintro ⟨j, hj, rfl⟩
    exact ⟨j, rfl, hj⟩
  · rintro ⟨j, rfl, hj⟩
    exact ⟨j, hj, rfl⟩

theorem next_dir_up (p : Bytes) : ∀ l m, next_dir p l = some m → l < m := by
  intro l m h
  obtain ⟨j, rfl, hj⟩ := next_dir_some.mp h
  obtain ⟨hlj, -, -⟩ := strchr_slash_some.mp hj
  omega

theorem next_dir_max (p : Bytes) :
    ∀ l m, l < base_length p → next_dir p l = some m → m ≤ base_length p := by
  intro l m _ h
  obtain ⟨j, rfl, hj⟩ := next_dir_some.mp h
  exact slash_in_base (strchr_slash_some.mp hj).2.1

/-- Paths that begin alike have the same directories there. -/
theorem next_dir_congr {p q : Bytes} {k : Nat} (h : q.take k = p.take k) :
    ∀ l m, next_dir q l = some m → m ≤ k → next_dir p l = some m := by
  intro l m hnext hm
  obtain ⟨j, rfl, hj⟩ := next_dir_some.mp hnext
  obtain ⟨hlj, hslash, hbefore⟩ := strchr_slash_some.mp hj
  have hsame : ∀ i, i < k → q[i]? = p[i]? := by
    intro i hi
    have hget := congrArg (fun s => s[i]?) h
    simp only [List.getElem?_take, if_pos hi] at hget
    exact hget
  refine next_dir_some.mpr ⟨j, rfl, strchr_slash_some.mpr ⟨hlj, ?_, ?_⟩⟩
  · rw [← hsame j hm]
    exact hslash
  · intro i hi hij
    rw [← hsame i (by omega)]
    exact hbefore i hi hij

/-! ## The patterns of a chain -/

theorem add_exclude_append (string : Bytes) (base : base_pointer) (baselen : Nat)
    (which : List exclude) :
    add_exclude string base baselen which = which ++ add_exclude string base baselen [] := rfl

theorem add_entries_append (base : base_pointer) (baselen : Nat) (buf : Bytes) :
    ∀ (entry : Bytes) (which : List exclude),
      add_entries base baselen entry buf which = which ++ add_entries base baselen entry buf [] := by
  induction buf with
  | nil => exact fun _ which => (List.append_nil which).symm
  | cons c buf ih =>
    intro entry which
    rw [add_entries, add_entries]
    by_cases hend : c = NEWLINE
    · rw [if_pos hend, if_pos hend]
      by_cases hentry : entry ≠ [] ∧ entry.head? ≠ some HASH
      · rw [if_pos hentry, if_pos hentry]
        simp only
        rw [ih [] (add_exclude _ base baselen which), ih [] (add_exclude _ base baselen []),
          add_exclude_append _ base baselen which, List.append_assoc]
      · rw [if_neg hentry, if_neg hentry]
        exact ih [] which
    · rw [if_neg hend, if_neg hend]
      exact ih (entry ++ [c]) which

/-- The patterns of one file. -/
def file_patterns (w : surroundings) (fname : Bytes) (base : base_pointer) (baselen : Nat) :
    List exclude :=
  (add_excludes_from_file_to_list w fname base baselen [] true).getD []

theorem add_excludes_append (w : surroundings) (fname : Bytes) (base : base_pointer) (baselen : Nat)
    (which : List exclude) :
    (add_excludes_from_file_to_list w fname base baselen which true).getD which =
      which ++ file_patterns w fname base baselen := by
  unfold file_patterns add_excludes_from_file_to_list
  cases w.open_file fname with
  | missing =>
    simp only [if_true]
    cases w.read_skip_worktree_file_from_index fname with
    | none => exact (List.append_nil which).symm
    | some buf =>
      simp only [Option.map_some, Option.getD_some]
      by_cases hbuf : buf = []
      · rw [if_pos hbuf, if_pos hbuf, List.append_nil]
      · rw [if_neg hbuf, if_neg hbuf]
        exact add_entries_append _ _ _ _ _
  | unreadable => exact (List.append_nil which).symm
  | buffer buf =>
    simp only
    by_cases hbuf : buf = []
    · rw [if_pos hbuf, if_pos hbuf]
      exact (List.append_nil which).symm
    · rw [if_neg hbuf, if_neg hbuf]
      exact add_entries_append _ _ _ _ _

/-- The list behind the patterns `pre`, for a stack with these directories of `p`. -/
def dirs_list (w : surroundings) (per_dir p : Bytes) (pre : List exclude) : List Nat → List exclude
  | [] => pre
  | l :: ls => dirs_list w per_dir p pre ls ++ file_patterns w (p.take l ++ per_dir) .basebuf l

def dirs_stack (w : surroundings) (per_dir p : Bytes) (pre : List exclude) :
    List Nat → List exclude_stack
  | [] => []
  | l :: ls => ⟨l, (dirs_list w per_dir p pre ls).length⟩ :: dirs_stack w per_dir p pre ls

theorem dirs_congr (w : surroundings) (per_dir : Bytes) (pre : List exclude) {p q : Bytes}
    {ls : List Nat} (h : ∀ l ∈ ls, q.take l = p.take l) :
    dirs_list w per_dir q pre ls = dirs_list w per_dir p pre ls ∧
      dirs_stack w per_dir q pre ls = dirs_stack w per_dir p pre ls := by
  induction ls with
  | nil => exact ⟨rfl, rfl⟩
  | cons l ls ih =>
    obtain ⟨hlist, hstack⟩ := ih fun k hk => h k (List.mem_cons_of_mem l hk)
    rw [dirs_list, dirs_list, dirs_stack, dirs_stack, hlist, hstack, h l List.mem_cons_self]
    exact ⟨rfl, rfl⟩

/-- Popping leaves what both paths begin with. -/
theorem pop_excludes_spec (w : surroundings) (per_dir : Bytes) (pre : List exclude)
    (q base : Bytes) (baselen : Nat) (basebuf : Bytes) (ls : List Nat) :
    ∃ ls', ls' <:+ ls ∧
      pop_excludes base baselen basebuf (dirs_stack w per_dir q pre ls)
          (dirs_list w per_dir q pre ls) =
        (dirs_stack w per_dir q pre ls', dirs_list w per_dir q pre ls') ∧
      ∀ l ∈ ls'.head?, l ≤ baselen ∧ basebuf.take l = base.take l := by
  induction ls with
  | nil => exact ⟨[], List.suffix_rfl, rfl, fun l hl => by cases hl⟩
  | cons l ls ih =>
    rw [dirs_stack, pop_excludes]
    by_cases hkeep : l ≤ baselen ∧ basebuf.take l = base.take l
    · refine ⟨l :: ls, List.suffix_rfl, ?_, ?_⟩
      · rw [if_pos hkeep, dirs_stack]
      · intro k hk
        obtain rfl : l = k := Option.some.inj hk
        exact hkeep
    · obtain ⟨ls', hsuffix, hpop, hhead⟩ := ih
      refine ⟨ls', hsuffix.trans (List.suffix_cons l ls), ?_, hhead⟩
      rw [if_neg hkeep, dirs_list, List.take_left, hpop]

/-! ## Following a path -/

/-- The stack holds directories of `p`, over what `fresh` began with. -/
structure Following (w : surroundings) (fresh : dir_struct) (per_dir p : Bytes) (ls : List Nat)
    (dir : dir_struct) : Prop where
  name : dir.exclude_per_dir = some per_dir
  cmdl : dir.EXC_CMDL = fresh.EXC_CMDL
  file : dir.EXC_FILE = fresh.EXC_FILE
  dirs : dir.EXC_DIRS = dirs_list w per_dir p fresh.EXC_DIRS ls
  stack : dir.stack = dirs_stack w per_dir p fresh.EXC_DIRS ls
  basebuf : dir.basebuf.take (ls.headD 0) = p.take (ls.headD 0)

variable {w : surroundings} {fresh : dir_struct} {per_dir p : Bytes}

theorem Following.push {ls : List Nat} {dir : dir_struct}
    (h : Following w fresh per_dir p ls dir) {m : Nat} (hm : ls.headD 0 ≤ m) (hp : m ≤ p.length) :
    Following w fresh per_dir p (m :: ls) (push_exclude w per_dir p (ls.headD 0) m dir) := by
  have hname : dir.basebuf.take (ls.headD 0) ++ (p.take m).drop (ls.headD 0) ++ per_dir =
      p.take m ++ per_dir := by
    have htake : p.take (ls.headD 0) = (p.take m).take (ls.headD 0) := by
      rw [List.take_take, Nat.min_eq_left hm]
    rw [h.basebuf, htake, List.take_append_drop]
  refine ⟨h.name, h.cmdl, h.file, ?_, ?_, ?_⟩
  · unfold push_exclude
    simp only
    rw [hname, h.dirs, add_excludes_append, dirs_list]
  · unfold push_exclude
    simp only
    rw [h.dirs, h.stack, dirs_stack]
  · unfold push_exclude
    simp only
    rw [hname, List.headD_cons, List.take_append_of_le_length]
    · rw [List.take_take, Nat.min_self]
    · rw [List.length_take]
      exact le_min (le_refl _) hp

/-- The outcome is that of growing the chain. -/
theorem push_excludes_spec (fuel : Nat) :
    ∀ (ls : List Nat) (dir : dir_struct), ls ≠ [] → ls.headD 0 ≤ base_length p →
      Following w fresh per_dir p ls dir →
      (∃ ls' dir', grow (next_dir p) (base_length p) fuel ls = some ls' ∧
        push_excludes w per_dir p (base_length p) fuel dir = some dir' ∧
        Following w fresh per_dir p ls' dir') ∨
      grow (next_dir p) (base_length p) fuel ls = none ∧
        push_excludes w per_dir p (base_length p) fuel dir = none := by
  induction fuel with
  | zero =>
    intro ls dir _ _ h
    refine Or.inl ⟨ls, dir, rfl, ?_, h⟩
    unfold push_excludes
    rfl
  | succ fuel ih =>
    intro ls dir hne htop h
    obtain ⟨l, below, rfl⟩ := List.exists_cons_of_ne_nil hne
    have hstack := h.stack
    rw [dirs_stack] at hstack
    rw [List.headD_cons] at htop
    rw [grow_cons, push_excludes, hstack]
    simp only
    by_cases hdone : base_length p ≤ l
    · rw [if_pos hdone, if_pos hdone]
      exact Or.inl ⟨_, _, rfl, rfl, h⟩
    · rw [if_neg hdone, if_neg hdone]
      unfold next_dir
      cases hslash : strchr_slash p (l + 1) with
      | none => exact Or.inr ⟨rfl, rfl⟩
      | some j =>
        have hnext : next_dir p l = some (j + 1) := next_dir_some.mpr ⟨j, rfl, hslash⟩
        have hup := next_dir_up p l _ hnext
        have hmax := next_dir_max p l _ (not_le.mp hdone) hnext
        have hpush := h.push hup.le (hmax.trans (base_length_le p))
        exact ih ((j + 1) :: l :: below) _ (List.cons_ne_nil _ _) hmax hpush

/-- The path is short enough for the name of its exclude file. -/
def Fits (dir : dir_struct) (p : Bytes) : Prop :=
  ∀ per_dir ∈ dir.exclude_per_dir, base_length p + per_dir.length < PATH_MAX

/-- After any path, what is prepared for `p` is what is prepared for it from the start. -/
theorem prep_exclude_spec {q : Bytes} {ls : List Nat} {dir : dir_struct}
    (h : Following w fresh per_dir q ls dir) (hchain : ls = [] ∨ Chain (next_dir q) ls)
    (hfits : base_length p + per_dir.length < PATH_MAX) :
    (∃ ls' dir', grow (next_dir p) (base_length p) (base_length p) [0] = some ls' ∧
      prep_exclude w dir p (base_length p) = some dir' ∧
      Following w fresh per_dir p ls' dir' ∧ dir'.basebuf = p.take (base_length p)) ∨
    grow (next_dir p) (base_length p) (base_length p) [0] = none ∧
      prep_exclude w dir p (base_length p) = none := by
  obtain ⟨kept, hsuffix, hpop, hhead⟩ := pop_excludes_spec w per_dir fresh.EXC_DIRS q p
    (base_length p) dir.basebuf ls
  have hprep : prep_exclude w dir p (base_length p) =
      (push_excludes w per_dir p (base_length p) (base_length p + 2)
          { dir with
            EXC_DIRS := dirs_list w per_dir q fresh.EXC_DIRS kept
            stack := dirs_stack w per_dir q fresh.EXC_DIRS kept }).map fun dir =>
        { dir with basebuf := dir.basebuf.take (base_length p) } := by
    unfold prep_exclude
    rw [h.name]
    simp only
    rw [if_neg (not_le.mpr hfits), h.dirs, h.stack, hpop]
  rw [hprep]
  -- what is kept follows the new path
  have hkept : kept = [] ∨ Chain (next_dir p) kept ∧ kept.headD 0 ≤ base_length p ∧
      dir.basebuf.take (kept.headD 0) = p.take (kept.headD 0) ∧ ∀ l ∈ kept, q.take l = p.take l := by
    cases hk : kept with
    | nil => exact Or.inl rfl
    | cons l below =>
      right
      rw [hk] at hsuffix hhead
      obtain ⟨hl, hbase⟩ := hhead l rfl
      have hne : ls ≠ [] := by
        rintro rfl
        exact absurd (List.suffix_nil.mp hsuffix) (List.cons_ne_nil l below)
      have hold := hchain.resolve_left hne
      have hbelow := hold.of_suffix _ hsuffix (List.cons_ne_nil l below)
      have htop : l ≤ ls.headD 0 := hold.le_top (next_dir_up q) l (hsuffix.mem List.mem_cons_self)
      have hagree : q.take l = p.take l := by
        rw [← hbase, ← Nat.min_eq_left htop, ← List.take_take, ← List.take_take, h.basebuf]
      refine ⟨hbelow.congr (next_dir_up q) (next_dir_congr hagree), hl, hbase, ?_⟩
      intro k hkmem
      have hkl : k ≤ l := hbelow.le_top (next_dir_up q) k hkmem
      rw [← Nat.min_eq_left hkl, ← List.take_take, ← List.take_take, hagree]
  -- so it is grown from there
  have hgrown : ∀ (fuel : Nat) (ls₁ : List Nat) (dir₁ : dir_struct), Chain (next_dir p) ls₁ →
      ls₁.headD 0 ≤ base_length p → base_length p ≤ ls₁.headD 0 + fuel →
      Following w fresh per_dir p ls₁ dir₁ →
      (∃ ls' dir', grow (next_dir p) (base_length p) (base_length p) [0] = some ls' ∧
        (push_excludes w per_dir p (base_length p) fuel dir₁).map (fun dir =>
          { dir with basebuf := dir.basebuf.take (base_length p) }) = some dir' ∧
        Following w fresh per_dir p ls' dir' ∧ dir'.basebuf = p.take (base_length p)) ∨
      grow (next_dir p) (base_length p) (base_length p) [0] = none ∧
        (push_excludes w per_dir p (base_length p) fuel dir₁).map (fun dir =>
          { dir with basebuf := dir.basebuf.take (base_length p) }) = none := by
    intro fuel ls₁ dir₁ hc htop hfuel hfollow
    have hsame := grow_chain (next_dir_up p) hc htop hfuel (le_refl (base_length p))
    rcases push_excludes_spec fuel ls₁ dir₁ hc.ne_nil htop hfollow with
      ⟨ls', dir', hgrow, hpush, hfollow'⟩ | ⟨hgrow, hpush⟩
    · left
      obtain ⟨-, hhead'⟩ := grow_spec (next_dir_up p) (next_dir_max p) fuel ls₁ ls' hc htop hfuel hgrow
      have hbuf := hfollow'.basebuf
      rw [hhead'] at hbuf
      refine ⟨ls', _, by rw [← hsame, hgrow], by rw [hpush, Option.map_some], ?_, hbuf⟩
      refine ⟨hfollow'.name, hfollow'.cmdl, hfollow'.file, hfollow'.dirs, hfollow'.stack, ?_⟩
      simp only
      rw [hhead', hbuf, List.take_take, Nat.min_self]
    · right
      rw [← hsame, hgrow, hpush]
      exact ⟨rfl, rfl⟩
  rcases hkept with hnil | ⟨hc, htop, hbase, hagree⟩
  · have hroot : Following w fresh per_dir p []
        { dir with
          EXC_DIRS := dirs_list w per_dir q fresh.EXC_DIRS kept
          stack := dirs_stack w per_dir q fresh.EXC_DIRS kept } := by
      rw [hnil]
      exact ⟨h.name, h.cmdl, h.file, rfl, rfl, rfl⟩
    have hpush := hroot.push (le_refl 0) (Nat.zero_le p.length)
    have hturn : push_excludes w per_dir p (base_length p) (base_length p + 2)
          { dir with
            EXC_DIRS := dirs_list w per_dir q fresh.EXC_DIRS kept
            stack := dirs_stack w per_dir q fresh.EXC_DIRS kept } =
        push_excludes w per_dir p (base_length p) (base_length p + 1)
          (push_exclude w per_dir p 0 0
            { dir with
              EXC_DIRS := dirs_list w per_dir q fresh.EXC_DIRS kept
              stack := dirs_stack w per_dir q fresh.EXC_DIRS kept }) := by
      rw [push_excludes, hnil]
      rfl
    rw [hturn]
    exact hgrown _ [0] _ Chain.root (Nat.zero_le _) (by rw [List.headD_cons]; omega) hpush
  · obtain ⟨hlist, hstack⟩ := dirs_congr w per_dir fresh.EXC_DIRS hagree
    exact hgrown _ kept _ hc htop (by omega) ⟨h.name, h.cmdl, h.file, hlist, hstack, hbase⟩

end git.dir
