-- Paths relative to a directory: `path_relative` of `quote.c`. What it gives is read from the
-- directory as the path that it was given.
import Git.CacheTree

namespace git.quote

/-! ## The function -/

/-- `while (i < prefix_len && i < len && prefix[i] == in[i])`: the last values of `i` and `off`. -/
def shared_part : (directory path : Bytes) → (i off : Nat) → Nat × Nat
  | p :: directory, c :: path, i, off =>
    if p = c then shared_part directory path (i + 1) (if p = SLASH then i + 1 else off)
    else (i, off)
  | _, _, i, off => (i, off)

/-- `"../"` -/
def UP : Bytes := [46, 46, SLASH]

def path_relative (path directory : Bytes) : Bytes :=
  let (i, off) := shared_part directory path 0 0
  if directory.length ≤ i then path.drop off
  else ((directory.drop i).filter (· = SLASH)).flatMap (fun _ => UP) ++ path.drop off

/-! ## Paths -/

def DOT : Bytes := [46]
def DOTDOT : Bytes := [46, 46]

/-- A component of a normalized path. -/
structure Component (name : Bytes) : Prop where
  nonempty : name ≠ []
  slash : SLASH ∉ name
  dot : name ≠ DOT
  dotdot : name ≠ DOTDOT

/-- The path of a directory, with a slash at its end. -/
def dir_path (dirs : List Bytes) : Bytes := dirs.flatMap fun dir => dir ++ [SLASH]

/-- A normalized path: directories, and a name unless it is the path of a directory. -/
structure Normalized (dirs : List Bytes) (last : Bytes) : Prop where
  dirs : ∀ dir ∈ dirs, Component dir
  last : last = [] ∨ Component last

/-- What a path means from a directory, by its components: `..` is the directory above. -/
def resolve (dirs : List Bytes) : List Bytes → Option Bytes
  | [] => some (dir_path dirs)
  | name :: rest =>
    if name = DOTDOT then if dirs = [] then none else resolve dirs.dropLast rest
    else if name = DOT then resolve dirs rest
    else
      match rest with
      | [] => some (dir_path dirs ++ name)
      | next :: rest => resolve (dirs ++ [name]) (next :: rest)

/-- How many components at the start of two lists are the same. -/
def shared_dirs : List Bytes → List Bytes → Nat
  | a :: as, b :: bs => if a = b then shared_dirs as bs + 1 else 0
  | _, _ => 0

/-- How many components `..` a path starts with. -/
def ups (path : Bytes) : Nat := ((components path).takeWhile (· = DOTDOT)).length

/-! ## The shared part -/

theorem shared_part_same (dir : Bytes) (hdir : SLASH ∉ dir) (directory path : Bytes) (i off : Nat) :
    shared_part (dir ++ SLASH :: directory) (dir ++ SLASH :: path) i off =
      shared_part directory path (i + dir.length + 1) (i + dir.length + 1) := by
  induction dir generalizing i off with
  | nil =>
    rw [List.nil_append, List.nil_append, shared_part, if_pos rfl, if_pos rfl]
    rfl
  | cons c dir ih =>
    rw [List.mem_cons, not_or] at hdir
    rw [List.cons_append, List.cons_append, shared_part, if_pos rfl, if_neg (Ne.symm hdir.1),
      ih hdir.2, List.length_cons]
    congr 1 <;> omega

/-- The loop stops inside of a component that is not shared. -/
theorem shared_part_other (dir : Bytes) (hdir : SLASH ∉ dir) (directory : Bytes) {path : Bytes}
    (hpath : ¬ (dir ++ [SLASH]) <+: path) (i off : Nat) :
    ∃ j ≤ dir.length, shared_part (dir ++ SLASH :: directory) path i off = (i + j, off) := by
  induction dir generalizing i path with
  | nil =>
    refine ⟨0, Nat.le_refl _, ?_⟩
    cases path with
    | nil => rfl
    | cons c path =>
      have hne : SLASH ≠ c := by
        rintro rfl
        exact hpath ⟨path, rfl⟩
      rw [List.nil_append, shared_part, if_neg hne]
      rfl
  | cons c dir ih =>
    rw [List.mem_cons, not_or] at hdir
    cases path with
    | nil => exact ⟨0, Nat.zero_le _, rfl⟩
    | cons d path =>
      by_cases hcd : c = d
      · subst hcd
        have hpath' : ¬ (dir ++ [SLASH]) <+: path := by
          intro h
          apply hpath
          rw [List.cons_append, List.cons_prefix_cons]
          exact ⟨rfl, h⟩
        obtain ⟨j, hj, hrun⟩ := ih hdir.2 hpath' (i + 1)
        refine ⟨j + 1, by rw [List.length_cons]; omega, ?_⟩
        rw [List.cons_append, shared_part, if_pos rfl, if_neg (Ne.symm hdir.1), hrun]
        congr 1
        omega
      · refine ⟨0, Nat.zero_le _, ?_⟩
        rw [List.cons_append, shared_part, if_neg hcd]
        rfl

@[simp] theorem dir_path_nil : dir_path [] = [] := rfl

@[simp] theorem dir_path_cons (dir : Bytes) (dirs : List Bytes) :
    dir_path (dir :: dirs) = dir ++ SLASH :: dir_path dirs := by
  simp [dir_path]

theorem dir_path_append (dirs more : List Bytes) :
    dir_path (dirs ++ more) = dir_path dirs ++ dir_path more := by
  simp [dir_path]

/-- A path that starts with a directory has it as its first one. -/
theorem first_dir {dir : Bytes} (hdir : SLASH ∉ dir) {dirs : List Bytes} {last : Bytes}
    (h : Normalized dirs last) (hstart : (dir ++ [SLASH]) <+: dir_path dirs ++ last) :
    ∃ rest, dirs = dir :: rest := by
  obtain ⟨t, ht⟩ := hstart
  rw [List.append_assoc, List.singleton_append] at ht
  cases dirs with
  | nil =>
    rw [dir_path_nil, List.nil_append] at ht
    have hmem : SLASH ∈ last := by rw [← ht]; simp
    rcases h.last with rfl | hlast
    · cases hmem
    · exact absurd hmem hlast.slash
  | cons e dirs =>
    refine ⟨dirs, ?_⟩
    have he := (h.dirs e List.mem_cons_self).slash
    rw [dir_path_cons, List.append_assoc, List.cons_append] at ht
    have hcomp := congrArg components ht
    rw [components_append _ _ hdir, components_append _ _ he] at hcomp
    rw [(List.cons.inj hcomp).1]

/-- The slashes of a directory's path are its components. -/
theorem count_slashes {dirs : List Bytes} (h : ∀ dir ∈ dirs, SLASH ∉ dir) :
    (dir_path dirs).filter (· = SLASH) = List.replicate dirs.length SLASH := by
  induction dirs with
  | nil => rfl
  | cons dir dirs ih =>
    have hdir : dir.filter (fun c => decide (c = SLASH)) = [] := by
      rw [List.filter_eq_nil_iff]
      intro c hc heq
      exact h dir List.mem_cons_self (of_decide_eq_true heq ▸ hc)
    rw [dir_path_cons, List.filter_append, hdir, List.nil_append, List.filter_cons_of_pos (by simp),
      ih fun d hd => h d (List.mem_cons_of_mem _ hd)]
    rfl

/-- The loop stops behind the shared directories, and the slashes from there on belong to the
others. -/
theorem shared_part_spec {pdirs : List Bytes} (hpdirs : ∀ dir ∈ pdirs, Component dir)
    {dirs : List Bytes} {last : Bytes} (h : Normalized dirs last) (base : Nat) :
    ∃ j, shared_part (dir_path pdirs) (dir_path dirs ++ last) base base =
        (base + (dir_path (pdirs.take (shared_dirs pdirs dirs))).length + j,
          base + (dir_path (pdirs.take (shared_dirs pdirs dirs))).length) ∧
      ((dir_path pdirs).drop ((dir_path (pdirs.take (shared_dirs pdirs dirs))).length + j)).filter
          (· = SLASH) = List.replicate (pdirs.length - shared_dirs pdirs dirs) SLASH ∧
      (dir_path dirs ++ last).drop (dir_path (pdirs.take (shared_dirs pdirs dirs))).length =
        dir_path (dirs.drop (shared_dirs pdirs dirs)) ++ last := by
  induction pdirs generalizing dirs base with
  | nil => exact ⟨0, by cases dirs <;> simp [shared_part, shared_dirs]⟩
  | cons dir pdirs ih =>
    have hdir := hpdirs dir List.mem_cons_self
    have hrest : ∀ d ∈ pdirs, Component d := fun d hd => hpdirs d (List.mem_cons_of_mem _ hd)
    by_cases hfirst : ∃ rest, dirs = dir :: rest
    · obtain ⟨rest, rfl⟩ := hfirst
      have h' : Normalized rest last := ⟨fun d hd => h.dirs d (List.mem_cons_of_mem _ hd), h.last⟩
      obtain ⟨j, hrun, hslashes, hdrop⟩ := ih hrest h' (base + dir.length + 1)
      have hone : shared_dirs (dir :: pdirs) (dir :: rest) = shared_dirs pdirs rest + 1 := by
        rw [shared_dirs, if_pos rfl]
      have hlen : ∀ k, (dir_path ((dir :: pdirs).take (k + 1))).length =
          dir.length + 1 + (dir_path (pdirs.take k)).length := by
        intro k
        rw [List.take_succ_cons, dir_path_cons, List.length_append, List.length_cons]
        omega
      refine ⟨j, ?_, ?_, ?_⟩
      · rw [dir_path_cons, dir_path_cons, List.append_assoc, List.cons_append,
          shared_part_same dir hdir.slash, hrun, hone, hlen]
        congr 1 <;> omega
      · rw [hone, hlen, dir_path_cons, List.length_cons, Nat.add_sub_add_right, ← hslashes]
        congr 1
        rw [show dir.length + 1 + (dir_path (pdirs.take (shared_dirs pdirs rest))).length + j =
          dir.length + (1 + ((dir_path (pdirs.take (shared_dirs pdirs rest))).length + j)) by omega,
          ← List.drop_drop, List.drop_left, ← List.drop_drop]
        rfl
      · rw [hone, hlen, dir_path_cons, List.append_assoc, List.cons_append, List.drop_succ_cons,
          ← hdrop, Nat.add_assoc, ← List.drop_drop, List.drop_left, ← List.drop_drop]
        rfl
    · have hstart : ¬ (dir ++ [SLASH]) <+: dir_path dirs ++ last :=
        fun hstart => hfirst (first_dir hdir.slash h hstart)
      obtain ⟨j, hj, hrun⟩ := shared_part_other dir hdir.slash (dir_path pdirs) hstart base base
      have hzero : shared_dirs (dir :: pdirs) dirs = 0 := by
        cases dirs with
        | nil => rfl
        | cons e dirs =>
          rw [shared_dirs, if_neg]
          rintro rfl
          exact hfirst ⟨dirs, rfl⟩
      refine ⟨j, ?_, ?_, ?_⟩
      · rw [hzero, dir_path_cons, hrun]
        rfl
      · have hslashes := count_slashes fun d hd => (hrest d hd).slash
        have hnone : (dir.drop j).filter (fun c => decide (c = SLASH)) = [] := by
          rw [List.filter_eq_nil_iff]
          intro c hc heq
          exact hdir.slash (of_decide_eq_true heq ▸ List.mem_of_mem_drop hc)
        rw [hzero, List.take_zero, dir_path_nil, List.length_nil, Nat.zero_add, dir_path_cons,
          List.drop_append_of_le_length hj, List.filter_append, hnone, List.nil_append,
          List.filter_cons_of_pos (by simp), hslashes]
        rfl
      · rw [hzero]
        rfl

theorem shared_dirs_le (pdirs dirs : List Bytes) : shared_dirs pdirs dirs ≤ pdirs.length := by
  induction pdirs generalizing dirs with
  | nil => cases dirs <;> exact Nat.le_refl _
  | cons dir pdirs ih =>
    cases dirs with
    | nil => exact Nat.zero_le _
    | cons e dirs =>
      rw [shared_dirs]
      split
      · exact Nat.succ_le_succ (ih dirs)
      · exact Nat.zero_le _

theorem take_shared_dirs (pdirs dirs : List Bytes) :
    pdirs.take (shared_dirs pdirs dirs) = dirs.take (shared_dirs pdirs dirs) := by
  induction pdirs generalizing dirs with
  | nil => cases dirs <;> rfl
  | cons dir pdirs ih =>
    cases dirs with
    | nil => rfl
    | cons e dirs =>
      rw [shared_dirs]
      split
      next h => rw [List.take_succ_cons, List.take_succ_cons, ih, h]
      next => rfl

/-! ## Components -/

theorem components_dir_path {names : List Bytes} (hnames : ∀ name ∈ names, SLASH ∉ name)
    {last : Bytes} (hlast : SLASH ∉ last) :
    components (dir_path names ++ last) = names ++ [last] := by
  induction names with
  | nil => exact components_of_no_slash hlast
  | cons name names ih =>
    rw [dir_path_cons, List.append_assoc, List.cons_append,
      components_append _ _ (hnames name List.mem_cons_self),
      ih fun n hn => hnames n (List.mem_cons_of_mem _ hn)]
    rfl

theorem Normalized.last_plain {dirs : List Bytes} {last : Bytes} (h : Normalized dirs last) :
    SLASH ∉ last ∧ last ≠ DOT ∧ last ≠ DOTDOT := by
  rcases h.last with rfl | hlast
  · exact ⟨List.not_mem_nil, by decide, by decide⟩
  · exact ⟨hlast.slash, hlast.dot, hlast.dotdot⟩

/-- Going up. -/
theorem resolve_up (rest : List Bytes) (m : Nat) :
    ∀ {dirs : List Bytes}, m ≤ dirs.length →
      resolve dirs (List.replicate m DOTDOT ++ rest) =
        resolve (dirs.take (dirs.length - m)) rest := by
  induction m with
  | zero =>
    intro dirs _
    rw [Nat.sub_zero, List.take_length]
    rfl
  | succ m ih =>
    intro dirs hm
    have hne : dirs ≠ [] := by
      rintro rfl
      exact absurd hm (Nat.not_succ_le_zero m)
    have hlen : dirs.dropLast.length = dirs.length - 1 := List.length_dropLast
    rw [List.replicate_succ, List.cons_append, resolve.eq_def]
    simp only
    rw [if_pos trivial, if_neg hne, ih (by omega), hlen, List.dropLast_eq_take, List.take_take]
    congr 2
    omega

/-- Going down. -/
theorem resolve_down {names : List Bytes} (hnames : ∀ name ∈ names, Component name) {last : Bytes}
    (hdot : last ≠ DOT) (hdotdot : last ≠ DOTDOT) (dirs : List Bytes) :
    resolve dirs (names ++ [last]) = some (dir_path (dirs ++ names) ++ last) := by
  induction names generalizing dirs with
  | nil => rw [List.nil_append, resolve, if_neg hdotdot, if_neg hdot, List.append_nil]
  | cons name names ih =>
    have hname := hnames name List.mem_cons_self
    obtain ⟨next, rest, hrest⟩ : ∃ next rest, names ++ [last] = next :: rest :=
      List.exists_cons_of_ne_nil (by simp)
    have hdown := ih (fun n hn => hnames n (List.mem_cons_of_mem _ hn)) (dirs ++ [name])
    rw [List.cons_append, resolve.eq_def, hrest]
    simp only
    rw [if_neg hname.dotdot, if_neg hname.dot, ← hrest, hdown, List.append_assoc]
    rfl

/-! ## Results -/

/-- The components to go up by, and the rest of the path. -/
theorem path_relative_eq {pdirs : List Bytes} (hpdirs : ∀ dir ∈ pdirs, Component dir)
    {dirs : List Bytes} {last : Bytes} (h : Normalized dirs last) :
    path_relative (dir_path dirs ++ last) (dir_path pdirs) =
      dir_path (List.replicate (pdirs.length - shared_dirs pdirs dirs) DOTDOT ++
        dirs.drop (shared_dirs pdirs dirs)) ++ last := by
  obtain ⟨j, hrun, hslashes, hdrop⟩ := shared_part_spec hpdirs h 0
  have hups : ∀ n, (List.replicate n SLASH).flatMap (fun _ => UP) =
      dir_path (List.replicate n DOTDOT) := by
    intro n
    induction n with
    | zero => rfl
    | succ n ih =>
      rw [List.replicate_succ, List.flatMap_cons, ih, List.replicate_succ, dir_path_cons]
      rfl
  rw [Nat.zero_add] at hrun
  unfold path_relative
  rw [hrun, dir_path_append, List.append_assoc, ← hups, ← hslashes, ← hdrop]
  simp only
  split
  next hend =>
    rw [List.drop_eq_nil_of_le hend]
    rfl
  next => rfl

/-- From the directory, the relative path leads to the path, and it goes up by the directories
that are not shared. -/
theorem path_relative_resolves {pdirs dirs : List Bytes} {last : Bytes}
    (hpdirs : ∀ dir ∈ pdirs, Component dir) (h : Normalized dirs last) :
    resolve pdirs (components (path_relative (dir_path dirs ++ last) (dir_path pdirs))) =
        some (dir_path dirs ++ last) ∧
      ups (path_relative (dir_path dirs ++ last) (dir_path pdirs)) =
        pdirs.length - shared_dirs pdirs dirs := by
  obtain ⟨hslash, hdot, hdotdot⟩ := h.last_plain
  have hle := shared_dirs_le pdirs dirs
  have hrest : ∀ name ∈ dirs.drop (shared_dirs pdirs dirs), Component name :=
    fun name hname => h.dirs name (List.mem_of_mem_drop hname)
  have hnames : ∀ name ∈ List.replicate (pdirs.length - shared_dirs pdirs dirs) DOTDOT ++
      dirs.drop (shared_dirs pdirs dirs), SLASH ∉ name := by
    intro name hname
    rcases List.mem_append.mp hname with hname | hname
    · rw [List.eq_of_mem_replicate hname]
      decide
    · exact (hrest name hname).slash
  have hcomponents : components (path_relative (dir_path dirs ++ last) (dir_path pdirs)) =
      List.replicate (pdirs.length - shared_dirs pdirs dirs) DOTDOT ++
        (dirs.drop (shared_dirs pdirs dirs) ++ [last]) := by
    rw [path_relative_eq hpdirs h, components_dir_path hnames hslash, List.append_assoc]
  constructor
  · rw [hcomponents, resolve_up _ _ (Nat.sub_le _ _), Nat.sub_sub_self hle,
      resolve_down hrest hdot hdotdot, take_shared_dirs, List.take_append_drop]
  · have hstop : (dirs.drop (shared_dirs pdirs dirs) ++ [last]).takeWhile
        (fun name => decide (name = DOTDOT)) = [] := by
      cases hcases : dirs.drop (shared_dirs pdirs dirs) with
      | nil => simp [hdotdot]
      | cons name names =>
        have hname := (hrest name (by rw [hcases]; exact List.mem_cons_self)).dotdot
        simp [hname]
    have hall : ∀ name ∈ List.replicate (pdirs.length - shared_dirs pdirs dirs) DOTDOT,
        decide (name = DOTDOT) = true :=
      fun name hname => decide_eq_true (List.eq_of_mem_replicate hname)
    rw [ups, hcomponents, List.takeWhile_append_of_pos hall, hstop, List.append_nil,
      List.length_replicate]

/-- `a/c` from `a/b/`. -/
theorem a_c_from_a_b :
    resolve [[97], [98]] (components (path_relative [97, SLASH, 99] [97, SLASH, 98, SLASH])) =
        some [97, SLASH, 99] ∧
      ups (path_relative [97, SLASH, 99] [97, SLASH, 98, SLASH]) = 1 := by
  have ha : Component [97] := ⟨by decide, by decide, by decide, by decide⟩
  have hb : Component [98] := ⟨by decide, by decide, by decide, by decide⟩
  have hc : Component [99] := ⟨by decide, by decide, by decide, by decide⟩
  have hpdirs : ∀ dir ∈ [[97], [98]], Component dir := by
    intro dir hdir
    simp only [List.mem_cons, List.not_mem_nil, or_false] at hdir
    rcases hdir with rfl | rfl
    · exact ha
    · exact hb
  have hpath : Normalized [[97]] [99] :=
    ⟨fun dir hdir => List.mem_singleton.mp hdir ▸ ha, Or.inr hc⟩
  exact path_relative_resolves hpdirs hpath

end git.quote
