-- What is asked about the attributes of a path is answered as by a process that was never asked
-- anything else.
import Git.AttrStack

open first_wins

namespace git.gitattributes

/-! ## Processes -/

/-- `git_attr` for each name. -/
def attrs_of (p : process) : List Bytes → Option (process × List git_attr)
  | [] => some (p, [])
  | name :: names => do
    let (p, a) ← git_attr_of p name
    let (p, rest) ← attrs_of p names
    pure (p, a :: rest)

/-- The answers of a new process. -/
def fresh_check (src : sources) (path : Bytes) (names : List Bytes) : Option (List attr_value) := do
  let (p, check) ← attrs_of .start names
  let (_, answers) ← git_check_attr src p path check
  pure answers

/-- A process that was asked for attributes by name, and about paths. -/
inductive Reached (src : sources) : process → Prop where
  | start : Reached src .start
  | attr {p p' : process} {name : Bytes} {a : git_attr} (h : Reached src p)
      (hrun : git_attr_of p name = some (p', a)) : Reached src p'
  | check {p p' : process} {path : Bytes} {check : List git_attr} {answers : List attr_value}
      (h : Reached src p) (hrun : git_check_attr src p path check = some (p', answers)) :
      Reached src p'

variable {src : sources}

/-- The outcome for a path, by names. -/
def Outcome (src : sources) (path : Bytes) (v : Bytes → Option attr_value) : Prop :=
  Settles (expansion (stack_for src path)) (fun _ => none)
    (assignments src path (stack_for src path)) v

theorem collect_spec {p : process} (h : Left src p) (path : Bytes) :
    ∃ p', collect_all_attrs src path p = some p' ∧ Left src p' ∧ p.attrs <+: p'.attrs ∧
      p'.attrs.Nodup ∧ Outcome src path (values p'.attrs p'.check_all_attr) := by
  obtain ⟨p1, hprepare, hheld, hgrows⟩ := prepare_held h path
  obtain ⟨c, hscan, hsettles⟩ := scan_filled hheld.nodup hheld.known src path
  rw [hheld.named] at hsettles
  refine ⟨{ p1 with check_all_attr := c.value }, ?_, Or.inr ⟨path, ?_⟩, hgrows, hheld.nodup,
    hsettles⟩
  · rw [collect_all_attrs, hprepare, Option.bind_eq_bind, Option.bind_some, process.attr_nr, hscan]
    rfl
  · exact ⟨hheld.nodup, hheld.valid, hheld.known, hheld.named⟩

theorem check_spec {p : process} (h : Left src p) (path : Bytes) {check : List git_attr}
    (hcheck : ∀ a ∈ check, Known p.attrs a) :
    ∃ p' v, git_check_attr src p path check =
        some (p', check.map fun a => (v a.name).getD .ATTR__UNSET) ∧
      p.attrs <+: p'.attrs ∧ Outcome src path v := by
  obtain ⟨p', hcollect, -, hgrows, hnodup, hsettles⟩ := collect_spec h path
  refine ⟨p', _, ?_, hgrows, hsettles⟩
  rw [git_check_attr, hcollect, Option.map_some]
  congr 2
  refine List.map_congr_left fun a ha => ?_
  rw [values_known hnodup ((hcheck a ha).mono hgrows)]

theorem git_attr_of_spec {p p' : process} {stack : List named_elem} (h : Held p stack)
    {name : Bytes} {a : git_attr} (hrun : git_attr_of p name = some (p', a)) :
    Held p' stack ∧ p.attrs <+: p'.attrs ∧ Known p'.attrs a ∧ a.name = name := by
  have hvalid : name ∈ p.attrs ∨ invalid_attr_name name = false := by
    by_cases hmem : name ∈ p.attrs
    · exact Or.inl hmem
    · right
      by_contra hbad
      rw [Bool.not_eq_false] at hbad
      rw [git_attr_of, if_neg hmem, if_pos hbad] at hrun
      cases hrun
  have hsame : git_attr_internal p name = (p', a) := by
    unfold git_attr_of at hrun
    split_ifs at hrun
    · exact Option.some.inj hrun
    · exact Option.some.inj hrun
  obtain ⟨hgrows, hknown, hname, hstack⟩ := git_attr_internal_spec p hvalid
  rw [hsame] at hgrows hknown hname hstack
  exact ⟨h.grows hgrows hstack, hgrows.attrs, hknown, hname⟩

theorem Reached.left {p : process} (h : Reached src p) : Left src p := by
  induction h with
  | start =>
    exact Or.inl ⟨List.nodup_nil, fun name hname => absurd hname List.not_mem_nil,
      fun e he => absurd he List.not_mem_nil, rfl⟩
  | attr _ hrun ih =>
    rcases ih with ih | ⟨q, ih⟩
    · exact Or.inl (git_attr_of_spec ih hrun).1
    · exact Or.inr ⟨q, (git_attr_of_spec ih hrun).1⟩
  | @check p p' path check answers _ hrun ih =>
    obtain ⟨p1, hcollect, hleft, -⟩ := collect_spec ih path
    rw [git_check_attr, hcollect, Option.map_some] at hrun
    cases hrun
    exact hleft

/-- A new process gives a number to each name that is valid. -/
theorem attrs_of_spec {names : List Bytes}
    (hvalid : ∀ name ∈ names, invalid_attr_name name = false) :
    ∀ {p}, Held p [] → ∃ p' check, attrs_of p names = some (p', check) ∧ Held p' [] ∧
      p.attrs <+: p'.attrs ∧ (∀ a ∈ check, Known p'.attrs a) ∧ check.map (·.name) = names := by
  induction names with
  | nil =>
    intro p h
    exact ⟨p, [], rfl, h, List.prefix_refl _, fun a ha => absurd ha List.not_mem_nil, rfl⟩
  | cons name names ih =>
    intro p h
    obtain ⟨p1, a, hsome⟩ : ∃ p1 a, git_attr_of p name = some (p1, a) := by
      unfold git_attr_of
      by_cases hmem : name ∈ p.attrs
      · rw [if_pos hmem]
        exact ⟨_, _, rfl⟩
      · rw [if_neg hmem, if_neg (Bool.eq_false_iff.mp (hvalid name List.mem_cons_self))]
        exact ⟨_, _, rfl⟩
    obtain ⟨hheld, hgrows, hknown, hname⟩ := git_attr_of_spec h hsome
    obtain ⟨p', check, hrun, hheld', hgrows', hknown', hnames'⟩ :=
      ih (fun n hn => hvalid n (List.mem_cons_of_mem _ hn)) hheld
    refine ⟨p', a :: check, ?_, hheld', hgrows.trans hgrows', ?_, ?_⟩
    · rw [attrs_of, hsome, Option.bind_eq_bind, Option.bind_some]
      dsimp only
      rw [hrun]
      rfl
    · intro b hb
      rcases List.mem_cons.mp hb with rfl | hb
      · exact hknown.mono hgrows'
      · exact hknown' b hb
    · rw [List.map_cons, hname, hnames']

theorem fresh_check_spec (src : sources) (path : Bytes) {names : List Bytes}
    (hvalid : ∀ name ∈ names, invalid_attr_name name = false) :
    ∃ v, fresh_check src path names = some (names.map fun name => (v name).getD .ATTR__UNSET) ∧
      Outcome src path v := by
  have hstart : Held .start [] :=
    ⟨List.nodup_nil, fun name hname => absurd hname List.not_mem_nil,
      fun e he => absurd he List.not_mem_nil, rfl⟩
  obtain ⟨p, check, hattrs, hheld, -, hknown, hnames⟩ := attrs_of_spec hvalid hstart
  have hleft : Left src p := Or.inl hheld
  obtain ⟨p', v, hcheck, -, hout⟩ := check_spec hleft path hknown
  refine ⟨v, ?_, hout⟩
  rw [fresh_check, hattrs, Option.bind_eq_bind, Option.bind_some]
  dsimp only
  rw [hcheck, ← hnames, List.map_map]
  rfl

/-! ## Precedence -/

/-- The order of the sources: `info/attributes` first, and of the directories, which are those
of the path, the deeper ones first. -/
structure Precedence (src : sources) (path : Bytes) : Prop where
  info : (stack_for src path).head? = some (info_elem src)
  ancestors : ∀ e ∈ stack_for src path, ∀ d, e.origin = some d → d = [] ∨ d ++ [SLASH] <+: path
  deeper : (stack_for src path).Pairwise fun e e' =>
    ∀ d d', e.origin = some d → e'.origin = some d' → d'.length < d.length

theorem dir_slashes_spec {path : Bytes} {n : Nat} (h : n ∈ dir_slashes path path.length) :
    n ≠ 0 ∧ path[n]? = some SLASH :=
  of_decide_eq_true (List.mem_filter.mp h).2

theorem take_slash {path : Bytes} {n : Nat} (h : path[n]? = some SLASH) :
    (path.take n).length = n ∧ path.take n ++ [SLASH] <+: path := by
  obtain ⟨hlt, hget⟩ := List.getElem?_eq_some_iff.mp h
  refine ⟨List.length_take_of_le hlt.le, ?_⟩
  rw [← hget, List.take_append_getElem]
  exact List.take_prefix _ _

theorem dirs_origin (src : sources) (path : Bytes) :
    ∀ e ∈ dirs_to src path path.length, ∀ d, e.origin = some d →
      d = [] ∨ d ++ [SLASH] <+: path := by
  intro e he d hd
  rcases List.mem_append.mp he with he | he
  · obtain ⟨n, hn, rfl⟩ := List.mem_map.mp he
    obtain ⟨-, hslash⟩ := dir_slashes_spec (List.mem_reverse.mp hn)
    cases hd
    exact Or.inr (take_slash hslash).2
  · rw [List.mem_singleton.mp he] at hd
    cases hd
    exact Or.inl rfl

theorem dirs_deeper (src : sources) (path : Bytes) :
    (dirs_to src path path.length).Pairwise fun e e' =>
      ∀ d d', e.origin = some d → e'.origin = some d' → d'.length < d.length := by
  unfold dirs_to
  rw [List.pairwise_append]
  refine ⟨?_, List.pairwise_singleton _ _, ?_⟩
  · rw [List.pairwise_map, List.pairwise_reverse]
    refine (List.pairwise_lt_range.filter _).imp_of_mem fun {m n} hm hn hlt d d' hd hd' => ?_
    cases hd
    cases hd'
    rw [(take_slash (dir_slashes_spec hm).2).1, (take_slash (dir_slashes_spec hn).2).1]
    exact hlt
  · intro e he e' he' d d' hd hd'
    obtain ⟨n, hn, rfl⟩ := List.mem_map.mp he
    obtain ⟨hpos, hslash⟩ := dir_slashes_spec (List.mem_reverse.mp hn)
    rw [List.mem_singleton.mp he'] at hd'
    cases hd
    cases hd'
    rw [(take_slash hslash).1, List.length_nil]
    exact Nat.pos_of_ne_zero hpos

theorem precedence (src : sources) (path : Bytes) : Precedence src path := by
  -- the elements that are not from a directory say nothing here
  have hbase := base_origin src
  have hdirs : ∀ e ∈ stack_for src path, ∀ d, e.origin = some d →
      e ∈ dirs_to src path path.length := by
    intro e he d hd
    rcases List.mem_cons.mp he with rfl | he
    · cases hd
    · rcases List.mem_append.mp he with he | he
      · split at he
        · exact he
        · exact absurd he List.not_mem_nil
      · rw [hbase e he] at hd
        cases hd
  refine ⟨rfl, fun e he d hd => dirs_origin src path e (hdirs e he d hd) d hd, ?_⟩
  rw [stack_for, List.pairwise_cons, List.pairwise_append]
  refine ⟨fun e he d d' hd => (by cases hd), ?_, ?_, ?_⟩
  · split
    · exact dirs_deeper src path
    · exact List.Pairwise.nil
  · refine List.pairwise_of_forall_mem_list fun e he e' he' d d' hd => ?_
    rw [hbase e he] at hd
    cases hd
  · intro e he e' he' d d' hd hd'
    rw [hbase e' he'] at hd'
    cases hd'

/-- What the first elements decide stays. -/
theorem Outcome.first_decides {path : Bytes} {v : Bytes → Option attr_value}
    (h : Outcome src path v) {first rest : List named_elem}
    (hstack : stack_for src path = first ++ rest) :
    ∃ u, Settles (expansion (stack_for src path)) (fun _ => none) (assignments src path first) u ∧
      ∀ name value, u name = some value → v name = some value := by
  have hassign : assignments src path (stack_for src path) =
      assignments src path first ++ assignments src path rest := by
    rw [hstack, assignments, assignments, assignments, List.flatMap_append]
  rw [Outcome, hassign] at h
  exact h.first_part

/-! ## Results -/

/-- Whatever a process was asked before, it comes to an answer about a path, the answer of a new
process. It is the outcome of the rules for this path, in the order of their sources, of which
the first ones win. -/
theorem answers_without_history {p : process} (h : Reached src p) (path : Bytes)
    {check : List git_attr} (hcheck : ∀ a ∈ check, Known p.attrs a) :
    ∃ p' answers v, git_check_attr src p path check = some (p', answers) ∧
      fresh_check src path (check.map (·.name)) = some answers ∧
      Outcome src path v ∧ answers = check.map (fun a => (v a.name).getD .ATTR__UNSET) ∧
      Precedence src path ∧
      ∀ first rest, stack_for src path = first ++ rest →
        ∃ u, Settles (expansion (stack_for src path)) (fun _ => none)
            (assignments src path first) u ∧
          ∀ name value, u name = some value → v name = some value := by
  obtain ⟨p', v, hrun, -, hout⟩ := check_spec h.left path hcheck
  have hvalid : ∀ name ∈ check.map (·.name), invalid_attr_name name = false := by
    intro name hname
    obtain ⟨a, ha, rfl⟩ := List.mem_map.mp hname
    rcases h.left with hheld | ⟨q, hheld⟩
    · exact hheld.valid _ (hcheck a ha).mem
    · exact hheld.valid _ (hcheck a ha).mem
  obtain ⟨v', hfresh, hout'⟩ := fresh_check_spec src path hvalid
  have hsame : v' = v := hout'.unique hout
  refine ⟨p', _, v, hrun, ?_, hout, rfl, precedence src path, fun first rest => hout.first_decides⟩
  rw [hfresh, hsame, List.map_map]
  rfl

/-- A repository with the line `*.c text` in its `.gitattributes`. -/
def text_sources : sources where
  etc_gitattributes := none
  attributes_file := none
  info_attributes := none
  open_file := fun path =>
    if path = GITATTRIBUTES_FILE then some [42, 46, 99, 32, 116, 101, 120, 116, 10] else none
  read_index_data := fun _ => none
  is_bare_repository := false
  direction := .GIT_ATTR_CHECKIN
  ignore_case := false

def text_attr : git_attr := ⟨[116, 101, 120, 116], 0⟩

def text_asked : process := (git_attr_internal .start text_attr.name).1

theorem x_c_after_a_b :
    ∃ p answers, git_check_attr text_sources text_asked [97, SLASH, 98] [text_attr] =
        some (p, answers) ∧
      ∃ p' answers', git_check_attr text_sources p [120, 46, 99] [text_attr] = some (p', answers') ∧
        fresh_check text_sources [120, 46, 99] [text_attr.name] = some answers' := by
  have hknown : ∀ a ∈ [text_attr], Known text_asked.attrs a := by
    intro a ha
    rw [List.mem_singleton.mp ha]
    rfl
  have hattr : git_attr_of .start text_attr.name = some (text_asked, text_attr) := rfl
  have hasked : Reached text_sources text_asked := .attr .start hattr
  obtain ⟨p, v, hrun, hgrows, -⟩ := check_spec hasked.left [97, SLASH, 98] hknown
  obtain ⟨p', answers', v', hrun', hfresh, -⟩ := answers_without_history (hasked.check hrun)
    [120, 46, 99] fun a ha => (hknown a ha).mono hgrows
  exact ⟨p, _, hrun, p', answers', hrun', hfresh⟩

end git.gitattributes
