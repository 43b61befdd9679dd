-- Short names of references, `shorten_unambiguous_ref` of `refs.c`, and the rules that such a name
-- is looked up with.
import Git.CheckRefname

namespace git.shorten_ref

open git.refs (check_refname_format ref_file ref_store resolve_loop find_ref resolve_ref_unsafe)

/-! ## The rules -/

/-- The text around the `%.*s`. -/
structure rule where
  before : Bytes
  behind : Bytes

def REFS : Bytes := [114, 101, 102, 115, 47]
def TAGS : Bytes := [116, 97, 103, 115, 47]
def HEADS : Bytes := [104, 101, 97, 100, 115, 47]
def REMOTES : Bytes := [114, 101, 109, 111, 116, 101, 115, 47]
def HEAD : Bytes := [47, 72, 69, 65, 68]

def ref_rev_parse_rules : List rule :=
  [⟨[], []⟩, ⟨REFS, []⟩, ⟨REFS ++ TAGS, []⟩, ⟨REFS ++ HEADS, []⟩, ⟨REFS ++ REMOTES, []⟩,
    ⟨REFS ++ REMOTES, HEAD⟩]

def PATH_MAX : Nat := 4096

def bad_path : Bytes := [47, 98, 97, 100, 45, 112, 97, 116, 104, 47]

def cleanup_path (path : Bytes) : Bytes :=
  if path[0]? = some 46 ∧ path[1]? = some SLASH then (path.drop 2).dropWhile (· = SLASH) else path

/-- `mksnpath` with a rule and a short name. -/
def mksnpath (rule : rule) (short_name : Bytes) : Bytes :=
  let path := rule.before ++ short_name ++ rule.behind
  if PATH_MAX ≤ path.length then bad_path else cleanup_path path

def isspace (c : UInt8) : Bool := (9 ≤ c && c ≤ 13) || c == 32

/-- `sscanf` with the rule that has `%s` in the place of `%.*s`: what `%s` took. The text behind
`%s` does not count, since the conversion is made by then. -/
def sscanf (refname : Bytes) (rule : rule) : Option Bytes :=
  if rule.before.isPrefixOf refname then
    let short_name := ((refname.drop rule.before.length).dropWhile isspace).takeWhile (!isspace ·)
    if short_name = [] then none else some short_name
  else none

/-! ## The references that are there -/

/-- Which names `ref_exists` finds. They have passed `check_refname_format`, and they have been
the path of a file or in a line of packed-refs. -/
structure ref_names where
  ref_exists : Bytes → Bool
  valid : ∀ refname, ref_exists refname = true → check_refname_format refname true = true
  fits : ∀ refname, ref_exists refname = true → refname.length < PATH_MAX

/-- The first rule with a reference gives the name, where the name is no `@` form. -/
def dwim_ref (refs : ref_names) (str : Bytes) : Option Bytes :=
  (ref_rev_parse_rules.map (mksnpath · str)).find? refs.ref_exists

/-! ## Shortening -/

/-- The loop over `j`, whether it stops at a reference. -/
def is_ambiguous (refs : ref_names) (rules : List rule) (short_name : Bytes) (i : Nat)
    (strict : Bool) : Bool :=
  let rules_to_fail := if strict then rules.length else i
  (List.range rules_to_fail).any fun j =>
    j ≠ i && rules[j]?.any fun rule => refs.ref_exists (mksnpath rule short_name)

/-- The loop over `i`, downwards. The first rule is skipped. -/
def shorten_loop (refs : ref_names) (rules : List rule) (refname : Bytes) (strict : Bool) :
    Nat → Bytes
  | 0 => refname
  | i + 1 =>
    match rules[i + 1]?.bind (sscanf refname) with
    | none => shorten_loop refs rules refname strict i
    | some short_name =>
      if is_ambiguous refs rules short_name (i + 1) strict then
        shorten_loop refs rules refname strict i
      else short_name

def shorten_unambiguous_ref (refs : ref_names) (refname : Bytes) (strict : Bool) : Bytes :=
  shorten_loop refs ref_rev_parse_rules refname strict (ref_rev_parse_rules.length - 1)

/-! ## Names that are valid -/

section
variable {refname : Bytes}

theorem grammar_of_valid (h : check_refname_format refname true = true) :
    git.refname.Grammar ⟨true, false, false⟩ refname := by
  rw [← git.refname.check_refname_format_plain] at h
  exact (git.refname.check_refname_format_iff refname _).mp h

theorem not_isspace_of_valid (h : check_refname_format refname true = true) {c : UInt8}
    (hc : c ∈ refname) : isspace c = false := by
  have hallowed := (grammar_of_valid h).chars c hc
  rw [git.refname.Forbidden, not_or, not_or] at hallowed
  obtain ⟨hcontrol, hspace, -⟩ := hallowed
  have habove : ¬ c ≤ 13 := fun hle => hcontrol (lt_of_le_of_lt hle (by decide))
  simp [isspace, habove, hspace]

theorem head_of_valid (h : check_refname_format refname true = true) : refname.head? ≠ some 46 := by
  intro hdot
  have hgrammar := grammar_of_valid h
  obtain ⟨c, hc, hhead⟩ : ∃ c ∈ git.refname.components refname, c.head? = some 46 := by
    by_cases hslash : SLASH ∈ refname
    · obtain ⟨field, rest, rfl, hfield⟩ := List.eq_append_cons_of_mem hslash
      rw [git.refname.components_more hfield]
      refine ⟨field, List.mem_cons_self, ?_⟩
      cases field with
      | nil =>
        have hslash : SLASH = 46 := by simpa using hdot
        exact absurd hslash (by decide)
      | cons d field => simpa using hdot
    · rw [git.refname.components, List.splitOn_eq_singleton hslash]
      exact ⟨refname, List.mem_cons_self, hdot⟩
  exact Bool.false_ne_true (hgrammar.dots c hc hhead)

theorem cleanup_path_of_valid (h : check_refname_format refname true = true) :
    cleanup_path refname = refname := by
  refine if_neg ?_
  rintro ⟨hdot, -⟩
  exact head_of_valid h (List.head?_eq_getElem? ▸ hdot)

/-- A valid name has nothing where the scan would stop. -/
theorem sscanf_of_valid (h : check_refname_format refname true = true) {rule : rule}
    {short_name : Bytes} (hscan : sscanf refname rule = some short_name) :
    refname = rule.before ++ short_name := by
  rw [sscanf] at hscan
  split_ifs at hscan with hbefore
  obtain ⟨rest, rfl⟩ := List.isPrefixOf_iff_prefix.mp hbefore
  have hplain : ∀ c ∈ rest, isspace c = false :=
    fun c hc => not_isspace_of_valid h (List.mem_append_right _ hc)
  have hskip : rest.dropWhile isspace = rest := by
    cases rest with
    | nil => rfl
    | cons c rest => rw [List.dropWhile_cons_of_neg (by simp [hplain c List.mem_cons_self])]
  have htake : rest.takeWhile (!isspace ·) = rest :=
    List.takeWhile_eq_self_iff.mpr fun c hc => by simp [hplain c hc]
  rw [List.drop_left, hskip, htake] at hscan
  dsimp only at hscan
  split_ifs at hscan
  rw [Option.some.inj hscan]

end

/-! ## What is returned -/

section
variable {refs : ref_names} {refname short_name : Bytes} {strict : Bool}

theorem mksnpath_of_exists {rule : rule} (h : refs.ref_exists refname = true)
    (hrefname : refname = rule.before ++ short_name) (hbehind : rule.behind = []) :
    mksnpath rule short_name = refname := by
  rw [mksnpath, hbehind, List.append_nil, ← hrefname, if_neg (Nat.not_le.mpr (refs.fits refname h)),
    cleanup_path_of_valid (refs.valid refname h)]

/-- Rule `j` names a reference, and it is not the rule that matched. -/
def Names (refs : ref_names) (rules : List rule) (short_name : Bytes) (i j : Nat) : Prop :=
  j ≠ i ∧ ∃ rule, rules[j]? = some rule ∧ refs.ref_exists (mksnpath rule short_name) = true

theorem is_ambiguous_iff (refs : ref_names) (rules : List rule) (short_name : Bytes) (i : Nat)
    (strict : Bool) :
    is_ambiguous refs rules short_name i strict = true ↔
      ∃ j, (strict = true ∨ j < i) ∧ Names refs rules short_name i j := by
  have hany : ∀ n, ((List.range n).any fun j =>
      j ≠ i && rules[j]?.any fun rule => refs.ref_exists (mksnpath rule short_name)) = true ↔
        ∃ j, j < n ∧ Names refs rules short_name i j := by
    intro n
    simp [Names, Option.any_eq_true]
  rw [is_ambiguous, hany]
  cases strict with
  | true =>
    refine exists_congr fun j => ⟨fun h => ⟨Or.inl rfl, h.2⟩, fun ⟨_, hnames⟩ => ⟨?_, hnames⟩⟩
    obtain ⟨-, rule, hrule, -⟩ := hnames
    exact (List.getElem?_eq_some_iff.mp hrule).1
  | false => simp

/-- The rules up to `n` only give short names that are ambiguous. -/
def AllAmbiguous (refs : ref_names) (rules : List rule) (refname : Bytes) (strict : Bool)
    (n : Nat) : Prop :=
  ∀ i rule short_name, 0 < i → i ≤ n → rules[i]? = some rule →
    sscanf refname rule = some short_name → is_ambiguous refs rules short_name i strict = true

theorem AllAmbiguous.succ {rules : List rule} {n : Nat}
    (h : AllAmbiguous refs rules refname strict n)
    (hlast : ∀ short_name, rules[n + 1]?.bind (sscanf refname) = some short_name →
      is_ambiguous refs rules short_name (n + 1) strict = true) :
    AllAmbiguous refs rules refname strict (n + 1) := by
  intro i rule short_name hpos hle hrule hscan
  rcases Nat.le_succ_iff.mp hle with hle | rfl
  · exact h i rule short_name hpos hle hrule hscan
  · exact hlast short_name (by rw [hrule, Option.bind_some, hscan])

/-- The loop gives the short name of the first rule downwards that is not ambiguous. -/
theorem shorten_loop_cases (refs : ref_names) (rules : List rule) (refname : Bytes)
    (strict : Bool) (n : Nat) :
    let short_name := shorten_loop refs rules refname strict n
    (short_name = refname ∧ AllAmbiguous refs rules refname strict n) ∨
      ∃ i rule, 0 < i ∧ rules[i]? = some rule ∧ sscanf refname rule = some short_name ∧
        is_ambiguous refs rules short_name i strict = false := by
  induction n with
  | zero => exact Or.inl ⟨rfl, fun i _ _ hpos hle => absurd hpos (Nat.not_lt.mpr hle)⟩
  | succ n ih =>
    rw [shorten_loop]
    cases hscan : rules[n + 1]?.bind (sscanf refname) with
    | none =>
      refine ih.imp_left (And.imp_right fun hall => hall.succ fun short_name hsome => ?_)
      rw [hscan] at hsome
      cases hsome
    | some short_name =>
      dsimp only
      split_ifs with hambiguous
      · refine ih.imp_left (And.imp_right fun hall => hall.succ fun short_name' hsome => ?_)
        rw [hscan] at hsome
        exact Option.some.inj hsome ▸ hambiguous
      · obtain ⟨rule, hrule, hsome⟩ := Option.bind_eq_some_iff.mp hscan
        exact Or.inr ⟨n + 1, rule, Nat.succ_pos n, hrule, hsome, by simpa using hambiguous⟩

/-- The first rule that names a reference is the one that is taken. -/
theorem dwim_ref_eq {i : Nat} {rule : rule} (hrule : ref_rev_parse_rules[i]? = some rule)
    (heq : mksnpath rule short_name = refname) (h : refs.ref_exists refname = true)
    (hbefore : ∀ j < i, ¬ Names refs ref_rev_parse_rules short_name i j) :
    dwim_ref refs short_name = some refname := by
  obtain ⟨hi, rfl⟩ := List.getElem?_eq_some_iff.mp hrule
  refine List.find?_eq_some_iff_getElem.mpr ⟨h, i, by simpa using hi, by simpa using heq, ?_⟩
  intro j hj
  have hj' : j < ref_rev_parse_rules.length := hj.trans hi
  have hnot := hbefore j hj
  rw [List.getElem_map, Bool.not_eq_true', ← Bool.not_eq_true]
  exact fun hexists => hnot ⟨hj.ne, _, List.getElem?_eq_getElem hj', hexists⟩

/-- The rule with a text behind the name has a rule before it without that text. -/
theorem rule_before {i : Nat} {rule : rule} (hrule : ref_rev_parse_rules[i]? = some rule)
    (hbehind : rule.behind ≠ []) :
    ∃ j other, j < i ∧ ref_rev_parse_rules[j]? = some other ∧ other.before = rule.before ∧
      other.behind = [] := by
  have hi : i < 6 := (List.getElem?_eq_some_iff.mp hrule).1
  interval_cases i
  all_goals obtain rfl := Option.some.inj hrule
  · exact absurd rfl hbehind
  · exact absurd rfl hbehind
  · exact absurd rfl hbehind
  · exact absurd rfl hbehind
  · exact absurd rfl hbehind
  · exact ⟨4, _, by decide, rfl, rfl, rfl⟩

/-- The short name is looked up as the reference that it was made from. Under `strict` no rule
but the one that matched names a reference, or it is the full name, since every shorter one is
ambiguous. -/
theorem shorten_unambiguous_ref_sound (refs : ref_names) (refname : Bytes) (strict : Bool)
    (h : refs.ref_exists refname = true) :
    let short_name := shorten_unambiguous_ref refs refname strict
    dwim_ref refs short_name = some refname ∧
      (strict = true →
        (∃ i rule, ref_rev_parse_rules[i]? = some rule ∧ mksnpath rule short_name = refname ∧
          ∀ j, ¬ Names refs ref_rev_parse_rules short_name i j) ∨
        short_name = refname ∧ AllAmbiguous refs ref_rev_parse_rules refname strict 5) := by
  have hcases := shorten_loop_cases refs ref_rev_parse_rules refname strict 5
  have hloop : shorten_loop refs ref_rev_parse_rules refname strict 5 =
      shorten_unambiguous_ref refs refname strict := rfl
  rw [hloop] at hcases
  generalize shorten_unambiguous_ref refs refname strict = short_name at hcases ⊢
  rcases hcases with ⟨rfl, hall⟩ | ⟨i, rule, hpos, hrule, hscan, hnot⟩
  · have hself : mksnpath ⟨[], []⟩ short_name = short_name := mksnpath_of_exists h rfl rfl
    exact ⟨dwim_ref_eq rfl hself h fun j hj => absurd hj (Nat.not_lt_zero j),
      fun _ => Or.inr ⟨rfl, hall⟩⟩
  · have hnone : ∀ j, (strict = true ∨ j < i) →
        ¬ Names refs ref_rev_parse_rules short_name i j := by
      intro j hj hnames
      rw [(is_ambiguous_iff _ _ _ _ _).mpr ⟨j, hj, hnames⟩] at hnot
      cases hnot
    have hrefname := sscanf_of_valid (refs.valid refname h) hscan
    have hbehind : rule.behind = [] := by
      by_contra hbehind
      obtain ⟨j, other, hj, hother, hsame, hplain⟩ := rule_before hrule hbehind
      rw [← hsame] at hrefname
      have hself := mksnpath_of_exists h hrefname hplain
      exact hnone j (Or.inr hj) ⟨hj.ne, other, hother, hself.symm ▸ h⟩
    have hself := mksnpath_of_exists h hrefname hbehind
    exact ⟨dwim_ref_eq hrule hself h fun j hj => hnone j (Or.inr hj),
      fun hstrict => Or.inl ⟨i, rule, hrule, hself, fun j => hnone j (Or.inl hstrict)⟩⟩

end

/-! ## The full name can be ambiguous -/

/-- `refs/heads/x`, `refs/tags/x`, `refs/tags/heads/x` and `refs/heads/refs/heads/x`. -/
def four_names : List Bytes :=
  [REFS ++ HEADS ++ [120], REFS ++ TAGS ++ [120], REFS ++ TAGS ++ HEADS ++ [120],
    REFS ++ HEADS ++ REFS ++ HEADS ++ [120]]

def four_refs : ref_names where
  ref_exists refname := four_names.contains refname
  valid := by
    intro refname h
    have hall : ∀ name ∈ four_names, check_refname_format name true = true := by decide
    exact hall refname (List.contains_iff_mem.mp h)
  fits := by
    intro refname h
    have hall : ∀ name ∈ four_names, name.length < PATH_MAX := by decide
    exact hall refname (List.contains_iff_mem.mp h)

/-- `refs/tags/heads/x` is `tags/heads/x`, since `heads/x` is a branch. -/
theorem tags_heads_x_is_short :
    let short_name := shorten_unambiguous_ref four_refs (REFS ++ TAGS ++ HEADS ++ [120]) true
    short_name = TAGS ++ HEADS ++ [120] ∧
      dwim_ref four_refs short_name = some (REFS ++ TAGS ++ HEADS ++ [120]) :=
  ⟨by decide,
    (shorten_unambiguous_ref_sound four_refs (REFS ++ TAGS ++ HEADS ++ [120]) true (by decide)).1⟩

/-- Nothing shorter than `refs/heads/x` is left for it there, and the rule for branches takes that
for the name of a branch, too. -/
theorem the_full_name_is_ambiguous :
    ¬ ∀ (refs : ref_names) (refname : Bytes) (strict : Bool), refs.ref_exists refname = true →
      let short_name := shorten_unambiguous_ref refs refname strict
      dwim_ref refs short_name = some refname ∧
        (strict = true →
          ∃ i rule, ref_rev_parse_rules[i]? = some rule ∧ mksnpath rule short_name = refname ∧
            ∀ j, ¬ Names refs ref_rev_parse_rules short_name i j) := by
  intro hsound
  have hshort : shorten_unambiguous_ref four_refs (REFS ++ HEADS ++ [120]) true =
      REFS ++ HEADS ++ [120] := by decide
  obtain ⟨-, hstrict⟩ := hsound four_refs (REFS ++ HEADS ++ [120]) true (by decide)
  obtain ⟨i, rule, hrule, hself, hnone⟩ := hstrict rfl
  rw [hshort] at hself hnone
  refine hnone 3 ⟨?_, _, rfl, by decide⟩
  rintro rfl
  obtain rfl := Option.some.inj hrule
  exact absurd hself (by decide)

end git.shorten_ref
