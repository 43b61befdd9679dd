-- The stack that `prepare_attr_stack` leaves for a path has the files of the directories of that
-- path, whatever it had before.
import Git.AttrFill
import Git.ExcludeStack

open first_wins

namespace git.gitattributes

open compat

/-! ## Attributes get numbers -/

/-- The names are valid and differ, and the rules on the stack are by their numbers. `stack` is
the stack by names. -/
structure Held (p : process) (stack : List named_elem) : Prop where
  nodup : p.attrs.Nodup
  valid : ∀ name ∈ p.attrs, invalid_attr_name name = false
  known : AllKnown p.attrs p.attr_stack
  named : p.attr_stack.map attr_stack.named = stack

/-- Perhaps there are more attributes. -/
structure Grows (p p' : process) : Prop where
  attrs : p.attrs <+: p'.attrs
  nodup : p.attrs.Nodup → p'.attrs.Nodup
  valid : (∀ name ∈ p.attrs, invalid_attr_name name = false) →
    ∀ name ∈ p'.attrs, invalid_attr_name name = false

theorem Grows.refl (p : process) : Grows p p := ⟨List.prefix_refl _, id, id⟩

theorem Grows.trans {p p' p'' : process} (h : Grows p p') (h' : Grows p' p'') : Grows p p'' :=
  ⟨h.attrs.trans h'.attrs, h'.nodup ∘ h.nodup, h'.valid ∘ h.valid⟩

theorem Known.mono {attrs attrs' : List Bytes} (h : attrs <+: attrs') {a : git_attr}
    (ha : Known attrs a) : Known attrs' a := by
  obtain ⟨more, rfl⟩ := h
  rw [Known, List.getElem?_append_left ha.lt]
  exact ha

theorem match_attr.AllKnown.mono {attrs attrs' : List Bytes} (h : attrs <+: attrs')
    {a : match_attr} (ha : a.AllKnown attrs) : a.AllKnown attrs' := by
  refine ⟨?_, fun s hs => (ha.state s hs).mono h⟩
  have hu := ha.u
  cases hkind : a.u with
  | pattern pattern => trivial
  | macro_attr attr =>
    rw [hkind] at hu
    exact Known.mono h hu

theorem AllKnown.mono {attrs attrs' : List Bytes} (h : attrs <+: attrs') {stack : List attr_stack}
    (hall : AllKnown attrs stack) : AllKnown attrs' stack :=
  fun e he a ha => (hall e he a ha).mono h

theorem git_attr_internal_spec (p : process) {name : Bytes}
    (hvalid : name ∈ p.attrs ∨ invalid_attr_name name = false) :
    Grows p (git_attr_internal p name).1 ∧
      Known (git_attr_internal p name).1.attrs (git_attr_internal p name).2 ∧
      (git_attr_internal p name).2.name = name ∧
      (git_attr_internal p name).1.attr_stack = p.attr_stack := by
  unfold git_attr_internal
  by_cases hmem : name ∈ p.attrs
  · rw [if_pos hmem]
    exact ⟨Grows.refl p, List.getElem?_idxOf hmem, rfl, rfl⟩
  · rw [if_neg hmem]
    refine ⟨⟨List.prefix_append _ _, fun h => ?_, fun h n hn => ?_⟩, ?_, rfl, rfl⟩
    · refine List.nodup_append.mpr ⟨h, List.nodup_singleton _, fun a ha b hb hab => ?_⟩
      rw [List.mem_singleton.mp hb] at hab
      rw [hab] at ha
      exact hmem ha
    · rcases List.mem_append.mp hn with hn | hn
      · exact h n hn
      · rw [List.mem_singleton.mp hn]
        exact hvalid.resolve_left hmem
    · exact List.getElem?_concat_length

/-- The names of a rule are valid. -/
structure rule.Valid (r : rule) : Prop where
  kind : ∀ name, r.kind = .macro_name name → invalid_attr_name name = false
  states : ∀ s ∈ r.states, invalid_attr_name s.1 = false

theorem parse_attr_valid {word : Bytes} {s : Bytes × attr_value} (h : parse_attr word = some s) :
    invalid_attr_name s.1 = false := by
  unfold parse_attr at h
  dsimp only at h
  generalize (if word.head? = some DASH ∨ word.head? = some BANG then
    (word.takeWhile (· ≠ EQUALS)).tail else word.takeWhile (· ≠ EQUALS)) = name at h
  by_cases hbad : invalid_attr_name name
  · rw [if_pos hbad] at h
    cases h
  · rw [if_neg hbad] at h
    have hname : s.1 = name := by
      split_ifs at h
      all_goals
        cases h
        rfl
    rw [hname]
    simpa using hbad

theorem mapM_parse_attr_valid {ws : List Bytes} {states : List (Bytes × attr_value)}
    (h : ws.mapM parse_attr = some states) :
    ∀ s ∈ states, invalid_attr_name s.1 = false := by
  induction ws generalizing states with
  | nil =>
    cases h
    exact fun s hs => absurd hs List.not_mem_nil
  | cons word ws ih =>
    rw [List.mapM_cons] at h
    cases hword : parse_attr word with
    | none => simp [hword] at h
    | some s =>
      cases hrest : ws.mapM parse_attr with
      | none => simp [hword, hrest] at h
      | some rest =>
        simp only [hword, hrest, Option.bind_eq_bind, Option.bind_some, Option.pure_def,
          Option.some.injEq] at h
        rw [← h]
        intro t ht
        rcases List.mem_cons.mp ht with rfl | ht
        · exact parse_attr_valid hword
        · exact ih hrest t ht

theorem parse_attr_line_valid {line : Bytes} {macro_ok : Bool} {r : rule}
    (h : parse_attr_line line macro_ok = some r) : r.Valid := by
  unfold parse_attr_line at h
  dsimp only at h
  split_ifs at h with hnone hprefix hok hbad
  · obtain ⟨states, hstates, rfl⟩ := Option.map_eq_some_iff.mp h
    refine ⟨fun name hname => ?_, mapM_parse_attr_valid hstates⟩
    rw [← rule_kind.macro_name.inj hname]
    simpa using hbad
  · obtain ⟨states, hstates, rfl⟩ := Option.map_eq_some_iff.mp h
    exact ⟨fun name hname => (by cases hname), mapM_parse_attr_valid hstates⟩

theorem fill_states_spec (states : List (Bytes × attr_value))
    (hvalid : ∀ s ∈ states, invalid_attr_name s.1 = false) :
    ∀ p, Grows p (fill_states p states).1 ∧
      (∀ s ∈ (fill_states p states).2, Known (fill_states p states).1.attrs s.attr) ∧
      (fill_states p states).2.map attr_state.named = states ∧
      (fill_states p states).1.attr_stack = p.attr_stack := by
  induction states with
  | nil => exact fun p => ⟨Grows.refl p, fun s hs => absurd hs List.not_mem_nil, rfl, rfl⟩
  | cons s states ih =>
    intro p
    obtain ⟨name, value⟩ := s
    obtain ⟨hgrows, hknown, hname, hstack⟩ :=
      git_attr_internal_spec p (Or.inr (hvalid _ List.mem_cons_self))
    obtain ⟨hgrows', hknown', hnamed', hstack'⟩ :=
      ih (fun s hs => hvalid s (List.mem_cons_of_mem _ hs)) (git_attr_internal p name).1
    rw [fill_states]
    refine ⟨hgrows.trans hgrows', fun s hs => ?_, ?_, hstack'.trans hstack⟩
    · rcases List.mem_cons.mp hs with rfl | hs
      · exact hknown.mono hgrows'.attrs
      · exact hknown' s hs
    · rw [List.map_cons, hnamed', attr_state.named, hname]

theorem fill_match_attr_spec {r : rule} (hvalid : r.Valid) (p : process) :
    Grows p (fill_match_attr p r).1 ∧
      (fill_match_attr p r).2.AllKnown (fill_match_attr p r).1.attrs ∧
      (fill_match_attr p r).2.named = r ∧ (fill_match_attr p r).1.attr_stack = p.attr_stack := by
  obtain ⟨kind, states⟩ := r
  cases kind with
  | pattern pattern =>
    obtain ⟨hgrows, hknown, hnamed, hstack⟩ := fill_states_spec states hvalid.states p
    exact ⟨hgrows, ⟨trivial, hknown⟩, congrArg (rule.mk _) hnamed, hstack⟩
  | macro_name name =>
    obtain ⟨hgrows, hknown, hname, hstack⟩ :=
      git_attr_internal_spec p (Or.inr (hvalid.kind name rfl))
    obtain ⟨hgrows', hknown', hnamed', hstack'⟩ :=
      fill_states_spec states hvalid.states (git_attr_internal p name).1
    refine ⟨hgrows.trans hgrows', ⟨hknown.mono hgrows'.attrs, hknown'⟩, ?_, hstack'.trans hstack⟩
    change rule.mk (.macro_name (git_attr_internal p name).2.name) _ = _
    rw [hname]
    exact congrArg (rule.mk _) hnamed'

/-- The rules of the lines, by names. -/
def rules_of (macro_ok : Bool) (lines : List Bytes) : List rule :=
  lines.filterMap fun line => parse_attr_line line macro_ok

theorem handle_attr_lines_spec (macro_ok : Bool) (lines : List Bytes) :
    ∀ p, Grows p (handle_attr_lines p macro_ok lines).1 ∧
      (∀ a ∈ (handle_attr_lines p macro_ok lines).2,
        a.AllKnown (handle_attr_lines p macro_ok lines).1.attrs) ∧
      (handle_attr_lines p macro_ok lines).2.map match_attr.named = rules_of macro_ok lines ∧
      (handle_attr_lines p macro_ok lines).1.attr_stack = p.attr_stack := by
  induction lines with
  | nil => exact fun p => ⟨Grows.refl p, fun a ha => absurd ha List.not_mem_nil, rfl, rfl⟩
  | cons line lines ih =>
    intro p
    rw [handle_attr_lines]
    cases hline : parse_attr_line line macro_ok with
    | none =>
      have hrules : rules_of macro_ok (line :: lines) = rules_of macro_ok lines := by
        simp only [rules_of, List.filterMap_cons, hline]
      rw [hrules]
      exact ih p
    | some r =>
      obtain ⟨hgrows, hknown, hnamed, hstack⟩ :=
        fill_match_attr_spec (parse_attr_line_valid hline) p
      obtain ⟨hgrows', hknown', hnamed', hstack'⟩ := ih (fill_match_attr p r).1
      refine ⟨hgrows.trans hgrows', fun a ha => ?_, ?_, hstack'.trans hstack⟩
      · rcases List.mem_cons.mp ha with rfl | ha
        · exact hknown.mono hgrows'.attrs
        · exact hknown' a ha
      · have hrules : rules_of macro_ok (line :: lines) = r :: rules_of macro_ok lines := by
          simp only [rules_of, List.filterMap_cons, hline]
        rw [hrules]
        exact congrArg₂ List.cons hnamed hnamed'

/-! ## Elements -/

theorem Held.grows {p p' : process} {stack : List named_elem} (h : Held p stack)
    (hgrows : Grows p p') (hstack : p'.attr_stack = p.attr_stack) : Held p' stack := by
  refine ⟨hgrows.nodup h.nodup, hgrows.valid h.valid, ?_, ?_⟩
  · rw [hstack]
    exact h.known.mono hgrows.attrs
  · rw [hstack]
    exact h.named

theorem push_elem_held {p : process} {stack : List named_elem} (h : Held p stack)
    (origin : Option Bytes) (macro_ok : Bool) (lines : List Bytes) :
    Held (push_elem p origin macro_ok lines) (⟨origin, rules_of macro_ok lines⟩ :: stack) ∧
      p.attrs <+: (push_elem p origin macro_ok lines).attrs := by
  obtain ⟨hgrows, hknown, hnamed, hstack⟩ := handle_attr_lines_spec macro_ok lines p
  have hheld := h.grows hgrows hstack
  refine ⟨⟨hheld.nodup, hheld.valid, fun e he a ha => ?_, ?_⟩, hgrows.attrs⟩
  · rcases List.mem_cons.mp he with rfl | he
    · exact hknown a ha
    · exact hheld.known e he a ha
  · change attr_stack.named ⟨origin, _⟩ :: _ = _
    rw [hheld.named, attr_stack.named, hnamed]

def file_elem : Option Bytes → List named_elem
  | none => []
  | some buf => [⟨none, rules_of true (file_lines buf)⟩]

theorem push_file_held {p : process} {stack : List named_elem} (h : Held p stack)
    (file : Option Bytes) :
    Held (push_file p file) (file_elem file ++ stack) ∧ p.attrs <+: (push_file p file).attrs := by
  cases file with
  | none => exact ⟨h, List.prefix_refl _⟩
  | some buf => exact push_elem_held h none true (file_lines buf)

/-! ## The stack by names -/

/-- At the bottom: the files of the system and of the user, and what is built in. -/
def base_stack (src : sources) : List named_elem :=
  file_elem src.attributes_file ++
    (file_elem src.etc_gitattributes ++ [⟨none, rules_of true builtin_attr⟩])

def root_elem (src : sources) : named_elem :=
  ⟨some [], rules_of true (attr_lines src GITATTRIBUTES_FILE)⟩

def dir_elem (src : sources) (dir : Bytes) : named_elem :=
  ⟨some dir, rules_of false (attr_lines src (dir ++ SLASH :: GITATTRIBUTES_FILE))⟩

def info_elem (src : sources) : named_elem :=
  ⟨none, rules_of true ((src.info_attributes.map file_lines).getD [])⟩

/-- The slashes before `k` that end a directory. -/
def dir_slashes (path : Bytes) (k : Nat) : List Nat :=
  (List.range k).filter fun n => n ≠ 0 ∧ path[n]? = some SLASH

/-- The directories of the path that end before `k`, the deepest first, and the root. -/
def dirs_to (src : sources) (path : Bytes) (k : Nat) : List named_elem :=
  ((dir_slashes path k).reverse.map fun n => dir_elem src (path.take n)) ++ [root_elem src]

/-- `info/attributes`, the directories of the path, and the base. -/
def stack_for (src : sources) (path : Bytes) : List named_elem :=
  info_elem src ::
    ((if src.by_directory then dirs_to src path path.length else []) ++ base_stack src)

theorem bootstrap_held {src : sources} {p : process} (h : Held p []) :
    Held (bootstrap_attr_stack src p) (stack_for src []) ∧
      p.attrs <+: (bootstrap_attr_stack src p).attrs := by
  have hnil : p.attr_stack = [] := List.map_eq_nil_iff.mp h.named
  unfold bootstrap_attr_stack
  rw [if_neg (not_not.mpr hnil)]
  dsimp only
  obtain ⟨hbuiltin, hgrows1⟩ := push_elem_held h none true builtin_attr
  obtain ⟨hetc, hgrows2⟩ := push_file_held hbuiltin src.etc_gitattributes
  obtain ⟨hbase, hgrows3⟩ := push_file_held hetc src.attributes_file
  have hgrows := hgrows1.trans (hgrows2.trans hgrows3)
  rw [stack_for]
  cases hdir : src.by_directory with
  | true =>
    obtain ⟨hroot, hgrows4⟩ :=
      push_elem_held hbase (some []) true (attr_lines src GITATTRIBUTES_FILE)
    obtain ⟨hinfo, hgrows5⟩ :=
      push_elem_held hroot none true ((src.info_attributes.map file_lines).getD [])
    exact ⟨hinfo, hgrows.trans (hgrows4.trans hgrows5)⟩
  | false =>
    obtain ⟨hinfo, hgrows4⟩ :=
      push_elem_held hbase none true ((src.info_attributes.map file_lines).getD [])
    exact ⟨hinfo, hgrows.trans hgrows4⟩

/-! ## Slashes -/

theorem dir_slashes_succ (path : Bytes) (k : Nat) :
    dir_slashes path (k + 1) =
      dir_slashes path k ++ if k ≠ 0 ∧ path[k]? = some SLASH then [k] else [] := by
  unfold dir_slashes
  rw [List.range_succ, List.filter_append]
  congr 1
  by_cases h : k ≠ 0 ∧ path[k]? = some SLASH
  · rw [if_pos h]
    simp [h]
  · rw [if_neg h]
    simpa using h

/-- Without slashes in between nothing is added. -/
theorem dir_slashes_same (path : Bytes) (k d : Nat)
    (h : ∀ n, k ≤ n → n < k + d → n ≠ 0 → path[n]? ≠ some SLASH) :
    dir_slashes path (k + d) = dir_slashes path k := by
  induction d with
  | zero => rfl
  | succ d ih =>
    have hnot : ¬(k + d ≠ 0 ∧ path[k + d]? = some SLASH) :=
      fun hn => h (k + d) (by omega) (by omega) hn.1 hn.2
    rw [← Nat.add_assoc, dir_slashes_succ, if_neg hnot, List.append_nil]
    exact ih fun n h1 h2 => h n h1 (by omega)

theorem dirs_to_congr (src : sources) {path path' : Bytes} {k : Nat}
    (h : path.take k = path'.take k) : dirs_to src path k = dirs_to src path' k := by
  have hget : ∀ n < k, path[n]? = path'[n]? := by
    intro n hn
    rw [← List.getElem?_take_of_lt hn, h, List.getElem?_take_of_lt hn]
  have hslashes : dir_slashes path k = dir_slashes path' k := by
    refine List.filter_congr fun n hn => ?_
    rw [hget n (List.mem_range.mp hn)]
  have htake : ∀ n ∈ dir_slashes path' k, path.take n = path'.take n := by
    intro n hn
    have hlt := List.mem_range.mp (List.mem_filter.mp hn).1
    have := congrArg (List.take n) h
    rwa [List.take_take, List.take_take, Nat.min_eq_left hlt.le] at this
  unfold dirs_to
  rw [hslashes]
  congr 1
  refine List.map_congr_left fun n hn => ?_
  rw [htake n (List.mem_reverse.mp hn)]

theorem le_dirlen {path : Bytes} {n : Nat} (h : path[n]? = some SLASH) : n ≤ dirlen path := by
  have := dir.slash_in_base h
  unfold dirlen
  omega

theorem dirlen_slash {path : Bytes} (h : dirlen path ≠ 0) : path[dirlen path]? = some SLASH :=
  dir.base_ends (by unfold dirlen at h; omega)

/-- All directories end at a slash up to the last one. -/
theorem dir_slashes_all {path : Bytes} {k : Nat} (hk : dirlen path < k ∨ dirlen path = 0) :
    dir_slashes path path.length = dir_slashes path k := by
  have hnone : ∀ n, k ≤ n → n ≠ 0 → path[n]? ≠ some SLASH := by
    intro n hkn hn hslash
    have := le_dirlen hslash
    omega
  rcases Nat.le_total k path.length with hle | hle
  · obtain ⟨d, hd⟩ := Nat.exists_eq_add_of_le hle
    rw [hd]
    exact dir_slashes_same path k d fun n hkn _ => hnone n hkn
  · obtain ⟨d, hd⟩ := Nat.exists_eq_add_of_le hle
    rw [hd]
    refine (dir_slashes_same path path.length d fun n hn _ _ hslash => ?_).symm
    rw [List.getElem?_eq_none hn] at hslash
    cases hslash

theorem next_dir_spec {path : Bytes} {len : Nat} (h : len < dirlen path) :
    len < next_dir path len ∧ path[next_dir path len]? = some SLASH ∧
      ∀ n, len < n → n < next_dir path len → path[n]? ≠ some SLASH := by
  have hlast := dirlen_slash (by omega : dirlen path ≠ 0)
  have hlt : dirlen path < path.length := (List.getElem?_eq_some_iff.mp hlast).1
  unfold next_dir
  cases hfind : dir.strchr_slash (path.take (dirlen path)) (len + 1) with
  | none =>
    refine ⟨h, hlast, fun n hn hnd hslash => ?_⟩
    rw [Option.getD_none] at hnd
    apply dir.strchr_slash_none.mp hfind n hn
    rw [List.getElem?_take_of_lt hnd]
    exact hslash
  | some j =>
    obtain ⟨hle, hslash, hbefore⟩ := dir.strchr_slash_some.mp hfind
    have hj : j < dirlen path := by
      have := (List.getElem?_eq_some_iff.mp hslash).1
      rw [List.length_take] at this
      omega
    rw [List.getElem?_take_of_lt hj] at hslash
    refine ⟨hle, hslash, fun n hn hnj hat => hbefore n hn hnj ?_⟩
    rw [Option.getD_some] at hnj
    rw [List.getElem?_take_of_lt (hnj.trans hj)]
    exact hat

/-! ## Popping -/

/-- Is an element of this origin popped? -/
def popped (path : Bytes) : Option Bytes → Bool
  | none => false
  | some origin =>
    !(origin.length ≤ dirlen path ∧ path.take origin.length = origin ∧
      (origin = [] ∨ path[origin.length]? = some SLASH) : Bool)

theorem pop_dirs_eq (path : Bytes) (l : List attr_stack) :
    pop_dirs path l = l.dropWhile fun e => popped path e.origin := by
  induction l with
  | nil => rfl
  | cons e l ih =>
    rw [pop_dirs, List.dropWhile_cons]
    cases horigin : e.origin with
    | none => rfl
    | some origin =>
      by_cases hkeep : origin.length ≤ dirlen path ∧ path.take origin.length = origin ∧
          (origin = [] ∨ path[origin.length]? = some SLASH)
      · simp [popped, hkeep]
      · simp only [popped, hkeep, if_false]
        exact ih

/-- A directory that ends at `k`. -/
theorem dirs_to_succ (src : sources) {path : Bytes} {k : Nat}
    (h : k ≠ 0 ∧ path[k]? = some SLASH) :
    dirs_to src path (k + 1) = dir_elem src (path.take k) :: dirs_to src path k := by
  unfold dirs_to
  rw [dir_slashes_succ, if_pos h, List.reverse_append]
  rfl

/-- Popping what another path left keeps directories of this path. -/
theorem pop_dirs_to (src : sources) (q path : Bytes) (below : List named_elem) (k : Nat)
    (hk : k ≤ q.length) :
    ∃ n, (dirs_to src q k ++ below).dropWhile (fun e => popped path e.origin) =
        dirs_to src path (n + 1) ++ below ∧ (n = 0 ∨ path[n]? = some SLASH) := by
  induction k with
  | zero =>
    refine ⟨0, ?_, Or.inl rfl⟩
    change List.dropWhile _ (root_elem src :: below) = root_elem src :: below
    rw [List.dropWhile_cons_of_neg]
    simp [popped, root_elem]
  | succ k ih =>
    by_cases hslash : k ≠ 0 ∧ q[k]? = some SLASH
    · have hlen : (q.take k).length = k := by
        rw [List.length_take]
        omega
      by_cases hpop : popped path (some (q.take k)) = true
      · rw [dirs_to_succ src hslash, List.cons_append, List.dropWhile_cons_of_pos (by exact hpop)]
        exact ih (by omega)
      · have hkeep : path.take k = q.take k ∧ path[k]? = some SLASH := by
          rw [popped, Bool.not_eq_true', Bool.not_eq_false, decide_eq_true_eq, hlen] at hpop
          refine ⟨hpop.2.1, hpop.2.2.resolve_left fun hnil => hslash.1 ?_⟩
          rw [← hlen, hnil, List.length_nil]
        have hsame : dirs_to src q (k + 1) = dirs_to src path (k + 1) := by
          rw [dirs_to_succ src hslash, dirs_to_succ src ⟨hslash.1, hkeep.2⟩, hkeep.1,
            dirs_to_congr src hkeep.1]
        refine ⟨k, ?_, Or.inr hkeep.2⟩
        rw [← hsame, dirs_to_succ src hslash, List.cons_append,
          List.dropWhile_cons_of_neg (by exact hpop)]
    · have hdirs : dirs_to src q (k + 1) = dirs_to src q k := by
        unfold dirs_to
        rw [dir_slashes_succ, if_neg hslash, List.append_nil]
      rw [hdirs]
      exact ih (by omega)

theorem Held.pop {p : process} {stack : List named_elem} {l : List attr_stack}
    (hnodup : p.attrs.Nodup) (hvalid : ∀ name ∈ p.attrs, invalid_attr_name name = false)
    (hknown : AllKnown p.attrs l) (hnamed : l.map attr_stack.named = stack) (path : Bytes) :
    Held { p with attr_stack := pop_dirs path l }
      (stack.dropWhile fun e => popped path e.origin) := by
  refine ⟨hnodup, hvalid, ?_, ?_⟩
  · intro e he
    rw [pop_dirs_eq] at he
    exact hknown e (List.dropWhile_subset _ he)
  · rw [pop_dirs_eq, ← hnamed, List.dropWhile_map]
    rfl

theorem file_elem_origin {file : Option Bytes} : ∀ e ∈ file_elem file, e.origin = none := by
  cases file with
  | none => exact fun e he => absurd he List.not_mem_nil
  | some buf =>
    intro e he
    rw [List.mem_singleton.mp he]

/-- The files of the system are not from a directory. -/
theorem base_origin (src : sources) : ∀ e ∈ base_stack src, e.origin = none := by
  intro e he
  rcases List.mem_append.mp he with he | he
  · exact file_elem_origin e he
  · rcases List.mem_append.mp he with he | he
    · exact file_elem_origin e he
    · rw [List.mem_singleton.mp he]

theorem base_kept (src : sources) (path : Bytes) :
    (base_stack src).dropWhile (fun e => popped path e.origin) = base_stack src := by
  have hnone := base_origin src
  cases hbase : base_stack src with
  | nil => rfl
  | cons e l =>
    rw [List.dropWhile_cons_of_neg]
    rw [hnone e (hbase ▸ List.mem_cons_self)]
    exact Bool.false_ne_true

/-! ## Pushing -/

theorem top_origin (src : sources) {path : Bytes} {n : Nat} (h : n = 0 ∨ path[n]? = some SLASH)
    (below : List named_elem) :
    ((dirs_to src path (n + 1) ++ below).head?.bind (·.origin)) = some (path.take n) := by
  by_cases hn : n = 0
  · subst hn
    rfl
  · rw [dirs_to_succ src ⟨hn, h.resolve_left hn⟩]
    rfl

theorem push_dirs_held {src : sources} {path : Bytes} {below : List named_elem} (turns : Nat) :
    ∀ {p n}, Held p (dirs_to src path (n + 1) ++ below) → (n = 0 ∨ path[n]? = some SLASH) →
      dirlen path < n + turns →
      ∃ p', push_dirs src path turns p = some p' ∧
        Held p' (dirs_to src path path.length ++ below) ∧ p.attrs <+: p'.attrs := by
  induction turns with
  | zero =>
    intro p n h hn hturns
    have hle : n ≤ dirlen path := by
      rcases hn with rfl | hn
      · exact Nat.zero_le _
      · exact le_dirlen hn
    omega
  | succ turns ih =>
    intro p n h hn hturns
    have htop : p.attr_stack.head?.bind (·.origin) = some (path.take n) := by
      have := top_origin src hn below
      rw [← h.named, List.head?_map, Option.bind_map] at this
      exact this
    have hlen : (path.take n).length = n := by
      rw [List.length_take]
      rcases hn with rfl | hn
      · exact Nat.zero_min _
      · exact Nat.min_eq_left (List.getElem?_eq_some_iff.mp hn).1.le
    rw [push_dirs, htop]
    dsimp only
    rw [hlen]
    by_cases hend : dirlen path ≤ n
    · rw [if_pos hend]
      refine ⟨p, rfl, ?_, List.prefix_refl _⟩
      have hall : dirs_to src path path.length = dirs_to src path (n + 1) := by
        unfold dirs_to
        rw [dir_slashes_all (Or.inl (Nat.lt_succ_of_le hend))]
      rw [hall]
      exact h
    · rw [if_neg hend]
      obtain ⟨hlt, hslash, hbetween⟩ := next_dir_spec (not_le.mp hend)
      have hpush : dirs_to src path (next_dir path n + 1) =
          dir_elem src (path.take (next_dir path n)) :: dirs_to src path (n + 1) := by
        rw [dirs_to_succ src ⟨by omega, hslash⟩]
        congr 1
        obtain ⟨d, hd⟩ := Nat.exists_eq_add_of_le (show n + 1 ≤ next_dir path n from hlt)
        unfold dirs_to
        rw [hd, dir_slashes_same path (n + 1) d fun m h1 h2 _ => hbetween m h1 (hd ▸ h2)]
      obtain ⟨hheld, hgrows⟩ := push_elem_held h (some (path.take (next_dir path n))) false
        (attr_lines src (path.take (next_dir path n) ++ SLASH :: GITATTRIBUTES_FILE))
      generalize push_elem p (some (path.take (next_dir path n))) false
        (attr_lines src (path.take (next_dir path n) ++ SLASH :: GITATTRIBUTES_FILE)) = p2
        at hheld hgrows ⊢
      have hheld' : Held p2 (dirs_to src path (next_dir path n + 1) ++ below) := by
        rw [hpush]
        exact hheld
      obtain ⟨p', hp', hend', hgrows'⟩ := ih hheld' (Or.inr hslash) (by omega)
      exact ⟨p', hp', hend', hgrows.trans hgrows'⟩

/-- A stack that may be there when a path is asked about. -/
def Left (src : sources) (p : process) : Prop := Held p [] ∨ ∃ q, Held p (stack_for src q)

theorem prepare_held {src : sources} {p : process} (h : Left src p) (path : Bytes) :
    ∃ p', prepare_attr_stack src path p = some p' ∧ Held p' (stack_for src path) ∧
      p.attrs <+: p'.attrs := by
  obtain ⟨q, hboot, hgrows⟩ : ∃ q, Held (bootstrap_attr_stack src p) (stack_for src q) ∧
      p.attrs <+: (bootstrap_attr_stack src p).attrs := by
    rcases h with h | ⟨q, h⟩
    · exact ⟨[], bootstrap_held h⟩
    · have hne : p.attr_stack ≠ [] := by
        intro hnil
        have := h.named
        rw [hnil] at this
        cases this
      refine ⟨q, ?_, ?_⟩
      · rwa [bootstrap_attr_stack, if_pos hne]
      · rw [bootstrap_attr_stack, if_pos hne]
  unfold prepare_attr_stack
  dsimp only
  generalize bootstrap_attr_stack src p = p1 at hboot hgrows ⊢
  obtain ⟨hnodup, hvalid, hknown, hnamed⟩ := hboot
  cases hstack : p1.attr_stack with
  | nil =>
    rw [hstack] at hnamed
    cases hnamed
  | cons info prev =>
    rw [hstack] at hknown hnamed
    rw [List.map_cons, stack_for, List.cons.injEq] at hnamed
    obtain ⟨hinfo, hprev⟩ := hnamed
    have hpop := Held.pop hnodup hvalid (fun e he => hknown e (List.mem_cons_of_mem _ he)) hprev
      path
    have hlift : ∀ p' stack, Held p' stack → p1.attrs <+: p'.attrs →
        Held { p' with attr_stack := info :: p'.attr_stack } (info_elem src :: stack) := by
      intro p' stack hheld hmore
      refine ⟨hheld.nodup, hheld.valid, fun e he => ?_, ?_⟩
      · rcases List.mem_cons.mp he with rfl | he
        · intro a ha
          exact (hknown e List.mem_cons_self a ha).mono hmore
        · exact hheld.known e he
      · change info.named :: p'.attr_stack.map attr_stack.named = _
        rw [hheld.named, hinfo]
    dsimp only
    rw [stack_for]
    cases hdir : src.by_directory with
    | false =>
      rw [hdir] at hpop
      have hpop' : Held { p1 with attr_stack := pop_dirs path prev } (base_stack src) := by
        rw [if_neg Bool.false_ne_true, List.nil_append, base_kept] at hpop
        exact hpop
      exact ⟨_, rfl, hlift _ _ hpop' (List.prefix_refl _), hgrows⟩
    | true =>
      rw [hdir, if_pos rfl] at hpop
      obtain ⟨n, hdirs, hn⟩ := pop_dirs_to src q path (base_stack src) q.length le_rfl
      rw [hdirs] at hpop
      obtain ⟨p', hp', hheld, hmore⟩ := push_dirs_held (dirlen path + 1) hpop hn (by omega)
      refine ⟨_, by rw [if_pos rfl, hp']; rfl, hlift _ _ hheld hmore, hgrows.trans hmore⟩

end git.gitattributes
