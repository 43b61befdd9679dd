-- The short-cuts for patterns without wildcards give the verdict of `fnmatch`, and
-- a list decides by the last of its patterns that applies.
import Git.ExcludeStack

namespace git.dir

open compat

/-! ## The short-cuts -/

/-- What a pattern says by `fnmatch` alone. The buffer holds the directory of the path. -/
def pattern_matches (w : surroundings) (p : Bytes) (x : exclude) : Bool :=
  if SLASH ∉ x.pattern then fnmatch_icase w x.pattern (p.drop (base_length p)) false
  else
    decide (x.baselen ≤ p.length) && (x.baselen = 0 || p[x.baselen - 1]? = some SLASH) &&
      strncmp_icase w p (x.base.deref p) x.baselen &&
      fnmatch_icase w (if x.pattern.head? = some SLASH then x.pattern.tail else x.pattern)
        (p.drop x.baselen) true

theorem strcmp_icase_fold (w : surroundings) (pathname : Bool) (a b : Bytes) :
    strcmp_icase w a b = true ↔
      a.map (FOLD ⟨pathname, w.ignore_case⟩) = b.map (FOLD ⟨pathname, w.ignore_case⟩) := by
  unfold strcmp_icase FOLD
  cases w.ignore_case with
  | true => simp
  | false => simp

theorem no_wildcard_literal {s : Bytes} (h : no_wildcard s = true) : Literal s := by
  intro c hc
  have hchar := of_decide_eq_true (List.all_eq_true.mp h c hc)
  exact ⟨hchar.1, hchar.2.1, hchar.2.2.1, hchar.2.2.2.2⟩

/-- A pattern without wildcards is compared as a string. -/
theorem strcmp_icase_eq_fnmatch {s : Bytes} (h : Literal s) (w : surroundings) (n : Bytes)
    (pathname : Bool) : strcmp_icase w s n = fnmatch_icase w s n pathname := by
  rw [Bool.eq_iff_iff, strcmp_icase_fold w pathname]
  exact (fnmatch_literal _ h n).symm

/-- A suffix without slashes is one of the name behind the last slash. -/
theorem suffix_basename {s : Bytes} (hs : SLASH ∉ s) (p : Bytes) (f : UInt8 → UInt8)
    (hf : f SLASH = SLASH) :
    s <:+ p.map f ↔ s <:+ (p.drop (base_length p)).map f := by
  constructor
  · intro hsuffix
    rcases base_split p with ⟨-, hzero⟩ | ⟨a, b, hp, -, hlength⟩
    · rw [hzero, List.drop_zero]
      exact hsuffix
    · have hdrop : p.drop (base_length p) = b := by
        have hsplit : p = (a ++ [SLASH]) ++ b := by
          rw [hp, List.append_assoc]
          rfl
        rw [hlength, hsplit]
        exact List.drop_left' (by rw [List.length_append, List.length_singleton])
      rw [hdrop]
      rw [hp, List.map_append, List.map_cons, hf] at hsuffix
      have hname : b.map f <:+ a.map f ++ SLASH :: b.map f :=
        ⟨a.map f ++ [SLASH], by rw [List.append_assoc]; rfl⟩
      rcases List.suffix_or_suffix_of_suffix hsuffix hname with h | ⟨t, ht⟩
      · exact h
      · obtain ⟨u, hu⟩ := hsuffix
        rw [← ht, ← List.append_assoc] at hu
        have hcut : u ++ t = a.map f ++ [SLASH] := by
          have hright : a.map f ++ SLASH :: b.map f = (a.map f ++ [SLASH]) ++ b.map f := by
            rw [List.append_assoc]
            rfl
          rw [hright] at hu
          exact List.append_cancel_right hu
        rcases List.eq_nil_or_concat t with rfl | ⟨t', c, rfl⟩
        · rw [← ht]
          exact List.suffix_rfl
        · have hlast : c = SLASH := by
            have hgetLast := congrArg List.getLast? hcut
            rw [List.concat_eq_append, ← List.append_assoc, List.getLast?_concat,
              List.getLast?_concat] at hgetLast
            exact Option.some.inj hgetLast
          apply absurd _ hs
          rw [← ht, hlast, List.concat_eq_append]
          exact List.mem_append_left _ (List.mem_append_right _ (List.mem_singleton_self _))
  · intro hsuffix
    exact hsuffix.trans ((List.drop_suffix _ _).map f)

theorem FOLD_slash (flags : fnm_flags) (c : UInt8) : FOLD flags c = SLASH ↔ c = SLASH := by
  unfold FOLD
  split_ifs with hfold
  · by_cases hupper : isupper c = true
    · obtain ⟨hlow, -⟩ := tolower_upper hupper
      constructor
      · intro heq
        rw [heq] at hlow
        exact absurd hlow (by decide)
      · rintro rfl
        exact absurd hupper (by decide)
    · unfold tolower
      rw [if_neg hupper]
  · exact Iff.rfl

/-- The end of the path is compared where the path is long enough. -/
theorem endswith_suffix (w : surroundings) (pathname : Bool) {rest : Bytes} (p : Bytes) :
    (rest.length ≤ p.length ∧ strcmp_icase w rest (p.drop (p.length - rest.length)) = true) ↔
      rest.map (FOLD ⟨pathname, w.ignore_case⟩) <:+ p.map (FOLD ⟨pathname, w.ignore_case⟩) := by
  rw [strcmp_icase_fold w pathname, List.suffix_iff_eq_drop, List.length_map, List.length_map,
    List.map_drop]
  constructor
  · exact fun h => h.2
  · intro heq
    refine ⟨?_, heq⟩
    have hlength := congrArg List.length heq
    rw [List.length_map, List.length_drop, List.length_map] at hlength
    omega

/-- `*` and a string are compared with the end of the path. -/
theorem endswith_eq_fnmatch (w : surroundings) (p : Bytes) {rest : Bytes} (h : Literal rest)
    (hslash : SLASH ∉ rest) :
    (decide ((STAR :: rest).length - 1 ≤ p.length) &&
        strcmp_icase w ((STAR :: rest).drop 1) (p.drop (p.length + 1 - (STAR :: rest).length))) =
      fnmatch_icase w (STAR :: rest) (p.drop (base_length p)) false := by
  have hindex : p.length + 1 - (STAR :: rest).length = p.length - rest.length := by
    rw [List.length_cons]
    omega
  have hfold : SLASH ∉ rest.map (FOLD ⟨false, w.ignore_case⟩) := by
    intro hmem
    obtain ⟨c, hc, heq⟩ := List.mem_map.mp hmem
    rw [(FOLD_slash _ c).mp heq] at hc
    exact hslash hc
  unfold fnmatch_icase
  rw [Bool.eq_iff_iff, Bool.and_eq_true, decide_eq_true_eq, hindex,
    fnmatch_star_literal rfl h, ← suffix_basename hfold p _ ((FOLD_slash _ SLASH).mpr rfl)]
  exact endswith_suffix w false p

/-- The short-cuts give the same verdict as `fnmatch`. -/
theorem match_exclude_eq (w : surroundings) (basebuf p : Bytes) (x : exclude)
    (hbase : x.base = .basebuf → basebuf.take x.baselen = p.take x.baselen) :
    match_exclude w basebuf p (p.drop (base_length p)) x = pattern_matches w p x := by
  unfold match_exclude pattern_matches
  rw [x.nodir]
  by_cases hslash : SLASH ∉ x.pattern
  · rw [if_pos (decide_eq_true hslash), if_pos hslash, x.nowildcard, x.endswith]
    split_ifs with hplain hends
    · exact strcmp_icase_eq_fnmatch (no_wildcard_literal hplain) w _ false
    · rw [Bool.and_eq_true, decide_eq_true_eq] at hends
      obtain ⟨hstar, hrest⟩ := hends
      obtain ⟨rest, hpattern⟩ : ∃ rest, x.pattern = STAR :: rest := by
        cases hp : x.pattern with
        | nil =>
          rw [hp] at hstar
          cases hstar
        | cons c rest =>
          rw [hp] at hstar
          exact ⟨rest, by rw [Option.some.inj hstar]⟩
      rw [hpattern] at hrest hslash ⊢
      exact endswith_eq_fnmatch w p (no_wildcard_literal hrest)
        fun hmem => hslash (List.mem_cons_of_mem _ hmem)
    · rfl
  · rw [if_neg (by simpa using hslash), if_neg hslash, x.nowildcard]
    simp only
    have hbegins : strncmp_icase w p (x.base.deref basebuf) x.baselen =
        strncmp_icase w p (x.base.deref p) x.baselen := by
      cases hb : x.base with
      | string s => rfl
      | basebuf =>
        unfold strncmp_icase base_pointer.deref
        simp only
        rw [hbase hb]
    have hverdict : (if no_wildcard x.pattern = true then
          strcmp_icase w (if x.pattern.head? = some SLASH then x.pattern.tail else x.pattern)
            (p.drop x.baselen)
        else fnmatch_icase w (if x.pattern.head? = some SLASH then x.pattern.tail else x.pattern)
            (p.drop x.baselen) true) =
        fnmatch_icase w (if x.pattern.head? = some SLASH then x.pattern.tail else x.pattern)
            (p.drop x.baselen) true := by
      by_cases hplain : no_wildcard x.pattern = true
      · have hwhole := no_wildcard_literal hplain
        rw [if_pos hplain]
        apply strcmp_icase_eq_fnmatch
        split_ifs
        · exact fun c hc => hwhole c (List.mem_of_mem_tail hc)
        · exact hwhole
      · rw [if_neg hplain]
    rw [hbegins, hverdict]
    by_cases hlength : x.baselen ≤ p.length
    · rw [decide_eq_true hlength, Bool.true_and]
      by_cases hend : x.baselen = 0 ∨ p[x.baselen - 1]? = some SLASH
      · have hends : (decide (x.baselen = 0) || decide (p[x.baselen - 1]? = some SLASH)) = true := by
          simpa using hend
        rw [hends, Bool.true_and]
        cases strncmp_icase w p (x.base.deref p) x.baselen with
        | true =>
          rw [if_neg, Bool.true_and]
          rintro (hlong | ⟨hne, hnot⟩ | hdiffer)
          · exact absurd hlength (not_le.mpr hlong)
          · exact absurd hend (not_or.mpr ⟨hne, hnot⟩)
          · cases hdiffer
        | false => rw [if_pos (Or.inr (Or.inr Bool.not_false)), Bool.false_and]
      · have hends : (decide (x.baselen = 0) || decide (p[x.baselen - 1]? = some SLASH)) =
            false := by
          simpa using hend
        rw [hends, if_pos (Or.inr (Or.inl (not_or.mp hend)))]
        rfl
    · rw [decide_eq_false hlength, if_pos (Or.inl (not_le.mp hlength))]
      rfl

/-! ## The last pattern that applies -/

/-- The type of the path, which is looked up where it is not known. -/
def resolve (w : surroundings) (p : Bytes) (dt : dtype) : dtype :=
  if dt = .DT_UNKNOWN then w.get_dtype p else dt

/-- A pattern for directories applies to directories only. -/
def pattern_applies (w : surroundings) (p : Bytes) (dt : dtype) (x : exclude) : Bool :=
  (!x.EXC_FLAG_MUSTBEDIR || resolve w p dt = .DT_DIR) && pattern_matches w p x

/-- The sign of the last pattern that applies. -/
def last_match (w : surroundings) (p : Bytes) (dt : dtype) (el : List exclude) : Bool :=
  ((el.reverse.find? (pattern_applies w p dt)).map exclude.to_exclude).getD false

theorem resolve_resolve (w : surroundings) (p : Bytes) (dt : dtype) :
    resolve w p (resolve w p dt) = resolve w p dt := by
  unfold resolve
  split_ifs <;> rfl

theorem pattern_applies_congr {w : surroundings} {p : Bytes} {dt dt' : dtype}
    (h : resolve w p dt' = resolve w p dt) :
    pattern_applies w p dt' = pattern_applies w p dt := by
  funext x
  unfold pattern_applies
  rw [h]

/-- The buffer holds what the patterns point to. -/
def Based (basebuf p : Bytes) (el : List exclude) : Prop :=
  ∀ x ∈ el, x.base = .basebuf → basebuf.take x.baselen = p.take x.baselen

theorem Based.append {basebuf p : Bytes} {el el' : List exclude} (h : Based basebuf p el)
    (h' : Based basebuf p el') : Based basebuf p (el ++ el') := by
  intro x hx
  rcases List.mem_append.mp hx with hx | hx
  · exact h x hx
  · exact h' x hx

/-- The scan finds the first that applies, and looks up the type at most. -/
theorem excluded_from_list_eq (w : surroundings) {basebuf p : Bytes} {el : List exclude}
    (h : Based basebuf p el) :
    ∀ dt, (excluded_from_list w basebuf p (p.drop (base_length p)) el dt).1 =
        (el.find? (pattern_applies w p dt)).map exclude.to_exclude ∧
      resolve w p (excluded_from_list w basebuf p (p.drop (base_length p)) el dt).2 =
        resolve w p dt := by
  induction el with
  | nil => exact fun _ => ⟨rfl, rfl⟩
  | cons x el ih =>
    have hrest := ih fun y hy => h y (List.mem_cons_of_mem x hy)
    have hmatch := match_exclude_eq w basebuf p x (h x List.mem_cons_self)
    intro dt
    rw [excluded_from_list, hmatch, List.find?_cons]
    by_cases hdir : x.EXC_FLAG_MUSTBEDIR = true
    · have hlook : (if x.EXC_FLAG_MUSTBEDIR = true ∧ dt = .DT_UNKNOWN then w.get_dtype p
          else dt) = resolve w p dt := by
        unfold resolve
        rw [hdir]
        simp
      have hsame := resolve_resolve w p dt
      obtain ⟨hfound, htype⟩ := hrest (resolve w p dt)
      rw [pattern_applies_congr hsame] at hfound
      rw [hlook]
      have happly : pattern_applies w p dt x =
          (decide (resolve w p dt = .DT_DIR) && pattern_matches w p x) := by
        unfold pattern_applies
        rw [hdir]
        rfl
      rw [happly]
      by_cases his : resolve w p dt = .DT_DIR
      · rw [if_neg (fun hnot => hnot.2 his), decide_eq_true his, Bool.true_and]
        cases pattern_matches w p x with
        | true => exact ⟨rfl, hsame⟩
        | false => exact ⟨hfound, htype.trans hsame⟩
      · rw [if_pos ⟨hdir, his⟩, decide_eq_false his, Bool.false_and]
        exact ⟨hfound, htype.trans hsame⟩
    · obtain ⟨hfound, htype⟩ := hrest dt
      have happly : pattern_applies w p dt x = pattern_matches w p x := by
        unfold pattern_applies
        rw [Bool.eq_false_iff.mpr hdir]
        rfl
      have hlook : (if x.EXC_FLAG_MUSTBEDIR = true ∧ dt = .DT_UNKNOWN then w.get_dtype p
          else dt) = dt := if_neg fun hnot => hdir hnot.1
      rw [hlook, if_neg fun hnot => hdir hnot.1, happly]
      cases pattern_matches w p x with
      | true => exact ⟨rfl, rfl⟩
      | false => exact ⟨hfound, htype⟩

/-- The lists are scanned as one. -/
theorem excluded_from_lists_eq (w : surroundings) {basebuf p : Bytes} {lists : List (List exclude)}
    (h : ∀ el ∈ lists, Based basebuf p el) :
    ∀ dt, (excluded_from_lists w basebuf p (p.drop (base_length p)) lists dt).1 =
      last_match w p dt lists.reverse.flatten := by
  induction lists with
  | nil => exact fun _ => rfl
  | cons el lists ih =>
    intro dt
    have hel : Based basebuf p el.reverse := fun x hx =>
      h el List.mem_cons_self x (List.mem_reverse.mp hx)
    obtain ⟨hfound, htype⟩ := excluded_from_list_eq w hel dt
    have hrest := ih (fun el' hel' => h el' (List.mem_cons_of_mem el hel'))
      (excluded_from_list w basebuf p (p.drop (base_length p)) el.reverse dt).2
    have hlast : last_match w p dt (el :: lists).reverse.flatten =
        (((el.reverse.find? (pattern_applies w p dt)).or
          (lists.reverse.flatten.reverse.find? (pattern_applies w p dt))).map
            exclude.to_exclude).getD false := by
      unfold last_match
      rw [List.reverse_cons, List.flatten_append, List.flatten_singleton, List.reverse_append,
        List.find?_append]
    rw [hlast, excluded_from_lists]
    unfold last_match at hrest
    rw [pattern_applies_congr htype] at hrest
    cases hscan : excluded_from_list w basebuf p (p.drop (base_length p)) el.reverse dt with
    | mk verdict dt' =>
      rw [hscan] at hfound hrest
      cases hfind : el.reverse.find? (pattern_applies w p dt) with
      | some x =>
        rw [hfind] at hfound
        rw [show verdict = some x.to_exclude from hfound]
        rfl
      | none =>
        rw [hfind] at hfound
        rw [show verdict = none from hfound, Option.none_or]
        exact hrest

end git.dir
