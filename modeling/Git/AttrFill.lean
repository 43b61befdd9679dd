-- What a scan of the stack decides: the assignments of the matching rules, of which the first
-- wins, with macros in their places. The numbers of the attributes do not matter.
import Git.Lib.FirstWins
import Git.Attr

open first_wins

namespace git.gitattributes

/-! ## Rules by names -/

def attr_state.named (s : attr_state) : Bytes × attr_value := (s.attr.name, s.setto)

def match_kind.named : match_kind → rule_kind
  | .pattern s => .pattern s
  | .macro_attr a => .macro_name a.name

def match_attr.named (a : match_attr) : rule := ⟨a.u.named, a.state.map attr_state.named⟩

/-- An element of the stack, by names. -/
structure named_elem where
  origin : Option Bytes
  rules : List rule

def attr_stack.named (e : attr_stack) : named_elem := ⟨e.origin, e.attrs.map match_attr.named⟩

/-- The macro of that name that counts. -/
def macro_rule (name : Bytes) : List named_elem → Option rule
  | [] => none
  | e :: prev =>
    match e.rules.reverse.find? (fun r => r.kind = .macro_name name) with
    | some r => some r
    | none => macro_rule name prev

/-- What an assignment brings along. -/
def expansion (stack : List named_elem) (name : Bytes) (setto : attr_value) :
    List (Bytes × attr_value) :=
  if setto = .ATTR__TRUE then ((macro_rule name stack).map (·.states.reverse)).getD [] else []

/-- The assignments of the rules of one element that match, the last line first. -/
def elem_assignments (src : sources) (path : Bytes) (e : named_elem) : List (Bytes × attr_value) :=
  e.rules.reverse.flatMap fun r =>
    match r.kind with
    | .macro_name _ => []
    | .pattern pattern =>
      if path_matches src path pattern (e.origin.getD []) then r.states.reverse else []

def assignments (src : sources) (path : Bytes) (stack : List named_elem) :
    List (Bytes × attr_value) :=
  stack.flatMap (elem_assignments src path)

/-! ## Numbers and names -/

/-- The number is that of the name. -/
def Known (attrs : List Bytes) (a : git_attr) : Prop := attrs[a.attr_nr]? = some a.name

def match_kind.AllKnown (attrs : List Bytes) : match_kind → Prop
  | .pattern _ => True
  | .macro_attr attr => Known attrs attr

structure match_attr.AllKnown (attrs : List Bytes) (a : match_attr) : Prop where
  u : a.u.AllKnown attrs
  state : ∀ s ∈ a.state, Known attrs s.attr

def AllKnown (attrs : List Bytes) (stack : List attr_stack) : Prop :=
  ∀ e ∈ stack, ∀ a ∈ e.attrs, a.AllKnown attrs

variable {attrs : List Bytes}

theorem Known.idxOf (hnodup : attrs.Nodup) {a : git_attr} (h : Known attrs a) :
    attrs.idxOf a.name = a.attr_nr := by
  obtain ⟨hlt, hget⟩ := List.getElem?_eq_some_iff.mp h
  rw [← hget]
  exact hnodup.idxOf_getElem _ hlt

theorem Known.lt {a : git_attr} (h : Known attrs a) : a.attr_nr < attrs.length :=
  (List.getElem?_eq_some_iff.mp h).1

theorem Known.mem {a : git_attr} (h : Known attrs a) : a.name ∈ attrs :=
  List.mem_of_getElem? h

theorem Known.name_eq_iff (hnodup : attrs.Nodup) {a b : git_attr} (ha : Known attrs a)
    (hb : Known attrs b) : a.attr_nr = b.attr_nr ↔ a.name = b.name := by
  constructor
  · intro h
    unfold Known at ha hb
    rw [h, hb] at ha
    exact (Option.some.inj ha).symm
  · intro h
    rw [← ha.idxOf hnodup, ← hb.idxOf hnodup, h]

theorem macro_of_named (hnodup : attrs.Nodup) {attr : git_attr} (ha : Known attrs attr)
    {stack : List attr_stack} (hall : AllKnown attrs stack) :
    (macro_of attr.attr_nr stack).map match_attr.named =
      macro_rule attr.name (stack.map attr_stack.named) := by
  induction stack with
  | nil => rfl
  | cons e stack ih =>
    have hrest := ih fun e' he' => hall e' (List.mem_cons_of_mem _ he')
    rw [List.map_cons, macro_of, macro_rule]
    generalize hfound : List.find? _ e.attrs.reverse = found
    have hfind : found.map match_attr.named =
        e.named.rules.reverse.find? fun r => r.kind = .macro_name attr.name := by
      rw [← hfound, attr_stack.named, ← List.map_reverse, List.find?_map]
      refine congrArg (Option.map match_attr.named) (List.find?_congr ?_)
      intro ma hma
      have hknown := (hall e List.mem_cons_self ma (List.mem_reverse.mp hma)).u
      rw [Function.comp_apply, match_attr.named]
      cases hu : ma.u with
      | pattern pattern => rfl
      | macro_attr a =>
        rw [hu] at hknown
        have hiff := Known.name_eq_iff hnodup hknown ha
        simp only [match_kind.named, rule_kind.macro_name.injEq]
        rw [Bool.beq_eq_decide_eq]
        exact decide_eq_decide.mpr hiff
    rw [← hfind]
    cases found with
    | none => exact hrest
    | some a => rfl

theorem macro_of_known {attr_nr : Nat} {stack : List attr_stack} (hall : AllKnown attrs stack)
    {a : match_attr} (h : macro_of attr_nr stack = some a) : a.AllKnown attrs := by
  induction stack with
  | nil => cases h
  | cons e stack ih =>
    rw [macro_of] at h
    split at h
    · next a' hfind =>
      rw [← Option.some.inj h]
      exact hall e List.mem_cons_self a' (List.mem_reverse.mp (List.mem_of_find?_eq_some hfind))
    · exact ih (fun e' he' => hall e' (List.mem_cons_of_mem _ he')) h

/-! ## Values by names -/

def values (attrs : List Bytes) (value : Nat → Option attr_value) (name : Bytes) :
    Option attr_value :=
  value (attrs.idxOf name)

theorem values_known (hnodup : attrs.Nodup) {a : git_attr} (h : Known attrs a)
    (value : Nat → Option attr_value) : values attrs value a.name = value a.attr_nr := by
  rw [values, h.idxOf hnodup]

theorem values_update (hnodup : attrs.Nodup) {a : git_attr} (h : Known attrs a)
    (value : Nat → Option attr_value) (b : attr_value) :
    values attrs (Function.update value a.attr_nr (some b)) =
      Function.update (values attrs value) a.name (some b) := by
  funext name
  by_cases hname : name = a.name
  · rw [hname, values_known hnodup h, Function.update_self, Function.update_self]
  · rw [values, Function.update_of_ne hname, Function.update_of_ne, values]
    intro hnr
    by_cases hmem : name ∈ attrs
    · rw [← h.idxOf hnodup] at hnr
      exact hname (List.idxOf_inj hmem |>.mp hnr)
    · rw [List.idxOf_eq_length hmem] at hnr
      exact absurd h.lt (by omega)

/-- The attributes whose values are unknown. -/
def unknown (attrs : List Bytes) (value : Nat → Option attr_value) : Finset Nat :=
  (Finset.range attrs.length).filter fun i => value i = none

theorem unknown_update {a : git_attr} (h : Known attrs a) {value : Nat → Option attr_value}
    (hnone : value a.attr_nr = none) (b : attr_value) :
    (unknown attrs (Function.update value a.attr_nr (some b))).card + 1 =
      (unknown attrs value).card := by
  have hmem : a.attr_nr ∈ unknown attrs value :=
    Finset.mem_filter.mpr ⟨Finset.mem_range.mpr h.lt, hnone⟩
  have herase : unknown attrs (Function.update value a.attr_nr (some b)) =
      (unknown attrs value).erase a.attr_nr := by
    ext i
    rw [Finset.mem_erase, unknown, unknown, Finset.mem_filter, Finset.mem_filter]
    by_cases hi : i = a.attr_nr
    · rw [hi, Function.update_self]
      simp
    · rw [Function.update_of_ne hi]
      simp [hi]
  rw [herase, Finset.card_erase_add_one hmem]

theorem known_of_none_unknown {value : Nat → Option attr_value} (h : (unknown attrs value).card = 0)
    {a : git_attr} (ha : Known attrs a) : value a.attr_nr ≠ none := by
  rw [Finset.card_eq_zero, unknown, Finset.filter_eq_empty_iff] at h
  exact h (Finset.mem_range.mpr ha.lt)

/-! ## Filling in -/

/-- The count is right. -/
def Counted (attrs : List Bytes) (c : checking) : Prop := c.rem = (unknown attrs c.value).card

/-- The outcome of a scan: it goes on with the count, and has settled these assignments. -/
structure Filled (attrs : List Bytes) (stack : List attr_stack) (l : List (Bytes × attr_value))
    (c c' : checking) : Prop where
  counted : Counted attrs c'
  le : c'.rem ≤ c.rem
  settles : Settles (expansion (stack.map attr_stack.named)) (values attrs c.value) l
    (values attrs c'.value)

variable {stack : List attr_stack}

theorem Filled.nil {c : checking} (h : Counted attrs c) : Filled attrs stack [] c c :=
  ⟨h, le_refl _, .done _⟩

theorem Filled.append {l l' : List (Bytes × attr_value)} {c c₁ c₂ : checking}
    (h : Filled attrs stack l c c₁) (h' : Filled attrs stack l' c₁ c₂) :
    Filled attrs stack (l ++ l') c c₂ :=
  ⟨h'.counted, h'.le.trans h.le, h.settles.append h'.settles⟩

/-- When nothing is unknown, what is left of a scan changes nothing. -/
theorem Filled.of_rem (hnodup : attrs.Nodup) {c : checking} (h : Counted attrs c)
    (hrem : c.rem = 0) {l : List (Bytes × attr_value)}
    (hl : ∀ x ∈ l, ∃ a : git_attr, Known attrs a ∧ a.name = x.1) : Filled attrs stack l c c := by
  refine ⟨h, le_refl _, Settles.of_known fun x hx => ?_⟩
  obtain ⟨a, ha, hname⟩ := hl x hx
  rw [← hname, values_known hnodup ha]
  exact known_of_none_unknown (h.symm.trans hrem) ha

/-- A loop that scans one thing after the other. -/
theorem filled_foldlM {α : Type} (scan : checking → α → Option checking)
    (said : α → List (Bytes × attr_value)) (bound : Nat) (l : List α)
    (hscan : ∀ x ∈ l, ∀ c, Counted attrs c → c.rem ≤ bound →
      ∃ c', scan c x = some c' ∧ Filled attrs stack (said x) c c') :
    ∀ c, Counted attrs c → c.rem ≤ bound →
      ∃ c', l.foldlM scan c = some c' ∧ Filled attrs stack (l.flatMap said) c c' := by
  induction l with
  | nil => exact fun c hc _ => ⟨c, rfl, Filled.nil hc⟩
  | cons x l ih =>
    intro c hc hbound
    obtain ⟨c₁, h₁, hfilled₁⟩ := hscan x List.mem_cons_self c hc hbound
    obtain ⟨c₂, h₂, hfilled₂⟩ := ih (fun y hy => hscan y (List.mem_cons_of_mem _ hy)) c₁
      hfilled₁.counted (hfilled₁.le.trans hbound)
    refine ⟨c₂, ?_, ?_⟩
    · rw [List.foldlM_cons, h₁]
      exact h₂
    · rw [List.flatMap_cons]
      exact hfilled₁.append hfilled₂

/-- One state of a rule: a new value, and what it brings along. -/
theorem fill_one_filled (hnodup : attrs.Nodup) (hall : AllKnown attrs stack) (depth : Nat) :
    ∀ a : match_attr, a.AllKnown attrs → ∀ c, Counted attrs c → c.rem < depth →
      ∃ c', fill_one stack depth a c = some c' ∧
        Filled attrs stack a.named.states.reverse c c' := by
  induction depth with
  | zero => exact fun a _ c _ h => absurd h (Nat.not_lt_zero _)
  | succ depth ih =>
    intro a ha c hc hdepth
    have hflat : a.named.states.reverse =
        a.state.reverse.flatMap fun s : attr_state => [s.named] := by
      rw [match_attr.named, ← List.map_reverse, List.map_eq_flatMap]
    rw [hflat]
    refine filled_foldlM _ (fun s : attr_state => [s.named]) depth _ ?_ c hc (by omega)
    intro s hs c hc hle
    have hknown := ha.state s (List.mem_reverse.mp hs)
    by_cases hrem : c.rem = 0
    · refine ⟨c, if_pos hrem, Filled.of_rem hnodup hc hrem fun x hx => ?_⟩
      rw [List.mem_singleton.mp hx]
      exact ⟨s.attr, hknown, rfl⟩
    rw [if_neg hrem]
    by_cases hvalue : c.value s.attr.attr_nr ≠ none
    · refine ⟨c, if_pos hvalue, hc, le_refl _, .known ?_ (.done _)⟩
      rw [values_known hnodup hknown]
      exact hvalue
    rw [if_neg hvalue]
    have hnone := not_not.mp hvalue
    -- the value, and one unknown less
    obtain ⟨c₁, hc₁⟩ : ∃ c₁ : checking,
        c₁ = ⟨Function.update c.value s.attr.attr_nr (some s.setto), c.rem - 1⟩ := ⟨_, rfl⟩
    have hcount := unknown_update hknown hnone s.setto
    have hcounted : Counted attrs c₁ := by
      rw [hc₁, Counted]
      unfold Counted at hc
      dsimp only
      omega
    have hless : c₁.rem + 1 = c.rem := by
      rw [hc₁]
      dsimp only
      omega
    -- so what it brings along is scanned no deeper than it may be
    have hsettle : ∀ c', Filled attrs stack
        (expansion (stack.map attr_stack.named) s.attr.name s.setto) c₁ c' →
        Filled attrs stack [s.named] c c' := by
      intro c' h
      refine ⟨h.counted, h.le.trans (by omega), .assign ?_ ?_⟩
      · rw [values_known hnodup hknown]
        exact hnone
      · have hsettles := h.settles
        rw [hc₁, values_update hnodup hknown] at hsettles
        rw [List.append_nil]
        exact hsettles
    dsimp only
    rw [← hc₁]
    by_cases htrue : s.setto ≠ .ATTR__TRUE
    · rw [if_pos htrue]
      refine ⟨c₁, rfl, hsettle c₁ ?_⟩
      rw [expansion, if_neg htrue]
      exact Filled.nil hcounted
    · rw [if_neg htrue]
      have hmacro := macro_of_named hnodup hknown hall
      rw [not_not.mp htrue] at hsettle
      cases hfound : macro_of s.attr.attr_nr stack with
      | none =>
        rw [hfound] at hmacro
        refine ⟨c₁, rfl, hsettle c₁ ?_⟩
        rw [expansion, if_pos rfl, ← hmacro]
        exact Filled.nil hcounted
      | some a' =>
        have ha' := macro_of_known hall hfound
        rw [hfound] at hmacro
        obtain ⟨c', hc', hfilled⟩ := ih a' ha' c₁ hcounted (by omega)
        refine ⟨c', hc', hsettle c' ?_⟩
        rw [expansion, if_pos rfl, ← hmacro]
        exact hfilled

/-- One element of the stack. -/
theorem fill_filled (hnodup : attrs.Nodup) (hall : AllKnown attrs stack) (src : sources)
    (path : Bytes) {depth : Nat} {e : attr_stack} (he : e ∈ stack) :
    ∀ c, Counted attrs c → c.rem < depth →
      ∃ c', fill src stack depth path e c = some c' ∧
        Filled attrs stack (elem_assignments src path e.named) c c' := by
  intro c hc hdepth
  obtain ⟨bound, rfl⟩ : ∃ bound, depth = bound + 1 := ⟨depth - 1, by omega⟩
  rw [elem_assignments, attr_stack.named, ← List.map_reverse, List.flatMap_map]
  refine filled_foldlM _ _ bound _ ?_ c hc (by omega)
  intro a ha c hc hle
  have hknown := hall e he a (List.mem_reverse.mp ha)
  have hkind : a.named.kind = a.u.named := rfl
  by_cases hrem : c.rem = 0
  · refine ⟨c, if_pos hrem, Filled.of_rem hnodup hc hrem fun x hx => ?_⟩
    cases hu : a.u with
    | macro_attr attr =>
      rw [hkind, hu] at hx
      exact absurd hx List.not_mem_nil
    | pattern pattern =>
      rw [hkind, hu] at hx
      dsimp only [match_kind.named] at hx
      split_ifs at hx
      · obtain ⟨s, hs, rfl⟩ := List.mem_map.mp (List.mem_reverse.mp hx)
        exact ⟨s.attr, hknown.state s hs, rfl⟩
      · exact absurd hx List.not_mem_nil
  rw [if_neg hrem]
  cases hu : a.u with
  | macro_attr attr =>
    rw [hkind, hu]
    exact ⟨c, rfl, Filled.nil hc⟩
  | pattern pattern =>
    rw [hkind, hu]
    dsimp only [match_kind.named]
    by_cases hmatches : path_matches src path pattern (e.origin.getD [])
    · rw [if_pos hmatches, if_pos hmatches]
      exact fill_one_filled hnodup hall (bound + 1) a hknown c hc (by omega)
    · rw [if_neg hmatches, if_neg hmatches]
      exact ⟨c, rfl, Filled.nil hc⟩

/-- The loop over the stack, from nothing known. -/
theorem scan_filled (hnodup : attrs.Nodup) (hall : AllKnown attrs stack) (src : sources)
    (path : Bytes) :
    ∃ c, stack.foldlM (fun c stk =>
        if c.rem = 0 then some c else fill src stack (attrs.length + 1) path stk c)
          ⟨fun _ => none, attrs.length⟩ = some c ∧
      Settles (expansion (stack.map attr_stack.named)) (fun _ => none)
        (assignments src path (stack.map attr_stack.named)) (values attrs c.value) := by
  have hstart : Counted attrs ⟨fun _ => none, attrs.length⟩ := by
    rw [Counted, unknown, Finset.filter_true_of_mem fun _ _ => rfl, Finset.card_range]
  have hsaid : assignments src path (stack.map attr_stack.named) =
      stack.flatMap fun e => elem_assignments src path e.named := by
    rw [assignments, List.flatMap_map]
  have hscan : ∀ e ∈ stack, ∀ c, Counted attrs c → c.rem ≤ attrs.length →
      ∃ c', (if c.rem = 0 then some c else fill src stack (attrs.length + 1) path e c) = some c' ∧
        Filled attrs stack (elem_assignments src path e.named) c c' := by
    intro e he c hc hle
    by_cases hrem : c.rem = 0
    · refine ⟨c, if_pos hrem, Filled.of_rem hnodup hc hrem fun x hx => ?_⟩
      obtain ⟨r, hr, hx⟩ := List.mem_flatMap.mp hx
      obtain ⟨a, ha, rfl⟩ := List.mem_map.mp (List.mem_reverse.mp hr)
      rw [match_attr.named] at hx
      cases hu : a.u with
      | macro_attr attr =>
        rw [hu] at hx
        exact absurd hx List.not_mem_nil
      | pattern pattern =>
        rw [hu] at hx
        dsimp only [match_kind.named] at hx
        split_ifs at hx
        · obtain ⟨s, hs, rfl⟩ := List.mem_map.mp (List.mem_reverse.mp hx)
          exact ⟨s.attr, (hall e he a ha).state s hs, rfl⟩
        · exact absurd hx List.not_mem_nil
    · rw [if_neg hrem]
      exact fill_filled hnodup hall src path he c hc (by omega)
  obtain ⟨c, hc, hfilled⟩ := filled_foldlM _ _ attrs.length stack hscan _ hstart (le_refl _)
  refine ⟨c, hc, ?_⟩
  rw [hsaid]
  exact hfilled.settles

end git.gitattributes
