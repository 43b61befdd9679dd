-- `normalize_path_copy` follows the components: what the two pointers have behind them at each
-- turn, and the path that is left.
import Git.NormalizePath

namespace git.normalize_path

open byte_memory

/-! ## The two pointers -/

/-- `dst` is behind what was written, `src` in front of what is still to be read. What was
written is no longer than what was read. -/
structure At (dst0 src0 len : Nat) (mem : memory) (dst src : Nat) (out rest : Bytes) : Prop where
  dst_eq : dst = dst0 + out.length
  src_eq : src + rest.length = src0 + len
  room : out.length + rest.length ≤ len
  done : Holds mem dst0 out
  unread : Holds mem src (rest ++ [0])

/-- The buffers are one, or apart. -/
def Apart (dst0 src0 len : Nat) : Prop := dst0 = src0 ∨ dst0 + len < src0 ∨ src0 + len < dst0

section
variable {dst0 src0 len : Nat} {mem : memory} {dst src : Nat} {out rest : Bytes} {c : UInt8}

theorem At.char (h : At dst0 src0 len mem dst src out (c :: rest)) : mem src = c := h.unread.head

theorem At.char_end (h : At dst0 src0 len mem dst src out []) : mem src = 0 := h.unread.head

theorem At.skip (h : At dst0 src0 len mem dst src out (c :: rest)) :
    At dst0 src0 len mem dst (src + 1) out rest ∧ out.length + rest.length < len := by
  have hsrc := h.src_eq
  have hroom := h.room
  rw [List.length_cons] at hsrc hroom
  exact ⟨⟨h.dst_eq, by omega, by omega, h.done, h.unread.tail⟩, by omega⟩

/-- A write does not reach what is still to be read. -/
theorem At.write (h : At dst0 src0 len mem dst src out rest) (hapart : Apart dst0 src0 len)
    (hroom : out.length + rest.length < len) (c : UInt8) :
    At dst0 src0 len (byte_memory.write mem dst c) (dst + 1) src (out ++ [c]) rest := by
  have hdst := h.dst_eq
  have hsrc := h.src_eq
  refine ⟨?_, hsrc, ?_, ?_, h.unread.write_outside ?_ c⟩
  · rw [List.length_append, List.length_singleton]
    omega
  · rw [List.length_append, List.length_singleton]
    omega
  · rw [hdst]
    exact h.done.write_behind c
  · intro i hi
    rw [List.length_append, List.length_singleton] at hi
    rcases hapart with heq | hbelow | habove <;> omega

theorem At.terminate (h : At dst0 src0 len mem dst src out rest) :
    Holds (byte_memory.write mem dst 0) dst0 (out ++ [0]) := by
  rw [h.dst_eq]
  exact h.done.write_behind 0

theorem eat_slashes_spec {turns : Nat} (h : At dst0 src0 len mem dst src out rest)
    (hturns : rest.length ≤ turns) :
    At dst0 src0 len mem dst (eat_slashes mem turns src) out (rest.dropWhile (· = SLASH)) := by
  induction turns generalizing src rest with
  | zero =>
    obtain rfl : rest = [] := List.length_eq_zero_iff.mp (Nat.le_zero.mp hturns)
    exact h
  | succ turns ih =>
    cases rest with
    | nil =>
      rw [eat_slashes, h.char_end, if_neg (by decide)]
      exact h
    | cons c rest =>
      rw [eat_slashes, h.char]
      by_cases hc : c = SLASH
      · rw [if_pos hc, List.dropWhile_cons_of_pos (by simpa using hc)]
        exact ih h.skip.1 (Nat.le_of_succ_le_succ hturns)
      · rw [if_neg hc, List.dropWhile_cons_of_neg (by simpa using hc)]
        exact h

/-- The copy of a component stops at the byte behind it. -/
theorem copy_component_spec {turns : Nat} {name : Bytes} (hapart : Apart dst0 src0 len)
    (h : At dst0 src0 len mem dst src out (name ++ rest)) (hslash : SLASH ∉ name)
    (hnul : (0 : UInt8) ∉ name) (hrest : ∀ c ∈ rest.head?, c = SLASH)
    (hturns : name.length < turns) :
    ∃ mem' dst' src', copy_component turns mem dst src = (mem', dst', src' + 1, rest.headD 0) ∧
      At dst0 src0 len mem' dst' src' (out ++ name) rest := by
  induction name generalizing turns mem dst src out with
  | nil =>
    obtain ⟨turns, rfl⟩ := Nat.exists_eq_add_one_of_ne_zero (Nat.ne_zero_of_lt hturns)
    rw [List.nil_append] at h
    refine ⟨mem, dst, src, ?_, by rwa [List.append_nil]⟩
    cases rest with
    | nil => simp [copy_component, h.char_end]
    | cons c rest =>
      have hc : c = SLASH := hrest c rfl
      simp [copy_component, h.char, hc]
  | cons c name ih =>
    obtain ⟨turns, rfl⟩ := Nat.exists_eq_add_one_of_ne_zero (Nat.ne_zero_of_lt hturns)
    obtain ⟨hc, hslash⟩ : c ≠ SLASH ∧ SLASH ∉ name := by simpa [eq_comm] using hslash
    obtain ⟨hc0, hnul⟩ : c ≠ 0 ∧ (0 : UInt8) ∉ name := by simpa [eq_comm] using hnul
    rw [List.cons_append] at h
    obtain ⟨hskip, hroom⟩ := h.skip
    have hwrite := hskip.write hapart hroom c
    obtain ⟨mem', dst', src', heq, hat⟩ :=
      ih hwrite hslash hnul (Nat.lt_of_succ_lt_succ hturns)
    refine ⟨mem', dst', src', ?_, by simpa using hat⟩
    rw [copy_component]
    simp only [h.char, hc, hc0, ne_eq, not_false_eq_true, and_self, if_true, heq]

/-- Going back stops at the slash in front of the component. -/
theorem strip_component_spec {base name : Bytes} (h : Holds mem dst0 (base ++ name))
    (hbase : base = [] ∨ base.getLast? = some SLASH) (hslash : SLASH ∉ name) :
    strip_component mem dst0 (dst0 + (base ++ name).length) = dst0 + base.length := by
  induction name using List.reverseRecOn with
  | nil =>
    rw [List.append_nil] at h ⊢
    rcases hbase with rfl | hbase
    · rw [List.length_nil, Nat.add_zero]
      cases dst0 with
      | zero => rfl
      | succ n => rw [strip_component, if_neg (by omega)]
    · obtain ⟨b, rfl⟩ := List.getLast?_eq_some_iff.mp hbase
      have hlast : mem (dst0 + b.length) = SLASH := h b.length SLASH (by simp)
      rw [List.length_append, List.length_singleton, ← Nat.add_assoc, strip_component,
        if_neg (by simp [hlast])]
  | append_singleton name c ih =>
    obtain ⟨hname, hc⟩ : SLASH ∉ name ∧ c ≠ SLASH := by simpa [eq_comm] using hslash
    have hlast : mem (dst0 + (base ++ name).length) = c := by
      refine h _ c ?_
      rw [← List.append_assoc]
      simp
    rw [← List.append_assoc] at h
    have hlength : dst0 + (base ++ name ++ [c]).length = dst0 + (base ++ name).length + 1 := by
      rw [List.length_append, List.length_singleton, ← Nat.add_assoc]
    rw [← List.append_assoc, hlength, strip_component, hlast, if_pos ⟨by omega, hc⟩]
    exact ih h.left hname

end

/-! ## The components -/

theorem components_last {name : Bytes} (h : SLASH ∉ name) : components name = [name] :=
  List.splitOn_eq_singleton h

theorem components_more {name : Bytes} (h : SLASH ∉ name) (rest : Bytes) :
    components (name ++ SLASH :: rest) = name :: components rest :=
  List.splitOn_append_cons_self_of_not_mem h rest

theorem components_slash (rest : Bytes) : components (SLASH :: rest) = [] :: components rest :=
  components_more List.not_mem_nil rest

theorem ends_open_more {name : Bytes} (h : SLASH ∉ name) (rest : Bytes) :
    ends_open (name ++ SLASH :: rest) = ends_open rest := by
  have hne : components rest ≠ [] := List.splitOn_ne_nil _ _
  rw [ends_open, ends_open, components_more h, List.getLast?_cons_of_ne_nil hne]

theorem fold_cons (name : Bytes) (stack path : List Bytes) :
    fold_components stack (name :: path) =
      if name = [] ∨ name = DOT then fold_components stack path
      else if name = DOT_DOT then
        match stack with
        | [] => none
        | _ :: stack => fold_components stack path
      else fold_components (name :: stack) path := by
  cases stack <;> rfl

theorem fold_dropped {name : Bytes} (h : name = [] ∨ name = DOT) (stack path : List Bytes) :
    fold_components stack (name :: path) = fold_components stack path := by
  rw [fold_cons, if_pos h]

theorem fold_pushed {name : Bytes} (h : name ≠ [] ∧ name ≠ DOT ∧ name ≠ DOT_DOT)
    (stack path : List Bytes) :
    fold_components stack (name :: path) = fold_components (name :: stack) path := by
  rw [fold_cons, if_neg (by simp [h.1, h.2.1]), if_neg h.2.2]

theorem fold_popped (stack path : List Bytes) :
    fold_components stack (DOT_DOT :: path) =
      match stack with
      | [] => none
      | _ :: stack => fold_components stack path := by
  rw [fold_cons, if_neg (by decide), if_pos rfl]

/-- Further slashes change nothing. -/
theorem eaten_eq (rest : Bytes) (stack : List Bytes) :
    fold_components stack (components (rest.dropWhile (· = SLASH))) =
        fold_components stack (components rest) ∧
      ends_open (rest.dropWhile (· = SLASH)) = ends_open rest := by
  induction rest with
  | nil => exact ⟨rfl, rfl⟩
  | cons c rest ih =>
    by_cases hc : c = SLASH
    · subst hc
      rw [List.dropWhile_cons_of_pos (by simp), components_slash, fold_dropped (Or.inl rfl)]
      refine ⟨ih.1, ih.2.trans ?_⟩
      exact (ends_open_more List.not_mem_nil rest).symm
    · rw [List.dropWhile_cons_of_neg (by simpa using hc)]
      exact ⟨rfl, rfl⟩

/-- A component that is written. -/
structure Kept (name : Bytes) : Prop where
  not_dropped : name ≠ [] ∧ name ≠ DOT ∧ name ≠ DOT_DOT
  no_slash : SLASH ∉ name

/-- What the output is when these components are left, the last one first: each with a slash
behind it. -/
def written (lead : Bytes) (stack : List Bytes) : Bytes :=
  lead ++ stack.reverse.flatMap (· ++ [SLASH])

theorem written_cons (lead name : Bytes) (stack : List Bytes) :
    written lead (name :: stack) = written lead stack ++ name ++ [SLASH] := by
  simp [written]

theorem written_closed {lead : Bytes} (hlead : lead = [] ∨ lead = [SLASH]) (stack : List Bytes) :
    written lead stack = [] ∨ (written lead stack).getLast? = some SLASH := by
  cases stack with
  | nil => rcases hlead with rfl | rfl <;> simp [written]
  | cons name stack =>
    rw [written_cons, List.getLast?_concat]
    exact Or.inr rfl

/-- The output at the end: the last slash goes if the end is not open. -/
def ended (lead : Bytes) (stack : List Bytes) (is_open : Bool) : Bytes :=
  if is_open then written lead stack else (written lead stack).dropLast

/-! ## The loop -/

section
variable {dst0 src0 len : Nat} {mem : memory} {dst src : Nat} {out name rest : Bytes}

theorem At.second (h : At dst0 src0 len mem dst src out rest) {i : Nat} {c : UInt8}
    (hi : (rest ++ [0])[i]? = some c) : mem (src + i) = c := h.unread i c hi

/-- Which of the tests of a component's first bytes holds. -/
theorem tests_iff (name rest : Bytes) (h : At dst0 src0 len mem dst src out (name ++ rest))
    (hslash : SLASH ∉ name) (hnul : (0 : UInt8) ∉ name) (hrest : ∀ c ∈ rest.head?, c = SLASH) :
    ((mem src = 46 ∧ mem (src + 1) = SLASH) ↔ name = DOT ∧ rest ≠ []) ∧
      ((mem src = 46 ∧ mem (src + 1) = 46 ∧ (mem (src + 2) = 0 ∨ mem (src + 2) = SLASH)) ↔
        name = DOT_DOT) ∧
      ((mem src = 46 ∧ mem (src + 1) = 0) ↔ name = DOT ∧ rest = []) := by
  have hbehind : (rest = [] ∧ rest.headD 0 = 0) ∨ (rest ≠ [] ∧ rest.headD 0 = SLASH) := by
    cases rest with
    | nil => exact Or.inl ⟨rfl, rfl⟩
    | cons c rest => exact Or.inr ⟨by simp, hrest c rfl⟩
  have hget : ∀ i c, (name ++ [rest.headD 0])[i]? = some c → mem (src + i) = c := by
    intro i c hi
    refine h.unread i c ?_
    cases rest with
    | nil => simpa using hi
    | cons d rest =>
      have hsplit : name ++ d :: rest ++ [0] = (name ++ [d]) ++ (rest ++ [0]) := by simp
      have hi' : (name ++ [d])[i]? = some c := hi
      rw [hsplit, List.getElem?_append_left (List.getElem?_eq_some_iff.mp hi').1]
      exact hi'
  have hends : rest.headD 0 ≠ 46 := by
    rcases hbehind with ⟨-, hd⟩ | ⟨-, hd⟩ <;> rw [hd] <;> decide
  have hplain : ∀ (i : Nat) (c : UInt8), name[i]? = some c → c ≠ 0 ∧ c ≠ SLASH := by
    intro i c hi
    have hmem := List.mem_of_getElem? hi
    exact ⟨fun h0 => hnul (h0 ▸ hmem), fun hs => hslash (hs ▸ hmem)⟩
  -- The byte behind the component.
  generalize rest.headD 0 = e at hbehind hget hends
  rcases name with _ | ⟨a, _ | ⟨b, _ | ⟨d, name⟩⟩⟩
  · have h0 : mem src = e := hget 0 e (by simp)
    simp [h0, hends, DOT, DOT_DOT]
  · have h0 : mem src = a := hget 0 a (by simp)
    have h1 : mem (src + 1) = e := hget 1 e (by simp)
    rw [h0, h1]
    rcases hbehind with ⟨rfl, rfl⟩ | ⟨hne, rfl⟩
    · simp [DOT, DOT_DOT, show (0 : UInt8) ≠ SLASH by decide]
    · simp [DOT, DOT_DOT, hne, show SLASH ≠ (0 : UInt8) by decide, hends]
  · have h0 : mem src = a := hget 0 a (by simp)
    have h1 : mem (src + 1) = b := hget 1 b (by simp)
    have h2 : mem (src + 2) = e := hget 2 e (by simp)
    have hb := hplain 1 b (by simp)
    have hend : e = 0 ∨ e = SLASH := hbehind.imp (·.2) (·.2)
    rw [h0, h1, h2]
    simp [hb.1, hb.2, hend, DOT, DOT_DOT]
  · have h1 : mem (src + 1) = b := hget 1 b (by simp)
    have h2 : mem (src + 2) = d := hget 2 d (by simp)
    have hb := hplain 1 b (by simp)
    have hd := hplain 2 d (by simp)
    rw [h1, h2]
    simp [hb.1, hb.2, hd.1, hd.2, DOT, DOT_DOT]

/-- What the loop has to give when these components are left. -/
def Gives (dst0 len : Nat) (lead : Bytes) (is_open : Bool) (r : Int × memory) :
    Option (List Bytes) → Prop
  | none => r.1 = -1
  | some stack => r.1 = 0 ∧ Holds r.2 dst0 (ended lead stack is_open ++ [0]) ∧
      (ended lead stack is_open).length ≤ len ∧ (is_open = false → stack ≠ [])

theorem At.pop {lead : Bytes} {stack : List Bytes} (hlead : lead = [] ∨ lead = [SLASH])
    (hname : Kept name)
    (h : At dst0 src0 len mem dst src (written lead (name :: stack)) rest) :
    dst0 < dst - 1 ∧
      At dst0 src0 len mem (strip_component mem dst0 (dst - 1)) src (written lead stack) rest := by
  have hpos : 0 < name.length := List.length_pos_of_ne_nil hname.not_dropped.1
  obtain ⟨hdst, hsrc, hroom, hwritten, hunread⟩ := h
  rw [written_cons] at hdst hroom hwritten
  have hback : dst - 1 = dst0 + (written lead stack ++ name).length := by
    rw [hdst, List.length_append, List.length_singleton]
    omega
  have hstrip := strip_component_spec hwritten.left (written_closed hlead stack) hname.no_slash
  rw [hback, hstrip]
  simp only [List.length_append, List.length_singleton] at hroom ⊢
  exact ⟨by omega, rfl, hsrc, by omega, hwritten.left.left, hunread⟩

theorem At.nothing_to_pop {lead : Bytes} (hlead : lead = [] ∨ lead = [SLASH])
    (h : At dst0 src0 len mem dst src (written lead []) rest) : dst - 1 ≤ dst0 := by
  have hdst := h.dst_eq
  have hlen : (written lead []).length ≤ 1 := by
    rcases hlead with rfl | rfl <;> simp [written]
  omega

/-- The code behind `up_one`. -/
theorem up_one_spec {turns : Nat} {lead : Bytes} (hlead : lead = [] ∨ lead = [SLASH])
    {stack : List Bytes} (hstack : ∀ c ∈ stack, Kept c)
    (h : At dst0 src0 len mem dst src (written lead stack) rest)
    (hloop : ∀ {stack : List Bytes} {dst : Nat}, (∀ c ∈ stack, Kept c) →
      At dst0 src0 len mem dst src (written lead stack) rest →
      Gives dst0 len lead (ends_open rest) (component_loop dst0 turns mem dst src)
        (fold_components stack (components rest)))
    (path : List Bytes) (hpath : ∀ stack, fold_components stack path =
      fold_components stack (components rest)) :
    Gives dst0 len lead (ends_open rest)
      (if dst - 1 ≤ dst0 then (-1, mem)
        else component_loop dst0 turns mem (strip_component mem dst0 (dst - 1)) src)
      (fold_components stack (DOT_DOT :: path)) := by
  rw [fold_popped]
  cases stack with
  | nil =>
    rw [if_pos (h.nothing_to_pop hlead)]
    rfl
  | cons name stack =>
    obtain ⟨hlt, hat⟩ := h.pop hlead (hstack name List.mem_cons_self)
    rw [if_neg (by omega)]
    simp only [hpath]
    exact hloop (fun c hc => hstack c (List.mem_cons_of_mem _ hc)) hat

/-- The copy of the last component, and the NUL. -/
theorem copy_last (hapart : Apart dst0 src0 len)
    (h : At dst0 src0 len mem dst src out name) (hslash : SLASH ∉ name)
    (hnul : (0 : UInt8) ∉ name) {turns : Nat} (hturns : name.length < turns) :
    ∃ mem' dst' src', copy_component turns mem dst src = (mem', dst', src', 0) ∧
      Holds (byte_memory.write mem' dst' 0) dst0 (out ++ name ++ [0]) ∧
      (out ++ name).length ≤ len := by
  have hname : At dst0 src0 len mem dst src out (name ++ []) := by rwa [List.append_nil]
  obtain ⟨mem', dst', src', heq, hat⟩ :=
    copy_component_spec hapart hname hslash hnul (by simp) hturns
  exact ⟨mem', dst', src' + 1, heq, hat.terminate, by simpa using hat.room⟩

theorem head_eaten (rest : Bytes) : (rest.dropWhile (· = SLASH)).head? ≠ some SLASH := by
  intro h
  have hnot := List.head?_dropWhile_not (· = SLASH) rest
  rw [h] at hnot
  simp at hnot

theorem component_loop_spec (hapart : Apart dst0 src0 len) {lead : Bytes}
    (hlead : lead = [] ∨ lead = [SLASH]) (turns : Nat) {stack : List Bytes}
    (hstack : ∀ c ∈ stack, Kept c)
    (h : At dst0 src0 len mem dst src (written lead stack) rest) (hnul : (0 : UInt8) ∉ rest)
    (hhead : rest.head? ≠ some SLASH) (hturns : rest.length < turns) :
    Gives dst0 len lead (ends_open rest) (component_loop dst0 turns mem dst src)
      (fold_components stack (components rest)) := by
  induction turns generalizing mem dst src stack rest with
  | zero => exact absurd hturns (Nat.not_lt_zero _)
  | succ turns ih =>
    rw [component_loop]
    dsimp only
    by_cases hmem : SLASH ∈ rest
    · obtain ⟨name, r, rfl, hslash⟩ := List.eq_append_cons_of_mem hmem
      obtain ⟨hname0, hr0⟩ : (0 : UInt8) ∉ name ∧ (0 : UInt8) ∉ r := by
        simp only [List.mem_append, List.mem_cons, not_or] at hnul
        exact ⟨hnul.1, hnul.2.2⟩
      have hne : name ≠ [] := by
        rintro rfl
        exact hhead rfl
      have hlong : r.length < turns := by
        have hpos : 0 < name.length := List.length_pos_of_ne_nil hne
        simp only [List.length_append, List.length_cons] at hturns
        omega
      obtain ⟨htwo, hthree, hone⟩ := tests_iff name (SLASH :: r) h hslash hname0 (by simp)
      rw [ends_open_more hslash, components_more hslash]
      have heaten : ∀ {mem : memory} {dst src : Nat} {stack : List Bytes},
          (∀ c ∈ stack, Kept c) →
          At dst0 src0 len mem dst src (written lead stack) (r.dropWhile (· = SLASH)) →
          Gives dst0 len lead (ends_open r) (component_loop dst0 turns mem dst src)
            (fold_components stack (components r)) := by
        intro mem dst src stack hkept hat
        rw [← (eaten_eq r stack).1, ← (eaten_eq r stack).2]
        refine ih hkept hat (fun h0 => hr0 ((List.dropWhile_sublist _).mem h0)) (head_eaten r) ?_
        exact lt_of_le_of_lt (List.dropWhile_sublist _).length_le hlong
      by_cases hdot : name = DOT
      · subst hdot
        rw [if_pos (htwo.mpr ⟨rfl, List.cons_ne_nil _ _⟩), fold_dropped (Or.inr rfl)]
        exact heaten hstack (eat_slashes_spec h.skip.1.skip.1 hlong.le)
      rw [if_neg fun htest => hdot (htwo.mp htest).1]
      by_cases hdots : name = DOT_DOT
      · subst hdots
        have hthird : mem (src + 2) = SLASH := h.second (i := 2) (by simp [DOT_DOT])
        have hslash0 : ¬ SLASH = 0 := by decide
        rw [if_pos (hthree.mpr rfl), hthird, if_neg hslash0, ← (eaten_eq r []).2]
        refine up_one_spec hlead hstack (eat_slashes_spec h.skip.1.skip.1.skip.1 hlong.le) ?_ _
          fun stack => ((eaten_eq r stack).1).symm
        intro stack dst hkept hat
        rw [(eaten_eq r stack).1, (eaten_eq r stack).2]
        exact heaten hkept hat
      rw [if_neg fun htest => hdots (hthree.mp htest),
        if_neg fun htest => hdot (hone.mp htest).1]
      obtain ⟨mem', dst', src', heq, hat⟩ := copy_component_spec hapart h hslash hname0 (by simp)
        (show name.length < turns + 1 by simp only [List.length_append] at hturns; omega)
      obtain ⟨hskip, hroom⟩ := hat.skip
      have hwrite := hskip.write hapart hroom SLASH
      rw [← written_cons] at hwrite
      rw [heq, fold_pushed ⟨hne, hdot, hdots⟩]
      dsimp only
      rw [if_pos (show (SLASH :: r).headD 0 = SLASH from rfl)]
      refine heaten ?_ (eat_slashes_spec hwrite hlong.le)
      rintro c hc
      rcases List.mem_cons.mp hc with rfl | hc
      · exact ⟨⟨hne, hdot, hdots⟩, hslash⟩
      · exact hstack c hc
    · -- The last component.
      obtain ⟨htwo, hthree, hone⟩ :=
        tests_iff rest [] (by rwa [List.append_nil]) hmem hnul (by simp)
      have hnot : ¬ (0 : UInt8) = SLASH := by decide
      rw [if_neg fun htest => (htwo.mp htest).2 rfl, components_last hmem]
      by_cases hdots : rest = DOT_DOT
      · subst hdots
        have hthird : mem (src + 2) = 0 := h.second (i := 2) (by simp [DOT_DOT])
        rw [if_pos (hthree.mpr rfl), if_pos hthird]
        refine up_one_spec hlead hstack h.skip.1.skip.1 ?_ [] fun stack => rfl
        intro stack dst hkept hat
        exact ih hkept hat (by simp) (by simp) (by simp [DOT_DOT] at hturns ⊢; omega)
      rw [if_neg fun htest => hdots (hthree.mp htest)]
      by_cases hdot : rest = DOT
      · subst hdot
        obtain ⟨mem', dst', src', heq, hholds, hlen⟩ :=
          copy_last hapart h.skip.1 (by simp) (by simp) (Nat.succ_pos turns)
        rw [if_pos (hone.mpr ⟨rfl, rfl⟩), heq, fold_dropped (Or.inr rfl)]
        dsimp only
        rw [if_neg hnot]
        exact ⟨rfl, by simpa [ended, ends_open, components_last hmem] using hholds,
          by simpa [ended, ends_open, components_last hmem] using hlen,
          fun h => absurd h (by decide)⟩
      obtain ⟨mem', dst', src', heq, hholds, hlen⟩ := copy_last hapart h hmem hnul hturns
      rw [if_neg fun htest => hdot (hone.mp htest).1, heq]
      dsimp only
      rw [if_neg hnot]
      by_cases hempty : rest = []
      · subst hempty
        rw [fold_dropped (Or.inl rfl)]
        exact ⟨rfl, by simpa [ended, ends_open, components] using hholds,
          by simpa [ended, ends_open, components] using hlen,
          fun h => absurd h (by decide)⟩
      · have hclosed : ends_open rest = false := by
          simp [ends_open, components_last hmem, hempty, hdot, hdots]
        have hended : ended lead (rest :: stack) false = written lead stack ++ rest := by
          rw [ended, if_neg Bool.false_ne_true, written_cons, List.dropLast_concat]
        rw [fold_pushed ⟨hempty, hdot, hdots⟩, hclosed]
        exact ⟨rfl, by rwa [hended], by rwa [hended], fun _ => List.cons_ne_nil _ _⟩

end

/-! ## The whole function -/

/-- Whatever holds of the components that are written holds of those that are left. -/
theorem fold_upholds {P : Bytes → Prop} {path stack left : List Bytes} (hstack : ∀ c ∈ stack, P c)
    (hpath : ∀ c ∈ path, c ≠ [] ∧ c ≠ DOT ∧ c ≠ DOT_DOT → P c)
    (h : fold_components stack path = some left) : ∀ c ∈ left, P c := by
  induction path generalizing stack with
  | nil =>
    obtain rfl := Option.some.inj h
    exact hstack
  | cons name path ih =>
    have hrest : ∀ c ∈ path, c ≠ [] ∧ c ≠ DOT ∧ c ≠ DOT_DOT → P c :=
      fun c hc => hpath c (List.mem_cons_of_mem _ hc)
    by_cases hdropped : name = [] ∨ name = DOT
    · rw [fold_dropped hdropped] at h
      exact ih hstack hrest h
    · by_cases hdots : name = DOT_DOT
      · subst hdots
        rw [fold_popped] at h
        cases stack with
        | nil => cases h
        | cons d stack => exact ih (fun c hc => hstack c (List.mem_cons_of_mem _ hc)) hrest h
      · rw [not_or] at hdropped
        have hname : name ≠ [] ∧ name ≠ DOT ∧ name ≠ DOT_DOT := ⟨hdropped.1, hdropped.2, hdots⟩
        rw [fold_pushed hname] at h
        refine ih ?_ hrest h
        rintro c hc
        rcases List.mem_cons.mp hc with rfl | hc
        · exact hpath c List.mem_cons_self hname
        · exact hstack c hc

theorem fold_kept {path : Bytes} {left : List Bytes}
    (h : fold_components [] (components path) = some left) : ∀ c ∈ left, Kept c :=
  fold_upholds (by simp) (fun _ hc hname => ⟨hname, fields.notMem_of_mem hc⟩) h

theorem fold_no_nul {path : Bytes} {left : List Bytes} (hnul : (0 : UInt8) ∉ path)
    (h : fold_components [] (components path) = some left) : ∀ c ∈ left, (0 : UInt8) ∉ c :=
  fold_upholds (by simp)
    (fun _ hc _ h0 => hnul ((fields.mem_iff (by decide) path).mpr ⟨_, hc, h0⟩)) h

theorem flatMap_slash {names : List Bytes} (h : names ≠ []) :
    names.flatMap (· ++ [SLASH]) = [SLASH].intercalate names ++ [SLASH] := by
  induction names with
  | nil => exact absurd rfl h
  | cons name names ih =>
    cases names with
    | nil => simp
    | cons d names =>
      rw [List.flatMap_cons, ih (List.cons_ne_nil _ _)]
      simp

/-- What the loop ends with is the normal path. -/
theorem ended_eq {lead : Bytes} {stack : List Bytes} {is_open : Bool}
    (h : is_open = false → stack ≠ []) :
    ended lead stack is_open =
      lead ++ [SLASH].intercalate stack.reverse ++
        if stack ≠ [] ∧ is_open = true then [SLASH] else [] := by
  by_cases hstack : stack = []
  · subst hstack
    have hopen : is_open = true := by
      by_contra hclosed
      exact h (by simpa using hclosed) rfl
    simp [ended, hopen, written]
  · have hwritten : written lead stack = lead ++ [SLASH].intercalate stack.reverse ++ [SLASH] := by
      rw [written, flatMap_slash (by simpa using hstack), List.append_assoc]
    cases is_open with
    | true => simp [ended, hwritten, hstack]
    | false => simp [ended, hwritten]

/-- The slash in front. -/
def lead_of (path : Bytes) : Bytes := if path.head? = some SLASH then [SLASH] else []

theorem lead_of_cases (path : Bytes) : lead_of path = [] ∨ lead_of path = [SLASH] := by
  unfold lead_of
  split
  · exact Or.inr rfl
  · exact Or.inl rfl

theorem normalize_path_copy_spec {mem : memory} {dst src : Nat} {path : Bytes} {turns : Nat}
    (hnul : (0 : UInt8) ∉ path) (hsrc : Holds mem src (path ++ [0]))
    (hapart : Apart dst src path.length) (hturns : path.length < turns) :
    Gives dst path.length (lead_of path) (ends_open path) (normalize_path_copy turns mem dst src)
      (fold_components [] (components path)) := by
  have hstart : At dst src path.length mem dst src [] path :=
    ⟨rfl, rfl, by simp, .nil mem dst, hsrc⟩
  rw [normalize_path_copy]
  by_cases hlead : path.head? = some SLASH
  · obtain ⟨rest, rfl⟩ : ∃ rest, path = SLASH :: rest := by
      cases path with
      | nil => cases hlead
      | cons c rest => exact ⟨rest, by simpa using hlead⟩
    obtain ⟨turns, rfl⟩ := Nat.exists_eq_add_one_of_ne_zero (Nat.ne_zero_of_lt hturns)
    have hrest0 : (0 : UInt8) ∉ rest := fun h0 => hnul (List.mem_cons_of_mem _ h0)
    have hlong : rest.length ≤ turns := Nat.le_of_lt_succ (Nat.lt_of_succ_lt hturns)
    obtain ⟨hskip, hroom⟩ := hstart.skip
    have hwrite := hskip.write hapart hroom SLASH
    -- The slash that is read again is the one that was there, or that was written over it.
    have hagain : write mem dst SLASH src = SLASH := by
      by_cases hsame : src = dst
      · rw [hsame, write_self]
      · rw [write_other hsame, hstart.char]
    rw [if_pos hstart.char]
    dsimp only
    rw [eat_slashes, if_pos hagain, components_slash, fold_dropped (Or.inl rfl),
      ← (eaten_eq rest []).1, show ends_open (SLASH :: rest) = ends_open rest from
        ends_open_more List.not_mem_nil rest, ← (eaten_eq rest []).2, lead_of, if_pos hlead]
    refine component_loop_spec hapart (Or.inr rfl) _ (by simp) ?_ ?_ (head_eaten rest) ?_
    · exact eat_slashes_spec hwrite hlong
    · exact fun h0 => hrest0 ((List.dropWhile_sublist _).mem h0)
    · exact Nat.lt_succ_of_le ((List.dropWhile_sublist _).length_le.trans hlong)
  · have hfirst : mem src ≠ SLASH := by
      cases path with
      | nil =>
        rw [hstart.char_end]
        decide
      | cons c rest =>
        rw [hstart.char]
        exact fun hc => hlead (by rw [hc]; rfl)
    rw [if_neg hfirst, lead_of, if_neg hlead]
    exact component_loop_spec hapart (Or.inl rfl) _ (by simp) hstart hnul hlead hturns

theorem components_flatMap {names : List Bytes} (h : ∀ c ∈ names, SLASH ∉ c) (rest : Bytes) :
    components (names.flatMap (· ++ [SLASH]) ++ rest) = names ++ components rest := by
  induction names with
  | nil => rfl
  | cons name names ih =>
    rw [List.flatMap_cons, List.append_assoc, List.append_assoc, List.singleton_append,
      components_more (h name List.mem_cons_self),
      ih fun c hc => h c (List.mem_cons_of_mem _ hc), List.cons_append]

theorem fold_pushed_all {names : List Bytes} (h : ∀ c ∈ names, Kept c) (stack path : List Bytes) :
    fold_components stack (names ++ path) = fold_components (names.reverse ++ stack) path := by
  induction names generalizing stack with
  | nil => rfl
  | cons name names ih =>
    rw [List.cons_append, fold_pushed (h name List.mem_cons_self).not_dropped,
      ih fun c hc => h c (List.mem_cons_of_mem _ hc), List.reverse_cons, List.append_assoc,
      List.singleton_append]

/-- The text at the end, by its components: those with a slash behind them, and the last one. -/
theorem ended_shape (lead : Bytes) {stack : List Bytes} {is_open : Bool}
    (hstack : ∀ c ∈ stack, Kept c) (h : is_open = false → stack ≠ []) :
    ∃ (names : List Bytes) (last : Bytes),
      ended lead stack is_open = lead ++ (names.flatMap (· ++ [SLASH]) ++ last) ∧
      (∀ c ∈ names, Kept c) ∧ SLASH ∉ last ∧ fold_components names.reverse [last] = some stack ∧
      is_open = decide (last = [] ∨ last = DOT ∨ last = DOT_DOT) := by
  cases is_open with
  | true =>
    refine ⟨stack.reverse, [], by simp [ended, written], ?_, by simp, ?_, by simp⟩
    · exact fun c hc => hstack c (List.mem_reverse.mp hc)
    · rw [List.reverse_reverse, fold_dropped (Or.inl rfl)]
      rfl
  | false =>
    obtain ⟨last, stack, rfl⟩ := List.exists_cons_of_ne_nil (h rfl)
    have hlast := hstack last List.mem_cons_self
    refine ⟨stack.reverse, last, ?_, ?_, hlast.no_slash, ?_, ?_⟩
    · rw [ended, if_neg Bool.false_ne_true, written_cons, List.dropLast_concat, written,
        List.append_assoc]
    · exact fun c hc => hstack c (List.mem_cons_of_mem _ (List.mem_reverse.mp hc))
    · rw [List.reverse_reverse, fold_pushed hlast.not_dropped]
      rfl
    · simp [hlast.not_dropped]

theorem components_lead {lead : Bytes} (hlead : lead = [] ∨ lead = [SLASH]) (rest : Bytes)
    (stack : List Bytes) :
    fold_components stack (components (lead ++ rest)) = fold_components stack (components rest) ∧
      ends_open (lead ++ rest) = ends_open rest := by
  rcases hlead with rfl | rfl
  · exact ⟨rfl, rfl⟩
  · rw [List.singleton_append, components_slash, fold_dropped (Or.inl rfl)]
    exact ⟨rfl, ends_open_more List.not_mem_nil rest⟩

/-- The path that is left is normal already. -/
theorem normal_ended {lead : Bytes} (hlead : lead = [] ∨ lead = [SLASH]) {stack : List Bytes}
    {is_open : Bool} (hstack : ∀ c ∈ stack, Kept c) (h : is_open = false → stack ≠ []) :
    normal (ended lead stack is_open) = some (ended lead stack is_open) := by
  obtain ⟨names, last, hshape, hnames, hlast, hfold, hopen⟩ := ended_shape lead hstack h
  have hcomponents : components (names.flatMap (· ++ [SLASH]) ++ last) = names ++ [last] := by
    rw [components_flatMap fun c hc => (hnames c hc).no_slash, components_last hlast]
  have hclosed : ends_open (names.flatMap (· ++ [SLASH]) ++ last) = is_open := by
    rw [ends_open, hcomponents, List.getLast?_concat, hopen]
    rfl
  have hhead : (names.flatMap (· ++ [SLASH]) ++ last).head? ≠ some SLASH := by
    intro hslash
    cases names with
    | nil => exact hlast (List.mem_of_mem_head? (by simpa using hslash))
    | cons name names =>
      have hname := hnames name List.mem_cons_self
      obtain ⟨c, rest, rfl⟩ := List.exists_cons_of_ne_nil hname.not_dropped.1
      refine hname.no_slash ?_
      have hc : c = SLASH := by simpa using hslash
      exact hc ▸ List.mem_cons_self
  have hlead_eq :
      (if (ended lead stack is_open).head? = some SLASH then [SLASH] else []) = lead := by
    rw [hshape]
    rcases hlead with rfl | rfl
    · rw [List.nil_append, if_neg hhead]
    · rfl
  rw [normal, hlead_eq]
  conv_lhs =>
    rw [hshape, (components_lead hlead _ []).1, (components_lead hlead _ []).2, hcomponents,
      hclosed, fold_pushed_all hnames, List.append_nil, hfold]
  rw [Option.map_some, ended_eq h]

theorem ended_no_nul {lead : Bytes} (hlead : lead = [] ∨ lead = [SLASH]) {stack : List Bytes}
    (h : ∀ c ∈ stack, (0 : UInt8) ∉ c) (is_open : Bool) :
    (0 : UInt8) ∉ ended lead stack is_open := by
  have hslash : (0 : UInt8) ≠ SLASH := by decide
  have hwritten : (0 : UInt8) ∉ written lead stack := by
    rcases hlead with rfl | rfl <;> simpa [written, hslash] using h
  unfold ended
  split
  · exact hwritten
  · exact fun h0 => hwritten (List.mem_of_mem_dropLast h0)

/-- The function returns 0 if no `..` finds the stack of components empty, and -1 otherwise. What
it leaves at `dst` is the normal path, which it leaves as it is from then on. -/
theorem normalize_path_copy_normal (mem : memory) (dst src : Nat) (path : Bytes) (turns : Nat)
    (hnul : (0 : UInt8) ∉ path) (hsrc : Holds mem src (path ++ [0]))
    (hapart : Apart dst src path.length) (hturns : path.length < turns) :
    match normal path, normalize_path_copy turns mem dst src with
    | none, (ret, _) => ret = -1
    | some left, (ret, mem') =>
      ret = 0 ∧ Holds mem' dst (left ++ [0]) ∧ left.length ≤ path.length ∧
        normal left = some left ∧
        (normalize_path_copy turns mem' dst dst).1 = 0 ∧
        Holds (normalize_path_copy turns mem' dst dst).2 dst (left ++ [0]) := by
  have hgives := normalize_path_copy_spec hnul hsrc hapart hturns
  cases hfold : fold_components [] (components path) with
  | none =>
    rw [hfold] at hgives
    have hnormal : normal path = none := by rw [normal, hfold, Option.map_none]
    rw [hnormal]
    exact hgives
  | some stack =>
    rw [hfold] at hgives
    obtain ⟨hret, hholds, hlen, hopen⟩ := hgives
    have hlead := lead_of_cases path
    have hnormal : normal path = some (ended (lead_of path) stack (ends_open path)) := by
      rw [normal, hfold, Option.map_some, ended_eq hopen]
      rfl
    have hnul' := ended_no_nul hlead (fold_no_nul hnul hfold) (ends_open path)
    have hfixed := normal_ended hlead (fold_kept hfold) hopen
    rw [hnormal]
    generalize ended (lead_of path) stack (ends_open path) = left at *
    -- The second run, over what the first one left.
    have hagain := normalize_path_copy_spec hnul' hholds (Or.inl rfl)
      (lt_of_le_of_lt hlen hturns)
    rw [normal] at hfixed
    obtain ⟨stack', hfold', hleft⟩ := Option.map_eq_some_iff.mp hfixed
    rw [hfold'] at hagain
    obtain ⟨hret', hholds', -, hopen'⟩ := hagain
    have hended : ended (lead_of left) stack' (ends_open left) = left :=
      (ended_eq hopen').trans hleft
    rw [hended] at hholds'
    exact ⟨hret, hholds, hlen, hfixed, hret', hholds'⟩

/-- `/a/../b`, over itself. -/
theorem a_parent_b_is_normalized :
    let mem : memory := fun i => [47, 97, 47, 46, 46, 47, 98, 0].getD i 0
    let (ret, mem') := normalize_path_copy 8 mem 0 0
    ret = 0 ∧ Holds mem' 0 [47, 98, 0] := by
  have hsrc : Holds (fun i => [47, 97, 47, 46, 46, 47, 98, 0].getD i 0) 0
      ([47, 97, 47, 46, 46, 47, 98] ++ [0]) := by
    intro i c hc
    simp only [Nat.zero_add, List.getD_eq_getElem?_getD]
    exact Option.getD_eq_iff.mpr (Or.inl hc)
  have h := normalize_path_copy_normal _ 0 0 [47, 97, 47, 46, 46, 47, 98] 8 (by decide) hsrc
    (Or.inl rfl) (by decide)
  exact ⟨h.1, h.2.1⟩

end git.normalize_path
