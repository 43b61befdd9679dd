-- The loops of `quote.c` with the buffers that they write to: quoting takes the bytes in runs, of a
-- string with or without a length, and unquoting takes back what it added when the text is bad.
import Git.Quote

namespace git.quote

/-! ## Quoting -/

/-- Up to `maxlen` if that is not negative. The NUL at the end of a string is quoted. -/
def next_quote_pos (fully : Bool) (s : Bytes) (maxlen : Int) : Nat :=
  ((if maxlen < 0 then s else s.take maxlen.toNat).takeWhile fun c => !sq_must_quote fully c).length

/-- The loop from `p` on: what is emitted, and whether there was a byte to quote. `start` is
`p == name`. -/
def quote_runs (fully no_dq : Bool) (p : Bytes) (maxlen : Int) (start : Bool) : Bytes × Bool :=
  let len := next_quote_pos fully p maxlen
  if (len : Int) = maxlen ∨ maxlen < 0 ∧ (p[len]?).getD 0 = 0 then (p.take len, !start)
  else
    match _h : p.drop len with
    | [] => (p.take len, !start)
    | ch :: rest =>
      let r := quote_runs fully no_dq rest (if 0 ≤ maxlen then maxlen - (len + 1) else maxlen) false
      ((if !no_dq && start then [DQ] else []) ++ p.take len ++ escape ch ++ r.1, r.2)
  termination_by p.length
  decreasing_by
    have := congrArg List.length _h
    rw [List.length_drop, List.length_cons] at this
    omega

/-- What goes to the buffer, and the return value. -/
def quote_c_style_counted (fully : Bool) (name : Bytes) (maxlen : Int) (no_dq : Bool) :
    Bytes × Nat :=
  let r := quote_runs fully no_dq name maxlen true
  if r.2 then
    let sb := r.1 ++ if no_dq then [] else [DQ]
    (sb, sb.length)
  else (r.1, 0)

/-! ## Unquoting -/

structure unquoted where
  ret : Int
  sb : Bytes
  /-- Where `*endp` points, when it was set. -/
  endp : Option Bytes
  deriving DecidableEq

/-- `strcspn(quoted, "\"\\")` -/
def plain_run (quoted : Bytes) : Nat :=
  (quoted.takeWhile fun c => c != DQ && c != BACKSLASH && c != 0).length

/-- The loop, which adds to `sb` and takes that back after an error. The end of the text is that
of the string. -/
def unquote_runs (oldlen : Nat) (sb quoted : Bytes) : unquoted :=
  let error := fun sb : Bytes => (⟨-1, sb.take oldlen, none⟩ : unquoted)
  let len := plain_run quoted
  let sb := sb ++ quoted.take len
  match _h : quoted.drop len with
  | [] => error sb
  | ch :: quoted =>
    if ch = DQ then ⟨0, sb, some quoted⟩
    else if ch = BACKSLASH then
      match quoted with
      | [] => error sb
      | ch :: quoted =>
        match escaped_letter ch with
        | some ch => unquote_runs oldlen (sb ++ [ch]) quoted
        | none =>
          match quoted with
          | b :: c :: quoted =>
            match octal ch b c with
            | some ch => unquote_runs oldlen (sb ++ [ch]) quoted
            | none => error sb
          | _ => error sb
    else error sb
  termination_by quoted.length
  decreasing_by
    all_goals
      have := congrArg List.length _h
      simp only [List.length_drop, List.length_cons] at this ⊢
      omega

def unquote_c_style_to (sb quoted : Bytes) : unquoted :=
  match quoted with
  | ch :: quoted => if ch = DQ then unquote_runs sb.length sb quoted else ⟨-1, sb, none⟩
  | [] => ⟨-1, sb, none⟩

/-! ## What is emitted -/

/-- Which bytes a loop takes for the name: so many as `maxlen` says, or those before the NUL. -/
def Reads (name mem : Bytes) (maxlen : Int) : Prop :=
  (∃ behind, mem = name ++ behind) ∧ maxlen = name.length ∨
    (0 ∉ name ∧ ∃ behind, mem = name ++ 0 :: behind) ∧ maxlen < 0

/-- A name is a run of plain bytes, behind which it ends or has a byte to quote. -/
theorem run_split (fully : Bool) (name : Bytes) :
    ∃ run rest, name = run ++ rest ∧ (∀ c ∈ run, sq_must_quote fully c = false) ∧
      (rest = [] ∨ ∃ c rest', rest = c :: rest' ∧ sq_must_quote fully c = true) := by
  refine ⟨name.takeWhile fun c => !sq_must_quote fully c,
    name.dropWhile fun c => !sq_must_quote fully c, List.takeWhile_append_dropWhile.symm, ?_, ?_⟩
  · intro c hc
    simpa using List.mem_takeWhile_imp hc
  · cases hrest : name.dropWhile fun c => !sq_must_quote fully c with
    | nil => exact Or.inl rfl
    | cons c rest =>
      have hhead := List.head_dropWhile_not (fun c => !sq_must_quote fully c)
        (w := by rw [hrest]; simp)
      simp only [hrest, List.head_cons, Bool.not_eq_false'] at hhead
      exact Or.inr ⟨c, rest, rfl, hhead⟩

theorem takeWhile_run {fully : Bool} {run rest : Bytes}
    (hrun : ∀ c ∈ run, sq_must_quote fully c = false)
    (hrest : ∀ c ∈ rest.head?, sq_must_quote fully c = true) :
    (run ++ rest).takeWhile (fun c => !sq_must_quote fully c) = run := by
  rw [List.takeWhile_append_of_pos fun c hc => by simp [hrun c hc]]
  cases rest with
  | nil => simp
  | cons c rest => simp [hrest c rfl]

theorem emitted_append (fully : Bool) {run : Bytes}
    (hrun : ∀ c ∈ run, sq_must_quote fully c = false) (rest : Bytes) :
    emitted fully (run ++ rest) = run ++ emitted fully rest := by
  induction run with
  | nil => rfl
  | cons c run ih =>
    rw [List.cons_append, emitted, if_neg (by simp [hrun c List.mem_cons_self]),
      ih fun d hd => hrun d (List.mem_cons_of_mem _ hd)]
    rfl

/-- The next byte to quote, in either way to say how long the name is. -/
theorem next_quote_pos_run {fully : Bool} {run rest mem : Bytes} {maxlen : Int}
    (hrun : ∀ c ∈ run, sq_must_quote fully c = false)
    (hrest : ∀ c ∈ rest.head?, sq_must_quote fully c = true)
    (hreads : Reads (run ++ rest) mem maxlen) : next_quote_pos fully mem maxlen = run.length := by
  unfold next_quote_pos
  rcases hreads with ⟨⟨behind, rfl⟩, rfl⟩ | ⟨⟨-, behind, rfl⟩, hneg⟩
  · rw [if_neg (by omega), Int.toNat_natCast, List.take_left, takeWhile_run hrun hrest]
  · rw [if_pos hneg, List.append_assoc, takeWhile_run hrun]
    intro c hc
    cases rest with
    | nil =>
      cases hc
      cases fully <;> rfl
    | cons d rest => exact hrest c hc

/-- The loop escapes all bytes that must be quoted. -/
theorem quote_runs_eq (fully no_dq : Bool) (name : Bytes) :
    ∀ {mem maxlen} start, Reads name mem maxlen →
      quote_runs fully no_dq mem maxlen start =
        ((if (!no_dq && start && name.any (sq_must_quote fully)) = true then [DQ] else []) ++
          emitted fully name, name.any (sq_must_quote fully) || !start) := by
  induction hn : name.length using Nat.strong_induction_on generalizing name with
  | _ n ih =>
    intro mem maxlen start hreads
    obtain ⟨run, rest, rfl, hrun, hrest⟩ := run_split fully name
    have hplain : run.any (sq_must_quote fully) = false := by
      rw [List.any_eq_false]
      exact fun c hc => by simp [hrun c hc]
    have hemit := emitted_append fully hrun rest
    rw [quote_runs]
    rcases hrest with rfl | ⟨c, rest, rfl, hc⟩
    · -- the end of the name
      have hpos := next_quote_pos_run hrun (by simp) hreads
      rw [List.append_nil] at hreads hemit ⊢
      have hend : (run.length : Int) = maxlen ∨ maxlen < 0 ∧ (mem[run.length]?).getD 0 = 0 := by
        rcases hreads with ⟨-, rfl⟩ | ⟨⟨-, behind, rfl⟩, hneg⟩
        · exact Or.inl rfl
        · exact Or.inr ⟨hneg, by simp⟩
      have htake : mem.take run.length = run := by
        rcases hreads with ⟨⟨behind, rfl⟩, -⟩ | ⟨⟨-, behind, rfl⟩, -⟩ <;> simp
      rw [emitted, List.append_nil] at hemit
      simp only [hpos]
      rw [if_pos hend, htake, hplain, hemit]
      simp
    · have hpos := next_quote_pos_run hrun (by simpa using hc) hreads
      -- what is behind the byte is read in the same way
      obtain ⟨mem', hmem, hreads', hgo⟩ : ∃ mem', mem = run ++ c :: mem' ∧
          Reads rest mem' (if 0 ≤ maxlen then maxlen - (run.length + 1) else maxlen) ∧
          ¬ ((run.length : Int) = maxlen ∨ maxlen < 0 ∧ (mem[run.length]?).getD 0 = 0) := by
        rcases hreads with ⟨⟨behind, rfl⟩, rfl⟩ | ⟨⟨hnul, behind, rfl⟩, hneg⟩
        · refine ⟨rest ++ behind, by simp, Or.inl ⟨⟨behind, rfl⟩, ?_⟩, ?_⟩
          · rw [List.length_append, List.length_cons]
            push_cast
            rw [if_pos (by omega)]
            omega
          · rw [List.length_append, List.length_cons]
            push_cast
            omega
        · rw [List.mem_append, List.mem_cons, not_or, not_or] at hnul
          refine ⟨rest ++ 0 :: behind, by simp, Or.inr ⟨⟨hnul.2.2, behind, rfl⟩, ?_⟩, ?_⟩
          · rwa [if_neg (by omega)]
          · have hget : ((run ++ c :: rest) ++ 0 :: behind)[run.length]? = some c := by simp
            rw [hget, Option.getD_some]
            rintro (h | ⟨-, h⟩)
            · omega
            · exact hnul.2.1 h.symm
      have htake : mem.take run.length = run := by rw [hmem, List.take_left]
      have hdrop : mem.drop run.length = c :: mem' := by rw [hmem, List.drop_left]
      have hless : rest.length < n := by
        rw [← hn, List.length_append, List.length_cons]
        omega
      have hany : (run ++ c :: rest).any (sq_must_quote fully) = true := by
        rw [List.any_append, List.any_cons, hc]
        simp
      simp only [hpos]
      rw [if_neg hgo]
      split
      next hnil =>
        rw [hpos, hdrop] at hnil
        cases hnil
      next ch rest' hcons =>
        rw [hpos, hdrop] at hcons
        cases hcons
        rw [ih _ hless rest rfl false hreads', htake, hany, hemit, emitted, if_pos hc]
        simp

/-- The length of a name may be given or not. -/
theorem quote_c_style_counted_eq (fully no_dq : Bool) {name mem : Bytes} {maxlen : Int}
    (hreads : Reads name mem maxlen) :
    (quote_c_style_counted fully mem maxlen no_dq).1 =
        (if no_dq then emitted fully name else quote_c_style fully name) ∧
      (quote_c_style_counted fully mem maxlen no_dq).2 =
        if name.any (sq_must_quote fully) then
          (if no_dq then emitted fully name else quote_c_style fully name).length
        else 0 := by
  have hruns := quote_runs_eq fully no_dq name true hreads
  have hplain : name.any (sq_must_quote fully) = false → emitted fully name = name := by
    intro h
    rw [List.any_eq_false] at h
    have := emitted_append fully (fun c hc => Bool.eq_false_iff.mpr (h c hc)) []
    rwa [List.append_nil, emitted, List.append_nil] at this
  unfold quote_c_style_counted quote_c_style
  rw [hruns]
  cases hany : name.any (sq_must_quote fully) with
  | true => cases no_dq <;> simp
  | false => cases no_dq <;> simp [hplain hany]

/-! ## What is taken for a name -/

/-- The text between the quotes, for the bytes that it stands for. -/
inductive Quoted : Bytes → Bytes → Prop where
  | nil : Quoted [] []
  | plain {c : UInt8} {name text : Bytes} (hdq : c ≠ DQ) (hback : c ≠ BACKSLASH) (hnul : c ≠ 0)
      (h : Quoted name text) : Quoted (c :: name) (c :: text)
  | letter {a c : UInt8} {name text : Bytes} (hc : escaped_letter a = some c)
      (h : Quoted name text) : Quoted (c :: name) (BACKSLASH :: a :: text)
  | octal {a b d c : UInt8} {name text : Bytes} (hc : git.quote.octal a b d = some c)
      (h : Quoted name text) : Quoted (c :: name) (BACKSLASH :: a :: b :: d :: text)

/-- A text that does not start with a quoted name. -/
def Malformed (text : Bytes) : Prop :=
  ∀ name body behind, Quoted name body → text ≠ DQ :: (body ++ DQ :: behind)

theorem quoted_of_unquote (text : Bytes) :
    ∀ {name behind}, unquote_loop text = some (name, behind) →
      ∃ body, text = body ++ DQ :: behind ∧ Quoted name body := by
  fun_induction unquote_loop text with
  | case1 =>
    intro name behind h
    cases h
  | case2 quoted =>
    intro name behind h
    cases h
    exact ⟨[], rfl, .nil⟩
  | case3 =>
    intro name behind h
    cases h
  | case4 a quoted c hc _ ih =>
    intro name behind h
    obtain ⟨⟨name', behind'⟩, hrest, heq⟩ := Option.map_eq_some_iff.mp h
    cases heq
    obtain ⟨body, rfl, hbody⟩ := ih hrest
    exact ⟨BACKSLASH :: a :: body, rfl, .letter hc hbody⟩
  | case5 a hletter b c quoted d hoctal _ ih =>
    intro name behind h
    obtain ⟨⟨name', behind'⟩, hrest, heq⟩ := Option.map_eq_some_iff.mp h
    cases heq
    obtain ⟨body, rfl, hbody⟩ := ih hrest
    exact ⟨BACKSLASH :: a :: b :: c :: body, rfl, .octal hoctal hbody⟩
  | case6 =>
    intro name behind h
    cases h
  | case7 =>
    intro name behind h
    cases h
  | case8 =>
    intro name behind h
    cases h
  | case9 ch quoted hdq hback hnul ih =>
    intro name behind h
    obtain ⟨⟨name', behind'⟩, hrest, heq⟩ := Option.map_eq_some_iff.mp h
    cases heq
    obtain ⟨body, rfl, hbody⟩ := ih hrest
    exact ⟨ch :: body, rfl, .plain hdq hback hnul hbody⟩

/-- The plain bytes at the start of a text are those of the name. -/
theorem unquote_loop_run {run : Bytes}
    (hrun : ∀ c ∈ run, (c != DQ && c != BACKSLASH && c != 0) = true) (rest : Bytes) :
    unquote_loop (run ++ rest) =
      (unquote_loop rest).map fun (sb, endp) => (run ++ sb, endp) := by
  induction run with
  | nil => simp
  | cons c run ih =>
    have hc := hrun c List.mem_cons_self
    simp only [Bool.and_eq_true, bne_iff_ne] at hc
    rw [List.cons_append, unquote_loop.eq_def]
    simp only [hc.1.1, hc.1.2, hc.2, if_false, ih fun d hd => hrun d (List.mem_cons_of_mem _ hd),
      Option.map_map]
    rfl

/-- The bytes that `strcspn` passes over, and where it stops. -/
theorem plain_split (quoted : Bytes) :
    ∃ run rest, quoted = run ++ rest ∧ plain_run quoted = run.length ∧
      (∀ c ∈ run, (c != DQ && c != BACKSLASH && c != 0) = true) ∧
      ∀ c ∈ rest.head?, c = DQ ∨ c = BACKSLASH ∨ c = 0 := by
  let plain : UInt8 → Bool := fun c => c != DQ && c != BACKSLASH && c != 0
  refine ⟨quoted.takeWhile plain, quoted.dropWhile plain, List.takeWhile_append_dropWhile.symm, rfl,
    ?_, ?_⟩
  · intro c hc
    have hplain : plain c = true := List.mem_takeWhile_imp hc
    exact hplain
  · intro c hc
    have hstop := List.head?_dropWhile_not plain quoted
    rw [Option.mem_def.mp hc] at hstop
    simp only [plain, Bool.and_eq_false_iff, bne_eq_false_iff_eq] at hstop
    tauto

/-- What was there before is left as it was, and behind it comes the name, if there is one. -/
theorem unquote_runs_eq (quoted : Bytes) :
    ∀ {oldlen sb}, oldlen ≤ sb.length →
      unquote_runs oldlen sb quoted =
        match unquote_loop quoted with
        | some (name, endp) => ⟨0, sb ++ name, some endp⟩
        | none => ⟨-1, sb.take oldlen, none⟩ := by
  induction hn : quoted.length using Nat.strong_induction_on generalizing quoted with
  | _ n ih =>
    intro oldlen sb hold
    obtain ⟨run, rest, rfl, hlen, hrun, hstop⟩ := plain_split quoted
    have herror : (sb ++ run).take oldlen = sb.take oldlen := List.take_append_of_le_length hold
    -- the loop goes on with one byte more, and gives back no more than it took
    have hnext : ∀ c rest', rest'.length < n →
        unquote_runs oldlen (sb ++ run ++ [c]) rest' =
          match unquote_loop rest' with
          | some (name, endp) => ⟨0, sb ++ (run ++ c :: name), some endp⟩
          | none => ⟨-1, sb.take oldlen, none⟩ := by
      intro c rest' hless
      have hold' : oldlen ≤ (sb ++ run ++ [c]).length := by
        simp only [List.length_append]
        omega
      have hsame : (sb ++ run ++ [c]).take oldlen = sb.take oldlen := by
        rw [List.append_assoc, List.take_append_of_le_length hold]
      rw [ih _ hless rest' rfl hold', hsame]
      cases unquote_loop rest' with
      | none => rfl
      | some p => simp
    rw [List.length_append] at hn
    rw [unquote_runs, unquote_loop_run hrun]
    simp only [hlen, List.take_left]
    split
    next hnil =>
      rw [hlen, List.drop_left] at hnil
      rw [hnil, unquote_loop, herror]
      rfl
    next ch quoted hcons =>
      rw [hlen, List.drop_left] at hcons
      subst hcons
      rw [List.length_cons] at hn
      rcases hstop ch rfl with rfl | rfl | rfl
      · rw [if_pos rfl, unquote_loop_dq]
        simp
      · rw [if_neg (by decide), if_pos rfl]
        cases quoted with
        | nil =>
          rw [herror]
          rfl
        | cons a quoted =>
          rw [List.length_cons] at hn
          cases hletter : escaped_letter a with
          | some c =>
            have hloop : unquote_loop (BACKSLASH :: a :: quoted) =
                (unquote_loop quoted).map fun (sb, endp) => (c :: sb, endp) := by
              rw [unquote_loop.eq_def]
              simp only [hletter]
              rfl
            simp only [hletter]
            rw [hnext c quoted (by omega), hloop]
            cases unquote_loop quoted <;> rfl
          | none =>
            simp only [hletter]
            rcases quoted with _ | ⟨b, _ | ⟨d, more⟩⟩
            · have hloop : unquote_loop [BACKSLASH, a] = none := by
                rw [unquote_loop.eq_def]
                simp only [hletter]
                rfl
              rw [hloop, herror]
              rfl
            · have hloop : unquote_loop [BACKSLASH, a, b] = none := by
                rw [unquote_loop.eq_def]
                simp only [hletter]
                rfl
              rw [hloop, herror]
              rfl
            · have hloop : unquote_loop (BACKSLASH :: a :: b :: d :: more) =
                  match octal a b d with
                  | some c => (unquote_loop more).map fun (sb, endp) => (c :: sb, endp)
                  | none => none := by
                rw [unquote_loop.eq_def]
                simp only [hletter]
                rfl
              rw [List.length_cons, List.length_cons] at hn
              rw [hloop]
              cases hoctal : octal a b d with
              | some c =>
                simp only [hoctal]
                rw [hnext c more (by omega)]
                cases unquote_loop more <;> rfl
              | none =>
                simp only [hoctal]
                rw [herror]
                rfl
      · have hloop : unquote_loop (0 :: quoted) = none := by
          rw [unquote_loop.eq_def]
          rfl
        rw [if_neg (by decide), if_neg (by decide), herror, hloop]
        rfl

/-! ## Results -/

theorem unquote_c_style_to_eq (sb quoted : Bytes) :
    unquote_c_style_to sb quoted =
      match unquote_c_style quoted with
      | some (name, endp) => ⟨0, sb ++ name, some endp⟩
      | none => ⟨-1, sb, none⟩ := by
  unfold unquote_c_style_to unquote_c_style
  cases quoted with
  | nil => rfl
  | cons ch quoted =>
    by_cases hdq : ch = DQ
    · simp only [hdq, if_true]
      rw [unquote_runs_eq quoted (Nat.le_refl _), List.take_length]
    · simp only [hdq, if_false]

/-- A name without quotes has no byte that quotes mean something for. -/
theorem plain_name {fully : Bool} {name : Bytes} (h : name.any (sq_must_quote fully) = false) :
    name.head? ≠ some DQ ∧ 10 ∉ name ∧ 9 ∉ name := by
  rw [List.any_eq_false] at h
  refine ⟨fun hhead => ?_, fun hmem => ?_, fun hmem => ?_⟩
  · exact h DQ (List.mem_of_mem_head? hhead) (by cases fully <;> rfl)
  · exact h 10 hmem (by cases fully <;> rfl)
  · exact h 9 hmem (by cases fully <;> rfl)

/-- A name is written as it is, or in quotes that are read back, whether its length is given or it
ends at a NUL; and a text that is no quoted name leaves the buffer as it was. -/
theorem quote_c_style_reads_back :
    (∀ (fully : Bool) (name mem : Bytes) (maxlen : Int), 0 ∉ name → Reads name mem maxlen →
      (quote_c_style_counted fully mem maxlen false = (name, 0) ∧
          name.head? ≠ some DQ ∧ 10 ∉ name ∧ 9 ∉ name) ∨
        ∃ body, quote_c_style_counted fully mem maxlen false =
            (DQ :: (body ++ [DQ]), body.length + 2) ∧
          ∀ sb behind, unquote_c_style_to sb (DQ :: (body ++ DQ :: behind)) =
            ⟨0, sb ++ name, some behind⟩) ∧
      ∀ sb text, Malformed text → unquote_c_style_to sb text = ⟨-1, sb, none⟩ := by
  constructor
  · intro fully name mem maxlen _ hreads
    obtain ⟨hout, hret⟩ := quote_c_style_counted_eq fully false hreads
    rw [if_neg Bool.false_ne_true] at hout
    cases hany : name.any (sq_must_quote fully) with
    | false =>
      rw [hany, if_neg Bool.false_ne_true] at hret
      rw [quote_c_style_plain hany] at hout
      exact Or.inl ⟨Prod.ext hout hret, plain_name hany⟩
    | true =>
      have hquoted : quote_c_style fully name = DQ :: (emitted fully name ++ [DQ]) := by
        rw [quote_c_style, hany, if_pos rfl]
        rfl
      rw [hany, if_pos rfl, if_neg Bool.false_ne_true, hquoted] at hret
      rw [hquoted] at hout
      refine Or.inr ⟨emitted fully name, Prod.ext hout ?_, fun sb behind => ?_⟩
      · rw [hret]
        simp
      · rw [unquote_c_style_to_eq, unquote_c_style, if_pos rfl, unquote_loop_emitted]
  · intro sb text hbad
    rw [unquote_c_style_to_eq]
    cases hrun : unquote_c_style text with
    | none => rfl
    | some p =>
      obtain ⟨name, behind⟩ := p
      exfalso
      unfold unquote_c_style at hrun
      split at hrun
      next ch quoted =>
        split at hrun
        next hdq =>
          obtain ⟨body, rfl, hbody⟩ := quoted_of_unquote quoted hrun
          exact hbad name body behind hbody (by rw [hdq])
        next => cases hrun
      next => cases hrun

end git.quote
