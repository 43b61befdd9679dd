-- Shell quoting of `quote.c`: a text between single quotes, and `sq_dequote_step`, which
-- reads such words back in the buffer they stand in.
import Git.ApplyHeaderName

namespace git.sq_quote

open git.header_name (isspace c_str)

/-- The single quote. -/
abbrev SQ : UInt8 := 39
abbrev BACKSLASH : UInt8 := 92
abbrev SPACE : UInt8 := 32

/-! ## Quoting -/

/-- `'` and `!`. -/
def need_bs_quote (c : UInt8) : Bool := c == SQ || c == 33

/-- A byte outside of the quotes: they close and open again around it. -/
def bs_quoted (c : UInt8) : Bytes := [SQ, BACKSLASH, c, SQ]

/-- The turns of the loop of `sq_quote_buf`: a run of bytes that stay as they are, and the
bytes to escape behind it. -/
def sq_quote_runs : Nat → Bytes → Bytes
  | 0, _ => []
  | fuel + 1, src =>
    if src = [] then []
    else
      let plain := src.takeWhile fun c => !need_bs_quote c
      let src := src.dropWhile fun c => !need_bs_quote c
      plain ++ (src.takeWhile need_bs_quote).flatMap bs_quoted ++
        sq_quote_runs fuel (src.dropWhile need_bs_quote)

def sq_quote_buf (dst src : Bytes) : Bytes :=
  dst ++ [SQ] ++ sq_quote_runs (src.length + 1) src ++ [SQ]

/-- The texts quoted, with one space between two of them. -/
def sq_quote_joined : List Bytes → Bytes
  | [] => []
  | [src] => sq_quote_buf [] src
  | src :: more => sq_quote_buf [] src ++ SPACE :: sq_quote_joined more

/-! ## Dequoting in place -/

/-- The byte at a place of a buffer that ends in a NUL. -/
def byte_at (buf : Bytes) (i : Nat) : UInt8 := buf.getD i 0

/-- A string of the buffer. -/
def string_at (buf : Bytes) (i : Nat) : Bytes := c_str (buf.drop i)

/-- The default case of the switch: `src` must be on the white space between two words. The
result is the buffer and `*next`. -/
def word_ends (next : Bool) (buf : Bytes) (dst src : Nat) : Option (Bytes × Option Nat) :=
  if !next || !isspace (byte_at buf src) then none
  else
    let src := src + 1
    let src := src + ((buf.drop src).takeWhile isspace).length
    some (buf.set dst 0, some src)

/-- The loop of `sq_dequote_step`. An escape that fails has moved `src` by one or two when
it falls through to the default case. -/
def dequote_loop (next : Bool) : Nat → Bytes → Nat → Nat → Option (Bytes × Option Nat)
  | 0, _, _, _ => none
  | fuel + 1, buf, dst, src =>
    let src := src + 1
    let c := byte_at buf src
    if c = 0 then none
    else if c ≠ SQ then dequote_loop next fuel (buf.set dst c) (dst + 1) src
    else
      -- We stepped out of sq
      let src := src + 1
      if byte_at buf src = 0 then some (buf.set dst 0, none)
      else if byte_at buf src = BACKSLASH then
        let src := src + 1
        let c := byte_at buf src
        if need_bs_quote c then
          let src := src + 1
          if byte_at buf src = SQ then dequote_loop next fuel (buf.set dst c) (dst + 1) src
          else word_ends next buf dst src
        else word_ends next buf dst src
      else word_ends next buf dst src

/-- `next` tells whether there is a place for `*next`. -/
def sq_dequote_step (next : Bool) (buf : Bytes) (arg : Nat) : Option (Bytes × Option Nat) :=
  if byte_at buf arg ≠ SQ then none else dequote_loop next buf.length buf arg arg

def sq_dequote (arg : Bytes) : Option Bytes :=
  (sq_dequote_step false (arg ++ [0]) 0).map fun (buf, _) => string_at buf 0

/-- One word a turn; `argv` holds the places of the words before it. -/
def to_argv_loop : Nat → Bytes → Nat → List Nat → Option (Bytes × List Nat)
  | 0, _, _, _ => none
  | fuel + 1, buf, next, argv =>
    match sq_dequote_step true buf next with
    | none => none
    | some (buf, none) => some (buf, argv ++ [next])
    | some (buf, some src) => to_argv_loop fuel buf src (argv ++ [next])

/-- The strings are read when the whole line is dequoted. -/
def sq_dequote_to_argv (arg : Bytes) : Option (List Bytes) :=
  let buf := arg ++ [0]
  if byte_at buf 0 = 0 then some []
  else (to_argv_loop buf.length buf 0 []).map fun (buf, argv) => argv.map (string_at buf)

/-! ## What one word reads -/

/-- What stands behind a word: the end of the text; or white space, after some bytes that
are dropped, and the text past it. -/
inductive Behind where
  | finish
  | more (dropped rest : Bytes)

/-- The white space between two words. -/
def gap_then (dropped : Bytes) : Bytes → Option Behind
  | [] => none
  | c :: t => if isspace c then some (.more dropped (t.dropWhile isspace)) else none

/-- From inside of the quotes: the value of the word, and what is behind it. -/
def scan : Bytes → Option (Bytes × Behind)
  | [] => none
  | c :: t =>
    if c ≠ SQ then (scan t).map fun p => (c :: p.1, p.2)
    else
      match t with
      | [] => some ([], .finish)
      | d :: t =>
        if d = BACKSLASH then
          match t with
          | [] => none
          | e :: t =>
            if need_bs_quote e then
              match t with
              | [] => none
              | f :: t =>
                if f = SQ then (scan t).map fun p => (e :: p.1, p.2)
                else (gap_then [BACKSLASH, e] (f :: t)).map fun b => ([], b)
            else (gap_then [BACKSLASH] (e :: t)).map fun b => ([], b)
        else (gap_then [] (d :: t)).map fun b => ([], b)

theorem scan_plain {c : UInt8} (hc : c ≠ SQ) (t : Bytes) :
    scan (c :: t) = (scan t).map fun p => (c :: p.1, p.2) := by
  rw [scan.eq_def]
  exact if_pos hc

theorem scan_close : scan [SQ] = some ([], .finish) := rfl

theorem scan_other {d : UInt8} (hd : d ≠ BACKSLASH) (t : Bytes) :
    scan (SQ :: d :: t) = (gap_then [] (d :: t)).map fun b => ([], b) := by
  rw [scan.eq_def]
  exact if_neg hd

theorem scan_slip {e : UInt8} (he : ¬ need_bs_quote e) (t : Bytes) :
    scan (SQ :: BACKSLASH :: e :: t) = (gap_then [BACKSLASH] (e :: t)).map fun b => ([], b) := by
  rw [scan.eq_def]
  exact if_neg he

theorem scan_slip_escape {e f : UInt8} (he : need_bs_quote e) (hf : f ≠ SQ) (t : Bytes) :
    scan (SQ :: BACKSLASH :: e :: f :: t) =
      (gap_then [BACKSLASH, e] (f :: t)).map fun b => ([], b) := by
  rw [scan.eq_def]
  exact (if_pos he).trans (if_neg hf)

theorem scan_escape {e : UInt8} (he : need_bs_quote e) (t : Bytes) :
    scan (SQ :: BACKSLASH :: e :: SQ :: t) = (scan t).map fun p => (e :: p.1, p.2) := by
  rw [scan.eq_def]
  exact if_pos he

theorem scan_escape_open {e : UInt8} (he : need_bs_quote e) :
    scan [SQ, BACKSLASH, e] = none := by
  rw [scan.eq_def]
  exact if_pos he

/-- What the loop leaves, from what the scan reads: the value in front of a NUL, bytes that
nobody reads again, and the rest of the text as it was. -/
def Leaves (next : Bool) (pre : Bytes) :
    Option (Bytes × Behind) → Option (Bytes × Option Nat) → Prop
  | none, r => r = none
  | some (v, .finish), r => ∃ junk, r = some (pre ++ v ++ 0 :: junk, none)
  | some (v, .more _ rest), r =>
    if next then ∃ junk, r = some (pre ++ v ++ 0 :: junk ++ rest ++ [0],
      some (pre ++ v ++ 0 :: junk).length)
    else r = none

/-! ## The loop reads what the scan reads -/

theorem byte_at_append (x y : Bytes) (k : Nat) :
    byte_at (x ++ y) (x.length + k) = byte_at y k := by
  simp only [byte_at, List.getD_eq_getElem?_getD,
    List.getElem?_append_right (Nat.le_add_right x.length k), Nat.add_sub_cancel_left]

/-- A write at `dst` touches nothing but what was read already. -/
theorem set_behind (pre old after : Bytes) (o c : UInt8) :
    (pre ++ o :: old ++ after).set pre.length c = pre ++ c :: old ++ after := by
  rw [List.append_assoc, List.set_append_right _ _ (le_refl _)]
  simp

theorem byte_at_unread (pre old t : Bytes) (k : Nat) :
    byte_at (pre ++ old ++ t ++ [0]) (pre.length + old.length + k) = byte_at (t ++ [0]) k := by
  rw [← List.length_append, List.append_assoc _ t]
  exact byte_at_append (pre ++ old) (t ++ [0]) k

/-- A byte of the value is written, and the text it was read from is read. -/
theorem set_read (pre old read t : Bytes) (o c : UInt8) :
    (pre ++ o :: old ++ (read ++ t) ++ [0]).set pre.length c =
      (pre ++ [c]) ++ (old ++ read) ++ t ++ [0] := by
  rw [List.append_assoc _ (read ++ t), set_behind]
  simp

theorem takeWhile_space_nul (t : Bytes) :
    (t ++ [0]).takeWhile isspace = t.takeWhile isspace := by
  induction t with
  | nil => rfl
  | cons c t ih =>
    simp only [List.cons_append, List.takeWhile_cons, ih]

/-- A byte written in front of what the rest leaves. -/
theorem Leaves.cons {next : Bool} {pre : Bytes} {c : UInt8} {x : Option (Bytes × Behind)}
    {r : Option (Bytes × Option Nat)} (h : Leaves next (pre ++ [c]) x r) :
    Leaves next pre (x.map fun p => (c :: p.1, p.2)) r := by
  match x, h with
  | none, h => exact h
  | some (v, .finish), h => simpa [Leaves] using h
  | some (v, .more dropped rest), h => simpa [Leaves] using h

/-- `word_ends` on the white space, or not on it. -/
theorem word_ends_leaves (next : Bool) (pre old t dropped : Bytes) (ho : old ≠ []) :
    Leaves next pre ((gap_then dropped t).map fun b => ([], b))
      (word_ends next (pre ++ old ++ t ++ [0]) pre.length (pre.length + old.length)) := by
  obtain ⟨o, old, rfl⟩ := List.exists_cons_of_ne_nil ho
  have hat : byte_at (pre ++ o :: old ++ t ++ [0]) (pre.length + (o :: old).length) =
      byte_at (t ++ [0]) 0 := byte_at_unread pre (o :: old) t 0
  simp only [word_ends, hat]
  match t with
  | [] => simp [gap_then, Leaves, byte_at, isspace]
  | c :: t =>
    have hc : byte_at ((c :: t) ++ [0]) 0 = c := rfl
    rw [hc]
    by_cases hs : isspace c
    · cases next with
      | false => simp [gap_then, Leaves, hs]
      | true =>
        have hdrop : (pre ++ o :: old ++ c :: t ++ [0]).drop
            (pre.length + (o :: old).length + 1) = t ++ [0] := by
          have hlen : pre.length + (o :: old).length + 1 =
              (pre ++ o :: old ++ [c]).length := by simp [Nat.add_assoc]
          have happ : pre ++ o :: old ++ c :: t ++ [0] =
              (pre ++ o :: old ++ [c]) ++ (t ++ [0]) := by simp
          rw [hlen, happ, List.drop_left]
        have hset : (pre ++ o :: old ++ c :: t ++ [0]).set pre.length 0 =
            pre ++ 0 :: old ++ c :: t ++ [0] := by
          rw [List.append_assoc _ (c :: t), set_behind, ← List.append_assoc]
        have hjunk : pre ++ 0 :: old ++ c :: t ++ [0] =
            pre ++ [] ++ 0 :: (old ++ c :: t.takeWhile isspace) ++ t.dropWhile isspace ++ [0] := by
          conv_lhs => rw [← List.takeWhile_append_dropWhile (p := isspace) (l := t)]
          simp
        simp only [gap_then, hs, if_true, Option.map_some, Leaves, Bool.not_true, Bool.or_self,
          Bool.false_eq_true, if_false, hdrop, takeWhile_space_nul, hset]
        refine ⟨old ++ c :: t.takeWhile isspace, ?_⟩
        rw [hjunk]
        congr 2
        simp only [List.length_append, List.length_cons, List.length_nil, Option.some.injEq]
        omega
    · simp [gap_then, Leaves, hs]

/-- From inside of the quotes of a word whose value so far is written in front of `old`. -/
theorem loop_leaves (next : Bool) (fuel : Nat) (pre old t : Bytes) (ho : old ≠ [])
    (hf : t.length < fuel) (h0 : (0 : UInt8) ∉ t) :
    Leaves next pre (scan t)
      (dequote_loop next fuel (pre ++ old ++ t ++ [0]) pre.length
        (pre.length + old.length - 1)) := by
  induction fuel generalizing pre old t with
  | zero => exact absurd hf (Nat.not_lt_zero _)
  | succ fuel ih =>
    obtain ⟨o, old, rfl⟩ := List.exists_cons_of_ne_nil ho
    have hsrc : pre.length + (o :: old).length - 1 + 1 = pre.length + (o :: old).length := by
      rw [List.length_cons]
      omega
    have hat : byte_at (pre ++ o :: old ++ t ++ [0]) (pre.length + (o :: old).length) =
        byte_at (t ++ [0]) 0 := byte_at_unread pre (o :: old) t 0
    have hahead := byte_at_unread pre (o :: old) t
    -- the loop goes on behind `read`, which gave `c`
    have hgo : ∀ c read t', read ≠ [] → t = read ++ t' →
        Leaves next pre ((scan t').map fun p => (c :: p.1, p.2))
          (dequote_loop next fuel ((pre ++ o :: old ++ t ++ [0]).set pre.length c)
            (pre.length + 1) (pre.length + (o :: old).length - 1 + read.length)) := by
      rintro c read t' hread rfl
      have hlen := List.length_pos_of_ne_nil hread
      have hr := ih (pre ++ [c]) (old ++ read) t'
        (List.append_ne_nil_of_right_ne_nil old hread)
        (by rw [List.length_append] at hf; omega)
        (fun h => h0 (List.mem_append_right read h))
      have hplace : (pre ++ [c]).length + (old ++ read).length - 1 =
          pre.length + (o :: old).length - 1 + read.length := by
        simp only [List.length_append, List.length_cons, List.length_nil]
        omega
      rw [hplace, List.length_append, List.length_singleton] at hr
      rw [set_read]
      exact hr.cons
    -- the word ends behind `read`
    have hend : ∀ dropped read t', t = read ++ t' →
        Leaves next pre ((gap_then dropped t').map fun b => ([], b))
          (word_ends next (pre ++ o :: old ++ t ++ [0]) pre.length
            (pre.length + (o :: old).length + read.length)) := by
      rintro dropped read t' rfl
      have h := word_ends_leaves next pre (o :: old ++ read) t' dropped (List.cons_ne_nil _ _)
      rw [List.length_append, ← Nat.add_assoc] at h
      simpa only [List.append_assoc] using h
    simp only [dequote_loop, hsrc, hat]
    rcases t with _ | ⟨c, t⟩
    · simp [scan, Leaves, byte_at]
    have hc : c ≠ 0 := fun h => h0 (h ▸ List.mem_cons_self)
    rw [if_neg (show ¬ byte_at (c :: t ++ [0]) 0 = 0 from hc), scan.eq_def]
    dsimp only
    by_cases hq : c = SQ
    · rw [if_neg (not_not.mpr hq),
        if_neg (not_not.mpr (show byte_at (c :: t ++ [0]) 0 = SQ from hq)), hahead 1]
      rcases t with _ | ⟨d, t⟩
      · refine ⟨old ++ [c, 0], ?_⟩
        rw [if_pos (show byte_at ([c] ++ [0]) 1 = 0 from rfl), List.append_assoc _ [c], set_behind]
        simp
      have hd : d ≠ 0 := fun h => h0 (h ▸ List.mem_cons_of_mem _ List.mem_cons_self)
      rw [if_neg (show ¬ byte_at (c :: d :: t ++ [0]) 1 = 0 from hd)]
      dsimp only
      by_cases hb : d = BACKSLASH
      · rw [if_pos hb, if_pos (show byte_at (c :: d :: t ++ [0]) 1 = BACKSLASH from hb)]
        have htwo : pre.length + (o :: old).length + 1 + 1 =
            pre.length + (o :: old).length + 2 := rfl
        rw [htwo, hahead 2]
        rcases t with _ | ⟨e, t⟩
        · exact hend [BACKSLASH] [c, d] [] rfl
        have he : byte_at (c :: d :: e :: t ++ [0]) 2 = e := rfl
        rw [he]
        dsimp only
        by_cases hn : need_bs_quote e
        · have hthree : pre.length + (o :: old).length + 2 + 1 =
              pre.length + (o :: old).length + 3 := rfl
          rw [if_pos hn, if_pos hn, hthree, hahead 3]
          rcases t with _ | ⟨f, t⟩
          · exact hend [BACKSLASH] [c, d, e] [] rfl
          have hf' : byte_at (c :: d :: e :: f :: t ++ [0]) 3 = f := rfl
          rw [hf']
          dsimp only
          by_cases hs : f = SQ
          · rw [if_pos hs, if_pos hs]
            exact hgo e [c, d, e, f] t (List.cons_ne_nil _ _) rfl
          · rw [if_neg hs, if_neg hs]
            exact hend [BACKSLASH, e] [c, d, e] (f :: t) rfl
        · rw [if_neg hn, if_neg hn]
          exact hend [BACKSLASH] [c, d] (e :: t) rfl
      · rw [if_neg hb, if_neg (show ¬ byte_at (c :: d :: t ++ [0]) 1 = BACKSLASH from hb)]
        exact hend [] [c] (d :: t) rfl
    · rw [if_pos hq, if_pos (show byte_at (c :: t ++ [0]) 0 ≠ SQ from hq)]
      exact hgo c [c] t (List.cons_ne_nil _ _) rfl

end git.sq_quote
