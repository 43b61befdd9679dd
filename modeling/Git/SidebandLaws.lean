-- What the bands of a stream come out as: the data is what was sent on the first one, and the
-- text on the standard error is that of the messages, however they were cut into packets.
import Git.Sideband

namespace git.sideband

open git.pkt_line (hex_length packet_flush packet_read_line packet_read_line_packet
  packet_read_line_flush)
open git.convert (LF CR)
open overwrite (read_at write_at read_at_append write_at_append)
open turns (Ends)

/-! ## The text of the messages -/

/-- The prefix as it is printed. -/
def line_start : Bytes := PREFIX ++ [SPACE]

/-- What one byte of the messages shows as. `skip_pf`: it goes on with a line. -/
def shown_byte (suffix : Bytes) (skip_pf : Bool) (c : UInt8) : Bytes :=
  (if skip_pf then if is_break c then suffix else [] else line_start) ++ [c]

/-- What the messages show as, one after another. -/
def shown (suffix : Bytes) : Bool → Bytes → Bytes
  | _, [] => []
  | skip_pf, c :: data => shown_byte suffix skip_pf c ++ shown suffix (!is_break c) data

/-- Whether the messages end within a line. -/
def in_line (skip_pf : Bool) (data : Bytes) : Bool :=
  match data.getLast? with
  | none => skip_pf
  | some c => !is_break c

/-- The messages of a text, without the prefixes of its lines and, before a line break, without
the suffix. -/
def restored (suffix : Bytes) (text : Bytes) : Bytes :=
  let line := (text.drop line_start.length).takeWhile fun c => !is_break c
  let rest := (text.drop line_start.length).dropWhile fun c => !is_break c
  match _h : rest with
  | [] => line
  | c :: more => line.take (line.length - suffix.length) ++ c :: restored suffix more
  termination_by text.length
  decreasing_by
    have hsuffix : (c :: more).length ≤ (text.drop line_start.length).length := by
      rw [← _h]
      exact (List.dropWhile_suffix _).length_le
    rw [List.length_cons, List.length_drop] at hsuffix
    omega

variable {suffix : Bytes}

theorem in_line_append (skip_pf : Bool) (a b : Bytes) :
    in_line skip_pf (a ++ b) = in_line (in_line skip_pf a) b := by
  unfold in_line
  rw [List.getLast?_append]
  cases b.getLast? with
  | none => rfl
  | some c => rfl

theorem shown_append (skip_pf : Bool) (a b : Bytes) :
    shown suffix skip_pf (a ++ b) =
      shown suffix skip_pf a ++ shown suffix (in_line skip_pf a) b := by
  induction a generalizing skip_pf with
  | nil => rfl
  | cons c a ih =>
    have hstate : in_line (!is_break c) a = in_line skip_pf (c :: a) := by
      rw [← List.singleton_append, in_line_append]
      rfl
    rw [List.cons_append, shown, shown, ih, hstate, List.append_assoc]

/-- Bytes without a break show as they are, within a line. -/
theorem shown_within {line : Bytes} (h : ∀ c ∈ line, is_break c = false) :
    shown suffix true line = line := by
  induction line with
  | nil => rfl
  | cons c line ih =>
    have hc := h c List.mem_cons_self
    rw [shown, shown_byte, if_pos rfl, hc, if_neg Bool.false_ne_true, Bool.not_false,
      ih fun d hd => h d (List.mem_cons_of_mem c hd)]
    rfl

/-- Bytes without a break, of a line that begins with them or goes on. -/
theorem shown_line {line : Bytes} (h : ∀ c ∈ line, is_break c = false) (hne : line ≠ [])
    (skip_pf : Bool) :
    shown suffix skip_pf line = (if skip_pf then [] else line_start) ++ line := by
  obtain ⟨c, more, rfl⟩ := List.exists_cons_of_ne_nil hne
  have hc := h c List.mem_cons_self
  rw [shown, shown_byte, hc, if_neg Bool.false_ne_true, Bool.not_false,
    shown_within fun d hd => h d (List.mem_cons_of_mem c hd), List.append_assoc]
  rfl

theorem in_line_line {line : Bytes} (h : ∀ c ∈ line, is_break c = false) (hne : line ≠ [])
    (skip_pf : Bool) : in_line skip_pf line = true := by
  unfold in_line
  rw [List.getLast?_eq_some_getLast hne]
  show (!is_break _) = true
  rw [h _ (List.getLast_mem hne)]
  rfl

/-- Text without a break, up to a break or the end. -/
theorem split_break (data : Bytes) : ∃ line rest, data = line ++ rest ∧
    (∀ c ∈ line, is_break c = false) ∧ ∀ c ∈ rest.head?, is_break c = true := by
  refine ⟨data.takeWhile fun c => !is_break c, data.dropWhile fun c => !is_break c,
    List.takeWhile_append_dropWhile.symm, ?_, ?_⟩
  · intro c hc
    simpa using List.mem_takeWhile_imp hc
  · intro c hc
    have := List.head?_dropWhile_not (fun c => !is_break c) data
    rw [Option.mem_def.mp hc] at this
    simpa using this

theorem takeWhile_line {line : Bytes} (rest : Bytes) (h : ∀ c ∈ line, is_break c = false)
    (hrest : ∀ c ∈ rest.head?, is_break c = true) :
    (line ++ rest).takeWhile (fun c => !is_break c) = line ∧
      (line ++ rest).dropWhile (fun c => !is_break c) = rest := by
  have htake : rest.takeWhile (fun c => !is_break c) = [] := by
    cases rest with
    | nil => rfl
    | cons c rest => exact List.takeWhile_cons_of_neg (by simp [hrest c rfl])
  have hdrop : rest.dropWhile (fun c => !is_break c) = rest := by
    cases rest with
    | nil => rfl
    | cons c rest => exact List.dropWhile_cons_of_neg (by simp [hrest c rfl])
  have hline : ∀ c ∈ line, (!is_break c) = true := fun c hc => by rw [h c hc]; rfl
  rw [List.takeWhile_append_of_pos hline, List.dropWhile_append_of_pos hline, htake, hdrop,
    List.append_nil]
  exact ⟨rfl, rfl⟩

/-- A line break, after a line that begins with a prefix or goes on. -/
theorem shown_break {line more : Bytes} {c : UInt8} (h : ∀ c ∈ line, is_break c = false)
    (hc : is_break c = true) (skip_pf : Bool) :
    shown suffix skip_pf (line ++ c :: more) =
      (if skip_pf then [] else line_start) ++ line ++
        (if line = [] ∧ skip_pf = false then [] else suffix) ++ c :: shown suffix false more := by
  rw [shown_append, shown, hc]
  by_cases hne : line = []
  · subst hne
    cases skip_pf with
    | false => simp [shown, in_line, shown_byte]
    | true => simp [shown, in_line, shown_byte, hc]
  · have hcover : (if line = [] ∧ skip_pf = false then [] else suffix) = suffix :=
      if_neg fun hboth => hne hboth.1
    rw [hcover, in_line_line h hne, shown_line h hne, shown_byte, if_pos rfl, if_pos hc,
      Bool.not_true, List.append_assoc, List.append_assoc, List.append_assoc, List.append_assoc]
    rfl

theorem restored_end {line : Bytes} (h : ∀ c ∈ line, is_break c = false) :
    restored suffix (line_start ++ line) = line := by
  have hdrop : (line_start ++ line).drop line_start.length = line := List.drop_left
  obtain ⟨htake, hleft⟩ := takeWhile_line [] h (fun c hc => by cases hc)
  rw [List.append_nil] at htake hleft
  rw [restored]
  split
  · rw [hdrop, htake]
  · rename_i hrest
    rw [hdrop, hleft] at hrest
    cases hrest

theorem restored_break {line rest : Bytes} {c : UInt8} (h : ∀ c ∈ line, is_break c = false)
    (hc : is_break c = true) :
    restored suffix (line_start ++ (line ++ c :: rest)) =
      line.take (line.length - suffix.length) ++ c :: restored suffix rest := by
  have hdrop : (line_start ++ (line ++ c :: rest)).drop line_start.length = line ++ c :: rest :=
    List.drop_left
  obtain ⟨htake, hleft⟩ := takeWhile_line (c :: rest) h (fun d hd => by cases hd; exact hc)
  rw [restored]
  split
  · rename_i hrest
    rw [hdrop, hleft] at hrest
    cases hrest
  · rename_i hrest
    rw [hdrop, hleft] at hrest
    cases hrest
    rw [hdrop, htake]

/-- The messages are what is left without the prefixes and suffixes. -/
theorem restored_shown (hsuffix : ∀ c ∈ suffix, is_break c = false) (data : Bytes) :
    restored suffix (shown suffix false data) = data := by
  induction hn : data.length using Nat.strong_induction_on generalizing data with
  | _ n ih =>
    obtain ⟨line, rest, rfl, hline, hrest⟩ := split_break data
    cases rest with
    | nil =>
      rw [List.append_nil]
      by_cases hne : line = []
      · rw [hne, shown, restored]
        rfl
      · rw [shown_line hline hne]
        exact restored_end hline
    | cons c more =>
      have hc := hrest c rfl
      have hmore := ih more.length (by rw [← hn, List.length_append, List.length_cons]; omega)
        more rfl
      rw [shown_break hline hc, if_neg Bool.false_ne_true, List.append_assoc, List.append_assoc]
      by_cases hne : line = []
      · have hbreak : restored suffix (line_start ++ (line ++ c :: shown suffix false more)) =
            line.take (line.length - suffix.length) ++
              c :: restored suffix (shown suffix false more) := restored_break hline hc
        subst hne
        rw [if_pos ⟨rfl, rfl⟩, List.nil_append, List.nil_append]
        rw [List.nil_append, hmore, List.take_nil, List.nil_append] at hbreak
        exact hbreak
      · have hboth : ∀ d ∈ line ++ suffix, is_break d = false :=
          fun d hd => (List.mem_append.mp hd).elim (hline d) (hsuffix d)
        rw [if_neg (fun hnil => hne hnil.1), ← List.append_assoc line, restored_break hboth hc,
          hmore, List.length_append, Nat.add_sub_cancel, List.take_left]

/-! ## One line of a packet -/

theorem getElem_front (front : Bytes) (c : UInt8) (more : Bytes) :
    (front ++ c :: more)[front.length]? = some c := by
  rw [List.getElem?_append_right (le_refl _), Nat.sub_self]
  rfl

theorem find_break_found {line : Bytes} (front more : Bytes) {c : UInt8} {len start : Nat}
    (hline : ∀ d ∈ line, is_break d = false) (hc : is_break c = true)
    (hstart : front.length = start) (hlen : start + line.length < len) :
    find_break (front ++ (line ++ c :: more)) len start = some (start + line.length + 1) := by
  subst hstart
  induction line generalizing front with
  | nil =>
    rw [List.length_nil] at hlen
    rw [List.nil_append, find_break, if_neg (by omega), getElem_front]
    simp only [hc, if_true]
    rfl
  | cons d line ih =>
    rw [List.length_cons] at hlen
    have hd := hline d List.mem_cons_self
    have hnext := ih (front ++ [d]) (fun e he => hline e (List.mem_cons_of_mem d he))
      (by rw [List.length_append, List.length_singleton]; omega)
    rw [List.append_assoc, List.singleton_append, List.length_append, List.length_singleton]
      at hnext
    rw [List.cons_append, find_break, if_neg (by omega), getElem_front]
    simp only [hd, Bool.false_eq_true, if_false]
    rw [hnext, List.length_cons]
    congr 1
    omega

theorem find_break_none {line : Bytes} (front more : Bytes) {start : Nat}
    (hline : ∀ d ∈ line, is_break d = false) (hstart : front.length = start) :
    find_break (front ++ (line ++ more)) (line.length + start) start = some 0 := by
  subst hstart
  induction line generalizing front with
  | nil => rw [find_break, if_pos (by rw [List.length_nil]; omega)]
  | cons d line ih =>
    have hd := hline d List.mem_cons_self
    have hnext := ih (front ++ [d]) fun e he => hline e (List.mem_cons_of_mem d he)
    rw [List.append_assoc, List.singleton_append, List.length_append, List.length_singleton]
      at hnext
    rw [List.cons_append, find_break, if_neg (by rw [List.length_cons]; omega), getElem_front]
    simp only [hd, Bool.false_eq_true, if_false]
    rw [List.length_cons, ← hnext]
    congr 1
    omega

theorem printed_all {text : Bytes} (h : (0 : UInt8) ∉ text) : printed text = text := by
  refine List.takeWhile_eq_self_iff.mpr fun c hc => ?_
  exact decide_eq_true fun hzero => h (hzero ▸ hc)

/-- The suffix goes between the line and its break, and what it covers comes back. -/
theorem put_suffix_eq {front line save back : Bytes} {c x : UInt8} {suf : Bytes}
    (hsave : save.length = (x :: suf).length) {b brk : Nat} (hb : front.length = b)
    (hbrk : brk = line.length + 1) :
    put_suffix (x :: suf) (front ++ line ++ [c] ++ save ++ back) b brk =
      some (printed (line ++ (x :: suf) ++ [c]), front ++ line ++ [x] ++ save ++ back) := by
  obtain ⟨init, y, rfl⟩ : ∃ init y, save = init ++ [y] := by
    rcases List.eq_nil_or_concat save with rfl | ⟨init, y, rfl⟩
    · cases hsave
    · exact ⟨init, y, List.concat_eq_append⟩
  have hinit : init.length = suf.length := by
    rw [List.length_append, List.length_singleton, List.length_cons] at hsave
    omega
  subst hb hbrk
  have hread : read_at (front ++ line ++ [c] ++ (init ++ [y]) ++ back)
      (front.length + (line.length + 1)) (x :: suf).length = some (init ++ [y]) :=
    read_at_append (by simp only [List.length_append, List.length_singleton]; omega) hsave
  have hlast : read_at (front ++ line ++ [c] ++ (init ++ [y]) ++ back)
      (front.length + (line.length + 1) - 1) 1 = some [c] := by
    rw [List.append_assoc (front ++ line ++ [c])]
    exact read_at_append (by rw [List.length_append]; omega) rfl
  have hfirst : write_at (front ++ line ++ [c] ++ (init ++ [y]) ++ back)
      (front.length + (line.length + 1) + (x :: suf).length - 1) [c] =
      some (front ++ line ++ ([c] ++ init) ++ ([c] ++ back)) := by
    rw [← List.append_assoc (front ++ line ++ [c])]
    calc write_at (front ++ line ++ [c] ++ init ++ [y] ++ back) _ [c]
        = some (front ++ line ++ [c] ++ init ++ [c] ++ back) := write_at_append
          (by simp only [List.length_append, List.length_cons, List.length_nil]; omega) rfl
      _ = _ := by simp only [List.append_assoc]
  have hsecond : write_at (front ++ line ++ ([c] ++ init) ++ ([c] ++ back))
      (front.length + (line.length + 1) - 1) (x :: suf) =
      some (front ++ (line ++ (x :: suf) ++ [c]) ++ back) := by
    rw [write_at_append (by rw [List.length_append]; omega)
      (by simp only [List.length_append, List.length_cons, List.length_nil]; omega)]
    simp only [List.append_assoc]
  have htext : read_at (front ++ (line ++ (x :: suf) ++ [c]) ++ back) front.length
      (line.length + 1 + (x :: suf).length) = some (line ++ (x :: suf) ++ [c]) :=
    read_at_append rfl (by simp only [List.length_append, List.length_cons, List.length_nil]; omega)
  have hback : write_at (front ++ (line ++ (x :: suf) ++ [c]) ++ back)
      (front.length + (line.length + 1)) (init ++ [y]) =
      some (front ++ line ++ [x] ++ (init ++ [y]) ++ back) := by
    have hshape : front ++ (line ++ (x :: suf) ++ [c]) ++ back =
        front ++ line ++ [x] ++ (suf ++ [c]) ++ back := by
      simp only [List.append_assoc, List.cons_append, List.nil_append]
    rw [hshape]
    exact write_at_append (by simp only [List.length_append, List.length_singleton]; omega)
      (by rw [List.length_append, List.length_append, hinit]; rfl)
  unfold put_suffix
  simp only [Option.bind_eq_bind, hread, hlast, hfirst, hsecond, htext, hback, Option.bind_some]
  rfl

theorem move_rest_eq {front more : Bytes} (mid back : Bytes) {place len : Nat}
    (hfront : front.length = pf + 1) (hplace : place = front.length + mid.length)
    (hlen : more.length = len) : ∃ left,
    move_rest (front ++ mid ++ more ++ back) place len = some (front ++ more ++ left) ∧
      left.length = mid.length + back.length := by
  have hold : ((mid ++ more).take more.length).length = more.length := by
    rw [List.length_take, List.length_append]
    omega
  have hshape : front ++ mid ++ more ++ back =
      front ++ (mid ++ more).take more.length ++ ((mid ++ more).drop more.length ++ back) := by
    rw [List.append_assoc front, List.append_assoc front, List.append_assoc front,
      ← List.append_assoc ((mid ++ more).take _), List.take_append_drop]
  refine ⟨(mid ++ more).drop more.length ++ back, ?_, ?_⟩
  · rw [move_rest, read_at_append (by rw [List.length_append]; omega) hlen, Option.bind_some,
      hshape]
    exact write_at_append hfront hold.symm
  · rw [List.length_append, List.length_drop, List.length_append]
    omega

/-- The suffix is printed, and what is left moves to the front. -/
theorem cover_and_move (front text mid more junk : Bytes) (c : UInt8) {b brk place len : Nat}
    (hsuffix : suffix ≠ []) (hroom : suffix.length ≤ junk.length)
    (hshape : front ++ text = line_start ++ mid) (hb : front.length = b)
    (hbrk : brk = text.length + 1) (hplace : place = b + brk) (hlen : more.length = len) :
    ∃ buf junk', put_suffix suffix (line_start ++ mid ++ [c] ++ more ++ junk) b brk =
        some (printed (text ++ suffix ++ [c]), buf) ∧
      move_rest buf place len = some (line_start ++ more ++ junk') ∧
      junk'.length = mid.length + 1 + junk.length := by
  obtain ⟨x, suf, rfl⟩ := List.exists_cons_of_ne_nil hsuffix
  have hsave : ((more ++ junk).take (x :: suf).length).length = (x :: suf).length := by
    rw [List.length_take, List.length_append]
    omega
  have hsplit : line_start ++ mid ++ [c] ++ more ++ junk =
      front ++ text ++ [c] ++ (more ++ junk).take (x :: suf).length ++
        (more ++ junk).drop (x :: suf).length := by
    rw [List.append_assoc _ (List.take _ _), List.take_append_drop, hshape, ← List.append_assoc]
  have hback : front ++ text ++ [x] ++ (more ++ junk).take (x :: suf).length ++
      (more ++ junk).drop (x :: suf).length = line_start ++ (mid ++ [x]) ++ more ++ junk := by
    rw [List.append_assoc _ (List.take _ _), List.take_append_drop, hshape, ← List.append_assoc,
      List.append_assoc line_start]
  have hlengths := congrArg List.length hshape
  rw [List.length_append, List.length_append] at hlengths
  have hend : place = line_start.length + (mid ++ [x]).length := by
    rw [List.length_append, List.length_singleton]
    omega
  obtain ⟨junk', hmove, hjunk⟩ := move_rest_eq (mid ++ [x]) junk rfl hend hlen
  refine ⟨_, junk', ?_, hmove, ?_⟩
  · rw [hsplit, put_suffix_eq hsave hb hbrk, hback]
  · rw [hjunk, List.length_append, List.length_singleton]

/-- A turn takes a line and its break. -/
theorem line_turn_break {line : Bytes} (more : Bytes) {junk : Bytes} (err : Bytes) {c : UInt8}
    (hsuffix : suffix ≠ []) (hroom : suffix.length ≤ junk.length) (hzero : (0 : UInt8) ∉ suffix)
    (htext : (0 : UInt8) ∉ line ++ [c]) (hline : ∀ d ∈ line, is_break d = false)
    (hc : is_break c = true) (skip_pf : Bool) :
    ∃ junk', line_turn suffix ⟨line_start ++ line ++ [c] ++ more ++ junk, skip_pf, err⟩
        (line.length + 1 + more.length) =
        some (⟨line_start ++ more ++ junk', false, err ++ shown suffix skip_pf (line ++ [c])⟩,
          more.length) ∧
      junk'.length = line.length + 1 + junk.length := by
  have hbuf : line_start ++ line ++ [c] ++ more ++ junk =
      line_start ++ (line ++ c :: (more ++ junk)) := by
    simp only [List.append_assoc, List.cons_append, List.nil_append]
  have hshown : shown suffix skip_pf (line ++ [c]) =
      (if skip_pf then [] else line_start) ++ line ++
        (if line = [] ∧ skip_pf = false then [] else suffix) ++ c :: shown suffix false [] :=
    shown_break hline hc skip_pf
  rw [shown] at hshown
  have hstart : (0 : UInt8) ∉ line_start := by decide
  have hprinted : ∀ {text : Bytes}, (∀ d ∈ text, d ∈ line_start ∨ d ∈ line ++ [c] ∨ d ∈ suffix) →
      printed text = text := by
    intro text h
    refine printed_all fun hmem => ?_
    rcases h 0 hmem with h | h | h
    · exact hstart h
    · exact htext h
    · exact hzero h
  have hpf : line_start.length = pf + 1 := rfl
  cases skip_pf with
  | true =>
    have hfind : find_break (line ++ c :: (more ++ junk)) (line.length + 1 + more.length) 0 =
        some (0 + line.length + 1) :=
      find_break_found [] (more ++ junk) hline hc rfl (by omega)
    obtain ⟨buf, junk', hput, hmove, hjunk⟩ := cover_and_move line_start line line more junk c
      hsuffix hroom rfl rfl rfl rfl rfl
    have hdrop : (line_start ++ line ++ [c] ++ more ++ junk).drop (pf + 1) =
        line ++ c :: (more ++ junk) := by
      rw [hbuf]
      exact List.drop_left' rfl
    have hleft : line.length + 1 + more.length - (line.length + 1) = more.length := by omega
    have htext' : printed (line ++ suffix ++ [c]) = shown suffix true (line ++ [c]) := by
      rw [hprinted fun d hd => ?_, hshown]
      · simp
      · simp only [List.mem_append] at hd ⊢
        tauto
    refine ⟨junk', ?_, hjunk⟩
    unfold line_turn
    rw [hpf] at hput hmove
    simp only [if_true, Nat.add_zero, hdrop, hfind, Option.bind_some, Nat.zero_add,
      Nat.zero_lt_succ, hput, hleft, hmove, Option.map_some, htext']
  | false =>
    have hfind : find_break (line_start ++ (line ++ c :: (more ++ junk)))
        (line.length + 1 + more.length + (pf + 1)) (pf + 1) =
        some (pf + 1 + line.length + 1) :=
      find_break_found line_start (more ++ junk) hline hc rfl (by omega)
    have hleft : line.length + 1 + more.length + (pf + 1) - (pf + 1 + line.length + 1) =
        more.length := by omega
    unfold line_turn
    by_cases hne : line = []
    · -- an empty line, for which the suffix is left out
      obtain ⟨junk', hmove, hjunk⟩ := move_rest_eq [c] junk hpf rfl (rfl : more.length = _)
      have hread : read_at ([] ++ (line_start ++ [c]) ++ (more ++ junk)) 0 (pf + 1 + 1) =
          some (line_start ++ [c]) := read_at_append rfl rfl
      rw [List.nil_append, ← List.append_assoc] at hread
      have htext' : printed (line_start ++ [c]) = shown suffix false (line ++ [c]) := by
        rw [hprinted fun d hd => ?_, hshown]
        · simp [hne]
        · simp only [List.mem_append] at hd ⊢
          tauto
      have hlen : line.length = 0 := by rw [hne, List.length_nil]
      have hbuf' : line_start ++ (line ++ c :: (more ++ junk)) =
          line_start ++ [c] ++ more ++ junk := by
        rw [← hbuf, hne, List.append_nil]
      refine ⟨junk', ?_, ?_⟩
      · simp only [Bool.false_eq_true, if_false, List.drop_zero, hbuf, hfind, Option.bind_some]
        rw [if_neg (by omega), if_pos (Nat.succ_ne_zero _), hleft, hlen, hbuf', Nat.add_zero, hread,
          Option.bind_some, Nat.zero_add]
        have hmove' : move_rest (line_start ++ [c] ++ more ++ junk) (pf + 1 + 1) more.length =
            some (line_start ++ more ++ junk') := hmove
        rw [hmove', Option.map_some, htext']
        rfl
      · rw [hjunk, hlen]
        rfl
    · have hpos : 0 < line.length := List.length_pos_iff.mpr hne
      obtain ⟨buf, junk', hput, hmove, hjunk⟩ := cover_and_move [] (line_start ++ line) line more
        junk c hsuffix hroom rfl rfl rfl rfl rfl
      have htext' : printed (line_start ++ line ++ suffix ++ [c]) =
          shown suffix false (line ++ [c]) := by
        rw [hprinted fun d hd => ?_, hshown]
        · simp [hne]
        · simp only [List.mem_append] at hd ⊢
          tauto
      refine ⟨junk', ?_, hjunk⟩
      rw [List.length_append, hpf, List.length_nil] at hput hmove
      simp only [Bool.false_eq_true, if_false, List.drop_zero, hbuf, hfind, Option.bind_some]
      rw [if_pos (by omega), ← hbuf, hput, Option.bind_some, hleft, hmove, Option.map_some]
      simp only [htext']

theorem move_nothing {buf : Bytes} {place : Nat} (hplace : place ≤ buf.length)
    (hbuf : pf + 1 ≤ buf.length) : move_rest buf place 0 = some buf := by
  rw [move_rest, read_at, Nat.add_zero, if_pos hplace, Option.bind_some, List.take_zero, write_at,
    List.length_nil, Nat.add_zero, if_pos hbuf, overwrite.written, List.length_nil, Nat.add_zero,
    List.append_nil, List.take_append_drop]

/-- A turn takes all of a text without a break. -/
theorem line_turn_end {data junk : Bytes} (err : Bytes) (hne : data ≠ []) (hzero : (0 : UInt8) ∉ data)
    (hline : ∀ d ∈ data, is_break d = false) (skip_pf : Bool) :
    line_turn suffix ⟨line_start ++ data ++ junk, skip_pf, err⟩ data.length =
      some (⟨line_start ++ data ++ junk, true, err ++ shown suffix skip_pf data⟩, 0) := by
  have hpf : line_start.length = pf + 1 := rfl
  have hbuf : pf + 1 ≤ (line_start ++ data ++ junk).length := by
    rw [List.length_append, List.length_append, hpf]
    omega
  rw [shown_line hline hne]
  unfold line_turn
  cases skip_pf with
  | true =>
    have hdrop : (line_start ++ data ++ junk).drop (pf + 1) = data ++ junk := by
      rw [List.append_assoc]
      exact List.drop_left' rfl
    have hfind : find_break (data ++ junk) (data.length + 0) 0 = some 0 :=
      find_break_none [] junk hline rfl
    have hread : read_at (line_start ++ data ++ junk) (pf + 1) data.length = some data :=
      read_at_append rfl rfl
    rw [Nat.add_zero] at hfind
    simp only [if_true, Nat.add_zero, hdrop, hfind, Option.bind_some, Nat.lt_irrefl, if_false,
      ne_eq, not_true, hread, Nat.sub_self, move_nothing hbuf hbuf, Option.map_some,
      printed_all hzero, List.nil_append, decide_true]
  | false =>
    have hfind : find_break (line_start ++ (data ++ junk)) (data.length + (pf + 1)) (pf + 1) =
        some 0 := find_break_none line_start junk hline rfl
    have hread : read_at ([] ++ (line_start ++ data) ++ junk) 0 (data.length + (pf + 1)) =
        some (line_start ++ data) :=
      read_at_append rfl (by rw [List.length_append, hpf, Nat.add_comm])
    have hprinted : printed (line_start ++ data) = line_start ++ data := by
      refine printed_all fun hmem => ?_
      rcases List.mem_append.mp hmem with hmem | hmem
      · exact absurd hmem (by decide)
      · exact hzero hmem
    rw [List.nil_append] at hread
    rw [← List.append_assoc] at hfind
    simp only [Bool.false_eq_true, if_false, List.drop_zero, hfind, Option.bind_some, Nat.not_lt_zero,
      ne_eq, not_true, Nat.add_zero, hread, Nat.sub_self, move_nothing (Nat.zero_le _) hbuf,
      Option.map_some, hprinted, decide_true]

/-- The loop over the lines of a packet prints what its text shows as. -/
theorem lines_loop_shown (hsuffix : suffix ≠ []) (hzero : (0 : UInt8) ∉ suffix) {data junk : Bytes}
    (err : Bytes) (hne : data ≠ []) (htext : (0 : UInt8) ∉ data)
    (hroom : suffix.length ≤ junk.length) (skip_pf : Bool) :
    ∃ junk', lines_loop suffix ⟨line_start ++ data ++ junk, skip_pf, err⟩ data.length =
        some ⟨line_start ++ junk', in_line skip_pf data, err ++ shown suffix skip_pf data⟩ ∧
      junk'.length = data.length + junk.length := by
  induction hn : data.length using Nat.strong_induction_on generalizing data junk err skip_pf with
  | _ n ih =>
    obtain ⟨line, rest, rfl, hline, hrest⟩ := split_break data
    cases rest with
    | nil =>
      rw [List.append_nil] at hne htext hn ⊢
      refine ⟨line ++ junk, ?_, by rw [List.length_append, hn]⟩
      rw [← hn, lines_loop, line_turn_end err hne htext hline, in_line_line hline hne,
        List.append_assoc]
      rfl
    | cons c more =>
      have hc := hrest c rfl
      have hlen : (line ++ c :: more).length = line.length + 1 + more.length := by
        rw [List.length_append, List.length_cons]
        omega
      have hsplit : line ++ c :: more = line ++ [c] ++ more := List.append_cons line c more
      rw [hsplit] at htext
      obtain ⟨junk₁, hturn, hjunk₁⟩ := line_turn_break more err hsuffix hroom hzero
        (fun hmem => htext (List.mem_append_left more hmem)) hline hc skip_pf
      have hshape : line_start ++ (line ++ c :: more) ++ junk =
          line_start ++ line ++ [c] ++ more ++ junk := by
        rw [hsplit]
        simp only [List.append_assoc]
      have hstate : in_line skip_pf (line ++ [c]) = false := by
        unfold in_line
        rw [List.getLast?_concat]
        show (!is_break c) = false
        rw [hc]
        rfl
      rw [← hn, hlen, hshape, lines_loop, hturn, hsplit, shown_append skip_pf (line ++ [c]) more,
        in_line_append skip_pf (line ++ [c]) more, hstate]
      by_cases hmore : more = []
      · refine ⟨junk₁, ?_, ?_⟩
        · simp [hmore, shown, in_line]
        · rw [hjunk₁, hmore, List.length_nil]
      · have hpos : more.length ≠ 0 := fun hzero => hmore (List.length_eq_zero_iff.mp hzero)
        have hroom₁ : suffix.length ≤ junk₁.length := by omega
        obtain ⟨junk₂, hloop, hjunk₂⟩ := ih more.length (by omega)
          (err ++ shown suffix skip_pf (line ++ [c])) hmore
          (fun hmem => htext (List.mem_append_right _ hmem)) hroom₁ false rfl
        refine ⟨junk₂, ?_, by omega⟩
        simp only [dif_neg hpos, hloop]
        rw [List.append_assoc err]

/-! ## The packets -/

/-- A packet of a band. -/
def packet (band : Int) (data : Bytes) : Bytes :=
  hex_length (data.length + 5) ++ [UInt8.ofNat band.toNat] ++ data

/-- The buffer has its prefix and its size. -/
def Ready (s : terminal) : Prop :=
  ∃ body, s.buf = PREFIX ++ body ∧ pf + body.length = LARGE_PACKET_MAX + 2 * FIX_SIZE

theorem read_packet {s : terminal} (h : Ready s) (band : Int) {data : Bytes}
    (hsize : data.length + 5 ≤ LARGE_PACKET_MAX) (rest : Bytes) : ∃ back,
    packet_read_line (packet band data ++ rest) s.buf pf LARGE_PACKET_MAX =
        some (data.length + 1, PREFIX ++ [UInt8.ofNat band.toNat] ++ data ++ ([0] ++ back), rest) ∧
      pf + (data.length + 2 + back.length) = LARGE_PACKET_MAX + 2 * FIX_SIZE := by
  obtain ⟨body, hbuf, hbody⟩ := h
  have hmax : LARGE_PACKET_MAX = 65520 := rfl
  have hfix : FIX_SIZE = 10 := rfl
  have hpf : pf = 7 := rfl
  have hold : (body.take (data.length + 2)).length = data.length + 2 := by
    rw [List.length_take]
    omega
  have hread : packet_read_line
      (hex_length ((UInt8.ofNat band.toNat :: data).length + 4) ++ UInt8.ofNat band.toNat :: data ++
        rest) (PREFIX ++ body.take (data.length + 2) ++ body.drop (data.length + 2)) pf
        LARGE_PACKET_MAX =
      some ((UInt8.ofNat band.toNat :: data).length,
        PREFIX ++ (UInt8.ofNat band.toNat :: data ++ [0]) ++ body.drop (data.length + 2), rest) :=
    packet_read_line_packet rest (by rw [List.length_cons]; omega)
      (by rw [List.length_cons]; omega) rfl (by rw [hold, List.length_cons])
  rw [List.append_assoc PREFIX (body.take _), List.take_append_drop, ← hbuf] at hread
  refine ⟨body.drop (data.length + 2), ?_, ?_⟩
  · have hshape : PREFIX ++ [UInt8.ofNat band.toNat] ++ data ++
        ([0] ++ body.drop (data.length + 2)) =
        PREFIX ++ (UInt8.ofNat band.toNat :: data ++ [0]) ++ body.drop (data.length + 2) := by
      simp only [List.append_assoc, List.cons_append, List.nil_append]
    have hstream : packet band data ++ rest =
        hex_length ((UInt8.ofNat band.toNat :: data).length + 4) ++ UInt8.ofNat band.toNat :: data ++
          rest := by
      rw [packet, List.append_assoc (hex_length _)]
      rfl
    rw [hshape, hstream, hread]
    rfl
  · rw [List.length_drop]
    omega

variable {me : Bytes}

variable (me suffix) in
/-- A packet of the first band goes to the output. -/
theorem recv_data {s : terminal} (h : Ready s) {data : Bytes}
    (hsize : data.length + 5 ≤ LARGE_PACKET_MAX) (rest out : Bytes) :
    ∃ t, Ready t ∧ t.skip_pf = s.skip_pf ∧ t.err = s.err ∧
      recv_loop me suffix (packet 1 data ++ rest) s out =
        recv_loop me suffix rest t (out ++ data) := by
  obtain ⟨back, hread, hback⟩ := read_packet h 1 hsize rest
  have hband : read_at (PREFIX ++ [UInt8.ofNat (1 : Int).toNat] ++ data ++ ([0] ++ back)) pf 1 =
      some [1] := by
    rw [List.append_assoc (PREFIX ++ _)]
    exact read_at_append rfl rfl
  have hdata : read_at (PREFIX ++ [UInt8.ofNat (1 : Int).toNat] ++ data ++ ([0] ++ back)) (pf + 1)
      data.length = some data := read_at_append rfl rfl
  refine ⟨{ s with buf := PREFIX ++ [1] ++ data ++ ([0] ++ back) }, ?_, rfl, rfl, ?_⟩
  · refine ⟨[1] ++ data ++ ([0] ++ back), ?_, ?_⟩
    · simp only [List.append_assoc]
    · rw [← hback]
      simp only [List.length_append, List.length_singleton]
      omega
  · rw [recv_loop]
    split
    · rename_i hnone
      rw [hread] at hnone
      cases hnone
    · rename_i len buf rest' hsome
      rw [hread] at hsome
      cases hsome
      rw [if_neg (Nat.succ_ne_zero _), hband]
      simp only [Nat.add_sub_cancel, hdata]
      rfl

variable (me) in
/-- A packet of the second band is shown. -/
theorem recv_message (hsuffix : suffix ≠ []) (hzero : (0 : UInt8) ∉ suffix)
    (hfix : suffix.length ≤ FIX_SIZE) {s : terminal} (h : Ready s) {data : Bytes}
    (hne : data ≠ []) (htext : (0 : UInt8) ∉ data) (hsize : data.length + 5 ≤ LARGE_PACKET_MAX)
    (rest out : Bytes) :
    ∃ t, Ready t ∧ t.skip_pf = in_line s.skip_pf data ∧
      t.err = s.err ++ shown suffix s.skip_pf data ∧
      recv_loop me suffix (packet 2 data ++ rest) s out = recv_loop me suffix rest t out := by
  obtain ⟨back, hread, hback⟩ := read_packet h 2 hsize rest
  have hmax : LARGE_PACKET_MAX = 65520 := rfl
  have hten : FIX_SIZE = 10 := rfl
  have hpf : pf = 7 := rfl
  have hband : read_at (PREFIX ++ [UInt8.ofNat (2 : Int).toNat] ++ data ++ ([0] ++ back)) pf 1 =
      some [2] := by
    rw [List.append_assoc (PREFIX ++ _)]
    exact read_at_append rfl rfl
  have hspace : write_at (PREFIX ++ [UInt8.ofNat (2 : Int).toNat] ++ data ++ ([0] ++ back)) pf
      [SPACE] = some (line_start ++ data ++ ([0] ++ back)) := by
    rw [List.append_assoc (PREFIX ++ _), List.append_assoc line_start]
    exact write_at_append rfl rfl
  have hroom : suffix.length ≤ ([0] ++ back).length := by
    rw [List.length_append, List.length_singleton]
    omega
  obtain ⟨junk, hloop, hjunk⟩ := lines_loop_shown hsuffix hzero s.err hne htext hroom s.skip_pf
  refine ⟨⟨line_start ++ junk, in_line s.skip_pf data, s.err ++ shown suffix s.skip_pf data⟩, ?_,
    rfl, rfl, ?_⟩
  · refine ⟨[SPACE] ++ junk, ?_, ?_⟩
    · rw [line_start, List.append_assoc]
    · rw [← hback, List.length_append, hjunk, List.length_append, List.length_singleton,
        List.length_singleton]
      omega
  · rw [recv_loop]
    split
    · rename_i hnone
      rw [hread] at hnone
      cases hnone
    · rename_i len buf rest' hsome
      rw [hread] at hsome
      cases hsome
      rw [if_neg (Nat.succ_ne_zero _), hband]
      simp only [Nat.add_sub_cancel, hspace, Option.bind_some, hloop]
      rfl

theorem recv_flush (s : terminal) (rest out : Bytes) :
    recv_loop me suffix (packet_flush ++ rest) s out = some ⟨0, out, s.err, rest⟩ := by
  rw [recv_loop]
  split
  · rename_i hnone
    rw [packet_read_line_flush] at hnone
    cases hnone
  · rename_i len buf rest' hsome
    rw [packet_read_line_flush] at hsome
    cases hsome
    rfl

/-! ## The calls -/

/-- One call of `send_sideband` after another, each with the turns it may take. -/
def send_all (packet_max : Nat) : List (Int × Bytes) → Nat → Option Bytes
  | [], _ => some []
  | (band, data) :: calls, turns =>
    (send_sideband band packet_max turns data).bind fun wire =>
      (send_all packet_max calls turns).map (wire ++ ·)

/-- All that was sent on a band. -/
def band_data (band : Int) (calls : List (Int × Bytes)) : Bytes :=
  (calls.filter fun call => call.1 = band).flatMap Prod.snd

/-- The packets of a call hold its data, piece by piece. -/
theorem send_ends {band : Int} (hband : 0 ≤ band) {packet_max : Nat} (hmin : 6 ≤ packet_max)
    (data : Bytes) (hsize : data.length < 2 ^ 32) :
    ∃ chunks : List Bytes, Ends (fun turns => send_sideband band packet_max turns data)
        (chunks.flatMap (packet band)) ∧
      chunks.flatten = data ∧ ∀ chunk ∈ chunks, chunk ≠ [] ∧ chunk.length + 5 ≤ packet_max := by
  induction hn : data.length using Nat.strong_induction_on generalizing data with
  | _ n ih =>
    by_cases hnil : data = []
    · subst hnil
      refine ⟨[], Ends.step (fun turns => ?_) (Ends.const _), rfl,
        fun chunk hchunk => absurd hchunk List.not_mem_nil⟩
      rw [send_sideband, if_pos rfl]
      rfl
    · have hpos : 0 < data.length := List.length_pos_iff.mpr hnil
      -- what fits into the packet
      obtain ⟨k, hk, hkpos, hkmax, hkle⟩ : ∃ k,
          k = (if packet_max - 5 < data.length % 2 ^ 32 then packet_max - 5
            else data.length % 2 ^ 32) ∧ 0 < k ∧ k + 5 ≤ packet_max ∧ k ≤ data.length := by
        refine ⟨_, rfl, ?_⟩
        rw [Nat.mod_eq_of_lt hsize]
        split
        · omega
        · omega
      have hdrop : (data.drop k).length < n := by
        rw [List.length_drop]
        omega
      obtain ⟨chunks, hends, hflat, hchunks⟩ :=
        ih (data.drop k).length hdrop (data.drop k) (by omega) rfl
      have htake : (data.take k).length = k := List.length_take_of_le hkle
      refine ⟨data.take k :: chunks, ?_, ?_, ?_⟩
      · refine Ends.step (fun turns => ?_) (hends.map (packet band (data.take k) ++ ·))
        rw [send_sideband, if_neg hnil]
        simp only [← hk, if_pos hband]
        rw [packet, htake, List.append_assoc]
      · rw [List.flatten_cons, hflat, List.take_append_drop]
      · intro chunk hchunk
        rcases List.mem_cons.mp hchunk with rfl | hchunk
        · rw [htake]
          refine ⟨fun hempty => ?_, hkmax⟩
          rw [hempty, List.length_nil] at htake
          omega
        · exact hchunks chunk hchunk

/-- With 2^32 bytes and more, it comes to a size of 0 and never ends. -/
theorem send_never_ends {band : Int} {packet_max : Nat} (turns : Nat) {data : Bytes}
    (hsize : 2 ^ 32 ≤ data.length) : send_sideband band packet_max turns data = none := by
  induction turns generalizing data with
  | zero => rfl
  | succ turns ih =>
    have hne : data ≠ [] := by
      rintro rfl
      exact absurd hsize (by decide)
    rw [send_sideband, if_neg hne]
    dsimp only
    rw [ih, Option.map_none]
    rw [List.length_drop]
    split
    · omega
    · omega

theorem send_all_never_ends {packet_max : Nat} {calls : List (Int × Bytes)} {call : Int × Bytes}
    (hcall : call ∈ calls) (hsize : 2 ^ 32 ≤ call.2.length) (turns : Nat) :
    send_all packet_max calls turns = none := by
  induction calls with
  | nil => exact absurd hcall List.not_mem_nil
  | cons first calls ih =>
    obtain ⟨band, data⟩ := first
    rw [send_all]
    rcases List.mem_cons.mp hcall with rfl | hcall
    · rw [send_never_ends turns hsize, Option.bind_none]
    · rw [ih hcall]
      cases send_sideband band packet_max turns data with
      | none => rfl
      | some wire => rfl

variable (me suffix) in
theorem recv_data_chunks {chunks : List Bytes}
    (hchunks : ∀ chunk ∈ chunks, chunk.length + 5 ≤ LARGE_PACKET_MAX) {s : terminal}
    (h : Ready s) (rest out : Bytes) :
    ∃ t, Ready t ∧ t.skip_pf = s.skip_pf ∧ t.err = s.err ∧
      recv_loop me suffix (chunks.flatMap (packet 1) ++ rest) s out =
        recv_loop me suffix rest t (out ++ chunks.flatten) := by
  induction chunks generalizing s out with
  | nil => exact ⟨s, h, rfl, rfl, by rw [List.flatten_nil, List.append_nil]; rfl⟩
  | cons chunk chunks ih =>
    obtain ⟨t, ht, hskip, herr, hrecv⟩ := recv_data suffix me h
      (hchunks chunk List.mem_cons_self) (chunks.flatMap (packet 1) ++ rest) out
    obtain ⟨u, hu, hskip', herr', hrecv'⟩ :=
      ih (fun c hc => hchunks c (List.mem_cons_of_mem chunk hc)) ht (out ++ chunk)
    refine ⟨u, hu, hskip'.trans hskip, herr'.trans herr, ?_⟩
    rw [List.flatMap_cons, List.append_assoc, hrecv, hrecv', List.flatten_cons, List.append_assoc]

variable (me) in
theorem recv_message_chunks (hsuffix : suffix ≠ []) (hzero : (0 : UInt8) ∉ suffix)
    (hfix : suffix.length ≤ FIX_SIZE) {chunks : List Bytes}
    (hchunks : ∀ chunk ∈ chunks, chunk ≠ [] ∧ chunk.length + 5 ≤ LARGE_PACKET_MAX)
    (htext : (0 : UInt8) ∉ chunks.flatten) {s : terminal} (h : Ready s) (rest out : Bytes) :
    ∃ t, Ready t ∧ t.skip_pf = in_line s.skip_pf chunks.flatten ∧
      t.err = s.err ++ shown suffix s.skip_pf chunks.flatten ∧
      recv_loop me suffix (chunks.flatMap (packet 2) ++ rest) s out =
        recv_loop me suffix rest t out := by
  induction chunks generalizing s with
  | nil => exact ⟨s, h, rfl, (List.append_nil _).symm, rfl⟩
  | cons chunk chunks ih =>
    rw [List.flatten_cons] at htext ⊢
    obtain ⟨hne, hsize⟩ := hchunks chunk List.mem_cons_self
    obtain ⟨t, ht, hskip, herr, hrecv⟩ := recv_message me hsuffix hzero hfix h hne
      (fun hmem => htext (List.mem_append_left _ hmem)) hsize (chunks.flatMap (packet 2) ++ rest) out
    obtain ⟨u, hu, hskip', herr', hrecv'⟩ :=
      ih (fun c hc => hchunks c (List.mem_cons_of_mem chunk hc))
        (fun hmem => htext (List.mem_append_right _ hmem)) ht
    refine ⟨u, hu, ?_, ?_, ?_⟩
    · rw [hskip', hskip, in_line_append]
    · rw [herr', herr, hskip, shown_append, List.append_assoc]
    · rw [List.flatMap_cons, List.append_assoc, hrecv, hrecv']

theorem band_data_cons (band : Int) (call : Int × Bytes) (calls : List (Int × Bytes)) :
    band_data band (call :: calls) =
      (if call.1 = band then call.2 else []) ++ band_data band calls := by
  unfold band_data
  by_cases h : call.1 = band
  · rw [List.filter_cons_of_pos (by simpa using h), List.flatMap_cons, if_pos h]
  · rw [List.filter_cons_of_neg (by simpa using h), if_neg h, List.nil_append]

variable (me) in
/-- What the calls write is taken apart again. -/
theorem recv_calls (hsuffix : suffix ≠ []) (hzero : (0 : UInt8) ∉ suffix)
    (hfix : suffix.length ≤ FIX_SIZE) {packet_max : Nat} (hmin : 6 ≤ packet_max)
    (hmax : packet_max ≤ LARGE_PACKET_MAX) {calls : List (Int × Bytes)}
    (hband : ∀ call ∈ calls, call.1 = 1 ∨ call.1 = 2)
    (htext : ∀ call ∈ calls, call.1 = 2 → (0 : UInt8) ∉ call.2)
    (hsize : ∀ call ∈ calls, call.2.length < 2 ^ 32) :
    ∃ wire, Ends (send_all packet_max calls) wire ∧ ∀ {s : terminal}, Ready s → ∀ rest out,
      ∃ t, t.err = s.err ++ shown suffix s.skip_pf (band_data 2 calls) ∧ Ready t ∧
        recv_loop me suffix (wire ++ rest) s out =
          recv_loop me suffix rest t (out ++ band_data 1 calls) := by
  induction calls with
  | nil =>
    refine ⟨[], Ends.const [], fun {s} h rest out => ⟨s, (List.append_nil _).symm, h, ?_⟩⟩
    rw [band_data, List.filter_nil, List.flatMap_nil, List.append_nil]
    rfl
  | cons call calls ih =>
    obtain ⟨wire, hends, hrecv⟩ := ih (fun c hc => hband c (List.mem_cons_of_mem call hc))
      (fun c hc => htext c (List.mem_cons_of_mem call hc))
      (fun c hc => hsize c (List.mem_cons_of_mem call hc))
    obtain ⟨band, data⟩ := call
    have hcall : band = 1 ∨ band = 2 := hband _ List.mem_cons_self
    obtain ⟨chunks, hsend, hflat, hchunks⟩ := send_ends (by omega : 0 ≤ band) hmin data
      (hsize _ List.mem_cons_self)
    refine ⟨chunks.flatMap (packet band) ++ wire, ?_, fun {s} h rest out => ?_⟩
    · exact hsend.bind (hends.map (chunks.flatMap (packet band) ++ ·))
    · rw [band_data_cons, band_data_cons, List.append_assoc]
      rcases hcall with rfl | rfl
      · obtain ⟨t, ht, hskip, herr, hdata⟩ := recv_data_chunks suffix me
          (fun c hc => le_trans (hchunks c hc).2 hmax) h (wire ++ rest) out
        obtain ⟨u, herr', hu, hrest⟩ := hrecv ht rest (out ++ chunks.flatten)
        refine ⟨u, ?_, hu, ?_⟩
        · rw [herr', herr, hskip]
          rfl
        · rw [hdata, hrest, hflat, List.append_assoc]
          rfl
      · obtain ⟨t, ht, hskip, herr, hdata⟩ := recv_message_chunks me hsuffix hzero hfix
          (fun c hc => ⟨(hchunks c hc).1, le_trans (hchunks c hc).2 hmax⟩)
          (by rw [hflat]; exact htext _ List.mem_cons_self rfl) h (wire ++ rest) out
        obtain ⟨u, herr', hu, hrest⟩ := hrecv ht rest out
        refine ⟨u, ?_, hu, ?_⟩
        · rw [herr', herr, hskip, List.append_assoc, hflat, if_pos rfl, ← shown_append]
        · rw [hdata, hrest]
          rfl

/-- The data of the first band comes out as it is; on the standard error is what the messages show
as, one after another. -/
def Demultiplexed (me : Bytes) (term : Option Bytes) (buf : Bytes) (packet_max : Nat)
    (calls : List (Int × Bytes)) : Prop :=
  ∃ wire, Ends (send_all packet_max calls) wire ∧ ∀ rest,
    recv_sideband me term buf (wire ++ packet_flush ++ rest) =
      some ⟨0, band_data 1 calls, shown (suffix_for term) false (band_data 2 calls), rest⟩

/-- What is sent is taken apart just where each call sends less than 2^32 bytes. The messages are
what is left of their text without prefixes and suffixes. -/
theorem the_bands_come_apart_iff (me : Bytes) (term : Option Bytes) (buf : Bytes)
    (hbuf : pf + buf.length = LARGE_PACKET_MAX + 2 * FIX_SIZE) (packet_max : Nat)
    (hmin : 6 ≤ packet_max) (hmax : packet_max ≤ LARGE_PACKET_MAX) (calls : List (Int × Bytes))
    (hband : ∀ call ∈ calls, call.1 = 1 ∨ call.1 = 2)
    (htext : ∀ call ∈ calls, call.1 = 2 → (0 : UInt8) ∉ call.2) :
    (Demultiplexed me term buf packet_max calls ∧
      restored (suffix_for term) (shown (suffix_for term) false (band_data 2 calls)) =
        band_data 2 calls) ↔
    ∀ call ∈ calls, call.2.length < 2 ^ 32 := by
  have hcases : suffix_for term = ANSI_SUFFIX ∨ suffix_for term = DUMB_SUFFIX := by
    unfold suffix_for
    split
    · exact Or.inl rfl
    · exact Or.inr rfl
  have hsuffix : suffix_for term ≠ [] ∧ (0 : UInt8) ∉ suffix_for term ∧
      (suffix_for term).length ≤ FIX_SIZE ∧ ∀ c ∈ suffix_for term, is_break c = false := by
    rcases hcases with h | h
    · rw [h]
      decide +kernel
    · rw [h]
      decide +kernel
  obtain ⟨hne, hzero, hfix, hbreak⟩ := hsuffix
  constructor
  · rintro ⟨⟨wire, ⟨k, hk⟩, -⟩, -⟩ call hcall
    by_contra hlarge
    have hend := hk k (le_refl k)
    rw [send_all_never_ends hcall (Nat.le_of_not_lt hlarge)] at hend
    cases hend
  · intro hsize
    refine ⟨?_, restored_shown hbreak _⟩
    obtain ⟨wire, hends, hrecv⟩ := recv_calls me hne hzero hfix hmin hmax hband htext hsize
    refine ⟨wire, hends, fun rest => ?_⟩
    have hready : Ready ⟨PREFIX ++ buf, false, []⟩ := ⟨buf, rfl, hbuf⟩
    obtain ⟨t, herr, -, hloop⟩ := hrecv hready (packet_flush ++ rest) []
    rw [recv_sideband, List.append_assoc, hloop, recv_flush, herr, List.nil_append,
      List.nil_append]

/-- A message in two packets, around some data. -/
theorem a_message_in_two_packets :
    Demultiplexed [] none (List.replicate 65533 0) 6 [(2, [97]), (1, [0]), (2, [98, LF])] :=
  ((the_bands_come_apart_iff [] none (List.replicate 65533 0)
    (by rw [List.length_replicate]; rfl) 6 (le_refl 6) (by decide)
    [(2, [97]), (1, [0]), (2, [98, LF])] (by decide) (by decide)).mpr (by decide)).1

/-- The sender of 2^32 bytes does not come to an end. -/
theorem four_gigabytes_never_end : ¬ ∀ (me : Bytes) (term : Option Bytes) (buf : Bytes)
    (packet_max : Nat) (calls : List (Int × Bytes)),
    pf + buf.length = LARGE_PACKET_MAX + 2 * FIX_SIZE → 6 ≤ packet_max →
    packet_max ≤ LARGE_PACKET_MAX → (∀ call ∈ calls, call.1 = 1 ∨ call.1 = 2) →
    (∀ call ∈ calls, call.1 = 2 → (0 : UInt8) ∉ call.2) →
    Demultiplexed me term buf packet_max calls := by
  intro h
  have hbands : ∀ call ∈ [((1 : Int), List.replicate (2 ^ 32) (0 : UInt8))],
      call.1 = 1 ∨ call.1 = 2 := by
    intro call hcall
    rw [List.mem_singleton.mp hcall]
    exact Or.inl rfl
  have htext : ∀ call ∈ [((1 : Int), List.replicate (2 ^ 32) (0 : UInt8))],
      call.1 = 2 → (0 : UInt8) ∉ call.2 := by
    intro call hcall htwo
    rw [List.mem_singleton.mp hcall] at htwo
    exact absurd htwo (by decide)
  obtain ⟨wire, ⟨k, hk⟩, -⟩ := h [] none (List.replicate 65533 0) 6
    [(1, List.replicate (2 ^ 32) 0)] (by rw [List.length_replicate]; rfl) (le_refl 6) (by decide)
    hbands htext
  have hend := hk k (le_refl k)
  rw [send_all_never_ends List.mem_cons_self (by rw [List.length_replicate])] at hend
  cases hend

end git.sideband
