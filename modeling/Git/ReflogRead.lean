-- Reading a reflog, `for_each_reflog_ent` and `for_each_recent_reflog_ent` of `refs.c`, and that
-- the entries are those that were written.
import Git.ReflogWrite

namespace git.reflog

open git.convert (LF sha1_to_hex memchr)
open git.hex (get_sha1_hex)

/-! ## The readers -/

/-- The line at the front with its LF, if it has one, and the rest. -/
def strbuf_getwholeline : Bytes → Option (Bytes × Bytes)
  | [] => none
  | c :: fp =>
    if c = LF then some ([LF], fp)
    else match strbuf_getwholeline fp with
      | none => some ([c], [])
      | some (sb, fp) => some (c :: sb, fp)

/-- What is handed to the callback. -/
structure reflog_ent where
  osha1 : Sha1
  nsha1 : Sha1
  email : Bytes
  timestamp : Nat
  tz : Int
  message : Bytes
  deriving DecidableEq

def isdigit (c : UInt8) : Bool := digit_text.is_digit 10 c

/-- `old SP new SP name <email> SP time TAB msg LF`, or nothing where the line is not that. -/
def parse_ent (sb : Bytes) : Option reflog_ent :=
  if sb.length < 83 ∨ sb.getLast? ≠ some LF ∨ sb[40]? ≠ some 32 ∨ sb[81]? ≠ some 32 then none
  else
    match get_sha1_hex sb, get_sha1_hex (sb.drop 41) with
    | some osha1, some nsha1 =>
      -- `strchr` stops at a NUL.
      match memchr 62 ((sb.drop 82).takeWhile (· ≠ 0)) with
      | none => none
      | some (who, email_end) =>
        if email_end[0]? ≠ some 32 then none
        else
          match digit_text.strtoul 10 (email_end.drop 1) with
          | none => none
          | some (timestamp, message) =>
            if timestamp = 0 ∨ message[0]? ≠ some 32 ∨
                (message[1]? ≠ some 43 ∧ message[1]? ≠ some 45) ∨
                !((message.drop 2).take 4).all isdigit ∨ message.length < 6 then none
            else
              some {
                osha1, nsha1, timestamp
                email := who ++ [62]
                -- The `long` is stored in an `int`.
                tz := ((digit_text.strtol 10 (message.drop 1)).elim 0 Prod.fst).bmod (2 ^ 32)
                message := if message[6]? ≠ some TAB then message.drop 6 else message.drop 7 }
    | _, _ => none

variable {σ : Type*}

/-- The loop over the lines, which ends where the callback does not return 0. -/
def ent_loop (fn : σ → reflog_ent → Int × σ) : Nat → Bytes → σ → Int × σ
  | 0, _, cb_data => (0, cb_data)
  | turns + 1, logfp, cb_data =>
    match strbuf_getwholeline logfp with
    | none => (0, cb_data)
    | some (sb, logfp) =>
      match parse_ent sb with
      | none => ent_loop fn turns logfp cb_data
      | some ent =>
        let (ret, cb_data) := fn cb_data ent
        if ret ≠ 0 then (ret, cb_data) else ent_loop fn turns logfp cb_data

/-- The file, if it is there, and how far from its end to start. -/
def for_each_recent_reflog_ent (log : Option Bytes) (fn : σ → reflog_ent → Int × σ) (ofs : Nat)
    (cb_data : σ) : Int × σ :=
  match log with
  | none => (-1, cb_data)
  | some log =>
    if ofs = 0 then ent_loop fn (log.length + 1) log cb_data
    else if log.length < ofs then (-1, cb_data)
    else
      match strbuf_getwholeline (log.drop (log.length - ofs)) with
      | none => (-1, cb_data)
      | some (_, logfp) => ent_loop fn (log.length + 1) logfp cb_data

def for_each_reflog_ent (log : Option Bytes) (fn : σ → reflog_ent → Int × σ) (cb_data : σ) :
    Int × σ := for_each_recent_reflog_ent log fn 0 cb_data

/-! ## The entries that were written -/

/-- The callback is called with each of them, up to the one where it does not return 0. -/
def call_each (fn : σ → reflog_ent → Int × σ) : List reflog_ent → σ → Int × σ
  | [], cb_data => (0, cb_data)
  | ent :: ents, cb_data =>
    let (ret, cb_data) := fn cb_data ent
    if ret ≠ 0 then (ret, cb_data) else call_each fn ents cb_data

/-- The offset as the number with the digits `hhmm`. -/
def tz_of (offset : Int) : Int :=
  let hhmm : Nat := offset.natAbs / 60 * 100 + offset.natAbs % 60
  if offset < 0 then -hhmm else hhmm

/-- An update as a reader has to see it. The message is up to the end of the line, with its LF. -/
def log_entry.ent (e : log_entry) : reflog_ent where
  osha1 := e.old_sha1
  nsha1 := e.new_sha1
  email := e.committer.name ++ [32, 60] ++ e.committer.email ++ [62]
  timestamp := e.committer.timestamp
  tz := tz_of e.committer.offset
  message := squeeze e.msg ++ [LF]

/-! ## One line -/

theorem getwholeline_append {body : Bytes} (h : LF ∉ body) (rest : Bytes) :
    strbuf_getwholeline (body ++ LF :: rest) = some (body ++ [LF], rest) := by
  induction body with
  | nil => rfl
  | cons c body ih =>
    obtain ⟨hc, hbody⟩ : c ≠ LF ∧ LF ∉ body := by simpa [eq_comm] using h
    rw [List.cons_append, strbuf_getwholeline, if_neg hc, ih hbody]
    rfl

theorem memchr_append {before : Bytes} {c : UInt8} (h : c ∉ before) (rest : Bytes) :
    memchr c (before ++ c :: rest) = some (before, rest) := by
  induction before with
  | nil => simp [memchr]
  | cons d before ih =>
    obtain ⟨hd, hbefore⟩ : d ≠ c ∧ c ∉ before := by simpa [eq_comm] using h
    rw [List.cons_append, memchr, if_neg hd, ih hbefore]
    rfl

/-- The digit of a number below ten. -/
def digit (d : Nat) : UInt8 := (Nat.digitChar d).toNat.toUInt8

theorem two_digits_eq {n : Nat} (h : n < 100) :
    two_digits n = [digit (n / 10), digit (n % 10)] := by
  by_cases hn : n < 10
  · rw [two_digits, if_pos hn, digit_text.write_small (by decide) hn, Nat.div_eq_of_lt hn,
      Nat.mod_eq_of_lt hn]
    rfl
  · rw [two_digits, if_neg hn, digit_text.write_more (by decide) (Nat.not_lt.mp hn),
      digit_text.write_small (by decide) (by omega)]
    rfl

theorem isdigit_digit {d : Nat} (h : d < 10) : isdigit (digit d) = true :=
  digit_text.is_digit_byte le_rfl h

theorem read_two_digits {n : Nat} (h : n < 100) (acc : Nat) (rest : Bytes) :
    digit_text.read 10 acc (two_digits n ++ rest) = digit_text.read 10 (acc * 100 + n) rest := by
  rw [two_digits_eq h, List.cons_append, List.singleton_append, digit,
    digit_text.read_digit le_rfl acc (by omega), digit,
    digit_text.read_digit le_rfl _ (Nat.mod_lt n (by decide))]
  congr 1
  omega

theorem read_stops {rest : Bytes} (h : ∀ c, rest.head? = some c → isdigit c = false) (acc : Nat) :
    digit_text.read 10 acc rest = (acc, rest) := by
  cases rest with
  | nil => rfl
  | cons c rest => rw [digit_text.read, if_neg (by simpa [isdigit] using h c rfl)]

/-- The zone as `strtol` and `strtoul` scan it. -/
theorem scan_zone {offset : Int} (h : offset.natAbs / 60 < 100) {rest : Bytes}
    (hrest : ∀ c, rest.head? = some c → isdigit c = false) :
    digit_text.scan 10 ((if offset < 0 then 45 else 43) ::
        (two_digits (offset.natAbs / 60) ++ (two_digits (offset.natAbs % 60) ++ rest))) =
      some (decide (offset < 0), offset.natAbs / 60 * 100 + offset.natAbs % 60, rest) := by
  have hmin : offset.natAbs % 60 < 100 := by omega
  have hread : digit_text.read 10 0 (two_digits (offset.natAbs / 60) ++
      (two_digits (offset.natAbs % 60) ++ rest)) =
        (offset.natAbs / 60 * 100 + offset.natAbs % 60, rest) := by
    rw [read_two_digits h, read_two_digits hmin, read_stops hrest, Nat.zero_mul, Nat.zero_add]
  have hhead : ((two_digits (offset.natAbs / 60) ++
      (two_digits (offset.natAbs % 60) ++ rest)).head?.map (digit_text.is_digit 10)).getD false =
        true := by
    rw [two_digits_eq h]
    exact isdigit_digit (by omega)
  generalize two_digits (offset.natAbs / 60) ++ (two_digits (offset.natAbs % 60) ++ rest) = text
    at hread hhead ⊢
  have hsign : digit_text.sign (((if offset < 0 then 45 else 43) :: text).dropWhile
      digit_text.is_space) = (decide (offset < 0), text) := by
    by_cases hneg : offset < 0
    · rw [if_pos hneg, decide_eq_true hneg]
      rfl
    · rw [if_neg hneg, decide_eq_false hneg]
      rfl
  rw [digit_text.scan, hsign]
  simp only [hhead, if_true, hread]

theorem strtol_zone {offset : Int} (h : offset.natAbs / 60 < 100) {rest : Bytes}
    (hrest : ∀ c, rest.head? = some c → isdigit c = false) :
    digit_text.strtol 10 ((if offset < 0 then 45 else 43) ::
        (two_digits (offset.natAbs / 60) ++ (two_digits (offset.natAbs % 60) ++ rest))) =
      some (tz_of offset, rest) := by
  rw [digit_text.strtol, scan_zone h hrest, Option.map_some, tz_of]
  simp only [decide_eq_true_eq, Option.some.injEq, Prod.mk.injEq, and_true]
  split_ifs <;> omega

/-- A line that was written, from the third field on. -/
def log_entry.rest (e : log_entry) : Bytes := git_committer_info e.committer ++ (e.behind ++ [LF])

theorem line_eq (e : log_entry) :
    e.line = sha1_to_hex e.old_sha1 ++ 32 :: (sha1_to_hex e.new_sha1 ++ 32 :: e.rest) := by
  simp [log_entry.line, log_entry.body, log_entry.names, log_entry.rest]

/-- The fixed places of a line, with more lines behind it. -/
theorem line_places (e : log_entry) (more : Bytes) :
    (e.line ++ more)[40]? = some 32 ∧ (e.line ++ more)[81]? = some 32 ∧
      get_sha1_hex (e.line ++ more) = some e.old_sha1 ∧
      get_sha1_hex ((e.line ++ more).drop 41) = some e.new_sha1 ∧
      (e.line ++ more).drop 82 = e.rest ++ more := by
  have hline : e.line ++ more =
      sha1_to_hex e.old_sha1 ++ 32 :: (sha1_to_hex e.new_sha1 ++ 32 :: (e.rest ++ more)) := by
    rw [line_eq, List.append_assoc, List.cons_append, List.append_assoc, List.cons_append]
  have hdrop : (e.line ++ more).drop 41 =
      sha1_to_hex e.new_sha1 ++ 32 :: (e.rest ++ more) := by
    rw [hline, List.drop_append, hex.length_sha1_to_hex, List.drop_of_length_le (by simp)]
    rfl
  refine ⟨?_, ?_, ?_, ?_, ?_⟩
  · rw [hline, List.getElem?_append_right (by simp), hex.length_sha1_to_hex]
    rfl
  · have hplace : (e.line ++ more)[81]? = ((e.line ++ more).drop 41)[40]? := by
      rw [List.getElem?_drop]
    rw [hplace, hdrop, List.getElem?_append_right (by simp), hex.length_sha1_to_hex]
    rfl
  · rw [hline]
    exact hex.get_sha1_hex_append _ _
  · rw [hdrop]
    exact hex.get_sha1_hex_append _ _
  · have hplace : (e.line ++ more).drop 82 = ((e.line ++ more).drop 41).drop 41 := by
      rw [List.drop_drop]
    rw [hplace, hdrop, List.drop_append, hex.length_sha1_to_hex,
      List.drop_of_length_le (by simp)]
    rfl

theorem rest_text {e : log_entry} {c : UInt8} (h : c ∈ e.rest) : c ≠ 0 := by
  have hline : c ∈ e.line := by
    rw [line_eq]
    exact List.mem_append_right _ (List.mem_cons_of_mem _ (List.mem_append_right _
      (List.mem_cons_of_mem _ h)))
  rcases List.mem_append.mp hline with hbody | hlast
  · exact (body_text hbody).1
  · rw [List.mem_singleton.mp hlast]
    decide

/-- The name and the address up to the closing bracket, and the text from the date on. -/
theorem memchr_rest (e : log_entry) :
    memchr 62 (e.rest.takeWhile (· ≠ 0)) =
      some (e.committer.name ++ [32, 60] ++ e.committer.email,
        32 :: (date_string e.committer.timestamp e.committer.offset ++ (e.behind ++ [LF]))) := by
  have htext : e.rest.takeWhile (· ≠ 0) = e.rest :=
    List.takeWhile_eq_self_iff.mpr fun c hc => by simpa using rest_text hc
  have hbracket : (62 : UInt8) ∉ e.committer.name ++ [32, 60] ++ e.committer.email := by
    have hplain := fun h => (e.committer.plain 62 h).2.2.2 rfl
    simp only [List.mem_append, List.mem_cons, List.not_mem_nil, or_false] at hplain ⊢
    rintro ((h | h | h) | h)
    · exact hplain (Or.inl h)
    · exact absurd h (by decide)
    · exact absurd h (by decide)
    · exact hplain (Or.inr h)
  have hsplit : e.rest = (e.committer.name ++ [32, 60] ++ e.committer.email) ++ 62 ::
      (32 :: (date_string e.committer.timestamp e.committer.offset ++ (e.behind ++ [LF]))) := by
    simp [log_entry.rest, git_committer_info]
  rw [htext, hsplit]
  exact memchr_append hbracket _

/-- The text behind the date: the zone, and what is handed on as the message. -/
theorem zone_text (e : log_entry) :
    ∃ a b c d, isdigit a = true ∧ isdigit b = true ∧ isdigit c = true ∧ isdigit d = true ∧
      date_string e.committer.timestamp e.committer.offset ++ (e.behind ++ [LF]) =
        digit_text.write 10 e.committer.timestamp ++
          32 :: (if e.committer.offset < 0 then 45 else 43) :: a :: b :: c :: d ::
            (e.behind ++ [LF]) ∧
      digit_text.strtol 10 ((if e.committer.offset < 0 then 45 else 43) :: a :: b :: c :: d ::
        (e.behind ++ [LF])) = some (tz_of e.committer.offset, e.behind ++ [LF]) := by
  have hhours := e.committer.hours_lt
  have hmin : e.committer.offset.natAbs % 60 < 100 := by omega
  have hstop : ∀ c, (e.behind ++ [LF]).head? = some c → isdigit c = false := by
    intro c hc
    rw [log_entry.behind] at hc
    split at hc <;> (obtain rfl := Option.some.inj hc; rfl)
  have hzone := strtol_zone hhours hstop
  rw [two_digits_eq hhours, two_digits_eq hmin] at hzone
  refine ⟨_, _, _, _, isdigit_digit ?_, isdigit_digit ?_, isdigit_digit ?_, isdigit_digit ?_, ?_,
    hzone⟩
  · omega
  · omega
  · omega
  · omega
  · simp [date_string, two_digits_eq hhours, two_digits_eq hmin]

theorem tz_small {offset : Int} (h : offset.natAbs / 60 < 100) :
    (tz_of offset).bmod (2 ^ 32) = tz_of offset := by
  refine Int.bmod_eq_of_le ?_ ?_
  · rw [tz_of]
    split_ifs <;> omega
  · rw [tz_of]
    split_ifs <;> omega

/-- Behind the zone there is the end of the line, or a tab and the message. -/
theorem behind_message (e : log_entry) :
    (if (e.behind ++ [LF])[0]? ≠ some TAB then e.behind ++ [LF] else (e.behind ++ [LF]).drop 1) =
      squeeze e.msg ++ [LF] := by
  rw [log_entry.behind]
  by_cases hempty : squeeze e.msg = []
  · rw [if_pos hempty, hempty]
    rfl
  · rw [if_neg hempty]
    rfl

/-- The line of an update is read back, but for one at the epoch. -/
theorem parse_line {e : log_entry} (h : e.committer.timestamp ≠ 0) :
    parse_ent e.line = some e.ent := by
  obtain ⟨hold, hnew, hosha1, hnsha1, hrest⟩ := line_places e []
  simp only [List.append_nil] at hold hnew hosha1 hnsha1 hrest
  obtain ⟨a, b, c, d, ha, hb, hc, hd, hdate, htz⟩ := zone_text e
  have hlong : ¬ e.line.length < 83 := by
    simp only [line_eq, log_entry.rest, List.length_append, List.length_cons,
      hex.length_sha1_to_hex, List.length_nil]
    omega
  have hlast : e.line.getLast? = some LF := by rw [log_entry.line, List.getLast?_concat]
  have hsign : (if e.committer.offset < 0 then 45 else 43 : UInt8) = 43 ∨
      (if e.committer.offset < 0 then 45 else 43 : UInt8) = 45 := by
    split_ifs
    · exact Or.inr rfl
    · exact Or.inl rfl
  have hmessage := behind_message e
  have hmemchr := memchr_rest e
  generalize (if e.committer.offset < 0 then 45 else 43 : UInt8) = sign at hdate htz hsign
  generalize e.behind ++ [LF] = message at hdate htz hmessage hmemchr
  have hstrtoul : digit_text.strtoul 10 (digit_text.write 10 e.committer.timestamp ++
      32 :: sign :: a :: b :: c :: d :: message) =
        some (e.committer.timestamp, 32 :: sign :: a :: b :: c :: d :: message) := by
    refine digit_text.strtoul_write (by decide) le_rfl e.committer.timestamp_lt fun blank hb => ?_
    obtain rfl := Option.some.inj hb
    rfl
  rw [parse_ent, if_neg (by simp [hlong, hlast, hold, hnew]), hosha1, hnsha1, hrest, hmemchr]
  simp only [List.getElem?_cons_zero, ne_eq, not_true_eq_false, if_false, List.drop_succ_cons,
    List.drop_zero, hdate, hstrtoul]
  have hsixth : (32 :: sign :: a :: b :: c :: d :: message)[6]? = message[0]? := rfl
  rw [if_neg (by simpa [h, ha, hb, hc, hd] using or_iff_not_imp_left.mp hsign), htz, hsixth,
    Option.elim_some, tz_small e.committer.hours_lt]
  exact congrArg some (reflog_ent.mk.injEq .. ▸ ⟨rfl, rfl, rfl, rfl, rfl, hmessage⟩)

/-! ## The whole file -/

/-- Each turn of the loop takes one line. -/
theorem ent_loop_lines (fn : σ → reflog_ent → Int × σ) {entries : List log_entry}
    (hdates : ∀ e ∈ entries, e.committer.timestamp ≠ 0) {turns : Nat}
    (hturns : entries.length < turns) (cb_data : σ) :
    ent_loop fn turns (entries.flatMap log_entry.line) cb_data =
      call_each fn (entries.map log_entry.ent) cb_data := by
  induction entries generalizing turns cb_data with
  | nil =>
    obtain ⟨turns, rfl⟩ := Nat.exists_eq_add_one_of_ne_zero (Nat.ne_zero_of_lt hturns)
    rfl
  | cons e entries ih =>
    obtain ⟨turns, rfl⟩ := Nat.exists_eq_add_one_of_ne_zero (Nat.ne_zero_of_lt hturns)
    have hline : strbuf_getwholeline ((e :: entries).flatMap log_entry.line) =
        some (e.line, entries.flatMap log_entry.line) := by
      rw [List.flatMap_cons, log_entry.line, List.append_assoc, List.singleton_append]
      exact getwholeline_append (fun h => (body_text h).2 rfl) _
    have hrest := fun cb_data => ih (fun e he => hdates e (List.mem_cons_of_mem _ he))
      (Nat.lt_of_succ_lt_succ hturns) cb_data
    rw [ent_loop, hline]
    simp only [parse_line (hdates e List.mem_cons_self), List.map_cons, call_each, hrest]

theorem length_entries_le (entries : List log_entry) :
    entries.length ≤ (entries.flatMap log_entry.line).length := by
  induction entries with
  | nil => exact le_rfl
  | cons e entries ih =>
    rw [List.flatMap_cons, List.length_append, log_entry.line, List.length_append,
      List.length_singleton, List.length_cons]
    omega

/-- A place in the file is in the line of one of the entries. -/
theorem exists_entry_at {entries : List log_entry} {place : Nat}
    (h : place < (entries.flatMap log_entry.line).length) :
    ∃ before e after, entries = before ++ e :: after ∧
      (before.flatMap log_entry.line).length ≤ place ∧
      place < (before.flatMap log_entry.line).length + e.line.length := by
  induction entries generalizing place with
  | nil => exact absurd h (Nat.not_lt_zero _)
  | cons e entries ih =>
    by_cases hfirst : place < e.line.length
    · exact ⟨[], e, entries, rfl, Nat.zero_le _, by simpa using hfirst⟩
    · rw [List.flatMap_cons, List.length_append] at h
      obtain ⟨before, e', after, rfl, hlow, hhigh⟩ :=
        ih (show place - e.line.length < (entries.flatMap log_entry.line).length by omega)
      refine ⟨e :: before, e', after, rfl, ?_, ?_⟩
      · rw [List.flatMap_cons, List.length_append]
        omega
      · rw [List.flatMap_cons, List.length_append]
        omega

/-- From any place in a line, the rest of this line is dropped. -/
theorem getwholeline_inside {before : List log_entry} (after : List log_entry) {e : log_entry}
    {place : Nat} (hlow : (before.flatMap log_entry.line).length ≤ place)
    (hhigh : place < (before.flatMap log_entry.line).length + e.line.length) :
    ∃ sb, strbuf_getwholeline (((before ++ e :: after).flatMap log_entry.line).drop place) =
      some (sb, after.flatMap log_entry.line) := by
  obtain ⟨k, rfl⟩ := Nat.exists_eq_add_of_le hlow
  have hk : k ≤ e.body.length := by
    rw [log_entry.line, List.length_append, List.length_singleton] at hhigh
    omega
  refine ⟨e.body.drop k ++ [LF], ?_⟩
  rw [List.flatMap_append, ← List.drop_drop, List.drop_left, List.flatMap_cons, log_entry.line,
    List.append_assoc, List.drop_append_of_le_length hk, List.singleton_append]
  exact getwholeline_append (fun h => (body_text (List.mem_of_mem_drop h)).2 rfl) _

/-- Each update appends one line, which ends at its only LF. The reader reports the entries that
were written, and the recent one those whose lines start behind the place that it seeks, if the
file is that long. -/
theorem reflog_reads_back (entries : List log_entry) (hfits : ∀ e ∈ entries, e.Fits)
    (hdates : ∀ e ∈ entries, e.committer.timestamp ≠ 0) (fn : σ → reflog_ent → Int × σ)
    (cb_data : σ) :
    (∀ e ∈ entries, ∃ body, LF ∉ body ∧ ∀ log,
      log_ref_write log e.old_sha1 e.new_sha1 e.committer e.msg = (0, log ++ (body ++ [LF]))) ∧
    for_each_reflog_ent (some (log_of entries)) fn cb_data =
      call_each fn (entries.map log_entry.ent) cb_data ∧
    (∀ ofs, 0 < ofs → ofs ≤ (log_of entries).length →
      ∃ before e after, entries = before ++ e :: after ∧
        (log_of before).length ≤ (log_of entries).length - ofs ∧
        (log_of entries).length - ofs < (log_of (before ++ [e])).length ∧
        for_each_recent_reflog_ent (some (log_of entries)) fn ofs cb_data =
          call_each fn (after.map log_entry.ent) cb_data) ∧
    ∀ ofs, (log_of entries).length < ofs →
      for_each_recent_reflog_ent (some (log_of entries)) fn ofs cb_data = (-1, cb_data) := by
  refine ⟨?_, ?_, ?_, ?_⟩
  · intro e he
    exact ⟨e.body, fun h => (body_text h).2 rfl, log_ref_write_line (hfits e he)⟩
  · rw [for_each_reflog_ent, for_each_recent_reflog_ent, log_of_eq hfits]
    exact ent_loop_lines fn hdates (Nat.lt_succ_of_le (length_entries_le entries)) cb_data
  · intro ofs hpos hle
    rw [log_of_eq hfits] at hle ⊢
    obtain ⟨before, e, after, rfl, hlow, hhigh⟩ := exists_entry_at
      (show (entries.flatMap log_entry.line).length - ofs <
        (entries.flatMap log_entry.line).length by omega)
    obtain ⟨sb, hsb⟩ := getwholeline_inside after hlow hhigh
    have hbefore : ∀ e ∈ before, e.Fits := fun e he => hfits e (List.mem_append_left _ he)
    have hthis : ∀ e' ∈ before ++ [e], e'.Fits := by
      intro e' he'
      refine hfits e' ?_
      rcases List.mem_append.mp he' with he' | he'
      · exact List.mem_append_left _ he'
      · rw [List.mem_singleton.mp he']
        exact List.mem_append_right _ List.mem_cons_self
    refine ⟨before, e, after, rfl, ?_, ?_, ?_⟩
    · rwa [log_of_eq hbefore]
    · have hlength : ((before ++ [e]).flatMap log_entry.line).length =
          (before.flatMap log_entry.line).length + e.line.length := by
        rw [List.flatMap_append, List.flatMap_singleton, List.length_append]
      rwa [log_of_eq hthis, hlength]
    · have hafter : ∀ e ∈ after, e.committer.timestamp ≠ 0 :=
        fun e he => hdates e (List.mem_append_right _ (List.mem_cons_of_mem _ he))
      have hlong : after.length < ((before ++ e :: after).flatMap log_entry.line).length + 1 := by
        have hle := length_entries_le (before ++ e :: after)
        rw [List.length_append, List.length_cons] at hle
        omega
      rw [for_each_recent_reflog_ent]
      simp only [Nat.ne_of_gt hpos, if_false, Nat.not_lt.mpr hle, hsb]
      exact ent_loop_lines fn hafter hlong cb_data
  · intro ofs hlong
    rw [for_each_recent_reflog_ent]
    simp only [Nat.ne_zero_of_lt hlong, if_false, hlong, if_true]

/-! ## One entry -/

/-- `A <a>`, a second after the epoch. -/
def a_committer : ident where
  name := [65]
  email := [97]
  timestamp := 1
  offset := 0
  plain := by simp [show (65 : UInt8) ≠ LF by decide, show (97 : UInt8) ≠ LF by decide]
  timestamp_lt := by norm_num
  hours_lt := by decide

def an_entry : log_entry where
  old_sha1 := Vector.replicate 20 0
  new_sha1 := Vector.replicate 20 0
  committer := a_committer
  msg := [120]
  msg_text := by decide

def collect (ents : List reflog_ent) (ent : reflog_ent) : Int × List reflog_ent :=
  (0, ents ++ [ent])

theorem an_entry_fits : an_entry.Fits := by
  have hname : (git_committer_info an_entry.committer).length = 13 := by decide
  have hmsg : an_entry.msg.length = 1 := rfl
  rw [log_entry.Fits, hname, hmsg]
  norm_num

theorem an_entry_is_read :
    for_each_reflog_ent (some (log_of [an_entry])) collect [] = (0, [an_entry.ent]) :=
  (reflog_reads_back [an_entry] (by simpa using an_entry_fits) (by decide) collect []).2.1

/-- The place that the recent reader seeks may be the start of a line. That line is dropped, too. -/
theorem a_whole_line_is_dropped :
    ¬ ∀ before after : List log_entry, (∀ e ∈ before ++ after, e.Fits) →
      (∀ e ∈ before ++ after, e.committer.timestamp ≠ 0) → after ≠ [] →
      for_each_recent_reflog_ent (some (log_of (before ++ after))) collect
          ((log_of (before ++ after)).length - (log_of before).length) [] =
        (0, after.map log_entry.ent) := by
  intro hall
  have hentry :=
    hall [] [an_entry] (by simpa using an_entry_fits) (by decide) (List.cons_ne_nil _ _)
  have hlog : log_of [an_entry] = an_entry.line := by
    rw [log_of_eq (by simpa using an_entry_fits), List.flatMap_singleton]
  have hpos : 0 < an_entry.line.length := by
    rw [log_entry.line, List.length_append]
    exact Nat.lt_add_left _ Nat.one_pos
  have hline : strbuf_getwholeline an_entry.line = some (an_entry.line, []) :=
    getwholeline_append (fun h => (body_text h).2 rfl) []
  have hseek : (log_of [an_entry]).length - (log_of []).length = an_entry.line.length := by
    rw [hlog]
    rfl
  rw [List.nil_append, hseek, hlog, for_each_recent_reflog_ent, if_neg hpos.ne',
    if_neg (lt_irrefl _), Nat.sub_self, List.drop_zero, hline] at hentry
  cases hentry

end git.reflog
