-- `read_ref_at` of `refs.c`, which looks for the value of a reference by a count or by a date, from
-- the end of its log backwards.
import Git.Refs
import Git.ReflogRead

namespace git.reflog

open git.convert (LF sha1_to_hex)
open git.hex (get_sha1_hex)
open git.refs (null_sha1)

/-! ## The function -/

/-- `Log %s has gap after %s` and `Log %s unexpectedly ended on %s`. -/
inductive log_warning where
  | gap
  | unexpectedly_ended
  deriving DecidableEq

/-- The value that is returned, what the pointers have behind them, and the warning. -/
structure ref_at where
  ret : Int
  sha1 : Sha1
  msg : Bytes
  cutoff_time : Nat
  cutoff_tz : Int
  cutoff_cnt : Nat
  warned : Option log_warning
  deriving DecidableEq

/-- The rest of the line from the third field on. -/
def ref_msg (line : Bytes) : Bytes := (line.drop 82).takeWhile (· ≠ LF)

/-- `strtoul` with the place of `endptr`. -/
def number (text : Bytes) : Nat × Bytes := (digit_text.strtoul 10 text).getD (0, text)

/-- The `unsigned long` is stored in an `int`. -/
def zone (tz_c : Bytes) : Int := ((number tz_c).1 : Int).bmod (2 ^ 32)

/-- The inner loop, from `rec` back to the start of the line, with `lastgt`. -/
def line_start (logdata : Bytes) : Nat → Option Nat → Nat × Option Nat
  | 0, lastgt => (0, lastgt)
  | rec + 1, lastgt =>
    if logdata[rec]? = some LF then (rec + 1, lastgt)
    else line_start logdata rec (if logdata[rec]? = some 62 then some rec else lastgt)

/-- The entry at `rec` is the one: `lastrec` is the entry behind it, and `sha1` what the caller has
there. Nothing where the log is corrupt. -/
def answer (logdata : Bytes) (at_time : Nat) (sha1 : Sha1) (rec lastgt : Nat)
    (lastrec : Option Nat) (reccnt : Nat) : Option ref_at :=
  let (date, tz_c) := number (logdata.drop (lastgt + 1))
  let found (sha1 : Sha1) (warned : Option log_warning) : ref_at :=
    ⟨0, sha1, ref_msg (logdata.drop rec), date, zone tz_c, reccnt - 1, warned⟩
  match lastrec with
  | some lastrec =>
    match get_sha1_hex (logdata.drop lastrec), get_sha1_hex (logdata.drop (rec + 41)) with
    | some logged_sha1, some sha1 =>
      some (found sha1 (if logged_sha1 ≠ sha1 then some .gap else none))
    | _, _ => none
  | none =>
    match get_sha1_hex (logdata.drop (rec + 41)) with
    | some logged_sha1 =>
      if date = at_time then some (found logged_sha1 none)
      else some (found sha1 (if logged_sha1 ≠ sha1 then some .unexpectedly_ended else none))
    | none => none

/-- The code behind the loop: the old value of the first entry, or its new value where there was
none. -/
def oldest (logdata : Bytes) (reccnt : Nat) : Option ref_at :=
  let gt := (logdata.takeWhile fun c => c ≠ 62 ∧ c ≠ LF).length
  if logdata[gt]? ≠ some 62 then none
  else
    let (date, tz_c) := number (logdata.drop (gt + 1))
    match get_sha1_hex logdata, get_sha1_hex (logdata.drop 41) with
    | some sha1, next =>
      let found (sha1 : Sha1) : ref_at := ⟨1, sha1, ref_msg logdata, date, zone tz_c, reccnt, none⟩
      if sha1 = null_sha1 then next.map found else some (found sha1)
    | none, _ => none

/-- The loop over the entries, the last one first. -/
def at_loop (logdata : Bytes) (at_time : Nat) (sha1 : Sha1) :
    Nat → Nat → Option Nat → Int → Nat → Option ref_at
  | 0, _, _, _, _ => none
  | turns + 1, rec, lastrec, cnt, reccnt =>
    if rec = 0 then oldest logdata reccnt
    else
      match line_start logdata (if logdata[rec - 1]? = some LF then rec - 1 else rec) none with
      | (_, none) => none
      | (rec, some lastgt) =>
        if (number (logdata.drop (lastgt + 1))).1 ≤ at_time ∨ cnt = 0 then
          answer logdata at_time sha1 rec lastgt lastrec (reccnt + 1)
        else
          at_loop logdata at_time sha1 turns rec (some rec) (if 0 < cnt then cnt - 1 else cnt)
            (reccnt + 1)

/-- The file that is there, and the value that the caller has for the reference. Nothing where the
function dies. -/
def read_ref_at (logdata : Bytes) (at_time : Nat) (cnt : Int) (sha1 : Sha1) : Option ref_at :=
  if logdata = [] then none
  else at_loop logdata at_time sha1 (logdata.length + 1) logdata.length none cnt 0

/-! ## What it has to answer -/

/-- The answer at an entry, with the entry behind it, and how many there are. The value at the last
entry is left as the caller has it, unless the date is met exactly. -/
def answer_of (at_time : Nat) (sha1 : Sha1) (e : log_entry) (after : List log_entry) : ref_at where
  ret := 0
  sha1 := if after = [] ∧ e.committer.timestamp ≠ at_time then sha1 else e.new_sha1
  msg := git_committer_info e.committer ++ e.behind
  cutoff_time := e.committer.timestamp
  cutoff_tz := tz_of e.committer.offset
  cutoff_cnt := after.length
  warned :=
    match after with
    | next :: _ => if next.old_sha1 ≠ e.new_sha1 then some .gap else none
    | [] =>
      if e.committer.timestamp ≠ at_time ∧ e.new_sha1 ≠ sha1 then some .unexpectedly_ended else none

/-- The answer where the log does not go back so far. -/
def oldest_of (e : log_entry) (entries : Nat) : ref_at where
  ret := 1
  sha1 := if e.old_sha1 = null_sha1 then e.new_sha1 else e.old_sha1
  msg := git_committer_info e.committer ++ e.behind
  cutoff_time := e.committer.timestamp
  cutoff_tz := tz_of e.committer.offset
  cutoff_cnt := entries
  warned := none

/-! ## One line -/

/-- The part of a line before the closing bracket. -/
def log_entry.before_gt (e : log_entry) : Bytes :=
  sha1_to_hex e.old_sha1 ++ [32] ++ sha1_to_hex e.new_sha1 ++ [32] ++
    (e.committer.name ++ [32, 60] ++ e.committer.email)

def log_entry.behind_gt (e : log_entry) : Bytes :=
  32 :: (date_string e.committer.timestamp e.committer.offset ++ e.behind)

theorem body_split (e : log_entry) : e.body = e.before_gt ++ 62 :: e.behind_gt := by
  simp [log_entry.body, log_entry.names, log_entry.before_gt, log_entry.behind_gt,
    git_committer_info]

theorem before_gt_plain (e : log_entry) {c : UInt8} (h : c ∈ e.before_gt) : c ≠ 62 ∧ c ≠ LF := by
  refine ⟨?_, fun hc => ?_⟩
  · rintro rfl
    have hhex : ∀ sha1 : Sha1, (62 : UInt8) ∉ sha1_to_hex sha1 := fun sha1 hc =>
      hex.mem_sha1_to_hex (P := fun c => c ≠ 62) (fun n hn => (hexdigit_plain n hn).2.2) hc rfl
    have hplain := fun h => (e.committer.plain 62 h).2.2.2 rfl
    have hsign : (62 : UInt8) ∉ ([32, 60] : Bytes) := by decide
    have hblank : (62 : UInt8) ∉ ([32] : Bytes) := by decide
    simp only [log_entry.before_gt, List.mem_append, hhex, hblank, hsign, or_false, false_or]
      at h hplain
    exact hplain h
  · refine (body_text (e := e) ?_).2 hc
    rw [body_split]
    exact List.mem_append_left _ h

/-- The inner loop stops behind the LF of the line before, with the first closing bracket. -/
theorem line_start_spec {before body more : Bytes} (hbody : LF ∉ body)
    (hbefore : before = [] ∨ before.getLast? = some LF) (lastgt : Option Nat) :
    line_start (before ++ (body ++ more)) (before.length + body.length) lastgt =
      (before.length, ((body.findIdx? (· = 62)).map (before.length + ·)).or lastgt) := by
  induction body using List.reverseRecOn generalizing more lastgt with
  | nil =>
    rw [List.length_nil, Nat.add_zero, List.findIdx?_nil, Option.map_none, Option.none_or]
    rcases hbefore with rfl | hbefore
    · rfl
    · obtain ⟨b, rfl⟩ := List.getLast?_eq_some_iff.mp hbefore
      have hlast : (b ++ [LF] ++ ([] ++ more))[b.length]? = some LF := by simp
      rw [List.length_append, List.length_singleton, line_start, if_pos hlast]
  | append_singleton body c ih =>
    obtain ⟨hbody, hc⟩ : LF ∉ body ∧ c ≠ LF := by simpa [eq_comm] using hbody
    have hchar : (before ++ (body ++ [c] ++ more))[before.length + body.length]? = some c := by
      simp
    rw [List.length_append, List.length_singleton, ← Nat.add_assoc, line_start, hchar,
      if_neg (by simpa using hc), List.append_assoc body, ih hbody, List.findIdx?_append]
    by_cases hgt : c = 62
    · cases body.findIdx? (· = 62) with
      | none => simp [hgt]
      | some i => simp [hgt]
    · simp [hgt]

theorem strtoul_blank (text : Bytes) :
    digit_text.strtoul 10 (32 :: text) = digit_text.strtoul 10 text := by
  have hblank : digit_text.is_space 32 = true := rfl
  simp only [digit_text.strtoul, digit_text.scan, List.dropWhile_cons_of_pos hblank]

theorem zone_eq (tz_c : Bytes) : zone tz_c = ((number tz_c).1 : Int).bmod (2 ^ 32) := rfl

theorem number_blank (text : Bytes) : (number (32 :: text)).1 = (number text).1 := by
  rw [number, number, strtoul_blank]
  cases digit_text.strtoul 10 text <;> rfl

theorem number_scan {text rest : Bytes} {minus : Bool} {n : Nat} (h : n < 2 ^ 31)
    (hscan : digit_text.scan 10 text = some (minus, n, rest)) :
    (number text).1 = if minus then (2 ^ 64 - n) % 2 ^ 64 else n := by
  have hstrtoul : digit_text.strtoul 10 text =
      some (if 2 ^ 64 ≤ n then 2 ^ 64 - 1
        else if minus then (2 ^ 64 - n) % 2 ^ 64 else n, rest) := by
    rw [digit_text.strtoul, hscan]
    rfl
  rw [number, hstrtoul, if_neg (by omega)]
  rfl

/-- The negative of a small number comes back through the two conversions. -/
theorem bmod_negative {n : Nat} (h : n < 2 ^ 31) :
    (((2 ^ 64 - n) % 2 ^ 64 : Nat) : Int).bmod (2 ^ 32) = -(n : Int) := by
  by_cases hzero : n = 0
  · subst hzero
    rfl
  · have hvalue : (((2 ^ 64 - n) % 2 ^ 64 : Nat) : Int) = -(n : Int) + (2 ^ 32 : Nat) * 2 ^ 32 := by
      omega
    rw [hvalue, Int.add_mul_bmod_self_left]
    refine Int.bmod_eq_of_le ?_ ?_ <;> omega

theorem zone_value {offset : Int} (h : offset.natAbs / 60 < 100) {rest : Bytes}
    (hrest : ∀ c, rest.head? = some c → isdigit c = false) :
    zone (32 :: (if offset < 0 then 45 else 43) ::
        (two_digits (offset.natAbs / 60) ++ (two_digits (offset.natAbs % 60) ++ rest))) =
      tz_of offset := by
  have hsmall : offset.natAbs / 60 * 100 + offset.natAbs % 60 < 2 ^ 31 := by omega
  have hnumber := number_scan hsmall (scan_zone h hrest)
  rw [zone_eq, number_blank, hnumber, tz_of]
  by_cases hneg : offset < 0
  · rw [if_pos (decide_eq_true hneg), if_pos hneg]
    exact bmod_negative hsmall
  · rw [if_neg (by simpa using hneg), if_neg hneg]
    refine Int.bmod_eq_of_le ?_ ?_ <;> omega

/-- The two numbers behind the closing bracket. -/
theorem numbers_of_line (e : log_entry) (more : Bytes) :
    ∃ tz_c, number (e.behind_gt ++ LF :: more) = (e.committer.timestamp, tz_c) ∧
      zone tz_c = tz_of e.committer.offset := by
  have hstop : ∀ c, (e.behind ++ LF :: more).head? = some c → isdigit c = false := by
    intro c hc
    rw [log_entry.behind] at hc
    split at hc <;> (obtain rfl := Option.some.inj hc; rfl)
  have hzone := zone_value e.committer.hours_lt hstop
  have htext : e.behind_gt ++ LF :: more = 32 :: (digit_text.write 10 e.committer.timestamp ++
      32 :: (if e.committer.offset < 0 then 45 else 43) ::
        (two_digits (e.committer.offset.natAbs / 60) ++
          (two_digits (e.committer.offset.natAbs % 60) ++ (e.behind ++ LF :: more)))) := by
    simp [log_entry.behind_gt, date_string]
  refine ⟨_, ?_, hzone⟩
  rw [htext, number, strtoul_blank, digit_text.strtoul_write (by decide) le_rfl
    e.committer.timestamp_lt, Option.getD_some]
  intro c hc
  obtain rfl := Option.some.inj hc
  rfl

theorem ref_msg_line (e : log_entry) (more : Bytes) :
    ref_msg (e.line ++ more) = git_committer_info e.committer ++ e.behind := by
  have hplain : ∀ c ∈ git_committer_info e.committer ++ e.behind, decide (c ≠ LF) = true := by
    intro c hc
    refine decide_eq_true (body_text (e := e) ?_).2
    rw [log_entry.body, log_entry.names, List.append_assoc]
    exact List.mem_append_right _ hc
  rw [ref_msg, (line_places e more).2.2.2.2, log_entry.rest, ← List.append_assoc, List.append_assoc,
    List.singleton_append, List.takeWhile_append_of_pos hplain]
  simp

/-! ## One turn -/

theorem drop_length_add (before text : Bytes) (k : Nat) :
    (before ++ text).drop (before.length + k) = text.drop k := by
  rw [← List.drop_drop, List.drop_left]

theorem lines_closed (entries : List log_entry) :
    entries.flatMap log_entry.line = [] ∨
      (entries.flatMap log_entry.line).getLast? = some LF := by
  cases entries using List.reverseRecOn with
  | nil => exact Or.inl rfl
  | append_singleton entries e =>
    refine Or.inr ?_
    rw [List.flatMap_append, List.flatMap_singleton, log_entry.line, ← List.append_assoc,
      List.getLast?_concat]

theorem line_start_entry (before : List log_entry) (e : log_entry) (more : Bytes) :
    line_start (before.flatMap log_entry.line ++ (e.line ++ more))
        ((before.flatMap log_entry.line).length + e.body.length) none =
      ((before.flatMap log_entry.line).length,
        some ((before.flatMap log_entry.line).length + e.before_gt.length)) := by
  have hbody : LF ∉ e.body := fun h => (body_text h).2 rfl
  have hfind : e.body.findIdx? (· = 62) = some e.before_gt.length := by
    have hbefore : e.before_gt.findIdx? (· = 62) = none :=
      List.findIdx?_eq_none_iff.mpr fun c hc => by simpa using (before_gt_plain e hc).1
    rw [body_split, List.findIdx?_append, hbefore]
    simp [List.findIdx?_cons]
  rw [log_entry.line, List.append_assoc, line_start_spec hbody (lines_closed before), hfind]
  rfl

theorem line_split (e : log_entry) (more : Bytes) :
    e.line ++ more = e.before_gt ++ 62 :: (e.behind_gt ++ LF :: more) := by
  rw [log_entry.line, body_split]
  simp

theorem drop_before_gt (e : log_entry) (more : Bytes) :
    (e.line ++ more).drop (e.before_gt.length + 1) = e.behind_gt ++ LF :: more := by
  rw [line_split, drop_length_add]
  rfl

/-- The entry behind this one, if there is one, starts where this one ends. -/
def lastrec_of (rec : Nat) (after : List log_entry) : Option Nat :=
  if after = [] then none else some rec

theorem answer_eq (at_time : Nat) (sha1 : Sha1) (before after : List log_entry) (e : log_entry) :
    answer ((before ++ e :: after).flatMap log_entry.line) at_time sha1
        (before.flatMap log_entry.line).length
        ((before.flatMap log_entry.line).length + e.before_gt.length)
        (lastrec_of ((before.flatMap log_entry.line).length + e.line.length) after)
        (after.length + 1) =
      some (answer_of at_time sha1 e after) := by
  obtain ⟨tz_c, hnumber, hzone⟩ := numbers_of_line e (after.flatMap log_entry.line)
  have hlog : (before ++ e :: after).flatMap log_entry.line =
      before.flatMap log_entry.line ++ (e.line ++ after.flatMap log_entry.line) := by
    rw [List.flatMap_append, List.flatMap_cons]
  have hnew := (line_places e (after.flatMap log_entry.line)).2.2.2.1
  have hmsg := ref_msg_line e (after.flatMap log_entry.line)
  have hwhole := drop_length_add (before.flatMap log_entry.line)
    (e.line ++ after.flatMap log_entry.line) 0
  rw [Nat.add_zero, List.drop_zero] at hwhole
  rw [answer, hlog, Nat.add_assoc, drop_length_add, drop_before_gt, hnumber, drop_length_add, hnew,
    hwhole, hmsg]
  cases after with
  | nil =>
    have hlast : ∀ rec, lastrec_of rec [] = none := fun rec => rfl
    simp only [hlast, hzone, answer_of, List.length_nil, Nat.zero_add, Nat.sub_self]
    by_cases hdate : e.committer.timestamp = at_time
    · simp [hdate]
    · by_cases hsame : e.new_sha1 = sha1
      · simp [hdate, hsame]
      · simp [hdate, hsame]
  | cons next after =>
    have hlast : ∀ rec, lastrec_of rec (next :: after) = some rec := fun rec => rfl
    have hnext : (e.line ++ (next :: after).flatMap log_entry.line).drop e.line.length =
        next.line ++ after.flatMap log_entry.line := by
      rw [List.drop_left, List.flatMap_cons]
    have hold := (line_places next (after.flatMap log_entry.line)).2.2.1
    simp only [hlast, drop_length_add, hnext, hold, hzone, answer_of, Nat.add_sub_cancel,
      List.cons_ne_nil, false_and, if_false]

/-- A turn of the loop answers at the entry, or goes on to the one before it. -/
theorem at_loop_entry (at_time : Nat) (sha1 : Sha1) (before after : List log_entry) (e : log_entry)
    (turns : Nat) (cnt : Int) :
    at_loop ((before ++ e :: after).flatMap log_entry.line) at_time sha1 (turns + 1)
        ((before.flatMap log_entry.line).length + e.line.length)
        (lastrec_of ((before.flatMap log_entry.line).length + e.line.length) after) cnt
        after.length =
      if e.committer.timestamp ≤ at_time ∨ cnt = 0 then some (answer_of at_time sha1 e after)
      else
        at_loop ((before ++ e :: after).flatMap log_entry.line) at_time sha1 turns
          (before.flatMap log_entry.line).length (some (before.flatMap log_entry.line).length)
          (if 0 < cnt then cnt - 1 else cnt) (after.length + 1) := by
  obtain ⟨tz_c, hnumber, -⟩ := numbers_of_line e (after.flatMap log_entry.line)
  have hlength : e.line.length = e.body.length + 1 := by
    rw [log_entry.line, List.length_append, List.length_singleton]
  have hanswer := answer_eq at_time sha1 before after e
  have hlog : (before ++ e :: after).flatMap log_entry.line =
      before.flatMap log_entry.line ++ (e.line ++ after.flatMap log_entry.line) := by
    rw [List.flatMap_append, List.flatMap_cons]
  have hlast : (before.flatMap log_entry.line ++ (e.line ++ after.flatMap log_entry.line))[
      (before.flatMap log_entry.line).length + e.line.length - 1]? = some LF := by
    rw [hlength, ← Nat.add_assoc, Nat.add_sub_cancel, List.getElem?_append_right (by omega),
      Nat.add_sub_cancel_left, log_entry.line, List.append_assoc,
      List.getElem?_append_right le_rfl, Nat.sub_self]
    rfl
  have hback : (before.flatMap log_entry.line).length + e.line.length - 1 =
      (before.flatMap log_entry.line).length + e.body.length := by omega
  have hnumber' : (number ((before.flatMap log_entry.line ++
      (e.line ++ after.flatMap log_entry.line)).drop ((before.flatMap log_entry.line).length +
        e.before_gt.length + 1))).1 = e.committer.timestamp := by
    rw [Nat.add_assoc, drop_length_add, drop_before_gt, hnumber]
  rw [at_loop, if_neg (by omega)]
  rw [hlog] at hanswer ⊢
  rw [if_pos hlast, hback, line_start_entry]
  simp only [hnumber', hanswer]

/-- At the start of the file there is the oldest entry. -/
theorem oldest_eq (e : log_entry) (more : Bytes) (reccnt : Nat) :
    oldest (e.line ++ more) reccnt = some (oldest_of e reccnt) := by
  obtain ⟨tz_c, hnumber, hzone⟩ := numbers_of_line e more
  obtain ⟨-, -, hold, hnew, -⟩ := line_places e more
  have hmsg := ref_msg_line e more
  have htake : (e.line ++ more).takeWhile (fun c => c ≠ 62 ∧ c ≠ LF) = e.before_gt := by
    rw [line_split, List.takeWhile_append_of_pos]
    · simp
    · exact fun c hc => decide_eq_true (before_gt_plain e hc)
  have hgt : (e.line ++ more)[e.before_gt.length]? = some 62 := by
    rw [line_split]
    simp
  rw [oldest, htake]
  dsimp only
  rw [if_neg (by simp [hgt]), drop_before_gt, hnumber, hold, hnew, hmsg]
  simp only [hzone, oldest_of]
  split_ifs <;> rfl

/-! ## The whole log -/

/-- The loop goes on over the entries that are too young, as long as the count lasts. -/
theorem at_loop_skip (at_time : Nat) (sha1 : Sha1) (before mid after : List log_entry)
    (turns : Nat) (cnt : Int) (hmid : ∀ e ∈ mid, at_time < e.committer.timestamp)
    (hcnt : cnt < 0 ∨ mid.length ≤ cnt) :
    at_loop ((before ++ (mid ++ after)).flatMap log_entry.line) at_time sha1 (turns + mid.length)
        ((before ++ mid).flatMap log_entry.line).length
        (lastrec_of ((before ++ mid).flatMap log_entry.line).length after) cnt after.length =
      at_loop ((before ++ (mid ++ after)).flatMap log_entry.line) at_time sha1 turns
        (before.flatMap log_entry.line).length
        (lastrec_of (before.flatMap log_entry.line).length (mid ++ after))
        (if cnt < 0 then cnt else cnt - mid.length) (mid ++ after).length := by
  induction mid using List.reverseRecOn generalizing after cnt with
  | nil =>
    have hsame : (if cnt < 0 then cnt else cnt - (0 : Nat)) = cnt := by
      split_ifs
      · rfl
      · omega
    simp only [List.append_nil, List.nil_append, List.length_nil, Nat.add_zero, hsame]
  | append_singleton mid e ih =>
    have hyoung : ¬ e.committer.timestamp ≤ at_time := Nat.not_le.mpr (hmid e (by simp))
    rw [List.length_append, List.length_singleton] at hcnt ⊢
    have hone : ¬ (e.committer.timestamp ≤ at_time ∨ cnt = 0) := by
      rintro (hle | hzero)
      · exact hyoung hle
      · omega
    have hturn := at_loop_entry at_time sha1 (before ++ mid) after e (turns + mid.length) cnt
    rw [if_neg hone] at hturn
    have hrest := ih (e :: after) (if 0 < cnt then cnt - 1 else cnt)
      (fun a ha => hmid a (List.mem_append_left _ ha)) (by split_ifs <;> omega)
    have hcount : (if (if 0 < cnt then cnt - 1 else cnt) < 0 then (if 0 < cnt then cnt - 1 else cnt)
        else (if 0 < cnt then cnt - 1 else cnt) - mid.length) =
          if cnt < 0 then cnt else cnt - (mid.length + 1 : Nat) := by
      split_ifs <;> omega
    have hlists : before ++ (mid ++ [e] ++ after) = before ++ (mid ++ e :: after) := by simp
    have hmore : mid ++ [e] ++ after = mid ++ e :: after := by simp
    have hlength : ((before ++ (mid ++ [e])).flatMap log_entry.line).length =
        ((before ++ mid).flatMap log_entry.line).length + e.line.length := by
      rw [← List.append_assoc, List.flatMap_append, List.flatMap_singleton, List.length_append]
    rw [hcount] at hrest
    rw [hmore, hlength, ← Nat.add_assoc]
    rw [List.append_assoc before mid] at hturn
    exact hturn.trans hrest

theorem read_ref_at_start {entries : List log_entry} (hne : entries ≠ []) (at_time : Nat)
    (cnt : Int) (sha1 : Sha1) :
    ∃ turns, read_ref_at (entries.flatMap log_entry.line) at_time cnt sha1 =
      at_loop (entries.flatMap log_entry.line) at_time sha1 (turns + 1 + entries.length)
        (entries.flatMap log_entry.line).length none cnt 0 := by
  have hlong := length_entries_le entries
  have hlog : entries.flatMap log_entry.line ≠ [] := by
    intro hempty
    rw [hempty, List.length_nil, Nat.le_zero, List.length_eq_zero_iff] at hlong
    exact hne hlong
  obtain ⟨k, hk⟩ := Nat.exists_eq_add_of_le hlong
  refine ⟨k, ?_⟩
  rw [read_ref_at, if_neg hlog]
  congr 1
  omega

/-- The answer is at the first entry, from the end, that is old enough or that the count meets. -/
theorem read_ref_at_found (at_time : Nat) (cnt : Int) (sha1 : Sha1) (before after : List log_entry)
    (e : log_entry) (hafter : ∀ a ∈ after, at_time < a.committer.timestamp)
    (hcnt : cnt < 0 ∨ after.length ≤ cnt)
    (hfound : e.committer.timestamp ≤ at_time ∨ cnt = after.length) :
    read_ref_at ((before ++ e :: after).flatMap log_entry.line) at_time cnt sha1 =
      some (answer_of at_time sha1 e after) := by
  obtain ⟨turns, hstart⟩ := read_ref_at_start (List.append_ne_nil_of_right_ne_nil before
    (List.cons_ne_nil e after)) at_time cnt sha1
  have hskip := at_loop_skip at_time sha1 (before ++ [e]) after [] (turns + before.length + 2) cnt
    hafter hcnt
  have hturn := at_loop_entry at_time sha1 before after e (turns + before.length + 1)
    (if cnt < 0 then cnt else cnt - after.length)
  have hmet : e.committer.timestamp ≤ at_time ∨
      (if cnt < 0 then cnt else cnt - after.length) = 0 :=
    hfound.imp_right fun hcnt => by rw [if_neg (by omega), hcnt, sub_self]
  rw [if_pos hmet] at hturn
  have hlists : before ++ [e] ++ (after ++ []) = before ++ e :: after := by simp
  have hwhole : before ++ [e] ++ after = before ++ e :: after := by simp
  have hturns : turns + before.length + 2 + after.length =
      turns + 1 + (before ++ e :: after).length := by
    rw [List.length_append, List.length_cons]
    omega
  have hlength : ((before ++ [e]).flatMap log_entry.line).length =
      (before.flatMap log_entry.line).length + e.line.length := by
    rw [List.flatMap_append, List.flatMap_singleton, List.length_append]
  rw [hlists, hwhole, hturns, hlength, List.append_nil] at hskip
  rw [hstart]
  exact hskip.trans hturn

theorem read_ref_at_beyond (at_time : Nat) (cnt : Int) (sha1 : Sha1) (e : log_entry)
    (entries : List log_entry)
    (hyoung : ∀ a ∈ e :: entries, at_time < a.committer.timestamp)
    (hcnt : cnt < 0 ∨ (e :: entries).length ≤ cnt) :
    read_ref_at ((e :: entries).flatMap log_entry.line) at_time cnt sha1 =
      some (oldest_of e (e :: entries).length) := by
  obtain ⟨turns, hstart⟩ := read_ref_at_start (List.cons_ne_nil e entries) at_time cnt sha1
  have hskip := at_loop_skip at_time sha1 [] (e :: entries) [] (turns + 1) cnt hyoung hcnt
  rw [List.append_nil, List.nil_append] at hskip
  rw [hstart]
  refine hskip.trans ?_
  rw [List.flatMap_nil, List.length_nil, at_loop, if_pos rfl, List.flatMap_cons]
  exact oldest_eq e _ _

/-- A count that is below the number of entries is answered at the entry that many steps before
the last one, a date at the last entry that is not later. Otherwise the oldest entry is reported. -/
theorem read_ref_at_answers (entries : List log_entry) (hfits : ∀ e ∈ entries, e.Fits)
    (sha1 : Sha1) :
    (∀ n at_time : Nat, (∀ e ∈ entries, at_time < e.committer.timestamp) →
      (∀ before e after, entries = before ++ e :: after → after.length = n →
        read_ref_at (log_of entries) at_time n sha1 = some (answer_of at_time sha1 e after)) ∧
      ∀ e more, entries = e :: more → entries.length ≤ n →
        read_ref_at (log_of entries) at_time n sha1 = some (oldest_of e entries.length)) ∧
    ∀ d : Nat, ∀ cnt < 0,
      (∀ before e after, entries = before ++ e :: after → e.committer.timestamp ≤ d →
        (∀ a ∈ after, d < a.committer.timestamp) →
        read_ref_at (log_of entries) d cnt sha1 = some (answer_of d sha1 e after)) ∧
      ∀ e more, entries = e :: more → (∀ a ∈ entries, d < a.committer.timestamp) →
        read_ref_at (log_of entries) d cnt sha1 = some (oldest_of e entries.length) := by
  rw [log_of_eq hfits]
  refine ⟨fun n at_time hyoung => ⟨?_, ?_⟩, fun d cnt hcnt => ⟨?_, ?_⟩⟩
  · rintro before e after rfl rfl
    refine read_ref_at_found at_time _ sha1 before after e ?_ (Or.inr le_rfl) (Or.inr rfl)
    exact fun a ha => hyoung a (List.mem_append_right _ (List.mem_cons_of_mem _ ha))
  · rintro e more rfl hle
    exact read_ref_at_beyond at_time n sha1 e more hyoung (Or.inr (by exact_mod_cast hle))
  · rintro before e after rfl hle hafter
    exact read_ref_at_found d cnt sha1 before after e hafter (Or.inl hcnt) (Or.inl hle)
  · rintro e more rfl hyoung
    exact read_ref_at_beyond d cnt sha1 e more hyoung (Or.inl hcnt)

/-- The log with one entry, looked at by a date before it. -/
theorem an_entry_is_the_oldest :
    read_ref_at (log_of [an_entry]) 0 (-1) null_sha1 = some (oldest_of an_entry 1) :=
  ((read_ref_at_answers [an_entry] (by simpa using an_entry_fits) null_sha1).2 0 (-1)
    (by decide)).2 an_entry [] rfl (by simp [an_entry, a_committer])

/-- The value at the last entry is the one that the caller has, not the one in the log. -/
theorem the_last_value_is_not_read :
    ¬ ∀ entries : List log_entry, (∀ e ∈ entries, e.Fits) →
      entries.Pairwise (·.committer.timestamp ≤ ·.committer.timestamp) →
      ∀ before e after sha1, entries = before ++ e :: after →
        (read_ref_at (log_of entries) 0 after.length sha1).map (·.sha1) = some e.new_sha1 := by
  intro hall
  have hlast := hall [an_entry] (by simpa using an_entry_fits) (List.pairwise_singleton _ _) []
    an_entry [] (Vector.replicate 20 1) rfl
  have hyoung : ∀ a ∈ ([] : List log_entry), 0 < a.committer.timestamp := by simp
  have hfound := read_ref_at_found 0 0 (Vector.replicate 20 1) [] [] an_entry hyoung
    (Or.inr le_rfl) (Or.inr rfl)
  have hdate : an_entry.committer.timestamp ≠ 0 := by decide
  rw [log_of_eq (by simpa using an_entry_fits)] at hlast
  rw [List.nil_append] at hfound
  rw [List.length_nil, Nat.cast_zero, hfound, Option.map_some, answer_of, if_pos ⟨rfl, hdate⟩]
    at hlast
  exact absurd (Option.some.inj hlast) (by decide)

end git.reflog
