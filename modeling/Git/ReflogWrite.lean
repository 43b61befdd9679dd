-- The lines of a reflog, `log_ref_write` of `refs.c`: how the message is cleaned up, and what
-- stands in the file behind a number of updates.
import Git.Lib.Digits
import Git.Sha1Hex

namespace git.reflog

open git.convert (LF sha1_to_hex)

/-! ## The committer -/

/-- `fmt_ident` copies the name and the address without these characters. The offset is that of
`date_string`, in minutes. -/
structure ident where
  name : Bytes
  email : Bytes
  timestamp : Nat
  offset : Int
  plain : ∀ c ∈ name ++ email, c ≠ 0 ∧ c ≠ LF ∧ c ≠ 60 ∧ c ≠ 62
  timestamp_lt : timestamp < 2 ^ 64
  hours_lt : offset.natAbs / 60 < 100

/-- `%02d`. -/
def two_digits (n : Nat) : Bytes := (if n < 10 then [48] else []) ++ digit_text.write 10 n

def date_string (date : Nat) (offset : Int) : Bytes :=
  digit_text.write 10 date ++ [32, if offset < 0 then 45 else 43] ++
    two_digits (offset.natAbs / 60) ++ two_digits (offset.natAbs % 60)

def git_committer_info (who : ident) : Bytes :=
  who.name ++ [32, 60] ++ who.email ++ [62, 32] ++ date_string who.timestamp who.offset

/-! ## The message -/

def isspace (c : UInt8) : Bool := c == 9 || c == 10 || c == 13 || c == 32

def TAB : UInt8 := 9

/-- The loop of `copy_msg`, with `wasspace`. -/
def copy_loop : Bool → Bytes → Bytes
  | _, [] => []
  | wasspace, c :: msg =>
    if wasspace && isspace c then copy_loop wasspace msg
    else (if isspace c then 32 else c) :: copy_loop (isspace c) msg

/-- What is written to the buffer. -/
def copy_msg (msg : Bytes) : Bytes := (TAB :: copy_loop true msg).rdropWhile isspace ++ [LF]

def words (msg : Bytes) : List Bytes := (msg.splitOnP isspace).filter (· ≠ [])

/-- The words of the message, with one blank between two of them. -/
def squeeze (msg : Bytes) : Bytes := List.intercalate [32] (words msg)

example : copy_msg [10, 97, 9, 10, 98, 32] = [TAB, 97, 32, 98, LF] := by decide

/-! ## The file -/

/-- The value that is returned, and the file. A buffer that is too short is an error. -/
def log_ref_write (log : Bytes) (old_sha1 new_sha1 : Sha1) (who : ident) (msg : Bytes) :
    Int × Bytes :=
  let committer := git_committer_info who
  let maxlen := (committer.length + msg.length + 100) % 2 ^ 32
  let logrec := sha1_to_hex old_sha1 ++ [32] ++ sha1_to_hex new_sha1 ++ [32] ++ committer ++ [LF]
  let logrec := if msg = [] then logrec else logrec.dropLast ++ copy_msg msg
  if logrec.length ≤ maxlen then (0, log ++ logrec) else (-1, log)

/-- An update with its message, a text in C. -/
structure log_entry where
  old_sha1 : Sha1
  new_sha1 : Sha1
  committer : ident
  msg : Bytes
  msg_text : (0 : UInt8) ∉ msg

/-- What the file has in it after these updates. -/
def log_of (entries : List log_entry) : Bytes :=
  entries.foldl
    (fun log e => (log_ref_write log e.old_sha1 e.new_sha1 e.committer e.msg).2) []

/-- The length of the buffer does not wrap. -/
def log_entry.Fits (e : log_entry) : Prop :=
  (git_committer_info e.committer).length + e.msg.length + 100 < 2 ^ 32

/-! ## The message is squeezed -/

theorem rdropWhile_cons (p : UInt8 → Bool) (c : UInt8) (l : Bytes) :
    (c :: l).rdropWhile p =
      if l.rdropWhile p = [] ∧ p c = true then [] else c :: l.rdropWhile p := by
  induction l using List.reverseRecOn with
  | nil => simp [List.rdropWhile_singleton]
  | append_singleton l d ih =>
    rw [← List.cons_append]
    by_cases hd : p d = true
    · rw [List.rdropWhile_concat_pos _ _ _ hd, List.rdropWhile_concat_pos _ _ _ hd, ih]
    · rw [List.rdropWhile_concat_neg _ _ _ hd, List.rdropWhile_concat_neg _ _ _ hd,
        if_neg (by simp), List.cons_append]

theorem intercalate_blank (word : Bytes) (words : List Bytes) :
    List.intercalate [32] (word :: words) =
      word ++ if words = [] then [] else 32 :: List.intercalate [32] words := by
  split_ifs with h
  · rw [h, List.intercalate_singleton, List.append_nil]
  · rw [List.intercalate_cons_of_ne_nil h, List.append_assoc, List.singleton_append]

theorem squeeze_eq_nil {msg : Bytes} : squeeze msg = [] ↔ words msg = [] := by
  rw [squeeze]
  cases hwords : words msg with
  | nil => simp
  | cons word rest =>
    have hne : word ≠ [] := by
      have hmem : word ∈ words msg := hwords ▸ List.mem_cons_self
      simpa using (List.mem_filter.mp hmem).2
    simp [intercalate_blank, hne]

theorem words_space {c : UInt8} (h : isspace c = true) (msg : Bytes) :
    words (c :: msg) = words msg := by
  rw [words, List.splitOnP_cons_eq_if_modifyHead, if_pos h]
  rfl

theorem words_char {c : UInt8} (h : isspace c = false) (msg : Bytes) :
    words (c :: msg) =
      if msg.head?.any (!isspace ·) then (words msg).modifyHead (c :: ·) else [c] :: words msg := by
  rw [words, List.splitOnP_cons_eq_if_modifyHead, if_neg (by simp [h])]
  cases msg with
  | nil => rfl
  | cons d msg =>
    rw [words, List.splitOnP_cons_eq_if_modifyHead]
    by_cases hd : isspace d = true
    · simp [hd]
    · obtain ⟨word, rest, hsplit⟩ := List.exists_cons_of_ne_nil (List.splitOnP_ne_nil isspace msg)
      simp [hd, hsplit]

theorem words_ne_nil {c : UInt8} (h : isspace c = false) (msg : Bytes) : words (c :: msg) ≠ [] := by
  obtain ⟨word, rest, hsplit⟩ := List.exists_cons_of_ne_nil (List.splitOnP_ne_nil isspace msg)
  rw [words, List.splitOnP_cons_eq_if_modifyHead, if_neg (by simp [h]), hsplit]
  simp

theorem squeeze_space {c : UInt8} (h : isspace c = true) (msg : Bytes) :
    squeeze (c :: msg) = squeeze msg := by rw [squeeze, words_space h, squeeze]

/-- What the loop writes behind a character that is no space. -/
def behind_char (msg : Bytes) : Bytes :=
  if msg.head?.any (!isspace ·) then squeeze msg
  else if squeeze msg = [] then [] else 32 :: squeeze msg

theorem squeeze_char {c : UInt8} (h : isspace c = false) (msg : Bytes) :
    squeeze (c :: msg) = c :: behind_char msg := by
  rw [squeeze, words_char h, behind_char]
  split_ifs with hhead hempty
  · obtain ⟨d, msg, rfl⟩ : ∃ d rest, msg = d :: rest := by
      cases msg with
      | nil => cases hhead
      | cons d msg => exact ⟨d, msg, rfl⟩
    obtain ⟨word, rest, hwords⟩ :=
      List.exists_cons_of_ne_nil (words_ne_nil (by simpa using hhead) msg)
    rw [squeeze, hwords, List.modifyHead_cons, intercalate_blank, intercalate_blank,
      List.cons_append]
  · rw [squeeze_eq_nil.mp hempty]
    rfl
  · rw [intercalate_blank, if_neg fun hwords => hempty (squeeze_eq_nil.mpr hwords)]
    rfl

theorem copy_loop_squeezed (msg : Bytes) :
    (copy_loop true msg).rdropWhile isspace = squeeze msg ∧
      (copy_loop false msg).rdropWhile isspace = behind_char msg := by
  induction msg with
  | nil => exact ⟨rfl, rfl⟩
  | cons c msg ih =>
    cases hc : isspace c with
    | true =>
      refine ⟨?_, ?_⟩
      · rw [copy_loop, if_pos (by simp [hc]), squeeze_space hc, ih.1]
      · have hblank : isspace 32 = true := rfl
        rw [copy_loop, hc, if_neg (by decide), if_pos rfl, rdropWhile_cons, ih.1, behind_char,
          squeeze_space hc]
        simp [hc, hblank]
    | false =>
      have hcopy : ∀ wasspace, (copy_loop wasspace (c :: msg)).rdropWhile isspace =
          squeeze (c :: msg) := by
        intro wasspace
        rw [copy_loop, hc, if_neg (by simp), if_neg Bool.false_ne_true, rdropWhile_cons, ih.2,
          if_neg (by simp [hc]), squeeze_char hc]
      refine ⟨hcopy true, ?_⟩
      rw [hcopy false, behind_char]
      simp [hc]

theorem copy_msg_eq (msg : Bytes) :
    copy_msg msg = (if squeeze msg = [] then [] else TAB :: squeeze msg) ++ [LF] := by
  rw [copy_msg, rdropWhile_cons, (copy_loop_squeezed msg).1]
  simp [show isspace TAB = true from rfl]

theorem length_copy_loop (wasspace : Bool) (msg : Bytes) :
    (copy_loop wasspace msg).length ≤ msg.length := by
  induction msg generalizing wasspace with
  | nil => exact le_rfl
  | cons c msg ih =>
    rw [copy_loop]
    split
    · exact (ih wasspace).trans (Nat.le_succ _)
    · exact Nat.succ_le_succ (ih _)

theorem mem_copy_loop {wasspace : Bool} {msg : Bytes} {c : UInt8}
    (h : c ∈ copy_loop wasspace msg) : c = 32 ∨ c ∈ msg ∧ isspace c = false := by
  induction msg generalizing wasspace with
  | nil => cases h
  | cons d msg ih =>
    have hmore : (c = 32 ∨ c ∈ msg ∧ isspace c = false) →
        c = 32 ∨ c ∈ d :: msg ∧ isspace c = false :=
      Or.imp_right (And.imp_left (List.mem_cons_of_mem d))
    rw [copy_loop] at h
    split at h
    · exact hmore (ih h)
    · rcases List.mem_cons.mp h with hd | h
      · split at hd
        · exact Or.inl hd
        · exact Or.inr ⟨hd ▸ List.mem_cons_self, by simp_all⟩
      · exact hmore (ih h)

theorem length_squeeze (msg : Bytes) : (squeeze msg).length ≤ msg.length := by
  rw [← (copy_loop_squeezed msg).1]
  exact (List.rdropWhile_prefix _ _).length_le.trans (length_copy_loop true msg)

theorem mem_squeeze {msg : Bytes} {c : UInt8} (h : c ∈ squeeze msg) :
    c = 32 ∨ c ∈ msg ∧ isspace c = false := by
  rw [← (copy_loop_squeezed msg).1] at h
  exact mem_copy_loop ((List.rdropWhile_prefix _ _).subset h)

/-! ## The lines -/

/-- The two names and the committer. -/
def log_entry.names (e : log_entry) : Bytes :=
  sha1_to_hex e.old_sha1 ++ [32] ++ sha1_to_hex e.new_sha1 ++ [32] ++
    git_committer_info e.committer

def log_entry.behind (e : log_entry) : Bytes :=
  if squeeze e.msg = [] then [] else TAB :: squeeze e.msg

/-- The line without its LF. -/
def log_entry.body (e : log_entry) : Bytes := e.names ++ e.behind

def log_entry.line (e : log_entry) : Bytes := e.body ++ [LF]

/-- The line is appended. The buffer is long enough for it. -/
theorem log_ref_write_line {e : log_entry} (h : e.Fits) (log : Bytes) :
    log_ref_write log e.old_sha1 e.new_sha1 e.committer e.msg = (0, log ++ e.line) := by
  have hrecord : (if e.msg = [] then e.names ++ [LF]
      else (e.names ++ [LF]).dropLast ++ copy_msg e.msg) = e.line := by
    rw [log_entry.line, log_entry.body, log_entry.behind]
    split_ifs with hmsg hempty hempty
    · rw [List.append_nil]
    · exact absurd (by rw [hmsg]; rfl) hempty
    · rw [List.dropLast_concat, copy_msg_eq, if_pos hempty, List.append_nil, List.nil_append]
    · rw [List.dropLast_concat, copy_msg_eq, if_neg hempty, List.append_assoc]
  have hlength : e.line.length ≤
      (git_committer_info e.committer).length + e.msg.length + 100 := by
    have hsqueeze := length_squeeze e.msg
    have hbehind : e.behind.length ≤ e.msg.length + 1 := by
      rw [log_entry.behind]
      split_ifs
      · exact Nat.zero_le _
      · exact Nat.succ_le_succ hsqueeze
    simp only [log_entry.line, log_entry.body, log_entry.names, List.length_append,
      hex.length_sha1_to_hex, List.length_singleton]
    omega
  rw [log_ref_write, show sha1_to_hex e.old_sha1 ++ [32] ++ sha1_to_hex e.new_sha1 ++ [32] ++
    git_committer_info e.committer = e.names from rfl, hrecord, Nat.mod_eq_of_lt h,
    if_pos hlength]

theorem log_of_eq {entries : List log_entry} (h : ∀ e ∈ entries, e.Fits) :
    log_of entries = entries.flatMap log_entry.line := by
  induction entries using List.reverseRecOn with
  | nil => rfl
  | append_singleton entries e ih =>
    have hlast : e.Fits := h e (by simp)
    rw [log_of, List.foldl_concat, log_ref_write_line hlast]
    have hrest := ih fun e he => h e (List.mem_append_left _ he)
    rw [log_of] at hrest
    rw [hrest, List.flatMap_append, List.flatMap_singleton]

/-! ## The characters of a line -/

theorem digit_plain {c : UInt8} (h : digit_text.is_digit 10 c = true) :
    c ≠ 0 ∧ c ≠ LF ∧ c ≠ 60 ∧ c ≠ 62 := by
  refine ⟨?_, ?_, ?_, ?_⟩ <;> (rintro rfl; exact absurd h (by decide))

theorem two_digits_digit {n : Nat} {c : UInt8} (h : c ∈ two_digits n) :
    digit_text.is_digit 10 c = true := by
  rcases List.mem_append.mp h with h | h
  · split at h
    · rw [List.mem_singleton.mp h]
      rfl
    · cases h
  · exact digit_text.mem_write (by decide) (by decide) n c h

theorem date_string_plain {date : Nat} {offset : Int} {c : UInt8}
    (h : c ∈ date_string date offset) : c ≠ 0 ∧ c ≠ LF ∧ c ≠ 60 ∧ c ≠ 62 := by
  rw [date_string, List.mem_append, List.mem_append, List.mem_append] at h
  rcases h with ((h | h) | h) | h
  · exact digit_plain (digit_text.mem_write (by decide) (by decide) date c h)
  · rcases List.mem_pair.mp h with rfl | rfl
    · decide
    · split <;> decide
  · exact digit_plain (two_digits_digit h)
  · exact digit_plain (two_digits_digit h)

theorem committer_text {who : ident} {c : UInt8} (h : c ∈ git_committer_info who) :
    c ≠ 0 ∧ c ≠ LF := by
  have hplain : ∀ c ∈ who.name ++ who.email, c ≠ 0 ∧ c ≠ LF :=
    fun c hc => ⟨(who.plain c hc).1, (who.plain c hc).2.1⟩
  rw [git_committer_info, List.mem_append, List.mem_append, List.mem_append, List.mem_append] at h
  rcases h with (((h | h) | h) | h) | h
  · exact hplain c (List.mem_append_left _ h)
  · rcases List.mem_pair.mp h with rfl | rfl <;> decide
  · exact hplain c (List.mem_append_right _ h)
  · rcases List.mem_pair.mp h with rfl | rfl <;> decide
  · exact ⟨(date_string_plain h).1, (date_string_plain h).2.1⟩

theorem hexdigit_plain : ∀ n < 16, convert.hexdigit n ≠ 0 ∧ convert.hexdigit n ≠ LF ∧
    convert.hexdigit n ≠ 62 := by
  intro n hn
  interval_cases n <;> decide

theorem names_text {e : log_entry} {c : UInt8} (h : c ∈ e.names) : c ≠ 0 ∧ c ≠ LF := by
  have hhex : ∀ {sha1 : Sha1}, c ∈ sha1_to_hex sha1 → c ≠ 0 ∧ c ≠ LF := fun hc =>
    hex.mem_sha1_to_hex (P := fun c => c ≠ 0 ∧ c ≠ LF)
      (fun n hn => ⟨(hexdigit_plain n hn).1, (hexdigit_plain n hn).2.1⟩) hc
  rw [log_entry.names, List.mem_append, List.mem_append, List.mem_append, List.mem_append] at h
  rcases h with (((h | h) | h) | h) | h
  · exact hhex h
  · rw [List.mem_singleton.mp h]
    decide
  · exact hhex h
  · rw [List.mem_singleton.mp h]
    decide
  · exact committer_text h

/-- The message's line breaks are blanks by now. -/
theorem squeeze_text {e : log_entry} {c : UInt8} (h : c ∈ squeeze e.msg) : c ≠ 0 ∧ c ≠ LF := by
  rcases mem_squeeze h with rfl | ⟨hmsg, hspace⟩
  · decide
  · refine ⟨fun h0 => e.msg_text (h0 ▸ hmsg), ?_⟩
    rintro rfl
    exact absurd hspace (by decide)

theorem body_text {e : log_entry} {c : UInt8} (h : c ∈ e.body) : c ≠ 0 ∧ c ≠ LF := by
  rcases List.mem_append.mp h with h | h
  · exact names_text h
  · rw [log_entry.behind] at h
    split at h
    · cases h
    · rcases List.mem_cons.mp h with rfl | h
      · decide
      · exact squeeze_text h

end git.reflog
