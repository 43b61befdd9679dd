-- The packed-refs file: how `pack-refs.c` writes it, with the objects that the tags lead to, and how
-- `read_packed_refs` of `refs.c` reads it.
import Git.ShortenRef
import Git.ReflogRead

namespace git.packed_refs

open git.convert (LF sha1_to_hex)
open git.hex (get_sha1_hex)
open git.reflog (isspace)
open git.refs (check_refname_format null_sha1)
open git.shorten_ref (REFS TAGS PATH_MAX)

/-! ## Writing -/

/-- An object with the one that it is a tag of, if that can be read. -/
inductive object where
  | tag (sha1 : Sha1) (tagged : Option object)
  | other (sha1 : Sha1)

def object.sha1 : object → Sha1
  | .tag sha1 _ => sha1
  | .other sha1 => sha1

/-- What is behind a chain of tags. -/
def deref_tag : object → Option object
  | .tag _ none => none
  | .tag _ (some o) => deref_tag o
  | .other sha1 => some (.other sha1)

/-- A reference as `for_each_ref` hands it on, with its object. -/
structure ref where
  path : Bytes
  object : object
  REF_ISSYMREF : Bool
  REF_ISPACKED : Bool
  valid : check_refname_format path true = true

def is_tag_ref (path : Bytes) : Bool := (REFS ++ TAGS).isPrefixOf path

/-- The reference is not left out. -/
def is_packed (PACK_REFS_ALL : Bool) (r : ref) : Bool :=
  !r.REF_ISSYMREF && (PACK_REFS_ALL || is_tag_ref r.path || r.REF_ISPACKED)

/-- The line that says what a tag leads to. -/
def peeled_line (r : ref) : Bytes :=
  if is_tag_ref r.path then
    match r.object with
    | .other _ => []
    | .tag _ _ =>
      match deref_tag r.object with
      | some o => [94] ++ sha1_to_hex o.sha1 ++ [LF]
      | none => []
  else []

/-- What is written for a reference. -/
def handle_one_ref (PACK_REFS_ALL : Bool) (r : ref) : Bytes :=
  if is_packed PACK_REFS_ALL r then
    sha1_to_hex r.object.sha1 ++ [32] ++ r.path ++ [LF] ++ peeled_line r
  else []

/-- `# pack-refs with:` -/
def header : Bytes :=
  [35, 32, 112, 97, 99, 107, 45, 114, 101, 102, 115, 32, 119, 105, 116, 104, 58]

/-- The trait, between two blanks. -/
def peeled : Bytes := [32, 112, 101, 101, 108, 101, 100, 32]

def pack_refs (PACK_REFS_ALL : Bool) (refs : List ref) : Bytes :=
  header ++ peeled ++ [LF] ++ refs.flatMap (handle_one_ref PACK_REFS_ALL)

/-! ## Reading -/

structure packed_entry where
  refname : Bytes
  sha1 : Sha1
  REF_KNOWS_PEELED : Bool
  peeled : Sha1
  deriving DecidableEq

/-- So many characters, or up to the first LF. -/
def fgets_loop : Nat → Bytes → Bytes × Bytes
  | 0, f => ([], f)
  | _ + 1, [] => ([], [])
  | n + 1, c :: f =>
    if c = LF then ([LF], f) else (c :: (fgets_loop n f).1, (fgets_loop n f).2)

def fgets (size : Nat) (f : Bytes) : Option (Bytes × Bytes) :=
  if f = [] then none else some (fgets_loop (size - 1) f)

def parse_ref_line (refline : Bytes) : Option (Bytes × Sha1) :=
  if refline.length ≤ 42 then none
  else
    match get_sha1_hex refline with
    | none => none
    | some sha1 =>
      if !(refline[40]?.any isspace) || refline[41]?.any isspace || refline.getLast? ≠ some LF then
        none
      else some ((refline.drop 41).dropLast, sha1)

/-- What a line does to the flag and to the entries, the last one first. -/
def read_line (refline : Bytes) (flag : Bool) (dir : List packed_entry) :
    Bool × List packed_entry :=
  if header.isPrefixOf refline then
    (flag || decide (peeled <:+: refline.drop header.length), dir)
  else
    match parse_ref_line refline with
    | some (refname, sha1) => (flag, ⟨refname, sha1, flag, null_sha1⟩ :: dir)
    | none =>
      match dir with
      | [] => (flag, dir)
      | last :: before =>
        if refline.head? = some 94 ∧ refline.length = 42 ∧ refline[41]? = some LF then
          match get_sha1_hex (refline.drop 1) with
          | some sha1 => (flag, { last with peeled := sha1 } :: before)
          | none => (flag, dir)
        else (flag, dir)

def read_loop : Nat → Bytes → Bool → List packed_entry → List packed_entry
  | 0, _, _, dir => dir
  | turns + 1, f, flag, dir =>
    match fgets PATH_MAX f with
    | none => dir
    | some (refline, f) =>
      -- The line is a text in C.
      let (flag, dir) := read_line (refline.takeWhile (· ≠ 0)) flag dir
      read_loop turns f flag dir

/-- The entries in the order in which they are added. -/
def read_packed_refs (f : Bytes) : List packed_entry :=
  (read_loop (f.length + 1) f false []).reverse

/-! ## Lines -/

theorem fgets_loop_line {body : Bytes} (h : LF ∉ body) {n : Nat} (hn : body.length < n)
    (more : Bytes) : fgets_loop n (body ++ LF :: more) = (body ++ [LF], more) := by
  induction body generalizing n with
  | nil =>
    obtain ⟨n, rfl⟩ := Nat.exists_eq_add_one_of_ne_zero (Nat.ne_zero_of_lt hn)
    rfl
  | cons c body ih =>
    obtain ⟨hc, hbody⟩ : c ≠ LF ∧ LF ∉ body := by simpa [eq_comm] using h
    obtain ⟨n, rfl⟩ := Nat.exists_eq_add_one_of_ne_zero (Nat.ne_zero_of_lt hn)
    rw [List.cons_append, fgets_loop, if_neg hc, ih hbody (Nat.lt_of_succ_lt_succ hn)]
    rfl

/-- A line that is too long is cut. -/
theorem fgets_loop_cut {body : Bytes} (h : LF ∉ body) {n : Nat} (hn : n ≤ body.length)
    (more : Bytes) : fgets_loop n (body ++ more) = (body.take n, body.drop n ++ more) := by
  induction body generalizing n with
  | nil =>
    obtain rfl := Nat.le_zero.mp hn
    rfl
  | cons c body ih =>
    obtain ⟨hc, hbody⟩ : c ≠ LF ∧ LF ∉ body := by simpa [eq_comm] using h
    cases n with
    | zero => rfl
    | succ n =>
      rw [List.cons_append, fgets_loop, if_neg hc, ih hbody (Nat.le_of_succ_le_succ hn)]
      rfl

theorem fgets_loop_shorter (n : Nat) {f : Bytes} (hne : f ≠ []) :
    (fgets_loop (n + 1) f).2.length < f.length := by
  have hle : ∀ n f, (fgets_loop n f).2.length ≤ f.length := by
    intro n
    induction n with
    | zero => exact fun f => le_rfl
    | succ n ih =>
      intro f
      cases f with
      | nil => exact le_rfl
      | cons c f =>
        rw [fgets_loop]
        split
        · exact Nat.le_succ _
        · exact (ih f).trans (Nat.le_succ _)
  cases f with
  | nil => exact absurd rfl hne
  | cons c f =>
    rw [fgets_loop]
    split
    · exact Nat.lt_succ_self _
    · exact Nat.lt_succ_of_le (hle n f)

/-- The reading from here on. -/
def read_all (f : Bytes) (flag : Bool) (dir : List packed_entry) : List packed_entry :=
  read_loop (f.length + 1) f flag dir

/-- More turns than characters change nothing. -/
theorem read_loop_eq {turns : Nat} {f : Bytes} (h : f.length < turns) (flag : Bool)
    (dir : List packed_entry) : read_loop turns f flag dir = read_all f flag dir := by
  induction hlen : f.length using Nat.strong_induction_on generalizing f turns flag dir with
  | _ n ih =>
    obtain ⟨turns, rfl⟩ := Nat.exists_eq_add_one_of_ne_zero (Nat.ne_zero_of_lt h)
    rw [read_all, read_loop, read_loop, fgets]
    by_cases hf : f = []
    · simp only [hf, if_true]
    · simp only [hf, if_false]
      have hshort : (fgets_loop (PATH_MAX - 1) f).2.length < f.length := fgets_loop_shorter _ hf
      generalize read_line _ flag dir = out
      rw [ih _ (hlen ▸ hshort) (by omega) _ _ rfl, ih _ (hlen ▸ hshort) hshort _ _ rfl]

/-- One turn of the loop. -/
theorem read_all_step {f refline more : Bytes} (hne : f ≠ [])
    (hgets : fgets_loop (PATH_MAX - 1) f = (refline, more)) (flag : Bool)
    (dir : List packed_entry) :
    read_all f flag dir =
      read_all more (read_line (refline.takeWhile (· ≠ 0)) flag dir).1
        (read_line (refline.takeWhile (· ≠ 0)) flag dir).2 := by
  have hshort : (fgets_loop (PATH_MAX - 1) f).2.length < f.length := fgets_loop_shorter _ hne
  rw [hgets] at hshort
  rw [read_all, read_loop, fgets, if_neg hne, hgets]
  exact read_loop_eq hshort _ _

/-! ## What is read of a reference -/

/-- A character of a name. -/
def Plain (c : UInt8) : Prop := c ≠ 0 ∧ c ≠ LF ∧ c ≠ 94 ∧ isspace c = false

theorem plain_of_valid {path : Bytes} (h : check_refname_format path true = true) {c : UInt8}
    (hc : c ∈ path) : Plain c := by
  have hallowed := (shorten_ref.grammar_of_valid h).chars c hc
  rw [git.refname.Forbidden, not_or, not_or, not_or] at hallowed
  obtain ⟨hcontrol, hblank, -, hchars⟩ := hallowed
  have habove : ∀ d : UInt8, d < 32 → c ≠ d := fun d hd heq => hcontrol (heq ▸ hd)
  refine ⟨habove 0 (by decide), habove LF (by decide), ?_, ?_⟩
  · rintro rfl
    exact hchars (by decide)
  · simp [isspace, habove 9 (by decide), habove 10 (by decide), habove 13 (by decide), hblank]

theorem ne_nil_of_valid {path : Bytes} (h : check_refname_format path true = true) :
    path ≠ [] := by
  rintro rfl
  exact absurd h (by decide)

theorem Plain.ne_blank {c : UInt8} (h : Plain c) : c ≠ 32 := by
  rintro rfl
  exact absurd h.2.2.2 (by decide)

theorem hex_plain {sha1 : Sha1} {c : UInt8} (h : c ∈ sha1_to_hex sha1) : Plain c ∧ c ≠ 35 := by
  refine hex.mem_sha1_to_hex (P := fun c => Plain c ∧ c ≠ 35) ?_ h
  intro n hn
  unfold Plain
  interval_cases n <;> decide

theorem not_header_of_head {refline : Bytes} (h : refline.head? ≠ some 35) :
    header.isPrefixOf refline = false := by
  rw [← Bool.not_eq_true, List.isPrefixOf_iff_prefix]
  rintro ⟨more, rfl⟩
  exact h rfl

theorem not_header_of_blank {refline : Bytes} (h : (32 : UInt8) ∉ refline) :
    header.isPrefixOf refline = false := by
  rw [← Bool.not_eq_true, List.isPrefixOf_iff_prefix]
  exact fun hstart => h (hstart.subset (by decide))

/-- The first character of a name in hexadecimal. -/
theorem head_hex (sha1 : Sha1) (more : Bytes) :
    ∃ c, (sha1_to_hex sha1 ++ more).head? = some c ∧ Plain c ∧ c ≠ 35 := by
  obtain ⟨c, rest, hhex⟩ : ∃ c rest, sha1_to_hex sha1 = c :: rest := by
    refine List.exists_cons_of_ne_nil fun hempty => ?_
    have hlen := hex.length_sha1_to_hex sha1
    rw [hempty] at hlen
    cases hlen
  have hmem : c ∈ sha1_to_hex sha1 := by
    rw [hhex]
    exact List.mem_cons_self
  exact ⟨c, by rw [hhex]; rfl, hex_plain hmem⟩

theorem read_line_ignored {refline : Bytes} (hheader : header.isPrefixOf refline = false)
    (hparse : parse_ref_line refline = none) (hhead : refline.head? ≠ some 94) (flag : Bool)
    (dir : List packed_entry) : read_line refline flag dir = (flag, dir) := by
  rw [read_line.eq_def, if_neg (by simp [hheader]), hparse]
  cases dir with
  | nil => rfl
  | cons last before =>
    dsimp only
    rw [if_neg fun htest => hhead htest.1]

/-- The line of a reference gives its entry. -/
theorem read_line_ref (sha1 : Sha1) {path : Bytes} (h : ∀ c ∈ path, Plain c) (hne : path ≠ [])
    (flag : Bool) (dir : List packed_entry) :
    read_line (sha1_to_hex sha1 ++ 32 :: (path ++ [LF])) flag dir =
      (flag, ⟨path, sha1, flag, null_sha1⟩ :: dir) := by
  obtain ⟨c, hhead, -, hc⟩ := head_hex sha1 (32 :: (path ++ [LF]))
  obtain ⟨d, rest, rfl⟩ := List.exists_cons_of_ne_nil hne
  have hd := (h d List.mem_cons_self).2.2.2
  have hparse : parse_ref_line (sha1_to_hex sha1 ++ 32 :: (d :: rest ++ [LF])) =
      some (d :: rest, sha1) := by
    have hlong : ¬ (sha1_to_hex sha1 ++ 32 :: (d :: rest ++ [LF])).length ≤ 42 := by
      simp only [List.length_append, List.length_cons, hex.length_sha1_to_hex, List.length_nil]
      omega
    have hblank : (sha1_to_hex sha1 ++ 32 :: (d :: rest ++ [LF]))[40]? = some 32 := by
      rw [List.getElem?_append_right (by simp), hex.length_sha1_to_hex]
      rfl
    have hfirst : (sha1_to_hex sha1 ++ 32 :: (d :: rest ++ [LF]))[41]? = some d := by
      rw [List.getElem?_append_right (by simp), hex.length_sha1_to_hex]
      rfl
    have hlast : (sha1_to_hex sha1 ++ 32 :: (d :: rest ++ [LF])).getLast? = some LF := by
      rw [← List.cons_append, ← List.append_assoc, List.getLast?_concat]
    have hname : (sha1_to_hex sha1 ++ 32 :: (d :: rest ++ [LF])).drop 41 = d :: rest ++ [LF] := by
      rw [List.drop_append, hex.length_sha1_to_hex, List.drop_of_length_le (by simp)]
      rfl
    have hspace : isspace 32 = true := rfl
    rw [parse_ref_line, if_neg hlong, hex.get_sha1_hex_append, hblank, hfirst, hlast, hname,
      List.dropLast_concat]
    simp [hspace, hd]
  rw [read_line.eq_def, not_header_of_head (by rw [hhead]; simpa using hc),
    if_neg Bool.false_ne_true, hparse]

/-- The entry that was added last has this peeled value. -/
def set_peeled (sha1 : Sha1) : List packed_entry → List packed_entry
  | [] => []
  | last :: before => { last with peeled := sha1 } :: before

theorem read_line_peeled (sha1 : Sha1) (flag : Bool) (dir : List packed_entry) :
    read_line (94 :: (sha1_to_hex sha1 ++ [LF])) flag dir = (flag, set_peeled sha1 dir) := by
  have hlength : (94 :: (sha1_to_hex sha1 ++ [LF])).length = 42 := by
    rw [List.length_cons, List.length_append, hex.length_sha1_to_hex, List.length_singleton]
  have hlast : (94 :: (sha1_to_hex sha1 ++ [LF]))[41]? = some LF := by
    rw [List.getElem?_cons_succ, List.getElem?_append_right (by simp), hex.length_sha1_to_hex]
    rfl
  have hparse : parse_ref_line (94 :: (sha1_to_hex sha1 ++ [LF])) = none := by
    rw [parse_ref_line, if_pos hlength.le]
  rw [read_line.eq_def, not_header_of_head (by simp), if_neg Bool.false_ne_true, hparse]
  cases dir with
  | nil => rfl
  | cons last before =>
    dsimp only
    rw [if_pos ⟨rfl, hlength, hlast⟩, List.drop_one, List.tail_cons, hex.get_sha1_hex_append]
    rfl

theorem parse_none_of_last {refline : Bytes} (h : refline.getLast? ≠ some LF) :
    parse_ref_line refline = none := by
  rw [parse_ref_line]
  by_cases hshort : refline.length ≤ 42
  · rw [if_pos hshort]
  · rw [if_neg hshort]
    cases get_sha1_hex refline with
    | none => rfl
    | some sha1 => simp [h]

theorem parse_none_of_char {refline : Bytes}
    (h : ∀ c, refline[40]? = some c → refline.length ≤ 42 ∨ isspace c = false) :
    parse_ref_line refline = none := by
  rw [parse_ref_line]
  by_cases hshort : refline.length ≤ 42
  · rw [if_pos hshort]
  · obtain ⟨c, hc⟩ : ∃ c, refline[40]? = some c :=
      ⟨_, List.getElem?_eq_getElem (show 40 < refline.length by omega)⟩
    have hspace := (h c hc).resolve_left hshort
    rw [if_neg hshort]
    cases get_sha1_hex refline with
    | none => rfl
    | some sha1 => simp [hc, hspace]

/-- A piece of a name, with or without the end of the line, is ignored. -/
theorem read_line_piece {piece last : Bytes} (hpiece : ∀ c ∈ piece, Plain c)
    (hlast : last = [] ∨ last = [LF]) (flag : Bool) (dir : List packed_entry) :
    read_line ((piece ++ last).takeWhile (· ≠ 0)) flag dir = (flag, dir) := by
  have hnul : (piece ++ last).takeWhile (· ≠ 0) = piece ++ last := by
    refine List.takeWhile_eq_self_iff.mpr fun c hc => ?_
    rcases List.mem_append.mp hc with hc | hc
    · exact decide_eq_true (hpiece c hc).1
    · rcases hlast with rfl | rfl
      · cases hc
      · rw [List.mem_singleton.mp hc]
        rfl
  rw [hnul]
  refine read_line_ignored (not_header_of_blank ?_) (parse_none_of_char ?_) ?_ flag dir
  · intro hblank
    rcases List.mem_append.mp hblank with hc | hc
    · exact (hpiece 32 hc).ne_blank rfl
    · rcases hlast with rfl | rfl
      · cases hc
      · exact absurd (List.mem_singleton.mp hc) (by decide)
  · intro c hc
    have hlen : last.length ≤ 1 := by rcases hlast with rfl | rfl <;> simp
    by_cases h40 : 40 < piece.length
    · rw [List.getElem?_append_left h40] at hc
      exact Or.inr (hpiece c (List.mem_of_getElem? hc)).2.2.2
    · refine Or.inl ?_
      rw [List.length_append]
      omega
  · intro hcaret
    cases piece with
    | nil =>
      rcases hlast with rfl | rfl
      · cases hcaret
      · exact absurd (Option.some.inj hcaret) (by decide)
    | cons c piece =>
      exact (hpiece c List.mem_cons_self).2.2.1 (Option.some.inj hcaret)

theorem no_lf_of_plain {piece : Bytes} (h : ∀ c ∈ piece, Plain c) : LF ∉ piece :=
  fun hlf => (h LF hlf).2.1 rfl

/-- The rest of a line that was cut is passed over. -/
theorem read_all_tail {tail : Bytes} (h : ∀ c ∈ tail, Plain c) (more : Bytes) (flag : Bool)
    (dir : List packed_entry) :
    read_all (tail ++ LF :: more) flag dir = read_all more flag dir := by
  induction hlen : tail.length using Nat.strong_induction_on generalizing tail with
  | _ n ih =>
    have hne : tail ++ LF :: more ≠ [] :=
      List.append_ne_nil_of_right_ne_nil _ (List.cons_ne_nil _ _)
    by_cases hshort : tail.length < PATH_MAX - 1
    · rw [read_all_step hne (fgets_loop_line (no_lf_of_plain h) hshort more),
        read_line_piece h (Or.inr rfl)]
    · have hcut := fgets_loop_cut (no_lf_of_plain h) (Nat.not_lt.mp hshort) (LF :: more)
      have htake : read_line ((tail.take (PATH_MAX - 1) ++ []).takeWhile (· ≠ 0)) flag dir =
          (flag, dir) :=
        read_line_piece (fun c hc => h c (List.mem_of_mem_take hc)) (Or.inl rfl) flag dir
      rw [List.append_nil] at htake
      rw [read_all_step hne hcut, htake]
      refine ih _ ?_ (fun c hc => h c (List.mem_of_mem_drop hc)) rfl
      rw [← hlen, List.length_drop]
      have hpos : 0 < PATH_MAX - 1 := by decide
      omega

theorem no_nul {text : Bytes} (h : (0 : UInt8) ∉ text) : text.takeWhile (· ≠ 0) = text :=
  List.takeWhile_eq_self_iff.mpr fun _ hc => decide_eq_true fun h0 => h (h0 ▸ hc)

theorem ref_text_plain {sha1 : Sha1} {path : Bytes} (h : ∀ c ∈ path, Plain c) {c : UInt8}
    (hc : c ∈ sha1_to_hex sha1 ++ 32 :: path) : c ≠ 0 ∧ c ≠ LF := by
  rcases List.mem_append.mp hc with hc | hc
  · exact ⟨(hex_plain hc).1.1, (hex_plain hc).1.2.1⟩
  · rcases List.mem_cons.mp hc with rfl | hc
    · decide
    · exact ⟨(h c hc).1, (h c hc).2.1⟩

/-- The line fits into the buffer. -/
def Fits (path : Bytes) : Prop := path.length + 42 < PATH_MAX

instance (path : Bytes) : Decidable (Fits path) := inferInstanceAs (Decidable (_ < _))

section
variable {sha1 : Sha1} {path : Bytes} (h : ∀ c ∈ path, Plain c)

include h

theorem read_all_ref (hne : path ≠ []) (hfits : Fits path) (more : Bytes) (flag : Bool)
    (dir : List packed_entry) :
    read_all (sha1_to_hex sha1 ++ 32 :: path ++ LF :: more) flag dir =
      read_all more flag (⟨path, sha1, flag, null_sha1⟩ :: dir) := by
  have hlf : LF ∉ sha1_to_hex sha1 ++ 32 :: path := fun hc => (ref_text_plain h hc).2 rfl
  have hshort : (sha1_to_hex sha1 ++ 32 :: path).length < PATH_MAX - 1 := by
    rw [Fits] at hfits
    rw [List.length_append, List.length_cons, hex.length_sha1_to_hex]
    omega
  have hnul : (0 : UInt8) ∉ sha1_to_hex sha1 ++ 32 :: path ++ [LF] := by
    intro hc
    rcases List.mem_append.mp hc with hc | hc
    · exact (ref_text_plain h hc).1 rfl
    · exact absurd (List.mem_singleton.mp hc) (by decide)
  rw [read_all_step (List.append_ne_nil_of_right_ne_nil _ (List.cons_ne_nil _ _))
    (fgets_loop_line hlf hshort more), no_nul hnul, List.append_assoc, List.cons_append,
    read_line_ref sha1 h hne]

/-- A reference whose line does not fit is lost. -/
theorem read_all_cut (hlong : ¬ Fits path) (more : Bytes) (flag : Bool)
    (dir : List packed_entry) :
    read_all (sha1_to_hex sha1 ++ 32 :: path ++ LF :: more) flag dir =
      read_all more flag dir := by
  have hlf : LF ∉ sha1_to_hex sha1 ++ 32 :: path := fun hc => (ref_text_plain h hc).2 rfl
  have hlength : PATH_MAX - 1 = (sha1_to_hex sha1).length + (PATH_MAX - 42 + 1) := by
    rw [hex.length_sha1_to_hex]
    rfl
  have hcut := fgets_loop_cut hlf (n := PATH_MAX - 1) (by
    rw [Fits] at hlong
    rw [List.length_append, List.length_cons, hex.length_sha1_to_hex]
    omega) (LF :: more)
  have htake : (sha1_to_hex sha1 ++ 32 :: path).take (PATH_MAX - 1) =
      sha1_to_hex sha1 ++ 32 :: path.take (PATH_MAX - 42) := by
    rw [hlength, List.take_length_add_append, List.take_succ_cons]
  have hdrop : (sha1_to_hex sha1 ++ 32 :: path).drop (PATH_MAX - 1) =
      path.drop (PATH_MAX - 42) := by
    rw [hlength, List.drop_length_add_append, List.drop_succ_cons]
  have hpiece : ∀ c ∈ path.take (PATH_MAX - 42), Plain c :=
    fun _ hc => h _ (List.mem_of_mem_take hc)
  have hnul : (0 : UInt8) ∉ sha1_to_hex sha1 ++ 32 :: path.take (PATH_MAX - 42) :=
    fun hc => (ref_text_plain hpiece hc).1 rfl
  have hlast : (sha1_to_hex sha1 ++ 32 :: path.take (PATH_MAX - 42)).getLast? ≠ some LF :=
    fun hc => (ref_text_plain hpiece (List.mem_of_getLast? hc)).2 rfl
  obtain ⟨c, hhead, hplain, hc⟩ := head_hex sha1 (32 :: path.take (PATH_MAX - 42))
  rw [htake, hdrop] at hcut
  rw [read_all_step (List.append_ne_nil_of_right_ne_nil _ (List.cons_ne_nil _ _)) hcut,
    no_nul hnul, read_line_ignored (not_header_of_head (by rw [hhead]; simpa using hc))
      (parse_none_of_last hlast) (by rw [hhead]; simpa using hplain.2.2.1)]
  exact read_all_tail (fun c hc => h c (List.mem_of_mem_drop hc)) more flag dir

end

theorem read_all_peeled (sha1 : Sha1) (more : Bytes) (flag : Bool) (dir : List packed_entry) :
    read_all (94 :: sha1_to_hex sha1 ++ LF :: more) flag dir =
      read_all more flag (set_peeled sha1 dir) := by
  have htext : ∀ c ∈ 94 :: sha1_to_hex sha1, c ≠ 0 ∧ c ≠ LF := by
    intro c hc
    rcases List.mem_cons.mp hc with rfl | hc
    · decide
    · exact ⟨(hex_plain hc).1.1, (hex_plain hc).1.2.1⟩
  have hshort : (94 :: sha1_to_hex sha1).length < PATH_MAX - 1 := by
    rw [List.length_cons, hex.length_sha1_to_hex]
    decide
  have hnul : (0 : UInt8) ∉ 94 :: sha1_to_hex sha1 ++ [LF] := by
    intro hc
    rcases List.mem_append.mp hc with hc | hc
    · exact (htext 0 hc).1 rfl
    · exact absurd (List.mem_singleton.mp hc) (by decide)
  rw [read_all_step (List.append_ne_nil_of_right_ne_nil _ (List.cons_ne_nil _ _))
    (fgets_loop_line (fun hc => (htext LF hc).2 rfl) hshort more), no_nul hnul, List.cons_append,
    read_line_peeled]

/-- The header of `pack_refs` has the trait. -/
theorem read_all_header (more : Bytes) :
    read_all (header ++ peeled ++ LF :: more) false [] = read_all more true [] := by
  rw [read_all_step (List.append_ne_nil_of_right_ne_nil _ (List.cons_ne_nil _ _))
    (fgets_loop_line (by decide) (by decide) more)]
  have hread : read_line ((header ++ peeled ++ [LF]).takeWhile (· ≠ 0)) false [] = (true, []) := by
    decide
  rw [hread]

/-! ## What is read of the whole file -/

/-- The object that a tag leads to, or null. -/
def peeled_value : object → Sha1
  | .other _ => null_sha1
  | .tag sha1 tagged => ((deref_tag (.tag sha1 tagged)).map object.sha1).getD null_sha1

/-- What is added to the entries for a reference that is packed. -/
def added (dir : List packed_entry) (r : ref) : List packed_entry :=
  let dir := if Fits r.path then ⟨r.path, r.object.sha1, true, null_sha1⟩ :: dir else dir
  if peeled_line r = [] then dir else set_peeled (peeled_value r.object) dir

theorem peeled_line_cases (r : ref) :
    (peeled_line r = [] ∧ (is_tag_ref r.path = true → peeled_value r.object = null_sha1)) ∨
      (peeled_line r = 94 :: sha1_to_hex (peeled_value r.object) ++ [LF] ∧
        is_tag_ref r.path = true) := by
  unfold peeled_line
  by_cases htag : is_tag_ref r.path = true
  · rw [if_pos htag]
    cases hobject : r.object with
    | other sha1 => exact Or.inl ⟨rfl, fun _ => rfl⟩
    | tag sha1 tagged =>
      cases hderef : deref_tag (.tag sha1 tagged) with
      | none => exact Or.inl ⟨rfl, fun _ => by rw [peeled_value, hderef]; rfl⟩
      | some o =>
        refine Or.inr ⟨?_, htag⟩
        rw [peeled_value, hderef]
        rfl
  · rw [if_neg htag]
    exact Or.inl ⟨rfl, fun h => absurd h htag⟩

theorem read_all_handle (r : ref) (more : Bytes) (dir : List packed_entry) :
    read_all (sha1_to_hex r.object.sha1 ++ [32] ++ r.path ++ [LF] ++ peeled_line r ++ more) true
        dir =
      read_all more true (added dir r) := by
  have hplain : ∀ c ∈ r.path, Plain c := fun c hc => plain_of_valid r.valid hc
  have hline : sha1_to_hex r.object.sha1 ++ [32] ++ r.path ++ [LF] ++ peeled_line r ++ more =
      sha1_to_hex r.object.sha1 ++ 32 :: r.path ++ LF :: (peeled_line r ++ more) := by simp
  have hfirst : read_all (sha1_to_hex r.object.sha1 ++ 32 :: r.path ++
      LF :: (peeled_line r ++ more)) true dir =
        read_all (peeled_line r ++ more) true
          (if Fits r.path then ⟨r.path, r.object.sha1, true, null_sha1⟩ :: dir else dir) := by
    split_ifs with hfits
    · exact read_all_ref hplain (ne_nil_of_valid r.valid) hfits _ _ _
    · exact read_all_cut hplain hfits _ _ _
  rw [hline, hfirst, added]
  rcases peeled_line_cases r with ⟨hnone, -⟩ | ⟨hpeeled, -⟩
  · rw [hnone, if_pos rfl, List.nil_append]
  · have hne : peeled_line r ≠ [] := by simp [hpeeled]
    rw [if_neg hne, hpeeled, List.append_assoc, List.singleton_append]
    exact read_all_peeled _ _ _ _

theorem read_all_refs (PACK_REFS_ALL : Bool) (refs : List ref) (dir : List packed_entry) :
    read_all (refs.flatMap (handle_one_ref PACK_REFS_ALL)) true dir =
      (refs.filter (is_packed PACK_REFS_ALL)).foldl added dir := by
  induction refs generalizing dir with
  | nil => rfl
  | cons r refs ih =>
    rw [List.flatMap_cons, handle_one_ref]
    by_cases hpacked : is_packed PACK_REFS_ALL r = true
    · rw [if_pos hpacked, read_all_handle, ih, List.filter_cons_of_pos hpacked, List.foldl_cons]
    · rw [if_neg hpacked, List.nil_append, ih, List.filter_cons_of_neg hpacked]

theorem read_pack_refs (PACK_REFS_ALL : Bool) (refs : List ref) :
    read_packed_refs (pack_refs PACK_REFS_ALL refs) =
      ((refs.filter (is_packed PACK_REFS_ALL)).foldl added []).reverse := by
  have hall : ∀ f, read_packed_refs f = (read_all f false []).reverse := fun f => rfl
  rw [hall, pack_refs, List.append_assoc _ [LF], List.singleton_append, read_all_header,
    read_all_refs]

theorem length_set_peeled (sha1 : Sha1) (dir : List packed_entry) :
    (set_peeled sha1 dir).length = dir.length := by
  cases dir <;> rfl

theorem length_added (written : List ref) (dir : List packed_entry) :
    (written.foldl added dir).length =
      dir.length + (written.filter fun r => Fits r.path).length := by
  induction written generalizing dir with
  | nil => rfl
  | cons r written ih =>
    rw [List.foldl_cons, ih, added]
    by_cases hfits : Fits r.path
    · rw [if_pos hfits, List.filter_cons_of_pos (by simpa using hfits), List.length_cons]
      split_ifs
      · rw [List.length_cons]
        omega
      · rw [length_set_peeled, List.length_cons]
        omega
    · rw [if_neg hfits, List.filter_cons_of_neg (by simpa using hfits)]
      split_ifs
      · rfl
      · rw [length_set_peeled]

/-- The entry of a reference that fits: nothing is peeled outside of `refs/tags/`. -/
def entry_of (r : ref) : packed_entry :=
  ⟨r.path, r.object.sha1, true,
    if is_tag_ref r.path then peeled_value r.object else null_sha1⟩

theorem foldl_added (written : List ref) (h : ∀ r ∈ written, Fits r.path)
    (dir : List packed_entry) :
    (written.foldl added dir).reverse = dir.reverse ++ written.map entry_of := by
  induction written generalizing dir with
  | nil => simp
  | cons r written ih =>
    have hadded : added dir r = entry_of r :: dir := by
      rw [added, if_pos (h r List.mem_cons_self), entry_of]
      rcases peeled_line_cases r with ⟨hnone, hnull⟩ | ⟨hpeeled, htag⟩
      · rw [if_pos hnone]
        split_ifs with htag
        · rw [hnull htag]
        · rfl
      · rw [if_neg (by simp [hpeeled]), if_pos htag]
        rfl
    rw [List.foldl_cons, hadded, ih fun r hr => h r (List.mem_cons_of_mem _ hr),
      List.reverse_cons, List.map_cons, List.append_assoc, List.singleton_append]

/-- The same names, objects and peeled objects. -/
def SameRefs (written : List ref) (entries : List packed_entry) : Prop :=
  entries.map (fun e => (e.refname, e.sha1, e.peeled)) =
    written.map fun r => (r.path, r.object.sha1, peeled_value r.object)

/-- Without a peeled line, only the entries are known to peel to nothing that the trait in the
header is about. -/
def KnownByHeader (entries : List packed_entry) : Prop :=
  ∀ e ∈ entries, e.REF_KNOWS_PEELED = true → e.peeled = null_sha1 → is_tag_ref e.refname = true

theorem fits_of_same {written : List ref}
    (h : SameRefs written (written.foldl added []).reverse) : ∀ r ∈ written, Fits r.path := by
  have hlength := congrArg List.length h
  rw [List.length_map, List.length_reverse, length_added, List.length_map, List.length_nil,
    Nat.zero_add, List.length_filter_eq_length_iff] at hlength
  exact fun r hr => of_decide_eq_true (hlength r hr)

/-- The file is read back as it was written when no line is too long and nothing outside of
`refs/tags/` is a tag. The flag is right for the entries only when all are under `refs/tags/`. -/
theorem packed_refs_iff (PACK_REFS_ALL : Bool) (refs : List ref) :
    let written := refs.filter (is_packed PACK_REFS_ALL)
    let entries := read_packed_refs (pack_refs PACK_REFS_ALL refs)
    (SameRefs written entries ↔
      ∀ r ∈ written, Fits r.path ∧
        (is_tag_ref r.path = true ∨ peeled_value r.object = null_sha1)) ∧
    (SameRefs written entries ∧ KnownByHeader entries ↔
      ∀ r ∈ written, Fits r.path ∧ is_tag_ref r.path = true) := by
  intro written entries
  have hentries : entries = (written.foldl added []).reverse := read_pack_refs PACK_REFS_ALL refs
  have hwhole : (∀ r ∈ written, Fits r.path) → entries = written.map entry_of := by
    intro hfits
    rw [hentries, foldl_added written hfits, List.reverse_nil, List.nil_append]
  have hsame : SameRefs written entries ↔
      ∀ r ∈ written, Fits r.path ∧
        (is_tag_ref r.path = true ∨ peeled_value r.object = null_sha1) := by
    constructor
    · intro h
      have hfits := fits_of_same (hentries ▸ h)
      rw [hwhole hfits, SameRefs, List.map_map, List.map_inj_left] at h
      intro r hr
      refine ⟨hfits r hr, or_iff_not_imp_left.mpr fun htag => ?_⟩
      have hpeeled : (if is_tag_ref r.path then peeled_value r.object else null_sha1) =
          peeled_value r.object := congrArg (·.2.2) (h r hr)
      rw [if_neg htag] at hpeeled
      exact hpeeled.symm
    · intro h
      rw [hwhole fun r hr => (h r hr).1, SameRefs, List.map_map, List.map_inj_left]
      intro r hr
      have hpeeled : (if is_tag_ref r.path then peeled_value r.object else null_sha1) =
          peeled_value r.object := by
        split_ifs with htag
        · rfl
        · exact ((h r hr).2.resolve_left htag).symm
      exact congrArg (fun sha1 => (r.path, r.object.sha1, sha1)) hpeeled
  refine ⟨hsame, ?_⟩
  constructor
  · rintro ⟨h, hknown⟩ r hr
    have hfits := fits_of_same (hentries ▸ h)
    refine ⟨hfits r hr, ?_⟩
    by_contra htag
    have hentry : entry_of r ∈ entries := by
      rw [hwhole hfits]
      exact List.mem_map_of_mem hr
    have hnull : (entry_of r).peeled = null_sha1 := if_neg htag
    exact htag (hknown _ hentry rfl hnull)
  · intro h
    refine ⟨hsame.mpr fun r hr => ⟨(h r hr).1, Or.inl (h r hr).2⟩, ?_⟩
    intro e he _ _
    rw [hwhole fun r hr => (h r hr).1] at he
    obtain ⟨r, hr, rfl⟩ := List.mem_map.mp he
    exact (h r hr).2

/-! ## A tag that is no tag reference -/

/-- `refs/x/v`, a tag of another object. -/
def a_tag : ref where
  path := [114, 101, 102, 115, 47, 120, 47, 118]
  object := .tag (Vector.replicate 20 1) (some (.other (Vector.replicate 20 2)))
  REF_ISSYMREF := false
  REF_ISPACKED := false
  valid := by decide

/-- It is packed without a peeled line, and known to peel to nothing then. -/
theorem a_tag_peels_to_nothing :
    ¬ ∀ (PACK_REFS_ALL : Bool) (refs : List ref),
      let written := refs.filter (is_packed PACK_REFS_ALL)
      let entries := read_packed_refs (pack_refs PACK_REFS_ALL refs)
      SameRefs written entries ∧ KnownByHeader entries := by
  intro hall
  obtain ⟨hsame, -⟩ := hall true [a_tag]
  have hwritten : [a_tag].filter (is_packed true) = [a_tag] := rfl
  have hfits : ∀ r ∈ [a_tag], Fits r.path := by
    intro r hr
    obtain rfl := List.mem_singleton.mp hr
    decide
  rw [read_pack_refs, hwritten, foldl_added [a_tag] hfits, SameRefs] at hsame
  exact absurd hsame (by decide)

end git.packed_refs
