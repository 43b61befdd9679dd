-- `git_header_name` reads back what stands on both sides of a header, and gives
-- no name for a header with two names, unless it can be read as one with a
-- third name on both sides.
import Git.ApplyHeaderName

namespace git.header_name

open git.quote

/-! ## Headers -/

/-- One side of a header: a name behind its first directory. -/
def written (quote_path_fully : Bool) (dir name : Bytes) : Bytes :=
  quote_c_style quote_path_fully (dir ++ SLASH :: name)

def is_quoted (quote_path_fully : Bool) (dir name : Bytes) : Bool :=
  (dir ++ SLASH :: name).any (sq_must_quote quote_path_fully)

/-- `"diff --git "` -/
def diff_git : Bytes := [100, 105, 102, 102, 32, 45, 45, 103, 105, 116, 32]

def git_header (first second : Bytes) : Bytes :=
  diff_git ++ first ++ SPACE :: (second ++ [LF])

/-- The header can be read as one with `name` on both sides. -/
def OccursTwice (header name : Bytes) : Prop :=
  ∃ dir₁ dir₂, SLASH ∉ dir₁ ∧ SLASH ∉ dir₂ ∧
    header = git_header (dir₁ ++ SLASH :: name) (dir₂ ++ SLASH :: name)

theorem git_header_name_line (first second rest : Bytes) :
    git_header_name 1 (git_header first second ++ rest) (git_header first second).length =
      if (first ++ SPACE :: (second ++ LF :: rest)).head? = some DQ then
        header_name_quoted 1 (first ++ SPACE :: (second ++ LF :: rest))
          (first.length + second.length + 2)
      else
        header_name_plain 1 (first ++ SPACE :: (second ++ LF :: rest))
          (first.length + second.length + 2) := by
  have hline : (git_header first second ++ rest).drop 11 =
      first ++ SPACE :: (second ++ LF :: rest) := by
    unfold git_header
    have hlen : diff_git.length = 11 := rfl
    rw [List.append_assoc, List.append_assoc, List.drop_append, hlen]
    simp [diff_git]
  have hllen : (git_header first second).length - 11 = first.length + second.length + 2 := by
    unfold git_header diff_git
    simp
    omega
  unfold git_header_name
  rw [hline, hllen]

theorem c_str_eq {buf : Bytes} (h : 0 ∉ buf) : c_str buf = buf := by
  unfold c_str
  rw [List.takeWhile_eq_self_iff]
  intro c hc
  simp only [ne_eq, decide_eq_true_eq]
  rintro rfl
  exact h hc

theorem plain_bytes {fully : Bool} {text : Bytes} (h : text.any (sq_must_quote fully) = false) :
    ∀ c ∈ text, c ≠ DQ ∧ 32 ≤ c := by
  intro c hc
  have hplain := List.any_eq_false.mp h c hc
  obtain ⟨hdq, -, hlow⟩ := plain_byte fully c (by simpa using hplain)
  exact ⟨hdq, hlow⟩

theorem not_mem_of_low {text : Bytes} {c : UInt8} (h : ∀ c ∈ text, c ≠ DQ ∧ 32 ≤ c)
    (hc : c < 32) : c ∉ text :=
  fun hmem => absurd (h c hmem).2 (not_le.mpr hc)

/-! ## The first name quoted -/

/-- The spaces in front of a plain second side are skipped, also those of its directory. -/
theorem dropWhile_dir (dir after : Bytes) :
    (dir ++ SLASH :: after).dropWhile isspace = dir.dropWhile isspace ++ SLASH :: after := by
  induction dir with
  | nil => rfl
  | cons c dir ih =>
    rw [List.cons_append, List.dropWhile_cons, List.dropWhile_cons]
    split_ifs
    · exact ih
    · rfl

theorem drop_dropWhile (p : UInt8 → Bool) (here rest : Bytes) :
    (here ++ rest).drop (here.length - (here.dropWhile p).length) = here.dropWhile p ++ rest := by
  have hsplit : here.takeWhile p ++ here.dropWhile p = here := List.takeWhile_append_dropWhile
  have hlen := congrArg List.length hsplit
  rw [List.length_append] at hlen
  have hcount : here.length - (here.dropWhile p).length = (here.takeWhile p).length := by
    omega
  have hwhole : here ++ rest = here.takeWhile p ++ (here.dropWhile p ++ rest) := by
    rw [← List.append_assoc, hsplit]
  rw [hcount, hwhole]
  exact List.drop_left

/-- What comes of a quoted first side. -/
theorem quoted_first {fully : Bool} {dir name : Bytes} (second rest : Bytes)
    (hquoted : is_quoted fully dir name = true) (hslash : SLASH ∉ dir) (hdir : dir ≠ []) :
    header_name_quoted 1 (written fully dir name ++ SPACE :: (second ++ LF :: rest))
        ((written fully dir name).length + second.length + 2) =
      let here := (second ++ [LF]).dropWhile isspace
      if here = [] then none
      else if (here ++ rest).head? = some DQ then
        (unquote_c_style (here ++ rest)).bind fun (sp, _) =>
          (stop_at_slash 1 sp).bind fun (dir, cp) =>
            if dir = [] ∨ c_str cp ≠ c_str name then none else some name
      else
        (stop_at_slash 1 here).bind fun (dir, cp) =>
          if dir = [] ∨ cp.length ≠ name.length + 1 ∨ cp.take name.length ≠ name then none
          else some name := by
  have hread := unquote_quote hquoted (SPACE :: (second ++ LF :: rest))
  have hhere : (SPACE :: (second ++ LF :: rest)).take
      ((written fully dir name).length + second.length + 2 -
        ((written fully dir name ++ SPACE :: (second ++ LF :: rest)).length -
          (SPACE :: (second ++ LF :: rest)).length)) = SPACE :: (second ++ [LF]) := by
    have hlen : (written fully dir name).length + second.length + 2 -
        ((written fully dir name ++ SPACE :: (second ++ LF :: rest)).length -
          (SPACE :: (second ++ LF :: rest)).length) = second.length + 1 + 1 := by
      rw [List.length_append]
      omega
    rw [hlen, List.take_succ_cons]
    have hsplit : second ++ LF :: rest = (second ++ [LF]) ++ rest := by simp
    have hlast : second.length + 1 = (second ++ [LF]).length := by simp
    rw [hsplit, hlast, List.take_left]
  have hskip : (SPACE :: (second ++ [LF])).dropWhile isspace =
      (second ++ [LF]).dropWhile isspace := rfl
  have hrest : (SPACE :: (second ++ LF :: rest)).drop ((SPACE :: (second ++ [LF])).length -
      ((second ++ [LF]).dropWhile isspace).length) =
        (second ++ [LF]).dropWhile isspace ++ rest := by
    have hsplit : SPACE :: (second ++ LF :: rest) = (SPACE :: (second ++ [LF])) ++ rest := by simp
    rw [hsplit, ← hskip, drop_dropWhile]
  unfold header_name_quoted written
  unfold written at hhere
  rw [hread]
  simp only [Option.bind_some]
  rw [stop_at_slash_eq hslash]
  simp only [Option.bind_some]
  rw [if_neg hdir, hhere, hskip, hrest]

/-- Absolute paths are not accepted. -/
theorem quoted_first_absolute {fully : Bool} {name : Bytes} (second : Bytes) (llen : Nat)
    (hquoted : is_quoted fully [] name = true) :
    header_name_quoted 1 (written fully [] name ++ second) llen = none := by
  have hread := unquote_quote hquoted second
  have hstop : stop_at_slash 1 (SLASH :: name) = some ([], name) :=
    stop_at_slash_eq List.not_mem_nil
  unfold header_name_quoted written
  rw [hread, Option.bind_some, List.nil_append]
  simp only
  rw [hstop, Option.bind_some]
  exact if_pos rfl

theorem quoted_first_quoted_second {fully₁ fully₂ : Bool} {dir₁ dir₂ n₁ n₂ : Bytes}
    (rest : Bytes) (h₁ : is_quoted fully₁ dir₁ n₁ = true) (h₂ : is_quoted fully₂ dir₂ n₂ = true)
    (hslash₁ : SLASH ∉ dir₁) (hslash₂ : SLASH ∉ dir₂) (hdir₁ : dir₁ ≠ [])
    (hn₁ : 0 ∉ n₁) (hn₂ : 0 ∉ n₂) :
    header_name_quoted 1
        (written fully₁ dir₁ n₁ ++ SPACE :: (written fully₂ dir₂ n₂ ++ LF :: rest))
        ((written fully₁ dir₁ n₁).length + (written fully₂ dir₂ n₂).length + 2) =
      if dir₂ ≠ [] ∧ n₂ = n₁ then some n₁ else none := by
  have hquote : ∃ text, written fully₂ dir₂ n₂ = DQ :: text := by
    have hany : (dir₂ ++ SLASH :: n₂).any (sq_must_quote fully₂) = true := h₂
    unfold written quote_c_style
    rw [if_pos hany]
    exact ⟨_, rfl⟩
  have hread := unquote_quote h₂ ([LF] ++ rest)
  rw [quoted_first _ _ h₁ hslash₁ hdir₁]
  obtain ⟨text, htext⟩ := hquote
  have hhere : (written fully₂ dir₂ n₂ ++ [LF]).dropWhile isspace =
      written fully₂ dir₂ n₂ ++ [LF] := by
    rw [htext]
    rfl
  rw [hhere]
  simp only
  rw [if_neg (by simp), if_pos (by rw [htext]; rfl), List.append_assoc]
  unfold written
  rw [hread, Option.bind_some]
  simp only
  rw [stop_at_slash_eq hslash₂, Option.bind_some]
  simp only
  rw [c_str_eq hn₁, c_str_eq hn₂]
  by_cases hsame : dir₂ ≠ [] ∧ n₂ = n₁
  · rw [if_pos hsame, if_neg]
    rintro (h | h)
    · exact hsame.1 h
    · exact h hsame.2
  · rw [if_neg hsame, if_pos]
    by_contra hall
    rw [not_or, not_not] at hall
    exact hsame hall

/-- A plain second side is compared with the first one byte for byte. -/
theorem quoted_first_plain_second {fully₁ fully₂ : Bool} {dir₁ dir₂ n₁ n₂ : Bytes}
    (rest : Bytes) (h₁ : is_quoted fully₁ dir₁ n₁ = true) (h₂ : is_quoted fully₂ dir₂ n₂ = false)
    (hslash₁ : SLASH ∉ dir₁) (hslash₂ : SLASH ∉ dir₂) (hdir₁ : dir₁ ≠ []) :
    header_name_quoted 1
        (written fully₁ dir₁ n₁ ++ SPACE :: (written fully₂ dir₂ n₂ ++ LF :: rest))
        ((written fully₁ dir₁ n₁).length + (written fully₂ dir₂ n₂).length + 2) =
      if dir₂.dropWhile isspace ≠ [] ∧ n₂ = n₁ then some n₁ else none := by
  have hbytes := plain_bytes h₂
  rw [quoted_first _ _ h₁ hslash₁ hdir₁]
  have hwritten : written fully₂ dir₂ n₂ = dir₂ ++ SLASH :: n₂ := quote_c_style_plain h₂
  have hhere : (written fully₂ dir₂ n₂ ++ [LF]).dropWhile isspace =
      dir₂.dropWhile isspace ++ SLASH :: (n₂ ++ [LF]) := by
    rw [hwritten, List.append_assoc, List.cons_append, dropWhile_dir]
  have hmem : ∀ c ∈ dir₂.dropWhile isspace, c ∈ dir₂ :=
    fun c hc => (List.dropWhile_sublist isspace).subset hc
  have hdq : (dir₂.dropWhile isspace ++ SLASH :: (n₂ ++ [LF]) ++ rest).head? ≠ some DQ := by
    cases hd : dir₂.dropWhile isspace with
    | nil => simp [SLASH, DQ]
    | cons c dir =>
      have hc := hmem c (by rw [hd]; exact List.mem_cons_self)
      have := (hbytes c (List.mem_append_left _ hc)).1
      simpa using this
  have hslash : SLASH ∉ dir₂.dropWhile isspace := fun h => hslash₂ (hmem _ h)
  rw [hhere]
  simp only
  rw [if_neg (by simp), if_neg hdq, stop_at_slash_eq hslash, Option.bind_some]
  simp only
  by_cases hsame : dir₂.dropWhile isspace ≠ [] ∧ n₂ = n₁
  · obtain ⟨hdir, rfl⟩ := hsame
    have hsame : ¬ (dir₂.dropWhile isspace = [] ∨ (n₂ ++ [LF]).length ≠ n₂.length + 1 ∨
        (n₂ ++ [LF]).take n₂.length ≠ n₂) := by
      rintro (h | h | h)
      · exact hdir h
      · simp at h
      · simp at h
    rw [if_neg hsame, if_pos ⟨hdir, rfl⟩]
  · have hother : dir₂.dropWhile isspace = [] ∨ (n₂ ++ [LF]).length ≠ n₁.length + 1 ∨
        (n₂ ++ [LF]).take n₁.length ≠ n₁ := by
      by_contra hall
      simp only [not_or, not_not] at hall
      obtain ⟨hdir, hlen, htake⟩ := hall
      apply hsame
      have hlen' : n₂.length = n₁.length := by simpa using hlen
      rw [← hlen', List.take_left] at htake
      exact ⟨hdir, htake⟩
    rw [if_neg hsame, if_pos hother]

/-! ## The first name plain, the second quoted -/

/-- What comes of a plain first side. -/
theorem plain_first {dir name : Bytes} (second rest : Bytes) (hslash : SLASH ∉ dir)
    (hdir : dir ≠ []) :
    header_name_plain 1 ((dir ++ SLASH :: name) ++ SPACE :: (second ++ LF :: rest))
        ((dir ++ SLASH :: name).length + second.length + 2) =
      let here := name ++ SPACE :: (second ++ [LF])
      let first := here.takeWhile (· ≠ DQ)
      if first.length < here.length then
        (unquote_c_style ((here ++ rest).drop first.length)).bind fun (sp, _) =>
          (stop_at_slash 1 sp).bind fun (dir, np) =>
            if dir ≠ [] ∧ np.length < first.length ∧
                c_str np = c_str ((here ++ rest).take np.length) ∧
                ((here ++ rest)[np.length]?).any isspace then
              some np
            else none
      else if LF ∈ c_str (here ++ rest) then
        same_twice 1 (here ++ rest) ((here ++ rest).takeWhile (· ≠ LF)).length (here ++ rest) 0
      else none := by
  have hline : (dir ++ SLASH :: name) ++ SPACE :: (second ++ LF :: rest) =
      (dir ++ SLASH :: (name ++ SPACE :: (second ++ [LF]))) ++ rest := by simp
  have hllen : (dir ++ SLASH :: name).length + second.length + 2 =
      (dir ++ SLASH :: (name ++ SPACE :: (second ++ [LF]))).length := by
    simp
    omega
  have hname : (dir ++ SLASH :: (name ++ SPACE :: (second ++ [LF])) ++ rest).drop
      (dir.length + 1) = (name ++ SPACE :: (second ++ [LF])) ++ rest := by
    have hsplit : dir ++ SLASH :: (name ++ SPACE :: (second ++ [LF])) ++ rest =
        (dir ++ [SLASH]) ++ ((name ++ SPACE :: (second ++ [LF])) ++ rest) := by simp
    have hlen : dir.length + 1 = (dir ++ [SLASH]).length := by simp
    rw [hsplit, hlen, List.drop_left]
  unfold header_name_plain
  rw [hline, hllen, List.take_left, stop_at_slash_eq hslash, Option.bind_some]
  simp only
  rw [if_neg hdir, hname]

theorem plain_first_absolute (name : Bytes) {llen : Nat} (h : 0 < llen) :
    header_name_plain 1 (SLASH :: name) llen = none := by
  have hstop : stop_at_slash 1 ((SLASH :: name).take llen) = some ([], name.take (llen - 1)) := by
    obtain ⟨n, rfl⟩ := Nat.exists_eq_succ_of_ne_zero (Nat.ne_of_gt h)
    rw [List.take_succ_cons]
    exact stop_at_slash_eq List.not_mem_nil
  unfold header_name_plain
  rw [hstop, Option.bind_some]
  exact if_pos rfl

/-- The quote of the second side is the first one of the line. -/
theorem plain_first_quoted_second {fully₁ fully₂ : Bool} {dir₁ dir₂ n₁ n₂ : Bytes}
    (rest : Bytes) (h₁ : is_quoted fully₁ dir₁ n₁ = false) (h₂ : is_quoted fully₂ dir₂ n₂ = true)
    (hslash₁ : SLASH ∉ dir₁) (hslash₂ : SLASH ∉ dir₂) (hdir₁ : dir₁ ≠ []) :
    header_name_plain 1
        (written fully₁ dir₁ n₁ ++ SPACE :: (written fully₂ dir₂ n₂ ++ LF :: rest))
        ((written fully₁ dir₁ n₁).length + (written fully₂ dir₂ n₂).length + 2) =
      let name := n₁ ++ SPACE :: (written fully₂ dir₂ n₂ ++ [LF]) ++ rest
      if dir₂ ≠ [] ∧ n₂.length < n₁.length + 1 ∧ c_str n₂ = c_str (name.take n₂.length) ∧
          (name[n₂.length]?).any isspace then
        some n₂
      else none := by
  have hbytes := plain_bytes h₁
  have hread := unquote_quote h₂ ([LF] ++ rest)
  have hwritten : written fully₁ dir₁ n₁ = dir₁ ++ SLASH :: n₁ := quote_c_style_plain h₁
  have hfirst : (n₁ ++ SPACE :: (written fully₂ dir₂ n₂ ++ [LF])).takeWhile (· ≠ DQ) =
      n₁ ++ [SPACE] := by
    have hany : (dir₂ ++ SLASH :: n₂).any (sq_must_quote fully₂) = true := h₂
    have hnodq : ∀ c ∈ n₁ ++ [SPACE], decide (c ≠ DQ) = true := by
      intro c hc
      rcases List.mem_append.mp hc with hc | hc
      · have := hbytes c (List.mem_append_right _ (List.mem_cons_of_mem _ hc))
        exact decide_eq_true this.1
      · rw [List.mem_singleton.mp hc]
        rfl
    have hsplit : n₁ ++ SPACE :: (written fully₂ dir₂ n₂ ++ [LF]) =
        (n₁ ++ [SPACE]) ++ (written fully₂ dir₂ n₂ ++ [LF]) := by simp
    rw [hsplit, List.takeWhile_append_of_pos hnodq]
    unfold written quote_c_style
    rw [if_pos hany]
    simp
  have hquote : (n₁ ++ SPACE :: (written fully₂ dir₂ n₂ ++ [LF]) ++ rest).drop
      (n₁ ++ [SPACE]).length = written fully₂ dir₂ n₂ ++ ([LF] ++ rest) := by
    have hsplit : n₁ ++ SPACE :: (written fully₂ dir₂ n₂ ++ [LF]) ++ rest =
        (n₁ ++ [SPACE]) ++ (written fully₂ dir₂ n₂ ++ ([LF] ++ rest)) := by simp
    rw [hsplit, List.drop_left]
  have hlen : (n₁ ++ [SPACE]).length < (n₁ ++ SPACE :: (written fully₂ dir₂ n₂ ++ [LF])).length := by
    simp
  rw [hwritten, plain_first _ _ hslash₁ hdir₁]
  simp only
  rw [hfirst, if_pos hlen, hquote]
  unfold written at hread ⊢
  rw [hread, Option.bind_some]
  simp only
  rw [stop_at_slash_eq hslash₂, Option.bind_some]
  simp only [List.length_append, List.length_cons, List.length_nil]

theorem plain_first_same {fully₁ fully₂ : Bool} {dir₁ dir₂ name : Bytes} (rest : Bytes)
    (h₁ : is_quoted fully₁ dir₁ name = false) (h₂ : is_quoted fully₂ dir₂ name = true)
    (hslash₁ : SLASH ∉ dir₁) (hslash₂ : SLASH ∉ dir₂) (hdir₁ : dir₁ ≠ []) (hdir₂ : dir₂ ≠ []) :
    header_name_plain 1
        (written fully₁ dir₁ name ++ SPACE :: (written fully₂ dir₂ name ++ LF :: rest))
        ((written fully₁ dir₁ name).length + (written fully₂ dir₂ name).length + 2) =
      some name := by
  rw [plain_first_quoted_second rest h₁ h₂ hslash₁ hslash₂ hdir₁]
  simp only
  rw [if_pos]
  refine ⟨hdir₂, by omega, ?_, ?_⟩
  · rw [List.append_assoc, List.take_left]
  · rw [List.append_assoc, List.getElem?_append_right (le_refl _), Nat.sub_self]
    rfl

/-- A second name that the first side could not have plain is not found there. -/
theorem plain_first_other {fully₁ fully₂ : Bool} {dir₁ dir₂ n₁ n₂ : Bytes}
    (rest : Bytes) (h₁ : is_quoted fully₁ dir₁ n₁ = false) (h₂ : is_quoted fully₂ dir₂ n₂ = true)
    (hslash₁ : SLASH ∉ dir₁) (hslash₂ : SLASH ∉ dir₂) (hdir₁ : dir₁ ≠ []) (hn₂ : 0 ∉ n₂)
    (hother : n₂.any (sq_must_quote fully₁) = true) :
    header_name_plain 1
        (written fully₁ dir₁ n₁ ++ SPACE :: (written fully₂ dir₂ n₂ ++ LF :: rest))
        ((written fully₁ dir₁ n₁).length + (written fully₂ dir₂ n₂).length + 2) = none := by
  rw [plain_first_quoted_second rest h₁ h₂ hslash₁ hslash₂ hdir₁]
  simp only
  rw [if_neg]
  rintro ⟨-, hlen, hsame, -⟩
  have htake : (n₁ ++ SPACE :: (written fully₂ dir₂ n₂ ++ [LF]) ++ rest).take n₂.length =
      n₁.take n₂.length := by
    rw [List.append_assoc, List.take_append_of_le_length (by omega)]
  have hnul : 0 ∉ n₁.take n₂.length := by
    intro h
    have hlow := (plain_bytes h₁ 0 (List.mem_append_right _ (List.mem_cons_of_mem _
      (List.mem_of_mem_take h)))).2
    exact absurd hlow (by decide)
  rw [htake, c_str_eq hn₂, c_str_eq hnul] at hsame
  obtain ⟨c, hc, hquote⟩ := List.any_eq_true.mp hother
  rw [hsame] at hc
  have hplain := List.any_eq_false.mp h₁ c
    (List.mem_append_right _ (List.mem_cons_of_mem _ (List.mem_of_mem_take hc)))
  exact hplain hquote

/-! ## Both names plain -/

/-- What is behind the slash is all of the first `len` bytes and nothing else. -/
theorem same_again_iff {text after : Bytes} (rest : Bytes) (len : Nat) (hlen : len ≤ text.length)
    (hbytes : ∀ c ∈ text, c ≠ DQ ∧ 32 ≤ c) (hafter : ∀ c ∈ after, c ∈ text) :
    ((after ++ LF :: rest)[len]? = some LF ∧
      c_str ((text ++ LF :: rest).take len) = c_str ((after ++ LF :: rest).take len)) ↔
    after = text.take len := by
  have hnul : 0 ∉ text.take len :=
    fun h => not_mem_of_low hbytes (by decide) (List.mem_of_mem_take h)
  have hlf : LF ∉ text := not_mem_of_low hbytes (by decide)
  rw [List.take_append_of_le_length hlen, c_str_eq hnul]
  constructor
  · rintro ⟨hend, hsame⟩
    have hlong : ((after ++ LF :: rest).take len).length ≤
        (c_str ((after ++ LF :: rest).take len)).length := by
      rw [← hsame, List.length_take, List.length_take]
      omega
    have hwhole : c_str ((after ++ LF :: rest).take len) = (after ++ LF :: rest).take len :=
      (List.takeWhile_prefix _).eq_of_length_le hlong
    rw [hwhole] at hsame
    rcases Nat.lt_trichotomy after.length len with hless | hequal | hmore
    · -- the LF would be one of the text
      have hmem : LF ∈ (after ++ LF :: rest).take len := by
        rw [List.take_append, List.mem_append]
        right
        have hpos : len - after.length = (len - after.length - 1) + 1 := by omega
        rw [hpos, List.take_succ_cons]
        exact List.mem_cons_self
      rw [← hsame] at hmem
      exact absurd (List.mem_of_mem_take hmem) hlf
    · rw [hsame, ← hequal, List.take_left]
    · rw [List.getElem?_append_left hmore] at hend
      exact absurd (hafter LF (List.mem_of_getElem? hend)) hlf
  · rintro hafter
    have hequal : after.length = len := by
      rw [hafter, List.length_take]
      omega
    refine ⟨?_, ?_⟩
    · rw [List.getElem?_append_right (by omega), hequal, Nat.sub_self]
      rfl
    · rw [← hafter, ← hequal, List.take_left, c_str_eq]
      rw [hafter]
      exact hnul

/-- A turn of the loop. -/
theorem same_twice_cons {text ahead : Bytes} {c : UInt8} (rest : Bytes) {len : Nat}
    (hbytes : ∀ c ∈ text, c ≠ DQ ∧ 32 ≤ c) (hahead : text.drop len = c :: ahead) :
    same_twice 1 (text ++ LF :: rest) text.length ((c :: ahead) ++ LF :: rest) len =
      match if c = SPACE then stop_at_slash 1 (c :: ahead) else some ([], []) with
      | none => none
      | some (_, after) =>
        if c = SPACE ∧ after = text.take len then some after
        else same_twice 1 (text ++ LF :: rest) text.length (ahead ++ LF :: rest) (len + 1) := by
  have hmem : ∀ d ∈ c :: ahead, d ∈ text := fun d hd => List.mem_of_mem_drop (hahead ▸ hd)
  have hlow := (hbytes c (hmem c List.mem_cons_self)).2
  have hc : c ≠ LF ∧ c ≠ TAB := by
    constructor
    · rintro rfl
      exact absurd hlow (by decide)
    · rintro rfl
      exact absurd hlow (by decide)
  have hlength := congrArg List.length hahead
  rw [List.length_drop, List.length_cons] at hlength
  rw [List.cons_append, same_twice, if_neg hc.1]
  by_cases hspace : c = SPACE
  · have htake : (c :: (ahead ++ LF :: rest)).take (text.length - len) = c :: ahead := by
      rw [hlength, List.take_succ_cons, List.take_left]
    rw [if_pos (Or.inr hspace), if_pos hspace, htake]
    cases hstop : stop_at_slash 1 (c :: ahead) with
    | none => rfl
    | some cut =>
      obtain ⟨dir, after⟩ := cut
      obtain ⟨hsplit, hdir⟩ := stop_at_slash_some hstop
      have hdrop : (c :: (ahead ++ LF :: rest)).drop (dir.length + 1) = after ++ LF :: rest := by
        have hwhole : c :: (ahead ++ LF :: rest) = (dir ++ [SLASH]) ++ (after ++ LF :: rest) := by
          rw [← List.cons_append, hsplit]
          simp
        have hlen : dir.length + 1 = (dir ++ [SLASH]).length := by simp
        rw [hwhole, hlen, List.drop_left]
      have hafter : ∀ d ∈ after, d ∈ text := by
        intro d hd
        apply hmem
        rw [hsplit]
        exact List.mem_append_right _ (List.mem_cons_of_mem _ hd)
      simp only
      rw [hdrop]
      have hiff := same_again_iff rest len (by omega) hbytes hafter
      by_cases hsame : after = text.take len
      · rw [if_pos (hiff.mpr hsame), if_pos ⟨hspace, hsame⟩, hsame,
          List.take_append_of_le_length (by omega)]
      · rw [if_neg fun h => hsame (hiff.mp h), if_neg fun h => hsame h.2]
  · rw [if_neg (by simp [hc.2, hspace]), if_neg hspace]
    simp only
    rw [if_neg fun h => hspace h.1]

/-- A name that the loop gives stands on both sides of the text. -/
theorem same_twice_some {text : Bytes} (rest : Bytes) (hbytes : ∀ c ∈ text, c ≠ DQ ∧ 32 ≤ c) :
    ∀ (ahead : Bytes) (len : Nat) (m : Bytes), text.drop len = ahead →
      same_twice 1 (text ++ LF :: rest) text.length (ahead ++ LF :: rest) len = some m →
      ∃ dir, SLASH ∉ dir ∧ text = m ++ SPACE :: (dir ++ SLASH :: m) := by
  intro ahead
  induction ahead with
  | nil =>
    intro len m _ hsome
    rw [List.nil_append, same_twice, if_pos rfl] at hsome
    cases hsome
  | cons c ahead ih =>
    intro len m hahead hsome
    have hnext : text.drop (len + 1) = ahead := by
      rw [← List.drop_drop, hahead]
      rfl
    rw [same_twice_cons rest hbytes hahead] at hsome
    by_cases hspace : c = SPACE
    · rw [if_pos hspace] at hsome
      cases hstop : stop_at_slash 1 (c :: ahead) with
      | none =>
        rw [hstop] at hsome
        cases hsome
      | some cut =>
        obtain ⟨dir, after⟩ := cut
        obtain ⟨hsplit, hdir⟩ := stop_at_slash_some hstop
        rw [hstop] at hsome
        simp only at hsome
        by_cases hsame : after = text.take len
        · rw [if_pos ⟨hspace, hsame⟩] at hsome
          rw [← Option.some.inj hsome]
          cases dir with
          | nil =>
            have hc := (List.cons.inj hsplit).1
            rw [hspace] at hc
            exact absurd hc (by decide)
          | cons d dir =>
            refine ⟨dir, fun h => hdir (List.mem_cons_of_mem d h), ?_⟩
            have hd := (List.cons.inj hsplit).1
            conv_lhs => rw [← List.take_append_drop len text, hahead, hsplit, ← hsame]
            rw [← hd, hspace]
            rfl
        · rw [if_neg fun h => hsame h.2] at hsome
          exact ih (len + 1) m hnext hsome
    · rw [if_neg hspace] at hsome
      simp only at hsome
      rw [if_neg fun h => hspace h.1] at hsome
      exact ih (len + 1) m hnext hsome

/-- No split before the middle fits, so that the loop comes to it. -/
theorem same_twice_eq {name dir : Bytes} (rest : Bytes) (hslash : SLASH ∉ dir)
    (hbytes : ∀ c ∈ name ++ SPACE :: (dir ++ SLASH :: name), c ≠ DQ ∧ 32 ≤ c) :
    ∀ (ahead before : Bytes), name = before ++ ahead →
      same_twice 1 (name ++ SPACE :: (dir ++ SLASH :: name) ++ LF :: rest)
        (name ++ SPACE :: (dir ++ SLASH :: name)).length
        (ahead ++ SPACE :: (dir ++ SLASH :: name) ++ LF :: rest) before.length = some name := by
  intro ahead
  induction ahead with
  | nil =>
    intro before hsplit
    rw [List.append_nil] at hsplit
    have hdrop : (name ++ SPACE :: (dir ++ SLASH :: name)).drop before.length =
        SPACE :: (dir ++ SLASH :: name) := by
      rw [← hsplit, List.drop_left]
    have hstop : stop_at_slash 1 (SPACE :: (dir ++ SLASH :: name)) = some (SPACE :: dir, name) := by
      rw [← List.cons_append]
      exact stop_at_slash_eq (List.not_mem_cons_of_ne_of_not_mem (by decide) hslash)
    have htake : name = (name ++ SPACE :: (dir ++ SLASH :: name)).take before.length := by
      rw [← hsplit, List.take_left]
    rw [List.nil_append, same_twice_cons rest hbytes hdrop, if_pos rfl, hstop]
    simp only
    rw [if_pos ⟨trivial, htake⟩]
  | cons c ahead ih =>
    intro before hsplit
    have hdrop : (name ++ SPACE :: (dir ++ SLASH :: name)).drop before.length =
        c :: (ahead ++ SPACE :: (dir ++ SLASH :: name)) := by
      conv_lhs => rw [hsplit, List.append_assoc, ← hsplit]
      rw [List.drop_left]
      rfl
    have hnext := ih (before ++ [c]) (by rw [hsplit]; simp)
    have hlen : (before ++ [c]).length = before.length + 1 := by simp
    rw [hlen] at hnext
    rw [List.cons_append, same_twice_cons rest hbytes hdrop]
    by_cases hspace : c = SPACE
    · rw [if_pos hspace]
      cases hstop : stop_at_slash 1 (c :: (ahead ++ SPACE :: (dir ++ SLASH :: name))) with
      | none =>
        exact absurd (by simp) (stop_at_slash_none hstop)
      | some cut =>
        obtain ⟨gap, after⟩ := cut
        obtain ⟨hcut, hgap⟩ := stop_at_slash_some hstop
        simp only
        rw [if_neg]
        · exact hnext
        rintro ⟨-, hafter⟩
        -- the gap would have a slash
        have hlen := congrArg List.length hcut
        have hafterlen := congrArg List.length hafter
        have hnamelen := congrArg List.length hsplit
        simp only [List.length_append, List.length_cons, List.length_take] at hlen hafterlen hnamelen
        apply hgap
        have hat : (gap ++ SLASH :: after)[ahead.length + 1 + dir.length + 1]? = some SLASH := by
          rw [← hcut]
          have hwhole : c :: (ahead ++ SPACE :: (dir ++ SLASH :: name)) =
              (c :: ahead ++ SPACE :: dir) ++ SLASH :: name := by simp
          rw [hwhole, List.getElem?_append_right (by simp; omega)]
          simp only [List.length_append, List.length_cons]
          have hzero : ahead.length + 1 + dir.length + 1 - (ahead.length + 1 + (dir.length + 1)) = 0 := by
            omega
          rw [hzero]
          rfl
        rw [List.getElem?_append_left (by omega)] at hat
        exact List.mem_of_getElem? hat
    · rw [if_neg hspace]
      simp only
      rw [if_neg fun h => hspace h.1]
      exact hnext

theorem plain_first_plain_second {fully₁ fully₂ : Bool} {dir₁ dir₂ n₁ n₂ : Bytes}
    (rest : Bytes) (h₁ : is_quoted fully₁ dir₁ n₁ = false) (h₂ : is_quoted fully₂ dir₂ n₂ = false)
    (hslash₁ : SLASH ∉ dir₁) (hdir₁ : dir₁ ≠ []) :
    (∀ c ∈ n₁ ++ SPACE :: (dir₂ ++ SLASH :: n₂), c ≠ DQ ∧ 32 ≤ c) ∧
    header_name_plain 1
        (written fully₁ dir₁ n₁ ++ SPACE :: (written fully₂ dir₂ n₂ ++ LF :: rest))
        ((written fully₁ dir₁ n₁).length + (written fully₂ dir₂ n₂).length + 2) =
      same_twice 1 (n₁ ++ SPACE :: (dir₂ ++ SLASH :: n₂) ++ LF :: rest)
        (n₁ ++ SPACE :: (dir₂ ++ SLASH :: n₂)).length
        (n₁ ++ SPACE :: (dir₂ ++ SLASH :: n₂) ++ LF :: rest) 0 := by
  have hbytes : ∀ c ∈ n₁ ++ SPACE :: (dir₂ ++ SLASH :: n₂), c ≠ DQ ∧ 32 ≤ c := by
    intro c hc
    rcases List.mem_append.mp hc with hc | hc
    · exact plain_bytes h₁ c (List.mem_append_right _ (List.mem_cons_of_mem _ hc))
    · rcases List.mem_cons.mp hc with rfl | hc
      · exact ⟨by decide, by decide⟩
      · exact plain_bytes h₂ c hc
  refine ⟨hbytes, ?_⟩
  have hwritten₁ : written fully₁ dir₁ n₁ = dir₁ ++ SLASH :: n₁ := quote_c_style_plain h₁
  have hwritten₂ : written fully₂ dir₂ n₂ = dir₂ ++ SLASH :: n₂ := quote_c_style_plain h₂
  rw [hwritten₁, hwritten₂, plain_first _ _ hslash₁ hdir₁]
  have hhere : n₁ ++ SPACE :: (dir₂ ++ SLASH :: n₂ ++ [LF]) =
      n₁ ++ SPACE :: (dir₂ ++ SLASH :: n₂) ++ [LF] := by simp
  rw [hhere]
  generalize n₁ ++ SPACE :: (dir₂ ++ SLASH :: n₂) = text at hbytes
  have hnodq : (text ++ [LF]).takeWhile (· ≠ DQ) = text ++ [LF] := by
    rw [List.takeWhile_eq_self_iff]
    intro c hc
    rcases List.mem_append.mp hc with hc | hc
    · exact decide_eq_true (hbytes c hc).1
    · rw [List.mem_singleton.mp hc]
      rfl
  have hnul : ∀ c ∈ text, decide (c ≠ 0) = true := by
    intro c hc
    apply decide_eq_true
    rintro rfl
    exact absurd (hbytes 0 hc).2 (by decide)
  have hlf : ∀ c ∈ text, decide (c ≠ LF) = true := by
    intro c hc
    apply decide_eq_true
    rintro rfl
    exact absurd (hbytes LF hc).2 (by decide)
  have hfound : LF ∈ c_str (text ++ [LF] ++ rest) := by
    unfold c_str
    rw [List.append_assoc, List.takeWhile_append_of_pos hnul]
    exact List.mem_append_right _ List.mem_cons_self
  have hline : (text ++ [LF] ++ rest).takeWhile (· ≠ LF) = text := by
    rw [List.append_assoc, List.takeWhile_append_of_pos hlf]
    simp
  simp only
  rw [hnodq, if_neg (lt_irrefl _), if_pos hfound, hline, List.append_assoc]
  rfl

/-! ## All headers -/

theorem written_head {fully : Bool} {dir name : Bytes} (rest : Bytes) :
    (written fully dir name ++ rest).head? = some DQ ↔ is_quoted fully dir name = true := by
  by_cases h : is_quoted fully dir name = true
  · have hany : (dir ++ SLASH :: name).any (sq_must_quote fully) = true := h
    unfold written quote_c_style
    rw [if_pos hany]
    exact iff_of_true rfl h
  · have hplain : is_quoted fully dir name = false := Bool.not_eq_true _ ▸ h
    have hwritten : written fully dir name = dir ++ SLASH :: name := quote_c_style_plain hplain
    apply iff_of_false _ h
    rw [hwritten]
    have hbytes := plain_bytes hplain
    cases dir with
    | nil => simp [SLASH, DQ]
    | cons c dir =>
      have := (hbytes c List.mem_cons_self).1
      simpa using this

theorem a_name_on_both_sides (fully₁ fully₂ : Bool) (name rest : Bytes) (hname : 0 ∉ name) :
    git_header_name 1 (git_header (written fully₁ [97] name) (written fully₂ [98] name) ++ rest)
      (git_header (written fully₁ [97] name) (written fully₂ [98] name)).length = some name := by
  have ha : SLASH ∉ [(97 : UInt8)] := by decide
  have hb : SLASH ∉ [(98 : UInt8)] := by decide
  rw [git_header_name_line]
  by_cases h₁ : is_quoted fully₁ [97] name = true
  · rw [if_pos ((written_head _).mpr h₁)]
    by_cases h₂ : is_quoted fully₂ [98] name = true
    · rw [quoted_first_quoted_second rest h₁ h₂ ha hb (by simp) hname hname]
      exact if_pos ⟨by simp, rfl⟩
    · rw [quoted_first_plain_second rest h₁ (Bool.not_eq_true _ ▸ h₂) ha hb (by simp)]
      exact if_pos ⟨by decide, rfl⟩
  · rw [if_neg ((written_head _).not.mpr h₁)]
    have h₁ : is_quoted fully₁ [97] name = false := Bool.not_eq_true _ ▸ h₁
    by_cases h₂ : is_quoted fully₂ [98] name = true
    · exact plain_first_same rest h₁ h₂ ha hb (by simp) (by simp)
    · obtain ⟨hbytes, heq⟩ := plain_first_plain_second rest h₁ (Bool.not_eq_true _ ▸ h₂) ha (by simp)
      rw [heq]
      exact same_twice_eq rest hb hbytes name [] rfl

/-- The code that looks for the name of a quoted second side at the start of a plain
first one does not check that the first name ends there. -/
def NotAtItsStart (fully₁ fully₂ : Bool) (dir₁ dir₂ n₁ n₂ : Bytes) : Prop :=
  is_quoted fully₁ dir₁ n₁ = false → is_quoted fully₂ dir₂ n₂ = true →
    n₂.any (sq_must_quote fully₁) = true

theorem two_names {fully₁ fully₂ : Bool} {dir₁ dir₂ n₁ n₂ : Bytes} (rest : Bytes)
    (hslash₁ : SLASH ∉ dir₁) (hslash₂ : SLASH ∉ dir₂) (hn₁ : 0 ∉ n₁) (hn₂ : 0 ∉ n₂)
    (hother : n₁ ≠ n₂) (hstart : NotAtItsStart fully₁ fully₂ dir₁ dir₂ n₁ n₂) {m : Bytes}
    (hm : git_header_name 1
      (git_header (written fully₁ dir₁ n₁) (written fully₂ dir₂ n₂) ++ rest)
      (git_header (written fully₁ dir₁ n₁) (written fully₂ dir₂ n₂)).length = some m) :
    OccursTwice (git_header (written fully₁ dir₁ n₁) (written fully₂ dir₂ n₂)) m := by
  rw [git_header_name_line] at hm
  by_cases h₁ : is_quoted fully₁ dir₁ n₁ = true
  · rw [if_pos ((written_head _).mpr h₁)] at hm
    by_cases hdir₁ : dir₁ = []
    · rw [hdir₁] at hm h₁
      rw [quoted_first_absolute _ _ h₁] at hm
      cases hm
    by_cases h₂ : is_quoted fully₂ dir₂ n₂ = true
    · rw [quoted_first_quoted_second rest h₁ h₂ hslash₁ hslash₂ hdir₁ hn₁ hn₂,
        if_neg fun h => hother h.2.symm] at hm
      cases hm
    · rw [quoted_first_plain_second rest h₁ (Bool.not_eq_true _ ▸ h₂) hslash₁ hslash₂ hdir₁,
        if_neg fun h => hother h.2.symm] at hm
      cases hm
  · rw [if_neg ((written_head _).not.mpr h₁)] at hm
    have h₁ : is_quoted fully₁ dir₁ n₁ = false := Bool.not_eq_true _ ▸ h₁
    have hwritten₁ : written fully₁ dir₁ n₁ = dir₁ ++ SLASH :: n₁ := quote_c_style_plain h₁
    by_cases hdir₁ : dir₁ = []
    · rw [hwritten₁, hdir₁, List.nil_append, List.cons_append, plain_first_absolute] at hm
      · cases hm
      · omega
    by_cases h₂ : is_quoted fully₂ dir₂ n₂ = true
    · rw [plain_first_other rest h₁ h₂ hslash₁ hslash₂ hdir₁ hn₂ (hstart h₁ h₂)] at hm
      cases hm
    · have h₂ : is_quoted fully₂ dir₂ n₂ = false := Bool.not_eq_true _ ▸ h₂
      have hwritten₂ : written fully₂ dir₂ n₂ = dir₂ ++ SLASH :: n₂ := quote_c_style_plain h₂
      obtain ⟨hbytes, heq⟩ := plain_first_plain_second rest h₁ h₂ hslash₁ hdir₁
      rw [heq] at hm
      obtain ⟨dir, hdir, htext⟩ := same_twice_some rest hbytes _ 0 m rfl hm
      refine ⟨dir₁, dir, hslash₁, hdir, ?_⟩
      rw [hwritten₁, hwritten₂]
      unfold git_header
      have hline : dir₁ ++ SLASH :: n₁ ++ SPACE :: (dir₂ ++ SLASH :: n₂ ++ [LF]) =
          dir₁ ++ SLASH :: (n₁ ++ SPACE :: (dir₂ ++ SLASH :: n₂)) ++ [LF] := by simp
      rw [List.append_assoc, hline, htext]
      simp

/-- A name on both sides of a header comes back. Of a header with two names nothing comes
back but a name with which the header could have been written. -/
theorem git_header_name_inverts_the_header :
    (∀ (fully₁ fully₂ : Bool) (name rest : Bytes), 0 ∉ name →
      git_header_name 1
        (git_header (written fully₁ [97] name) (written fully₂ [98] name) ++ rest)
        (git_header (written fully₁ [97] name) (written fully₂ [98] name)).length = some name) ∧
    (∀ (fully₁ fully₂ : Bool) (dir₁ dir₂ n₁ n₂ rest : Bytes), SLASH ∉ dir₁ → SLASH ∉ dir₂ →
      0 ∉ n₁ → 0 ∉ n₂ → n₁ ≠ n₂ → NotAtItsStart fully₁ fully₂ dir₁ dir₂ n₁ n₂ →
      ∀ m ∈ git_header_name 1
          (git_header (written fully₁ dir₁ n₁) (written fully₂ dir₂ n₂) ++ rest)
          (git_header (written fully₁ dir₁ n₁) (written fully₂ dir₂ n₂)).length,
        OccursTwice (git_header (written fully₁ dir₁ n₁) (written fully₂ dir₂ n₂)) m) := by
  refine ⟨a_name_on_both_sides, ?_⟩
  intro fully₁ fully₂ dir₁ dir₂ n₁ n₂ rest hslash₁ hslash₂ hn₁ hn₂ hother hstart m hm
  exact two_names rest hslash₁ hslash₂ hn₁ hn₂ hother hstart hm

/-- `"f"` on both sides, quoted and plain, and `"f"` and `"g"`. -/
theorem a_header_of_f :
    git_header_name 1 (git_header (written true [97] [102]) (written false [98] [102]) ++ [64])
        (git_header (written true [97] [102]) (written false [98] [102])).length = some [102] ∧
      ∀ m ∈ git_header_name 1 (git_header (written true [97] [102]) (written true [98] [103]) ++ [])
          (git_header (written true [97] [102]) (written true [98] [103])).length,
        OccursTwice (git_header (written true [97] [102]) (written true [98] [103])) m := by
  obtain ⟨hsame, htwo⟩ := git_header_name_inverts_the_header
  refine ⟨hsame true false [102] [64] (by decide), ?_⟩
  apply htwo true true [97] [98] [102] [103] [] (by decide) (by decide) (by decide) (by decide)
  · decide
  · intro _ hquoted
    cases hquoted

/-- `"f"` and `"f b/f b/f"`: the header also reads as one of `"f b/f"` on both sides. -/
theorem a_third_name_on_both_sides :
    ¬ ∀ n₁ n₂ : Bytes, 0 ∉ n₁ → 0 ∉ n₂ → n₁ ≠ n₂ →
      ∀ m ∈ git_header_name 1 (git_header (written true [97] n₁) (written true [98] n₂))
        (git_header (written true [97] n₁) (written true [98] n₂)).length, m = n₁ ∨ m = n₂ := by
  intro hall
  have hthird := hall [102] [102, 32, 98, 47, 102, 32, 98, 47, 102] (by decide) (by decide)
    (by decide) [102, 32, 98, 47, 102] (by decide)
  revert hthird
  decide

end git.header_name
