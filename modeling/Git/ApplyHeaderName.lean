-- `git_header_name` of `builtin/apply.c`: the name that stands on both sides of a
-- `diff --git` line, each side plain or quoted.
import Git.Quote

namespace git.header_name

open git.quote

abbrev SLASH : UInt8 := 47
abbrev SPACE : UInt8 := 32
abbrev TAB : UInt8 := 9
abbrev LF : UInt8 := 10

/-- The class `GIT_SPACE`. -/
def isspace (c : UInt8) : Bool := c == 9 || c == 10 || c == 13 || c == 32

/-- A string up to its NUL. -/
def c_str (buf : Bytes) : Bytes := buf.takeWhile (· ≠ 0)

/-- The text before the slash that takes `nslash` to 0, and the text after it. -/
def stop_at_slash : Nat → Bytes → Option (Bytes × Bytes)
  | _, [] => none
  | nslash, ch :: line =>
    if ch = SLASH ∧ nslash ≤ 1 then some ([], line)
    else
      (stop_at_slash (if ch = SLASH then nslash - 1 else nslash) line).map
        fun (before, after) => (ch :: before, after)

/-- The first name is quoted. `line` goes on behind its `llen` bytes. -/
def header_name_quoted (p_value : Nat) (line : Bytes) (llen : Nat) : Option Bytes :=
  (unquote_c_style line).bind fun (first, second) =>
    (stop_at_slash p_value first).bind fun (dir, first) =>
      -- we do not accept absolute paths
      if dir = [] then none
      else
        let here := second.take (llen - (line.length - second.length))
        let name := here.dropWhile isspace
        let second := second.drop (here.length - name.length)
        if name = [] then none
        else if second.head? = some DQ then
          (unquote_c_style second).bind fun (sp, _) =>
            (stop_at_slash p_value sp).bind fun (dir, cp) =>
              if dir = [] ∨ c_str cp ≠ c_str first then none else some first
        else
          (stop_at_slash p_value name).bind fun (dir, cp) =>
            if dir = [] ∨ cp.length ≠ first.length + 1 ∨ cp.take first.length ≠ first then none
            else some first

/-- Accept a name only if it shows up twice, exactly the same form: `ahead` is
`name` from `len` on. -/
def same_twice (p_value : Nat) (name : Bytes) (line_len : Nat) : Bytes → Nat → Option Bytes
  | [], _ => none
  | ch :: ahead, len =>
    if ch = LF then none
    else if ch = TAB ∨ ch = SPACE then
      match stop_at_slash p_value ((ch :: ahead).take (line_len - len)) with
      | none => none
      | some (dir, _) =>
        let second := (ch :: ahead).drop (dir.length + 1)
        if second[len]? = some LF ∧ c_str (name.take len) = c_str (second.take len) then
          some (name.take len)
        else same_twice p_value name line_len ahead (len + 1)
    else same_twice p_value name line_len ahead (len + 1)

/-- The first name is not quoted. -/
def header_name_plain (p_value : Nat) (line : Bytes) (llen : Nat) : Option Bytes :=
  (stop_at_slash p_value (line.take llen)).bind fun (dir, here) =>
    if dir = [] then none
    else
      let name := line.drop (dir.length + 1)
      -- since the first name is unquoted, a dq if exists must be the beginning of the second
      let first := here.takeWhile (· ≠ DQ)
      if first.length < here.length then
        (unquote_c_style (name.drop first.length)).bind fun (sp, _) =>
          (stop_at_slash p_value sp).bind fun (dir, np) =>
            if dir ≠ [] ∧ np.length < first.length ∧ c_str np = c_str (name.take np.length) ∧
                (name[np.length]?).any isspace then
              some np
            else none
      else if LF ∈ c_str name then
        same_twice p_value name (name.takeWhile (· ≠ LF)).length name 0
      else none

/-- `line` is the patch from the header on, and the header has `llen` bytes. -/
def git_header_name (p_value : Nat) (line : Bytes) (llen : Nat) : Option Bytes :=
  let line := line.drop 11
  let llen := llen - 11
  if line.head? = some DQ then header_name_quoted p_value line llen
  else header_name_plain p_value line llen

/-! ## Slashes -/

theorem stop_at_slash_eq {before after : Bytes} (h : SLASH ∉ before) :
    stop_at_slash 1 (before ++ SLASH :: after) = some (before, after) := by
  induction before with
  | nil =>
    rw [List.nil_append, stop_at_slash, if_pos ⟨rfl, le_refl 1⟩]
  | cons c before ih =>
    obtain ⟨hc, hbefore⟩ := List.ne_and_not_mem_of_not_mem_cons h
    rw [List.cons_append, stop_at_slash, if_neg fun h => hc h.1.symm, if_neg (Ne.symm hc),
      ih hbefore]
    rfl

theorem stop_at_slash_some {line before after : Bytes}
    (h : stop_at_slash 1 line = some (before, after)) :
    line = before ++ SLASH :: after ∧ SLASH ∉ before := by
  induction line generalizing before after with
  | nil => cases h
  | cons c line ih =>
    unfold stop_at_slash at h
    by_cases hc : c = SLASH
    · rw [if_pos ⟨hc, le_refl 1⟩] at h
      obtain ⟨rfl, rfl⟩ := Prod.mk.inj (Option.some.inj h)
      exact ⟨by rw [hc]; rfl, List.not_mem_nil⟩
    · rw [if_neg fun h => hc h.1, if_neg hc] at h
      obtain ⟨⟨before', after'⟩, hstop, hpair⟩ := Option.map_eq_some_iff.mp h
      obtain ⟨rfl, rfl⟩ := Prod.mk.inj hpair
      obtain ⟨rfl, hbefore⟩ := ih hstop
      exact ⟨rfl, List.not_mem_cons_of_ne_of_not_mem (Ne.symm hc) hbefore⟩

theorem stop_at_slash_none {line : Bytes} (h : stop_at_slash 1 line = none) : SLASH ∉ line := by
  intro hmem
  obtain ⟨before, after, hsplit, hbefore⟩ := List.eq_append_cons_of_mem hmem
  rw [hsplit, stop_at_slash_eq hbefore] at h
  cases h

end git.header_name
