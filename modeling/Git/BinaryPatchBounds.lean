-- Which bytes `parse_binary_hunk` reads: all within the buffer just when the
-- words, the number and the lines that it looks for end within it.
import Git.BinaryPatch

namespace git.binary_patch

open patch_method

/-! ## Lines -/

/-- The length of the first line as the `int` that it is kept in. -/
def line_length (buffer : Bytes) : Int := to_int (buffer.idxOf NEWLINE + 1 : Nat)

theorem to_int_of_small {n : Int} (h0 : 0 ≤ n) (h : n < 2 ^ 31) : to_int n = n := by
  rw [to_int]
  omega

theorem to_int_lt (n : Int) : to_int n < 2 ^ 31 := by
  rw [to_int]
  omega

/-- The conversion takes off a multiple of 2^32. -/
theorem to_int_le {n : Nat} (h : 0 ≤ to_int n) : (to_int n).toNat ≤ n := by
  rw [to_int] at h ⊢
  omega

theorem linelen_newline (buffer : Bytes) (size : Nat) (h : NEWLINE ∈ buffer)
    (hsize : buffer.length ≤ size) : linelen buffer size = some (buffer.idxOf NEWLINE + 1) := by
  induction buffer generalizing size with
  | nil => simp at h
  | cons ch buffer ih =>
    obtain ⟨size, rfl⟩ : ∃ k, size = k + 1 := ⟨size - 1, by simp at hsize; omega⟩
    rw [linelen]
    by_cases hch : ch = NEWLINE
    · rw [if_pos hch, hch, List.idxOf_cons_self]
    · have hrest : NEWLINE ∈ buffer := by
        rcases List.mem_cons.mp h with h | h
        · exact absurd h.symm hch
        · exact h
      rw [if_neg hch, ih size hrest (by simpa using hsize), List.idxOf_cons_ne _ hch]
      rfl

/-- Without a newline the line goes on to the end. -/
theorem linelen_to_end (buffer : Bytes) (h : NEWLINE ∉ buffer) :
    linelen buffer buffer.length = some buffer.length := by
  induction buffer with
  | nil => rfl
  | cons ch buffer ih =>
    rw [List.mem_cons, not_or] at h
    rw [List.length_cons, linelen, if_neg fun hc => h.1 hc.symm, ih h.2]
    rfl

theorem linelen_past (buffer : Bytes) (size : Nat) (h : NEWLINE ∉ buffer)
    (hsize : buffer.length < size) : linelen buffer size = none := by
  induction buffer generalizing size with
  | nil =>
    obtain ⟨size, rfl⟩ : ∃ k, size = k + 1 := ⟨size - 1, by simp at hsize; omega⟩
    rfl
  | cons ch buffer ih =>
    obtain ⟨size, rfl⟩ : ∃ k, size = k + 1 := ⟨size - 1, by simp at hsize; omega⟩
    rw [List.mem_cons, not_or] at h
    rw [linelen, if_neg fun hc => h.1 hc.symm, ih size h.2 (by simpa using hsize)]
    rfl

theorem line_in_buffer {buffer : Bytes} (h : NEWLINE ∈ buffer) (hpos : 0 ≤ line_length buffer) :
    (line_length buffer).toNat ≤ buffer.length := by
  have hle := to_int_le hpos
  have hlt := List.idxOf_lt_length_of_mem h
  rw [line_length]
  omega

/-! ## Words and numbers -/

/-- The data ends in the middle of the word. -/
def CutShort (word data : Bytes) : Prop := data <+: word ∧ data ≠ word

theorem starts_with_none (str pre : Bytes) : starts_with str pre = none ↔ CutShort pre str := by
  induction pre generalizing str with
  | nil =>
    rw [starts_with]
    refine ⟨fun h => by simp at h, fun h => ?_⟩
    exact absurd (List.prefix_nil.mp h.1) h.2
  | cons p pre ih =>
    cases str with
    | nil => simp [starts_with, CutShort]
    | cons s str =>
      rw [starts_with]
      by_cases hs : s = p
      · rw [if_pos hs, ih, hs, CutShort, CutShort, List.prefix_cons_inj]
        simp
      · rw [if_neg hs]
        refine ⟨fun h => by simp at h, fun h => ?_⟩
        have := List.cons_prefix_cons.mp h.1
        exact absurd this.1 hs

theorem starts_with_true (str pre : Bytes) : starts_with str pre = some true ↔ pre <+: str := by
  induction pre generalizing str with
  | nil => simp [starts_with]
  | cons p pre ih =>
    cases str with
    | nil => simp [starts_with]
    | cons s str =>
      rw [starts_with]
      by_cases hs : s = p
      · rw [if_pos hs, ih, hs, List.prefix_cons_inj]
      · rw [if_neg hs, List.cons_prefix_cons]
        simp [Ne.symm hs]

def after_sign (buf : Bytes) : Bytes :=
  match buf with
  | 43 :: rest => rest
  | 45 :: rest => rest
  | digits => digits

/-- White space, a sign and digits, and then another byte. -/
def NumberEnds (buf : Bytes) : Prop :=
  (after_sign (buf.dropWhile isspace)).dropWhile isdigit ≠ []

theorem strtoul_digits_none (v : Nat) (buf : Bytes) :
    strtoul_digits v buf = none ↔ buf.dropWhile isdigit = [] := by
  induction buf generalizing v with
  | nil => simp [strtoul_digits]
  | cons ch buf ih =>
    rw [strtoul_digits, List.dropWhile_cons]
    split
    · exact ih _
    · simp

theorem strtoul_none (buf : Bytes) : strtoul buf = none ↔ ¬ NumberEnds buf := by
  rw [strtoul, NumberEnds, not_not]
  generalize buf.dropWhile isspace = b
  split
  · simp [after_sign]
  · rw [Option.map_eq_none_iff, strtoul_digits_none, after_sign]
  · rw [Option.map_eq_none_iff, strtoul_digits_none, after_sign]
  · next h43 h45 =>
    rw [Option.map_eq_none_iff, strtoul_digits_none, after_sign]
    · exact h43
    · exact h45

/-! ## The data lines -/

/-- From a buffer on, with `n` bytes read so far, every line up to the blank one
or the first bad one ends within it. The lines stop as well where there would be
2^31 bytes. A bad line of 2^31 bytes and more is printed up to a NUL. -/
inductive LinesEnd : Nat → Bytes → Prop
  | blank {n : Nat} {buffer : Bytes} : NEWLINE ∈ buffer → line_length buffer = 1 →
      LinesEnd n buffer
  | corrupt {n : Nat} {buffer : Bytes} : NEWLINE ∈ buffer → line_length buffer ≠ 1 →
      parse_data_line (line_length buffer) buffer = .corrupt →
      (1 ≤ line_length buffer ∨ 0 ∈ buffer) → LinesEnd n buffer
  | too_large {n byte_length : Nat} {buffer decoded : Bytes} : NEWLINE ∈ buffer →
      line_length buffer ≠ 1 →
      parse_data_line (line_length buffer) buffer = .bytes byte_length decoded →
      2 ^ 31 ≤ n + byte_length → LinesEnd n buffer
  | data {n byte_length : Nat} {buffer decoded : Bytes} : NEWLINE ∈ buffer →
      line_length buffer ≠ 1 →
      parse_data_line (line_length buffer) buffer = .bytes byte_length decoded →
      n + byte_length < 2 ^ 31 →
      LinesEnd (n + byte_length) (buffer.drop (line_length buffer).toNat) → LinesEnd n buffer

/-- A line that is all there is read without going past it. -/
theorem parse_data_line_inside {llen : Int} {buffer : Bytes} (h : llen.toNat ≤ buffer.length) :
    parse_data_line llen buffer ≠ .outside ∧ ∀ n decoded,
      parse_data_line llen buffer = .bytes n decoded → decoded.length = n ∧ 7 ≤ llen := by
  unfold parse_data_line
  by_cases hbad : llen < 7 ∨ (llen - 2) % 5 ≠ 0
  · rw [if_pos hbad]
    simp
  · rw [if_neg hbad]
    cases buffer with
    | nil =>
      rw [List.length_nil] at h
      omega
    | cons ch rest =>
      dsimp only
      rw [List.length_cons] at h
      cases hl : byte_length ch with
      | none => simp
      | some n =>
        dsimp only
        by_cases hmax : ((llen - 2) / 5 * 4).toNat < n ∨ n + 4 ≤ ((llen - 2) / 5 * 4).toNat
        · rw [if_pos hmax]
          simp
        · rw [if_neg hmax]
          obtain ⟨hin, hlen⟩ := base85.decode_85_inside n rest (by omega)
          cases hd : base85.decode_85 n rest with
          | outside => exact absurd hd hin
          | invalid => simp
          | ok decoded =>
            refine ⟨by simp, fun m d hmd => ?_⟩
            have := hlen decoded hd
            cases hmd
            exact ⟨this, by omega⟩

theorem corrupt_line_outside (llen : Int) (buffer : Bytes) :
    corrupt_line llen buffer = .outside ↔ ¬ (1 ≤ llen ∨ 0 ∈ buffer) := by
  rw [corrupt_line]
  by_cases h : llen - 1 < 0 ∧ 0 ∉ buffer
  · rw [if_pos h]
    simp only [true_iff, not_or]
    exact ⟨by omega, h.2⟩
  · rw [if_neg h]
    simp only [reduceCtorEq, false_iff, not_not]
    by_cases h0 : (0 : UInt8) ∈ buffer
    · exact .inr h0
    · exact .inl (by by_contra hc; exact h ⟨by omega, h0⟩)

theorem next_line_some {buffer : Bytes} {size len : Nat} (h : linelen buffer size = some len)
    (used : Int) (data : Bytes) : next_line buffer size used data =
      parse_line (to_int len) buffer size (to_int (used + to_int len)) data := by
  rw [next_line, h]

theorem next_line_none {buffer : Bytes} {size : Nat} (h : linelen buffer size = none)
    (used : Int) (data : Bytes) : next_line buffer size used data = .stop .outside := by
  rw [next_line, h]

/-- With a size that is too large, the loop stays inside just when the lines end. -/
theorem parse_lines_outside (fuel : Nat) :
    ∀ (buffer : Bytes) (size : Nat) (used : Int) (data : Bytes), buffer.length < fuel →
      buffer.length < size →
      (parse_lines fuel buffer size used data = .outside ↔ ¬ LinesEnd data.length buffer) := by
  induction fuel with
  | zero =>
    intro buffer size used data hfuel
    exact absurd hfuel (Nat.not_lt_zero _)
  | succ fuel ih =>
    intro buffer size used data hfuel hsize
    rw [parse_lines]
    by_cases hnl : NEWLINE ∈ buffer
    · have hpos : (line_length buffer).toNat ≤ buffer.length := by
        by_cases h0 : 0 ≤ line_length buffer
        · exact line_in_buffer hnl h0
        · omega
      rw [next_line_some (linelen_newline buffer size hnl (by omega))]
      generalize to_int (used + to_int (buffer.idxOf NEWLINE + 1 : Nat)) = used'
      have hline : to_int (buffer.idxOf NEWLINE + 1 : Nat) = line_length buffer := rfl
      rw [hline, parse_line]
      by_cases hblank : line_length buffer = 1
      · rw [if_pos hblank]
        simp only [reduceCtorEq, false_iff, not_not]
        exact .blank hnl hblank
      · rw [if_neg hblank]
        obtain ⟨hin, hbytes⟩ := parse_data_line_inside hpos
        cases hl : parse_data_line (line_length buffer) buffer with
        | outside => exact absurd hl hin
        | corrupt =>
          dsimp only
          rw [corrupt_line_outside]
          refine not_congr ⟨fun h => .corrupt hnl hblank hl h, fun h => ?_⟩
          cases h with
          | blank _ h1 => exact absurd h1 hblank
          | corrupt _ _ _ h1 => exact h1
          | too_large _ _ h1 _ =>
            rw [hl] at h1
            cases h1
          | data _ _ h1 _ _ =>
            rw [hl] at h1
            cases h1
        | bytes n decoded =>
          obtain ⟨hlen, hseven⟩ := hbytes n decoded hl
          dsimp only
          by_cases hbig : 2 ^ 31 ≤ data.length + n
          · rw [if_pos hbig]
            simp only [reduceCtorEq, false_iff, not_not]
            exact .too_large hnl hblank hl hbig
          · rw [if_neg hbig, ih _ _ _ _ (by rw [List.length_drop]; omega)
              (by rw [List.length_drop]; omega), List.length_append, hlen]
            refine not_congr ⟨fun h => .data hnl hblank hl (by omega) h, fun h => ?_⟩
            cases h with
            | blank _ h1 => exact absurd h1 hblank
            | corrupt _ _ h1 _ =>
              rw [hl] at h1
              cases h1
            | too_large _ _ h1 h2 =>
              rw [hl] at h1
              cases h1
              exact absurd h2 hbig
            | data _ _ h1 _ h2 =>
              rw [hl] at h1
              cases h1
              exact h2
    · rw [next_line_none (linelen_past buffer size hnl hsize)]
      simp only [true_iff]
      intro h
      cases h with
      | blank h1 _ => exact hnl h1
      | corrupt h1 _ _ _ => exact hnl h1
      | too_large h1 _ _ _ => exact hnl h1
      | data h1 _ _ _ _ => exact hnl h1

/-! ## The hunk -/

/-- The length of the first line, which may be all there is, as an `int`. -/
def first_length (data : Bytes) : Int :=
  to_int (if NEWLINE ∈ data then data.idxOf NEWLINE + 1 else data.length)

/-- After a method word of `k` bytes the number ends, and after the first line
the data lines do. A first line whose length is 0 as an `int` is taken for a bad
data line, and printed. -/
def BodyEnds (k : Nat) (data : Bytes) : Prop :=
  NumberEnds (data.drop k) ∧
    ((0 < first_length data ∧ LinesEnd 0 (data.drop (first_length data).toNat)) ∨
      (first_length data = 0 ∧ 0 ∈ data))

/-- Nothing that `parse_binary_hunk` looks for is cut short by the end. -/
def EndsInside (data : Bytes) : Prop :=
  ¬ CutShort delta_word data ∧ ¬ CutShort literal_word data ∧
    (delta_word <+: data → BodyEnds 6 data) ∧ (literal_word <+: data → BodyEnds 8 data)

theorem linelen_first (data : Bytes) : linelen data data.length =
    some (if NEWLINE ∈ data then data.idxOf NEWLINE + 1 else data.length) := by
  split
  · next h => exact linelen_newline data _ h (le_refl _)
  · next h => exact linelen_to_end data h

theorem first_length_le {data : Bytes} (h : 0 ≤ first_length data) :
    (first_length data).toNat ≤ data.length := by
  rw [first_length] at h ⊢
  by_cases hnl : NEWLINE ∈ data
  · rw [if_pos hnl] at h ⊢
    have := to_int_le (n := data.idxOf NEWLINE + 1) (by exact_mod_cast h)
    have hlt := List.idxOf_lt_length_of_mem hnl
    push_cast at this
    omega
  · rw [if_neg hnl] at h ⊢
    exact to_int_le h

theorem first_length_eq (data : Bytes) :
    to_int ((if NEWLINE ∈ data then data.idxOf NEWLINE + 1 else data.length : Nat) : Int) =
      first_length data := by
  rw [first_length]
  split
  · push_cast
    rfl
  · rfl

/-- The lines after the first one. -/
theorem body_lines_outside (data : Bytes) (h : 0 ≤ first_length data) :
    parse_lines (data.length + 1) (data.drop (first_length data).toNat) data.length
        (first_length data) [] = .outside ↔
      ¬ ((0 < first_length data ∧ LinesEnd 0 (data.drop (first_length data).toNat)) ∨
        (first_length data = 0 ∧ 0 ∈ data)) := by
  have hle := first_length_le h
  by_cases h0 : first_length data = 0
  · -- the first line again, and its length is still 0
    have hbad : parse_data_line 0 data = .corrupt := by
      unfold parse_data_line
      rw [if_pos (by omega)]
    rw [h0, Int.toNat_zero, List.drop_zero, parse_lines, next_line_some (linelen_first data),
      first_length_eq, h0]
    generalize to_int (0 + 0) = used
    rw [parse_line, if_neg (by omega), hbad]
    dsimp only
    rw [corrupt_line_outside]
    refine not_congr ⟨fun hc => .inr ⟨rfl, hc.resolve_left (by omega)⟩, ?_⟩
    rintro (⟨hc, -⟩ | ⟨-, hc⟩)
    · omega
    · exact .inr hc
  · rw [parse_lines_outside _ _ _ _ _ (by rw [List.length_drop]; omega)
      (by rw [List.length_drop]; omega)]
    refine not_congr ⟨fun hc => .inl ⟨by omega, hc⟩, ?_⟩
    rintro (⟨-, hc⟩ | ⟨hc, -⟩)
    · exact hc
    · exact absurd hc h0

theorem parse_method_outside (inflate : Bytes → Option Bytes) (method : patch_method) (k : Nat)
    (data : Bytes) :
    parse_method inflate method k data data.length (first_length data) = .outside ↔
      ¬ BodyEnds k data := by
  unfold parse_method
  cases hnum : strtoul (data.drop k) with
  | none =>
    have hends := (strtoul_none _).mp hnum
    simp only [true_iff]
    exact fun h => hends h.1
  | some origlen =>
    have hends : NumberEnds (data.drop k) := by
      by_contra hno
      rw [(strtoul_none _).mpr hno] at hnum
      cases hnum
    dsimp only
    by_cases hneg : first_length data < 0
    · rw [if_pos hneg]
      simp only [true_iff]
      rintro ⟨-, ⟨h, -⟩ | ⟨h, -⟩⟩ <;> omega
    · have hlines := body_lines_outside data (by omega)
      rw [if_neg hneg, BodyEnds, and_iff_right hends, ← hlines]
      -- only the lines can lead outside
      generalize parse_lines (data.length + 1) (data.drop (first_length data).toNat) data.length
        (first_length data) [] = r
      cases r with
      | done =>
        dsimp only
        split <;> simp
      | _ => simp

/-- The bounds: for data of any size, no byte past it is read just when nothing
is cut short. -/
theorem parse_binary_hunk_outside (inflate : Bytes → Option Bytes) (data : Bytes) :
    parse_binary_hunk inflate data data.length ≠ .outside ↔ EndsInside data := by
  rw [parse_binary_hunk, linelen_first]
  dsimp only
  rw [first_length_eq, EndsInside]
  have hwords : delta_word <+: data → ¬ literal_word <+: data := by
    intro hd hl
    obtain ⟨a, rfl⟩ := hd
    simp [delta_word, literal_word] at hl
  have hcut : ∀ word : Bytes, CutShort word data → ¬ word <+: data := by
    intro word hc hw
    exact hc.2 (List.IsPrefix.eq_of_length_le hc.1 hw.length_le)
  cases hd : starts_with data delta_word with
  | none =>
    have hc := (starts_with_none _ _).mp hd
    simp [hc]
  | some d =>
    have hc : ¬ CutShort delta_word data := by
      intro h
      rw [(starts_with_none _ _).mpr h] at hd
      cases hd
    cases d with
    | true =>
      have hw := (starts_with_true _ _).mp hd
      have hl := hwords hw
      have hcl : ¬ CutShort literal_word data := by
        intro h
        obtain ⟨a, rfl⟩ := hw
        have := h.1
        simp [delta_word, literal_word] at this
      dsimp only
      rw [ne_eq, parse_method_outside, not_not]
      exact ⟨fun h => ⟨hc, hcl, fun _ => h, fun h' => absurd h' hl⟩, fun h => h.2.2.1 hw⟩
    | false =>
      have hw : ¬ delta_word <+: data := by
        intro h
        rw [(starts_with_true _ _).mpr h] at hd
        cases hd
      dsimp only
      cases hl : starts_with data literal_word with
      | none =>
        have hcl := (starts_with_none _ _).mp hl
        simp [hcl]
      | some l =>
        have hcl : ¬ CutShort literal_word data := by
          intro h
          rw [(starts_with_none _ _).mpr h] at hl
          cases hl
        cases l with
        | true =>
          have hlw := (starts_with_true _ _).mp hl
          dsimp only
          rw [ne_eq, parse_method_outside, not_not]
          exact ⟨fun h => ⟨hc, hcl, fun h' => absurd h' hw, fun _ => h⟩, fun h => h.2.2.2 hlw⟩
        | false =>
          have hlw : ¬ literal_word <+: data := by
            intro h
            rw [(starts_with_true _ _).mpr h] at hl
            cases hl
          simp [hc, hcl, hw, hlw]

end git.binary_patch
