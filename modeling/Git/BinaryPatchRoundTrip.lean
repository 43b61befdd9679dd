-- What `emit_binary_diff` writes, `parse_binary` reads back: both hunks, and
-- all of the text. Applied, they lead from one content to the other.
import Git.BinaryPatchBounds
import Git.DeltaRoundTrip
import Git.Lib.BigEndian

namespace git.binary_patch

open patch_method

/-! ## The first line -/

theorem digit_byte (n : Nat) (h : n < 10) : (UInt8.ofNat (48 + n)).toNat = 48 + n := by
  rw [UInt8.toNat_ofNat']
  omega

theorem digit_isdigit (n : Nat) (h : n < 10) : isdigit (UInt8.ofNat (48 + n)) = true := by
  have hb := digit_byte n h
  have hle : ∀ a b : UInt8, a ≤ b ↔ a.toNat ≤ b.toNat := fun a b => Iff.rfl
  rw [isdigit, decide_eq_true_eq, hle, hle, hb]
  have h48 : (48 : UInt8).toNat = 48 := rfl
  have h57 : (57 : UInt8).toNat = 57 := rfl
  omega

/-- A number is digits. -/
theorem mem_decimal (n : Nat) : ∀ ch ∈ decimal n, isdigit ch = true := by
  induction n using Nat.strong_induction_on with
  | _ n ih =>
    rw [decimal]
    by_cases hn : n < 10
    · rw [if_pos hn]
      intro ch hch
      rw [List.mem_singleton.mp hch]
      exact digit_isdigit n hn
    · rw [if_neg hn]
      intro ch hch
      rcases List.mem_append.mp hch with hch | hch
      · exact ih (n / 10) (by omega) ch hch
      · rw [List.mem_singleton.mp hch]
        exact digit_isdigit _ (Nat.mod_lt n (by omega))

theorem decimal_ne_nil (n : Nat) : decimal n ≠ [] := by
  rw [decimal]
  split <;> simp

theorem strtoul_digits_decimal (n : Nat) (tail : Bytes) :
    strtoul_digits 0 (decimal n ++ tail) = strtoul_digits n tail := by
  induction n using Nat.strong_induction_on generalizing tail with
  | _ n ih =>
    rw [decimal]
    by_cases hn : n < 10
    · rw [if_pos hn, List.singleton_append, strtoul_digits, if_pos (digit_isdigit n hn),
        digit_byte n hn]
      congr 1
      omega
    · have hd := Nat.mod_lt n (show 10 > 0 by omega)
      rw [if_neg hn, List.append_assoc, ih (n / 10) (by omega), List.singleton_append,
        strtoul_digits, if_pos (digit_isdigit _ hd), digit_byte _ hd]
      congr 1
      omega

theorem space_of_digit : ∀ ch : UInt8, isdigit ch = true → isspace ch = false := by
  decide +kernel

/-- The number that was printed is read. -/
theorem strtoul_decimal (n : Nat) (h : n < 2 ^ 64) (ch : UInt8) (hch : isdigit ch = false)
    (tail : Bytes) : strtoul (decimal n ++ ch :: tail) = some n := by
  have hread := strtoul_digits_decimal n (ch :: tail)
  rw [strtoul_digits, if_neg (by rw [hch]; simp)] at hread
  obtain ⟨d, rest, hd⟩ := List.exists_cons_of_ne_nil (decimal_ne_nil n)
  have hdigit : isdigit d = true := mem_decimal n d (by rw [hd]; exact List.mem_cons_self)
  have hspace : isspace d = false := space_of_digit d hdigit
  have h43 : d ≠ 43 := by
    rintro rfl
    exact absurd hdigit (by decide)
  have h45 : d ≠ 45 := by
    rintro rfl
    exact absurd hdigit (by decide)
  rw [hd] at hread ⊢
  rw [strtoul, List.cons_append, List.dropWhile_cons, if_neg (by rw [hspace]; simp)]
  split
  · next h0 => cases h0
  · next h0 =>
    cases h0
    exact absurd rfl h43
  · next h0 =>
    cases h0
    exact absurd rfl h45
  · rw [← List.cons_append, hread, Option.map_some, saturate, if_neg (by omega)]

theorem newline_not_mem_decimal (n : Nat) : NEWLINE ∉ decimal n := by
  intro h
  exact absurd (mem_decimal n _ h) (by decide)

theorem newline_not_mem_method_word (method : patch_method) : NEWLINE ∉ method_word method := by
  cases method <;> decide

/-! ## A line of data -/

theorem newline_not_mem_encode_85 (data : Bytes) : NEWLINE ∉ base85.encode_85 data := by
  intro h
  exact absurd (base85.mem_encode_85 data _ h) (by decide)

/-- The letter says the length of the line. -/
theorem byte_length_letter : ∀ n : Fin 53, 0 < n.val →
    byte_length (length_letter n.val) = some n.val ∧ length_letter n.val ≠ NEWLINE := by
  decide

theorem length_data_line (line : Bytes) :
    (data_line line).length = 5 * ((line.length + 3) / 4) + 2 := by
  rw [data_line, List.cons_append, List.length_cons, List.length_append, base85.length_encode_85,
    List.length_singleton]

theorem parse_data_line_data_line (line rest : Bytes) (hpos : 0 < line.length)
    (hmax : line.length ≤ 52) :
    parse_data_line (data_line line).length (data_line line ++ rest) =
      .bytes line.length line := by
  have hlen := length_data_line line
  obtain ⟨hletter, -⟩ := byte_length_letter ⟨line.length, by omega⟩ hpos
  have hsize : ((((data_line line).length : Int) - 2) / 5 * 4).toNat =
      4 * ((line.length + 3) / 4) := by
    rw [hlen]
    push_cast
    omega
  unfold parse_data_line
  rw [if_neg (by rw [hlen]; push_cast; omega), hsize]
  rw [data_line, List.cons_append, List.cons_append]
  dsimp only at hletter ⊢
  rw [hletter]
  dsimp only
  rw [if_neg (by omega), List.append_assoc, base85.decode_85_encode_85]

/-- The newline is the end of the line. -/
theorem linelen_line (line rest : Bytes) (h : NEWLINE ∉ line) (size : Nat)
    (hsize : (line ++ NEWLINE :: rest).length ≤ size) :
    linelen (line ++ NEWLINE :: rest) size = some (line.length + 1) := by
  have hmem : NEWLINE ∈ line ++ NEWLINE :: rest := by simp
  rw [linelen_newline _ _ hmem hsize, List.idxOf_append_of_notMem h, List.idxOf_cons_self]

/-! ## All lines -/

theorem data_lines_nil : data_lines [] = [] := by
  rw [data_lines, if_pos rfl]

theorem length_data_lines (data : Bytes) : data.length ≤ (data_lines data).length := by
  induction h : data.length using Nat.strong_induction_on generalizing data with
  | _ n ih =>
    by_cases h0 : data = []
    · rw [← h, h0]
      exact Nat.zero_le _
    · have hpos := List.length_pos_of_ne_nil h0
      have hrest := ih (n - 52) (by omega) (data.drop 52) (by rw [List.length_drop, h])
      have htake : (data.take 52).length = min 52 n := by rw [List.length_take, h]
      rw [data_lines, if_neg h0, List.length_append, length_data_line, htake]
      omega

/-- The lines of the data and the blank line, read onto what was read so far. -/
theorem parse_lines_data_lines (data : Bytes) :
    ∀ (fuel : Nat) (rest before : Bytes) (size used : Nat),
      (data_lines data).length < fuel →
      (data_lines data ++ NEWLINE :: rest).length ≤ size →
      used + (data_lines data).length + 1 < 2 ^ 31 → before.length + data.length < 2 ^ 31 →
      parse_lines fuel (data_lines data ++ NEWLINE :: rest) size used before =
        .done rest (size - ((data_lines data).length + 1))
          ((used + (data_lines data).length + 1 : Nat) : Int) (before ++ data) := by
  induction h : data.length using Nat.strong_induction_on generalizing data with
  | _ n ih =>
    intro fuel rest before size used hfuel hsize hused hbefore
    obtain ⟨fuel, rfl⟩ : ∃ k, fuel = k + 1 := ⟨fuel - 1, by omega⟩
    rw [parse_lines]
    by_cases h0 : data = []
    · subst h0
      rw [data_lines_nil] at hsize hused ⊢
      have hone := linelen_line [] rest (by simp) size hsize
      have hint : to_int (([] : Bytes).length + 1 : Nat) = 1 := to_int_of_small (by simp) (by simp)
      rw [next_line_some hone, hint, to_int_of_small (by omega) (by simp at hused; omega),
        parse_line, if_pos rfl]
      simp
    · have hpos := List.length_pos_of_ne_nil h0
      have htake : (data.take 52).length = min 52 n := by rw [List.length_take, h]
      have hdrop : (data.drop 52).length = n - 52 := by rw [List.length_drop, h]
      have hunfold : data_lines data = data_line (data.take 52) ++ data_lines (data.drop 52) := by
        rw [data_lines, if_neg h0]
      have hline : (data_line (data.take 52)).length = 5 * ((min 52 n + 3) / 4) + 2 := by
        rw [length_data_line, htake]
      rw [hunfold, List.length_append] at hfuel hused
      rw [hunfold, List.append_assoc] at hsize
      rw [hunfold, List.append_assoc, List.length_append]
      have hsplit : (data_lines (data.drop 52) ++ NEWLINE :: rest).length +
          (data_line (data.take 52)).length ≤ size := by
        rw [List.length_append] at hsize
        omega
      -- the line as it ends in its newline
      have hbody : NEWLINE ∉ length_letter (data.take 52).length ::
          base85.encode_85 (data.take 52) := by
        obtain ⟨-, hne⟩ := byte_length_letter ⟨(data.take 52).length, by omega⟩
          (by dsimp only; omega)
        rw [List.mem_cons, not_or]
        exact ⟨fun hc => hne hc.symm, newline_not_mem_encode_85 _⟩
      have hlen : linelen (data_line (data.take 52) ++
          (data_lines (data.drop 52) ++ NEWLINE :: rest)) size =
          some (data_line (data.take 52)).length := by
        have := linelen_line _ (data_lines (data.drop 52) ++ NEWLINE :: rest) hbody size
          (by simpa [data_line] using hsize)
        simpa [data_line] using this
      have hint : to_int (data_line (data.take 52)).length = (data_line (data.take 52)).length :=
        to_int_of_small (by omega) (by omega)
      have hdata := parse_data_line_data_line (data.take 52)
        (data_lines (data.drop 52) ++ NEWLINE :: rest) (by omega) (by omega)
      rw [next_line_some hlen, hint, to_int_of_small (by omega) (by omega), parse_line,
        if_neg (by omega), hdata]
      dsimp only
      rw [if_neg (by omega), Int.toNat_natCast, List.drop_left, ← Nat.cast_add]
      dsimp only
      rw [ih (n - 52) (by omega) (data.drop 52) hdrop fuel rest (before ++ data.take 52) _ _
          (by omega) (by omega) (by omega) (by rw [List.length_append, htake]; omega),
        List.append_assoc, List.take_append_drop, Nat.sub_sub, ← Nat.add_assoc,
        ← Nat.add_assoc]

/-! ## A hunk -/

theorem length_hunk_text (method : patch_method) (n : Nat) (data : Bytes) :
    (hunk_text method n data).length =
      (method_word method ++ decimal n).length + 1 + ((data_lines data).length + 1) := by
  rw [hunk_text]
  simp only [List.length_append, List.length_singleton]

/-- A method word is recognised, and what follows it is read. -/
theorem parse_binary_hunk_word (inflate : Bytes → Option Bytes) (method : patch_method)
    (tail : Bytes) (size len : Nat)
    (h : linelen (method_word method ++ tail) size = some len) :
    parse_binary_hunk inflate (method_word method ++ tail) size =
      parse_method inflate method (method_word method).length (method_word method ++ tail) size
        (to_int len) := by
  rw [parse_binary_hunk, h]
  dsimp only
  generalize to_int len = llen
  cases method with
  | BINARY_DELTA_DEFLATED =>
    have hd : starts_with (delta_word ++ tail) delta_word = some true :=
      (starts_with_true _ _).mpr (List.prefix_append _ _)
    have hk : delta_word.length = 6 := rfl
    rw [method_word, hd, hk]
  | BINARY_LITERAL_DEFLATED =>
    have hd : starts_with (literal_word ++ tail) delta_word = some false := rfl
    have hl : starts_with (literal_word ++ tail) literal_word = some true :=
      (starts_with_true _ _).mpr (List.prefix_append _ _)
    have hk : literal_word.length = 8 := rfl
    rw [method_word, hd]
    dsimp only
    rw [hl, hk]

/-- A hunk is read as it was written, and all of it is used. The size that is
left is more than what is there, by the first line. -/
theorem parse_binary_hunk_text (inflate : Bytes → Option Bytes) (method : patch_method)
    (n : Nat) (data out rest : Bytes) (size : Nat) (hn : n < 2 ^ 64)
    (hinflate : inflate data = some out) (hout : out.length = n)
    (hsize : (hunk_text method n data ++ rest).length ≤ size)
    (hlen : (hunk_text method n data).length < 2 ^ 31) :
    ∃ size', rest.length ≤ size' ∧
      parse_binary_hunk inflate (hunk_text method n data ++ rest) size =
        .hunk ⟨method, out, n⟩ rest size' ((hunk_text method n data).length : Int) := by
  have hlength := length_hunk_text method n data
  have hwritten : hunk_text method n data ++ rest =
      (method_word method ++ decimal n) ++ NEWLINE :: (data_lines data ++ NEWLINE :: rest) := by
    rw [hunk_text]
    simp
  have hnl : NEWLINE ∉ method_word method ++ decimal n := by
    rw [List.mem_append, not_or]
    exact ⟨newline_not_mem_method_word method, newline_not_mem_decimal n⟩
  rw [hwritten] at hsize ⊢
  have hfirst := linelen_line _ _ hnl size hsize
  have hlines := length_data_lines data
  have hint : to_int ((method_word method ++ decimal n).length + 1 : Nat) =
      ((method_word method ++ decimal n).length + 1 : Nat) :=
    to_int_of_small (by omega) (by omega)
  rw [List.append_assoc] at hfirst ⊢
  rw [parse_binary_hunk_word inflate method _ size _ hfirst, hint, parse_method, List.drop_left,
    strtoul_decimal n hn NEWLINE (by decide)]
  have hsize' : ((method_word method ++ decimal n).length + 1) +
      (data_lines data ++ NEWLINE :: rest).length ≤ size := by
    rw [List.length_append, List.length_cons] at hsize
    omega
  have hdrop : (method_word method ++ (decimal n ++ NEWLINE ::
      (data_lines data ++ NEWLINE :: rest))).drop ((method_word method ++ decimal n).length + 1) =
      data_lines data ++ NEWLINE :: rest := by
    rw [← List.append_assoc, List.drop_append, List.drop_of_length_le (by omega),
      List.nil_append, Nat.add_sub_cancel_left]
    rfl
  have hread := parse_lines_data_lines data
    ((method_word method ++ (decimal n ++ NEWLINE ::
      (data_lines data ++ NEWLINE :: rest))).length + 1) rest [] size
    ((method_word method ++ decimal n).length + 1)
    (by simp only [List.length_append, List.length_cons]; omega) (by omega) (by omega)
    (by rw [List.length_nil]; omega)
  dsimp only
  rw [if_neg (by omega), Int.toNat_natCast, hdrop, hread, List.nil_append]
  dsimp only
  rw [inflate_it, hinflate]
  dsimp only
  rw [if_pos hout]
  refine ⟨size - ((data_lines data).length + 1), ?_, ?_⟩
  · simp only [List.length_append, List.length_cons] at hsize'
    omega
  · dsimp only
    rw [show (method_word method ++ decimal n).length + 1 + (data_lines data).length + 1 =
      (hunk_text method n data).length by omega]

/-! ## Both hunks -/

/-- Two hunks, one after the other, each with the size of what it holds. -/
theorem parse_binary_texts (inflate : Bytes → Option Bytes) (deflate_it : Bytes → Bytes)
    (hinflate : ∀ x, inflate (deflate_it x) = some x) (m m' : patch_method) (c c' rest : Bytes)
    (hc : c.length < 2 ^ 64) (hc' : c'.length < 2 ^ 64) (size : Nat)
    (hsize : (hunk_text m c.length (deflate_it c) ++
      (hunk_text m' c'.length (deflate_it c') ++ rest)).length ≤ size)
    (hlen : (hunk_text m c.length (deflate_it c) ++
      hunk_text m' c'.length (deflate_it c')).length < 2 ^ 31) :
    parse_binary inflate (hunk_text m c.length (deflate_it c) ++
        (hunk_text m' c'.length (deflate_it c') ++ rest)) size =
      .parsed ⟨m, c, c.length⟩ (some ⟨m', c', c'.length⟩)
        ((hunk_text m c.length (deflate_it c) ++
          hunk_text m' c'.length (deflate_it c')).length : Int) := by
  rw [List.length_append] at hlen
  obtain ⟨size', hs, hforward⟩ := parse_binary_hunk_text inflate m c.length (deflate_it c) c
    (hunk_text m' c'.length (deflate_it c') ++ rest) size hc (hinflate c) rfl hsize (by omega)
  obtain ⟨size'', -, hreverse⟩ := parse_binary_hunk_text inflate m' c'.length (deflate_it c') c'
    rest size' hc' (hinflate c') rfl hs (by omega)
  rw [parse_binary, hforward]
  dsimp only
  rw [hreverse]
  dsimp only
  rw [← Nat.cast_add, to_int_of_small (by omega) (by omega), List.length_append]

/-! ## What is written -/

/-- The method and what is deflated: the other content, or a delta to it. -/
def body_content (deflate_it : Bytes → Bytes) (one two : Bytes) : Option (patch_method × Bytes) :=
  match (if one ≠ [] ∧ two ≠ [] then delta.diff_delta one two (deflate_it two).length
      else .null) with
  | .overrun => none
  | .null => some (BINARY_LITERAL_DEFLATED, two)
  | .gives delta =>
    if (deflate_it delta).length < (deflate_it two).length then
      some (BINARY_DELTA_DEFLATED, delta)
    else some (BINARY_LITERAL_DEFLATED, two)

theorem emit_binary_diff_body_eq (deflate_it : Bytes → Bytes) (one two : Bytes) :
    emit_binary_diff_body deflate_it one two = (body_content deflate_it one two).map
      fun p => hunk_text p.1 p.2.length (deflate_it p.2) := by
  rw [emit_binary_diff_body, body_content]
  generalize (if one ≠ [] ∧ two ≠ [] then delta.diff_delta one two (deflate_it two).length
    else .null) = made
  cases made with
  | null => rfl
  | overrun => rfl
  | gives d =>
    dsimp only
    split <;> rfl

/-- Between two contents that are not empty no delta is written past its
buffer, and one that is written is for contents that fit its header. -/
def DeltaSuits (deflate_it : Bytes → Bytes) (one two : Bytes) : Prop :=
  one ≠ [] → two ≠ [] →
    delta.diff_delta one two (deflate_it two).length ≠ .overrun ∧
      ∀ d, delta.diff_delta one two (deflate_it two).length = .gives d →
        (deflate_it d).length < (deflate_it two).length →
          one.length < 2 ^ 32 ∧ two.length < 2 ^ 32

/-- What a hunk does to the content that it was made from. -/
def Leads (one two : Bytes) (p : patch_method × Bytes) : Prop :=
  match p.1 with
  | BINARY_DELTA_DEFLATED => delta.patch_delta one p.2 = .gives two
  | BINARY_LITERAL_DEFLATED => p.2 = two

/-- A direction is written and leads to the other content just when it suits. -/
theorem body_content_leads (deflate_it : Bytes → Bytes) (one two : Bytes) :
    (∃ p, body_content deflate_it one two = some p ∧ Leads one two p) ↔
      DeltaSuits deflate_it one two := by
  rw [body_content, DeltaSuits]
  by_cases hne : one ≠ [] ∧ two ≠ []
  · rw [if_pos hne]
    cases hd : delta.diff_delta one two (deflate_it two).length with
    | null => simp [Leads]
    | overrun => simp [hne.1, hne.2]
    | gives d =>
      dsimp only
      by_cases hless : (deflate_it d).length < (deflate_it two).length
      · rw [if_pos hless]
        constructor
        · rintro ⟨p, hp, hleads⟩ - -
          cases hp
          refine ⟨by simp, fun d' hd' _ => ?_⟩
          cases hd'
          exact delta.sizes_of_recreated hd hleads
        · intro h
          obtain ⟨hs, ht⟩ := (h hne.1 hne.2).2 d rfl hless
          exact ⟨_, rfl, delta.diff_delta_recreates hs ht hne.2 hd⟩
      · rw [if_neg hless]
        refine ⟨fun _ _ _ => ⟨by simp, fun d' hd' hl => ?_⟩, fun _ => ⟨_, rfl, rfl⟩⟩
        cases hd'
        exact absurd hl hless
  · rw [if_neg hne]
    refine ⟨fun _ h1 h2 => absurd ⟨h1, h2⟩ hne, fun _ => ⟨_, rfl, rfl⟩⟩

theorem length_of_body_content {deflate_it : Bytes → Bytes} {one two : Bytes}
    {p : patch_method × Bytes} (h : body_content deflate_it one two = some p)
    (htwo : two.length < 2 ^ 64) : p.2.length < 2 ^ 64 := by
  rw [body_content] at h
  by_cases hne : one ≠ [] ∧ two ≠ []
  · rw [if_pos hne] at h
    cases hd : delta.diff_delta one two (deflate_it two).length with
    | null =>
      rw [hd] at h
      cases h
      exact htwo
    | overrun =>
      rw [hd] at h
      cases h
    | gives d =>
      rw [hd] at h
      dsimp only at h
      split at h
      · cases h
        exact delta.length_of_diff_delta hd
      · cases h
        exact htwo
  · rw [if_neg hne] at h
    cases h
    exact htwo

theorem apply_leads (apply_in_reverse : Bool) (img result : Bytes) (fwd rev p : patch_method × Bytes)
    (hp : (if apply_in_reverse then rev else fwd) = p) :
    apply_binary_fragment apply_in_reverse img ⟨fwd.1, fwd.2, fwd.2.length⟩
        (some ⟨rev.1, rev.2, rev.2.length⟩) = .gives result ↔ Leads img result p := by
  have hone : (if apply_in_reverse then some ⟨rev.1, rev.2, rev.2.length⟩
      else some ⟨fwd.1, fwd.2, fwd.2.length⟩ : Option fragment) =
      some ⟨p.1, p.2, p.2.length⟩ := by
    rw [← hp]
    split <;> rfl
  rw [apply_binary_fragment, hone, Leads]
  dsimp only
  cases p.1 with
  | BINARY_DELTA_DEFLATED =>
    dsimp only
    rw [List.take_length]
  | BINARY_LITERAL_DEFLATED =>
    dsimp only
    rw [List.take_length]
    exact ⟨fun h => by cases h; rfl, fun h => by rw [h]⟩

/-! ## The round trip -/

/-- The text is read as two hunks and to its end, and the hunks lead from one
content to the other and back. -/
def RoundTrips (deflate_it : Bytes → Bytes) (inflate : Bytes → Option Bytes) (one two : Bytes) :
    Prop :=
  ∃ text, emit_binary_diff deflate_it one two = some text ∧
    ∃ forward reverse,
      parse_binary inflate text text.length = .parsed forward (some reverse) text.length ∧
        apply_binary_fragment false one forward (some reverse) = .gives two ∧
        apply_binary_fragment true two forward (some reverse) = .gives one

/-- Both directions suit, and the text is shorter than an `int` counts. -/
def Suits (deflate_it : Bytes → Bytes) (one two : Bytes) : Prop :=
  DeltaSuits deflate_it one two ∧ DeltaSuits deflate_it two one ∧
    ∀ text, emit_binary_diff deflate_it one two = some text → text.length < 2 ^ 31

theorem emit_binary_diff_some (deflate_it : Bytes → Bytes) (one two text : Bytes) :
    emit_binary_diff deflate_it one two = some text ↔
      ∃ p q, body_content deflate_it one two = some p ∧ body_content deflate_it two one = some q ∧
        text = hunk_text p.1 p.2.length (deflate_it p.2) ++
          hunk_text q.1 q.2.length (deflate_it q.2) := by
  rw [emit_binary_diff, emit_binary_diff_body_eq, emit_binary_diff_body_eq]
  cases body_content deflate_it one two with
  | none => simp
  | some p =>
    cases body_content deflate_it two one with
    | none => simp
    | some q => simp [eq_comm]

theorem parsed_used_lt {inflate : Bytes → Option Bytes} {buffer : Bytes} {size : Nat}
    {forward reverse : fragment} {used : Int}
    (h : parse_binary inflate buffer size = .parsed forward (some reverse) used) :
    used < 2 ^ 31 := by
  rw [parse_binary] at h
  cases hf : parse_binary_hunk inflate buffer size with
  | hunk frag buffer' size' used' =>
    rw [hf] at h
    dsimp only at h
    cases hr : parse_binary_hunk inflate buffer' size' with
    | hunk frag' buffer'' size'' used'' =>
      rw [hr] at h
      cases h
      exact to_int_lt _
    | _ =>
      rw [hr] at h
      cases h
  | _ =>
    rw [hf] at h
    cases h

theorem round_trips_iff (deflate_it : Bytes → Bytes) (inflate : Bytes → Option Bytes)
    (hinflate : ∀ x, inflate (deflate_it x) = some x) (one two : Bytes)
    (hone : one.length < 2 ^ 64) (htwo : two.length < 2 ^ 64) :
    RoundTrips deflate_it inflate one two ↔ Suits deflate_it one two := by
  have hparse : ∀ p q : patch_method × Bytes, body_content deflate_it one two = some p →
      body_content deflate_it two one = some q →
      (hunk_text p.1 p.2.length (deflate_it p.2) ++
        hunk_text q.1 q.2.length (deflate_it q.2)).length < 2 ^ 31 → _ := fun p q hp hq hlen =>
    parse_binary_texts inflate deflate_it hinflate p.1 q.1 p.2 q.2 []
      (length_of_body_content hp htwo) (length_of_body_content hq hone) _
      (by rw [List.append_nil]) hlen
  constructor
  · rintro ⟨text, hemit, forward, reverse, hread, hforward, hreverse⟩
    have hlen : text.length < 2 ^ 31 := by
      have := parsed_used_lt hread
      omega
    obtain ⟨p, q, hp, hq, rfl⟩ := (emit_binary_diff_some _ _ _ _).mp hemit
    have := hparse p q hp hq hlen
    rw [List.append_nil, hread] at this
    cases this
    refine ⟨(body_content_leads _ _ _).mp ⟨p, hp, ?_⟩, (body_content_leads _ _ _).mp ⟨q, hq, ?_⟩, ?_⟩
    · exact (apply_leads false one two p q p rfl).mp hforward
    · exact (apply_leads true two one p q q rfl).mp hreverse
    · intro text' htext'
      rw [hemit] at htext'
      cases htext'
      exact hlen
  · rintro ⟨hforward, hreverse, hlen⟩
    obtain ⟨p, hp, hpleads⟩ := (body_content_leads _ _ _).mpr hforward
    obtain ⟨q, hq, hqleads⟩ := (body_content_leads _ _ _).mpr hreverse
    have hemit := (emit_binary_diff_some deflate_it one two _).mpr ⟨p, q, hp, hq, rfl⟩
    have := hparse p q hp hq (hlen _ hemit)
    rw [List.append_nil] at this
    exact ⟨_, hemit, _, _, this, (apply_leads false one two p q p rfl).mpr hpleads,
      (apply_leads true two one p q q rfl).mpr hqleads⟩

/-- Patches round trip just when their deltas and their length suit, and no byte
past a hunk is read just when nothing in it is cut short. -/
theorem binary_patches_round_trip_and_stay_inside_iff (deflate_it : Bytes → Bytes)
    (inflate : Bytes → Option Bytes) (hinflate : ∀ x, inflate (deflate_it x) = some x) :
    (∀ one two : Bytes, one.length < 2 ^ 64 → two.length < 2 ^ 64 →
        (RoundTrips deflate_it inflate one two ↔ Suits deflate_it one two)) ∧
      ∀ data : Bytes, parse_binary_hunk inflate data data.length ≠ .outside ↔ EndsInside data :=
  ⟨fun one two hone htwo => round_trips_iff deflate_it inflate hinflate one two hone htwo,
    parse_binary_hunk_outside inflate⟩

/-! ## A stored stream

The stream that deflating at level 0 makes of less than 64KB: one stored block
and the checksum. -/

def adler32 (data : Bytes) : Nat :=
  let sums := data.foldl
    (fun s ch => ((s.1 + ch.toNat) % 65521, (s.2 + (s.1 + ch.toNat) % 65521) % 65521)) (1, 0)
  sums.2 * 65536 + sums.1

def stored (data : Bytes) : Bytes :=
  [0x78, 0x01, 1, UInt8.ofNat data.length, UInt8.ofNat (data.length / 256),
    255 - UInt8.ofNat data.length, 255 - UInt8.ofNat (data.length / 256)] ++ data ++
    big_endian.put 4 (adler32 data)

def unstored (stream : Bytes) : Option Bytes :=
  some ((stream.drop 7).take (stream.length - 11))

theorem unstored_stored (data : Bytes) : unstored (stored data) = some data := by
  have hlen : (stored data).length = data.length + 11 := by
    simp only [stored, List.length_append, List.length_cons, List.length_nil,
      big_endian.length_put]
    omega
  rw [unstored, hlen, stored, List.append_assoc, Nat.add_sub_cancel]
  exact congrArg some (List.take_left)

/-- A line is not much longer than its data. -/
theorem length_data_lines_le (data : Bytes) : (data_lines data).length ≤ 7 * data.length := by
  induction h : data.length using Nat.strong_induction_on generalizing data with
  | _ n ih =>
    by_cases h0 : data = []
    · rw [h0, data_lines_nil]
      exact Nat.zero_le _
    · have hpos := List.length_pos_of_ne_nil h0
      have hrest := ih (n - 52) (by omega) (data.drop 52) (by rw [List.length_drop, h])
      have htake : (data.take 52).length = min 52 n := by rw [List.length_take, h]
      rw [data_lines, if_neg h0, List.length_append, length_data_line, htake]
      omega

/-- A new file of one byte: both hunks are literal. -/
theorem a_new_file_round_trips :
    RoundTrips stored unstored [] [2] ∧
      parse_binary_hunk unstored [120] ([120] : Bytes).length ≠ .outside := by
  have h := binary_patches_round_trip_and_stay_inside_iff stored unstored unstored_stored
  refine ⟨(h.1 [] [2] (by simp) (by simp)).mpr ⟨fun hne => absurd rfl hne,
    fun _ hne => absurd rfl hne, ?_⟩, (h.2 [120]).mpr ?_⟩
  · intro text htext
    obtain ⟨p, q, hp, hq, rfl⟩ := (emit_binary_diff_some _ _ _ _).mp htext
    cases hp
    cases hq
    dsimp only
    have h1 := length_data_lines_le (stored [2])
    have h2 := length_data_lines_le (stored [])
    have hs1 : (stored [2]).length = 12 := rfl
    have hs2 : (stored []).length = 11 := rfl
    have hd1 : (decimal ([2] : Bytes).length).length = 1 := by
      rw [decimal]
      rfl
    have hd2 : (decimal ([] : Bytes).length).length = 1 := by
      rw [decimal]
      rfl
    rw [List.length_append, length_hunk_text, length_hunk_text, List.length_append,
      List.length_append, hd1, hd2]
    have hw : (method_word BINARY_LITERAL_DEFLATED).length = 8 := rfl
    rw [hw]
    omega
  · refine ⟨?_, ?_, ?_, ?_⟩
    · rintro ⟨h0, -⟩
      exact absurd h0 (by decide)
    · rintro ⟨h0, -⟩
      exact absurd h0 (by decide)
    · intro h0
      exact absurd h0 (by decide)
    · intro h0
      exact absurd h0 (by decide)

/-- `"literal 0\n"` and nothing more: the line after it is looked for. -/
theorem a_truncated_hunk_is_read_past_its_end :
    ¬ ((∀ one two : Bytes, one.length < 2 ^ 64 → two.length < 2 ^ 64 →
        RoundTrips stored unstored one two) ∧
      ∀ data : Bytes, parse_binary_hunk unstored data data.length ≠ .outside) := by
  rintro ⟨-, h⟩
  exact h (literal_word ++ [48, NEWLINE]) rfl

end git.binary_patch
