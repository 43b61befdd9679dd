-- The check for UTF-8 of `utf8.c`: a text is accepted where it is a concatenation of the
-- encodings of characters, U+FFFE and U+FFFF left out.
import Mathlib

namespace git.utf8

/-! ## The source -/

/-- What `pick_one_utf8_char` leaves behind: the character, `*start` and `*remainder_p`. -/
structure picked where
  ch : Nat
  start : List UInt8
  remainder_p : Option Nat

/-- `pick_one_utf8_char`. The memory holds the bytes from `*start` on; there is no value
where a byte behind it is read, and `some none` is the jump to `invalid`. -/
def pick_one_utf8_char (s : List UInt8) (remainder_p : Option Nat) : Option (Option picked) := do
  let remainder := remainder_p.getD 999
  let pick (ch incr : Nat) : Option picked := some ⟨ch, s.drop incr, remainder_p.map (· - incr)⟩
  if remainder < 1 then return none
  let s0 ← s[0]?
  if s0 < 0x80 then return pick s0.toNat 1
  else if s0 &&& 0xe0 = 0xc0 then
    if remainder < 2 then return none
    let s1 ← s[1]?
    if s1 &&& 0xc0 ≠ 0x80 then return none
    if s0 &&& 0xfe = 0xc0 then return none
    return pick ((s0.toNat &&& 0x1f) <<< 6 ||| (s1.toNat &&& 0x3f)) 2
  else if s0 &&& 0xf0 = 0xe0 then
    if remainder < 3 then return none
    let s1 ← s[1]?
    if s1 &&& 0xc0 ≠ 0x80 then return none
    let s2 ← s[2]?
    if s2 &&& 0xc0 ≠ 0x80 then return none
    -- overlong?
    if s0 = 0xe0 ∧ s1 &&& 0xe0 = 0x80 then return none
    -- surrogate?
    if s0 = 0xed ∧ s1 &&& 0xe0 = 0xa0 then return none
    -- U+FFFE or U+FFFF?
    if s0 = 0xef ∧ s1 = 0xbf ∧ s2 &&& 0xfe = 0xbe then return none
    return pick ((s0.toNat &&& 0x0f) <<< 12 ||| (s1.toNat &&& 0x3f) <<< 6 ||| (s2.toNat &&& 0x3f)) 3
  else if s0 &&& 0xf8 = 0xf0 then
    if remainder < 4 then return none
    let s1 ← s[1]?
    if s1 &&& 0xc0 ≠ 0x80 then return none
    let s2 ← s[2]?
    if s2 &&& 0xc0 ≠ 0x80 then return none
    let s3 ← s[3]?
    if s3 &&& 0xc0 ≠ 0x80 then return none
    -- overlong?
    if s0 = 0xf0 ∧ s1 &&& 0xf0 = 0x80 then return none
    -- > U+10FFFF?
    if s0 = 0xf4 ∧ s1 > 0x8f ∨ s0 > 0xf4 then return none
    return pick ((s0.toNat &&& 0x07) <<< 18 ||| (s1.toNat &&& 0x3f) <<< 12 |||
      (s2.toNat &&& 0x3f) <<< 6 ||| (s3.toNat &&& 0x3f)) 4
  else return none

/-! ## The tests of the source, as bounds -/

/-- The tests of the source on one byte, checked on the 256 values. -/
theorem bounds : ∀ n : Fin 256, let b := UInt8.ofFin n
    (b &&& 0xe0 = 0xc0 ↔ 0xc0 ≤ b.toNat ∧ b.toNat < 0xe0) ∧
    (b &&& 0xf0 = 0xe0 ↔ 0xe0 ≤ b.toNat ∧ b.toNat < 0xf0) ∧
    (b &&& 0xf8 = 0xf0 ↔ 0xf0 ≤ b.toNat ∧ b.toNat < 0xf8) ∧
    (b &&& 0xc0 = 0x80 ↔ 0x80 ≤ b.toNat ∧ b.toNat < 0xc0) ∧
    (b &&& 0xfe = 0xc0 ↔ 0xc0 ≤ b.toNat ∧ b.toNat < 0xc2) ∧
    (b &&& 0xe0 = 0x80 ↔ 0x80 ≤ b.toNat ∧ b.toNat < 0xa0) ∧
    (b &&& 0xf0 = 0x80 ↔ 0x80 ≤ b.toNat ∧ b.toNat < 0x90) ∧
    (b &&& 0xe0 = 0xa0 ↔ 0xa0 ≤ b.toNat ∧ b.toNat < 0xc0) ∧
    (b &&& 0xfe = 0xbe ↔ 0xbe ≤ b.toNat ∧ b.toNat < 0xc0) := by decide +kernel

theorem one_byte (b : UInt8) : b < 0x80 ↔ b.toNat < 0x80 := UInt8.lt_iff_toNat_lt

@[simp] theorem two_bytes (b : UInt8) : b &&& 0xe0 = 0xc0 ↔ 0xc0 ≤ b.toNat ∧ b.toNat < 0xe0 :=
  (bounds b.toFin).1

@[simp] theorem three_bytes (b : UInt8) : b &&& 0xf0 = 0xe0 ↔ 0xe0 ≤ b.toNat ∧ b.toNat < 0xf0 :=
  (bounds b.toFin).2.1

@[simp] theorem four_bytes (b : UInt8) : b &&& 0xf8 = 0xf0 ↔ 0xf0 ≤ b.toNat ∧ b.toNat < 0xf8 :=
  (bounds b.toFin).2.2.1

@[simp] theorem follows (b : UInt8) : b &&& 0xc0 = 0x80 ↔ 0x80 ≤ b.toNat ∧ b.toNat < 0xc0 :=
  (bounds b.toFin).2.2.2.1

@[simp] theorem overlong_two (b : UInt8) : b &&& 0xfe = 0xc0 ↔ 0xc0 ≤ b.toNat ∧ b.toNat < 0xc2 :=
  (bounds b.toFin).2.2.2.2.1

@[simp] theorem overlong_three (b : UInt8) : b &&& 0xe0 = 0x80 ↔ 0x80 ≤ b.toNat ∧ b.toNat < 0xa0 :=
  (bounds b.toFin).2.2.2.2.2.1

@[simp] theorem overlong_four (b : UInt8) : b &&& 0xf0 = 0x80 ↔ 0x80 ≤ b.toNat ∧ b.toNat < 0x90 :=
  (bounds b.toFin).2.2.2.2.2.2.1

@[simp] theorem surrogate (b : UInt8) : b &&& 0xe0 = 0xa0 ↔ 0xa0 ≤ b.toNat ∧ b.toNat < 0xc0 :=
  (bounds b.toFin).2.2.2.2.2.2.2.1

@[simp] theorem last_two (b : UInt8) : b &&& 0xfe = 0xbe ↔ 0xbe ≤ b.toNat ∧ b.toNat < 0xc0 :=
  (bounds b.toFin).2.2.2.2.2.2.2.2

theorem same_byte {n : Nat} {b : UInt8} (h : n = b.toNat) : UInt8.ofNat n = b := by
  rw [h, UInt8.ofNat_toNat]

theorem eq_iff_toNat (a b : UInt8) : a = b ↔ a.toNat = b.toNat := UInt8.toNat_inj.symm

/-- Six more bits at the end. -/
theorem six_more (a b : Nat) (hb : b < 64) : a <<< 6 ||| b = a * 64 + b := by
  rw [← Nat.shiftLeft_add_eq_or_of_lt (i := 6) hb, Nat.shiftLeft_eq]

@[simp] theorem ch_two (a b : Nat) :
    (a &&& 0x1f) <<< 6 ||| (b &&& 0x3f) = a % 32 * 64 + b % 64 := by
  rw [Nat.and_two_pow_sub_one_eq_mod a 5, Nat.and_two_pow_sub_one_eq_mod b 6,
    six_more _ _ (Nat.mod_lt _ (by decide))]

@[simp] theorem ch_three (a b c : Nat) :
    (a &&& 0x0f) <<< 12 ||| (b &&& 0x3f) <<< 6 ||| (c &&& 0x3f) =
      (a % 16 * 64 + b % 64) * 64 + c % 64 := by
  rw [Nat.and_two_pow_sub_one_eq_mod a 4, Nat.and_two_pow_sub_one_eq_mod b 6,
    Nat.and_two_pow_sub_one_eq_mod c 6, Nat.shiftLeft_add _ 6 6, ← Nat.shiftLeft_or_distrib,
    six_more _ _ (Nat.mod_lt _ (by decide)), six_more _ _ (Nat.mod_lt _ (by decide))]

@[simp] theorem ch_four (a b c d : Nat) :
    (a &&& 0x07) <<< 18 ||| (b &&& 0x3f) <<< 12 ||| (c &&& 0x3f) <<< 6 ||| (d &&& 0x3f) =
      ((a % 8 * 64 + b % 64) * 64 + c % 64) * 64 + d % 64 := by
  rw [Nat.and_two_pow_sub_one_eq_mod a 3, Nat.and_two_pow_sub_one_eq_mod b 6,
    Nat.and_two_pow_sub_one_eq_mod c 6, Nat.and_two_pow_sub_one_eq_mod d 6,
    Nat.shiftLeft_add _ 12 6, Nat.shiftLeft_add _ 6 6, Nat.shiftLeft_add _ 6 6,
    ← Nat.shiftLeft_or_distrib, ← Nat.shiftLeft_or_distrib,
    six_more _ _ (Nat.mod_lt _ (by decide)), ← Nat.shiftLeft_or_distrib,
    six_more _ _ (Nat.mod_lt _ (by decide)), six_more _ _ (Nat.mod_lt _ (by decide))]

/-! ## Characters -/

/-- The code points that the source leaves out besides the surrogates. -/
def Excluded (c : Char) : Prop := c.toNat = 0xFFFE ∨ c.toNat = 0xFFFF

theorem encode_cases (c : Char) :
    (c.toNat < 0x80 ∧ String.utf8EncodeChar c = [UInt8.ofNat c.toNat]) ∨
    (0x80 ≤ c.toNat ∧ c.toNat < 0x800 ∧ String.utf8EncodeChar c =
      [UInt8.ofNat (c.toNat / 64 % 32 + 0xc0), UInt8.ofNat (c.toNat % 64 + 0x80)]) ∨
    (0x800 ≤ c.toNat ∧ c.toNat < 0x10000 ∧ String.utf8EncodeChar c =
      [UInt8.ofNat (c.toNat / 4096 % 16 + 0xe0), UInt8.ofNat (c.toNat / 64 % 64 + 0x80),
        UInt8.ofNat (c.toNat % 64 + 0x80)]) ∨
    (0x10000 ≤ c.toNat ∧ String.utf8EncodeChar c =
      [UInt8.ofNat (c.toNat / 262144 % 8 + 0xf0), UInt8.ofNat (c.toNat / 4096 % 64 + 0x80),
        UInt8.ofNat (c.toNat / 64 % 64 + 0x80), UInt8.ofNat (c.toNat % 64 + 0x80)]) := by
  unfold String.utf8EncodeChar
  simp only [Char.toNat_val]
  split_ifs with h1 h2 h3
  · exact Or.inl ⟨by omega, rfl⟩
  · exact Or.inr (Or.inl ⟨by omega, by omega, rfl⟩)
  · exact Or.inr (Or.inr (Or.inl ⟨by omega, by omega, rfl⟩))
  · exact Or.inr (Or.inr (Or.inr ⟨by omega, rfl⟩))

theorem char_bounds (c : Char) : c.toNat < 0xd800 ∨ 0xdfff < c.toNat ∧ c.toNat < 0x110000 := c.valid

theorem go_on {c : Prop} [Decidable c] {x y : Option (Option picked)} (hc : ¬ c) (h : x = y) :
    (if c then some none else x) = y := by
  rw [if_neg hc, h]

theorem read {o : Option UInt8} {b : UInt8} {f : UInt8 → Option (Option picked)}
    {y : Option (Option picked)} (ho : o = some b) (h : f b = y) : o.bind f = y := by
  rw [ho, Option.bind_some, h]

theorem exists_byte {n : Nat} (hn : n < 256) : ∃ b, UInt8.ofNat n = b ∧ b.toNat = n :=
  ⟨_, rfl, UInt8.toNat_ofNat'.trans (Nat.mod_eq_of_lt hn)⟩

/-- A character that is not left out is picked, where the remaining length lets it. -/
theorem pick_encoded {c : Char} (hc : ¬ Excluded c) (rest : List UInt8) {remainder_p : Option Nat}
    (hr : (String.utf8EncodeChar c).length ≤ remainder_p.getD 999) :
    pick_one_utf8_char (String.utf8EncodeChar c ++ rest) remainder_p =
      some (some ⟨c.toNat, rest, remainder_p.map (· - (String.utf8EncodeChar c).length)⟩) := by
  have hb := char_bounds c
  unfold Excluded at hc
  unfold pick_one_utf8_char
  rcases encode_cases c with ⟨hv, he⟩ | ⟨hv, hv', he⟩ | ⟨hv, hv', he⟩ | ⟨hv, he⟩ <;>
    rw [he] at hr ⊢ <;> simp only [List.length_cons, List.length_nil] at hr
  · obtain ⟨s0, e0, h0⟩ := exists_byte (n := c.toNat) (by omega)
    rw [e0]
    refine go_on (by omega) (read rfl ?_)
    refine (if_pos (by rw [one_byte]; omega)).trans ?_
    rw [h0]
    rfl
  · obtain ⟨s0, e0, h0⟩ := exists_byte (n := c.toNat / 64 % 32 + 0xc0) (by omega)
    obtain ⟨s1, e1, h1⟩ := exists_byte (n := c.toNat % 64 + 0x80) (by omega)
    rw [e0, e1]
    refine go_on (by omega) (read rfl ?_)
    refine (if_neg (by rw [one_byte]; omega)).trans ((if_pos (by rw [two_bytes]; omega)).trans ?_)
    refine go_on (by omega) (read rfl (go_on (by rw [ne_eq, follows]; omega) ?_))
    refine go_on (by rw [overlong_two]; omega) ?_
    rw [ch_two, show s0.toNat % 32 * 64 + s1.toNat % 64 = c.toNat by omega]
    rfl
  · obtain ⟨s0, e0, h0⟩ := exists_byte (n := c.toNat / 4096 % 16 + 0xe0) (by omega)
    obtain ⟨s1, e1, h1⟩ := exists_byte (n := c.toNat / 64 % 64 + 0x80) (by omega)
    obtain ⟨s2, e2, h2⟩ := exists_byte (n := c.toNat % 64 + 0x80) (by omega)
    rw [e0, e1, e2]
    refine go_on (by omega) (read rfl ?_)
    refine (if_neg (by rw [one_byte]; omega)).trans ((if_neg (by rw [two_bytes]; omega)).trans ?_)
    refine (if_pos (by rw [three_bytes]; omega)).trans (go_on (by omega) ?_)
    refine read rfl (go_on (by rw [ne_eq, follows]; omega) ?_)
    refine read rfl (go_on (by rw [ne_eq, follows]; omega) ?_)
    refine go_on (by rw [overlong_three]; simp only [eq_iff_toNat, UInt8.reduceToNat]; omega) ?_
    refine go_on (by rw [surrogate]; simp only [eq_iff_toNat, UInt8.reduceToNat]; omega) ?_
    refine go_on (by rw [last_two]; simp only [eq_iff_toNat, UInt8.reduceToNat]; omega) ?_
    rw [ch_three, show (s0.toNat % 16 * 64 + s1.toNat % 64) * 64 + s2.toNat % 64 = c.toNat by omega]
    rfl
  · obtain ⟨s0, e0, h0⟩ := exists_byte (n := c.toNat / 262144 % 8 + 0xf0) (by omega)
    obtain ⟨s1, e1, h1⟩ := exists_byte (n := c.toNat / 4096 % 64 + 0x80) (by omega)
    obtain ⟨s2, e2, h2⟩ := exists_byte (n := c.toNat / 64 % 64 + 0x80) (by omega)
    obtain ⟨s3, e3, h3⟩ := exists_byte (n := c.toNat % 64 + 0x80) (by omega)
    rw [e0, e1, e2, e3]
    refine go_on (by omega) (read rfl ?_)
    refine (if_neg (by rw [one_byte]; omega)).trans ((if_neg (by rw [two_bytes]; omega)).trans ?_)
    refine (if_neg (by rw [three_bytes]; omega)).trans ((if_pos (by rw [four_bytes]; omega)).trans ?_)
    refine go_on (by omega) (read rfl (go_on (by rw [ne_eq, follows]; omega) ?_))
    refine read rfl (go_on (by rw [ne_eq, follows]; omega) ?_)
    refine read rfl (go_on (by rw [ne_eq, follows]; omega) ?_)
    refine go_on (by rw [overlong_four]; simp only [eq_iff_toNat, UInt8.reduceToNat]; omega) ?_
    refine go_on (by simp only [eq_iff_toNat, gt_iff_lt, UInt8.lt_iff_toNat_lt,
      UInt8.reduceToNat]; omega) ?_
    rw [ch_four, show ((s0.toNat % 8 * 64 + s1.toNat % 64) * 64 + s2.toNat % 64) * 64 +
      s3.toNat % 64 = c.toNat by omega]
    rfl

theorem exists_char {v : Nat} (hv : v.isValidChar) (h1 : v ≠ 0xFFFE) (h2 : v ≠ 0xFFFF) :
    ∃ c : Char, ¬ Excluded c ∧ c.toNat = v := by
  have hc : (Char.ofNatAux v hv).toNat = v := rfl
  exact ⟨Char.ofNatAux v hv, by rw [Excluded, hc]; omega, hc⟩

theorem drop_eq_cons {s : List UInt8} {i : Nat} {b : UInt8} (h : s[i]? = some b) :
    s.drop i = b :: s.drop (i + 1) := by
  obtain ⟨hi, hb⟩ := List.getElem?_eq_some_iff.mp h
  rw [List.drop_eq_getElem_cons hi, hb]

theorem not_invalid {c : Prop} [Decidable c] {x : Option (Option picked)} {p : picked}
    (h : (if c then some none else x) = some (some p)) : ¬ c ∧ x = some (some p) := by
  split at h
  · cases h
  · next hc => exact ⟨hc, h⟩

/-- Only characters are picked. -/
theorem pick_some {s : List UInt8} {remainder_p : Option Nat} {p : picked}
    (h : pick_one_utf8_char s remainder_p = some (some p)) :
    ∃ c : Char, ¬ Excluded c ∧ s = String.utf8EncodeChar c ++ p.start := by
  unfold pick_one_utf8_char at h
  obtain ⟨_, h⟩ := not_invalid h
  obtain ⟨s0, hs0, h⟩ := Option.bind_eq_some_iff.mp h
  have hs := drop_eq_cons hs0
  rw [List.drop_zero] at hs
  rcases ite_eq_iff.mp h with ⟨h0, h⟩ | ⟨_, h⟩
  · obtain rfl : _ = p := Option.some.inj (Option.some.inj h)
    rw [one_byte] at h0
    obtain ⟨c, hc, hv⟩ := exists_char (v := s0.toNat) (Or.inl (by omega)) (by omega) (by omega)
    refine ⟨c, hc, ?_⟩
    rcases encode_cases c with ⟨_, he⟩ | ⟨_, _, he⟩ | ⟨_, _, he⟩ | ⟨_, he⟩
    · rw [he, hv, UInt8.ofNat_toNat]
      exact hs
    all_goals omega
  rcases ite_eq_iff.mp h with ⟨h0, h⟩ | ⟨_, h⟩
  · obtain ⟨_, h⟩ := not_invalid h
    obtain ⟨s1, hs1, h⟩ := Option.bind_eq_some_iff.mp h
    obtain ⟨h1, h⟩ := not_invalid h
    obtain ⟨hlong, h⟩ := not_invalid h
    obtain rfl : _ = p := Option.some.inj (Option.some.inj h)
    simp only [two_bytes, follows, overlong_two, not_not] at h0 h1 hlong
    obtain ⟨a0, e0⟩ := Nat.exists_eq_add_of_le h0.1
    obtain ⟨a1, e1⟩ := Nat.exists_eq_add_of_le h1.1
    rw [e0] at h0 hlong
    rw [e1] at h1
    obtain ⟨c, hc, hv⟩ := exists_char (v := a0 * 64 + a1) (Or.inl (by omega)) (by omega) (by omega)
    refine ⟨c, hc, ?_⟩
    rcases encode_cases c with ⟨_, _⟩ | ⟨_, _, he⟩ | ⟨_, _, _⟩ | ⟨_, _⟩
    · omega
    · rw [he, hs, drop_eq_cons hs1]
      rw [same_byte (b := s0) (by omega), same_byte (b := s1) (by omega)]
      rfl
    all_goals omega
  rcases ite_eq_iff.mp h with ⟨h0, h⟩ | ⟨_, h⟩
  · obtain ⟨_, h⟩ := not_invalid h
    obtain ⟨s1, hs1, h⟩ := Option.bind_eq_some_iff.mp h
    obtain ⟨h1, h⟩ := not_invalid h
    obtain ⟨s2, hs2, h⟩ := Option.bind_eq_some_iff.mp h
    obtain ⟨h2, h⟩ := not_invalid h
    obtain ⟨hlong, h⟩ := not_invalid h
    obtain ⟨hsurrogate, h⟩ := not_invalid h
    obtain ⟨hlast, h⟩ := not_invalid h
    obtain rfl : _ = p := Option.some.inj (Option.some.inj h)
    simp only [three_bytes, follows, not_not] at h0 h1 h2
    simp only [overlong_three, surrogate, last_two] at hlong hsurrogate hlast
    simp only [eq_iff_toNat, UInt8.reduceToNat] at hlong hsurrogate hlast
    obtain ⟨a0, e0⟩ := Nat.exists_eq_add_of_le h0.1
    obtain ⟨a1, e1⟩ := Nat.exists_eq_add_of_le h1.1
    obtain ⟨a2, e2⟩ := Nat.exists_eq_add_of_le h2.1
    rw [e0] at h0 hlong hsurrogate hlast
    rw [e1] at h1 hlong hsurrogate hlast
    rw [e2] at h2 hlast
    obtain ⟨c, hc, hv⟩ := exists_char (v := (a0 * 64 + a1) * 64 + a2)
      (by unfold Nat.isValidChar; omega) (by omega) (by omega)
    refine ⟨c, hc, ?_⟩
    rcases encode_cases c with ⟨_, _⟩ | ⟨_, _, _⟩ | ⟨_, _, he⟩ | ⟨_, _⟩
    · omega
    · omega
    · rw [he, hs, drop_eq_cons hs1, drop_eq_cons hs2]
      rw [same_byte (b := s0) (by omega), same_byte (b := s1) (by omega),
        same_byte (b := s2) (by omega)]
      rfl
    · omega
  rcases ite_eq_iff.mp h with ⟨h0, h⟩ | ⟨_, h⟩
  · obtain ⟨_, h⟩ := not_invalid h
    obtain ⟨s1, hs1, h⟩ := Option.bind_eq_some_iff.mp h
    obtain ⟨h1, h⟩ := not_invalid h
    obtain ⟨s2, hs2, h⟩ := Option.bind_eq_some_iff.mp h
    obtain ⟨h2, h⟩ := not_invalid h
    obtain ⟨s3, hs3, h⟩ := Option.bind_eq_some_iff.mp h
    obtain ⟨h3, h⟩ := not_invalid h
    obtain ⟨hlong, h⟩ := not_invalid h
    obtain ⟨hlast, h⟩ := not_invalid h
    obtain rfl : _ = p := Option.some.inj (Option.some.inj h)
    simp only [four_bytes, follows, overlong_four, not_not] at h0 h1 h2 h3 hlong
    simp only [eq_iff_toNat, gt_iff_lt, UInt8.lt_iff_toNat_lt, UInt8.reduceToNat] at hlong hlast
    obtain ⟨a0, e0⟩ := Nat.exists_eq_add_of_le h0.1
    obtain ⟨a1, e1⟩ := Nat.exists_eq_add_of_le h1.1
    obtain ⟨a2, e2⟩ := Nat.exists_eq_add_of_le h2.1
    obtain ⟨a3, e3⟩ := Nat.exists_eq_add_of_le h3.1
    rw [e0] at h0 hlong hlast
    rw [e1] at h1 hlong hlast
    rw [e2] at h2
    rw [e3] at h3
    obtain ⟨c, hc, hv⟩ := exists_char (v := ((a0 * 64 + a1) * 64 + a2) * 64 + a3)
      (by unfold Nat.isValidChar; omega) (by omega) (by omega)
    refine ⟨c, hc, ?_⟩
    rcases encode_cases c with ⟨_, _⟩ | ⟨_, _, _⟩ | ⟨_, _, _⟩ | ⟨_, he⟩
    · omega
    · omega
    · omega
    · rw [he, hs, drop_eq_cons hs1, drop_eq_cons hs2, drop_eq_cons hs3]
      rw [same_byte (b := s0) (by omega), same_byte (b := s1) (by omega),
        same_byte (b := s2) (by omega), same_byte (b := s3) (by omega)]
      rfl
  · cases h

/-! ## What is read -/

theorem invalid_or {c : Prop} [Decidable c] {x : Option (Option picked)}
    (h : ¬ c → ∃ r, x = some r) : ∃ r, (if c then some none else x) = some r := by
  split
  · exact ⟨none, rfl⟩
  · next hc => exact h hc

theorem read_then {o : Option UInt8} {f : UInt8 → Option (Option picked)} (ho : ∃ b, o = some b)
    (h : ∀ b, o = some b → ∃ r, f b = some r) : ∃ r, o.bind f = some r := by
  obtain ⟨b, rfl⟩ := ho
  exact h b rfl

/-- A byte is read only where the remaining length lets it and none before it is below 0x80. -/
theorem pick_reads {s : List UInt8} {remainder_p : Option Nat}
    (h : ∀ i < remainder_p.getD 999, (∀ j < i, ∃ b, s[j]? = some b ∧ 0x80 ≤ b.toNat) →
      ∃ b, s[i]? = some b) :
    ∃ r, pick_one_utf8_char s remainder_p = some r := by
  have hone : ∀ i, i + 1 < remainder_p.getD 999 →
      (∀ j < i, ∃ b, s[j]? = some b ∧ 0x80 ≤ b.toNat) → ∀ b, s[i]? = some b → 0x80 ≤ b.toNat →
      (∀ j < i + 1, ∃ b, s[j]? = some b ∧ 0x80 ≤ b.toNat) := by
    intro i _ hbefore b hb hhigh j hj
    rcases Nat.lt_succ_iff_lt_or_eq.mp hj with hj | rfl
    · exact hbefore j hj
    · exact ⟨b, hb, hhigh⟩
  have hnone : ∀ j < 0, ∃ b, s[j]? = some b ∧ 0x80 ≤ b.toNat := fun j hj => absurd hj (by omega)
  unfold pick_one_utf8_char
  refine invalid_or fun hr => read_then (h 0 (by omega) hnone) fun s0 hs0 => ?_
  by_cases h0 : s0 < 0x80
  · exact ⟨_, if_pos h0⟩
  rw [if_neg h0]
  rw [one_byte, Nat.not_lt] at h0
  by_cases htwo : s0 &&& 0xe0 = 0xc0
  · rw [if_pos htwo]
    refine invalid_or fun hr => ?_
    have b1 := hone 0 (by omega) hnone s0 hs0 h0
    refine read_then (h 1 (by omega) b1) fun s1 hs1 => invalid_or fun _ => invalid_or fun _ => ?_
    exact ⟨_, rfl⟩
  rw [if_neg htwo]
  by_cases hthree : s0 &&& 0xf0 = 0xe0
  · rw [if_pos hthree]
    refine invalid_or fun hr => ?_
    have b1 := hone 0 (by omega) hnone s0 hs0 h0
    refine read_then (h 1 (by omega) b1) fun s1 hs1 => invalid_or fun h1 => ?_
    have b2 := hone 1 (by omega) b1 s1 hs1 ((follows s1).mp (not_not.mp h1)).1
    refine read_then (h 2 (by omega) b2) fun s2 hs2 => invalid_or fun _ => ?_
    exact invalid_or fun _ => invalid_or fun _ => invalid_or fun _ => ⟨_, rfl⟩
  rw [if_neg hthree]
  by_cases hfour : s0 &&& 0xf8 = 0xf0
  · rw [if_pos hfour]
    refine invalid_or fun hr => ?_
    have b1 := hone 0 (by omega) hnone s0 hs0 h0
    refine read_then (h 1 (by omega) b1) fun s1 hs1 => invalid_or fun h1 => ?_
    have b2 := hone 1 (by omega) b1 s1 hs1 ((follows s1).mp (not_not.mp h1)).1
    refine read_then (h 2 (by omega) b2) fun s2 hs2 => invalid_or fun h2 => ?_
    have b3 := hone 2 (by omega) b2 s2 hs2 ((follows s2).mp (not_not.mp h2)).1
    refine read_then (h 3 (by omega) b3) fun s3 hs3 => invalid_or fun _ => ?_
    exact invalid_or fun _ => invalid_or fun _ => ⟨_, rfl⟩
  · exact ⟨none, if_neg hfour⟩

/-- A remaining length is never passed. -/
theorem pick_stays_in_remainder (s : List UInt8) :
    ∃ r, pick_one_utf8_char s (some s.length) = some r :=
  pick_reads fun i hi _ => ⟨s[i], List.getElem?_eq_getElem hi⟩

/-- The NUL is never passed. -/
theorem pick_stops_at_nul (text rest : List UInt8) (remainder_p : Option Nat) :
    ∃ r, pick_one_utf8_char (text ++ 0 :: rest) remainder_p = some r := by
  refine pick_reads fun i _ hbefore => ?_
  by_cases hi : i ≤ text.length
  · exact ⟨_, List.getElem?_eq_getElem (by rw [List.length_append, List.length_cons]; omega)⟩
  · obtain ⟨b, hb, hhigh⟩ := hbefore text.length (by omega)
    rw [List.getElem?_append_right (le_refl _), Nat.sub_self] at hb
    obtain rfl := Option.some.inj hb
    cases hhigh

/-! ## Whole texts -/

theorem encode_ne_nil (c : Char) : String.utf8EncodeChar c ≠ [] := by
  rcases encode_cases c with ⟨_, he⟩ | ⟨_, _, he⟩ | ⟨_, _, he⟩ | ⟨_, he⟩ <;> simp [he]

theorem length_start {s : List UInt8} {remainder_p : Option Nat} {p : picked}
    (h : pick_one_utf8_char s remainder_p = some (some p)) : p.start.length < s.length := by
  obtain ⟨c, _, rfl⟩ := pick_some h
  rw [List.length_append]
  exact Nat.lt_add_of_pos_left (List.length_pos_iff.mpr (encode_ne_nil c))

/-- `is_utf8`, on the memory from `text` on. -/
def is_utf8 (text : List UInt8) : Option Bool :=
  match text with
  | [] => none
  | c :: rest =>
    if c = 0 then some true
    else if c = 10 ∨ c = 9 ∨ c = 13 then is_utf8 rest
    else
      -- `utf8_width`, whose width is not used
      match _h : pick_one_utf8_char (c :: rest) none with
      | none => none
      | some none => some false
      | some (some p) => is_utf8 p.start
termination_by text.length
decreasing_by
  · exact Nat.lt_succ_self _
  · exact length_start _h

/-- The shortcut for the end of a line and the tab does what a pick does. -/
theorem is_utf8_cons {c : UInt8} (hc : c ≠ 0) (rest : List UInt8) :
    is_utf8 (c :: rest) = (pick_one_utf8_char (c :: rest) none).bind fun r =>
      r.elim (some false) fun p => is_utf8 p.start := by
  rw [is_utf8, if_neg hc]
  split_ifs with hplain
  · have hpick : pick_one_utf8_char (c :: rest) none = some (some ⟨c.toNat, rest, none⟩) := by
      rcases hplain with rfl | rfl | rfl <;> rfl
    rw [hpick]
    rfl
  · split <;> rename_i hpick <;> rw [hpick] <;> rfl

/-- A concatenation of the UTF-8 encodings of characters that are not left out. -/
def WellFormed (text : List UInt8) : Prop :=
  ∃ chars : List Char, (∀ c ∈ chars, ¬ Excluded c) ∧ text = chars.flatMap String.utf8EncodeChar

theorem zero_notMem_encode {c : Char} (hc : c.toNat ≠ 0) : 0 ∉ String.utf8EncodeChar c := by
  have hb := char_bounds c
  rcases encode_cases c with ⟨_, he⟩ | ⟨_, _, he⟩ | ⟨_, _, he⟩ | ⟨_, he⟩
  all_goals
    rw [he]
    simp only [List.mem_cons, List.not_mem_nil, or_false, eq_iff_toNat, UInt8.toNat_ofNat',
      UInt8.toNat_zero]
    omega

theorem encode_le (c : Char) :
    (String.utf8EncodeChar c).length ≤ (none : Option Nat).getD 999 :=
  (String.length_utf8EncodeChar c).trans_le (c.utf8Size_le_four.trans (by decide))

/-- What follows the first character is well formed where the whole is, and the other way. -/
theorem wellFormed_append {c : Char} (hc : ¬ Excluded c) (rest : List UInt8) :
    WellFormed (String.utf8EncodeChar c ++ rest) ↔ WellFormed rest := by
  constructor
  · rintro ⟨chars, hchars, heq⟩
    cases chars with
    | nil => exact absurd (List.append_eq_nil_iff.mp heq).1 (encode_ne_nil c)
    | cons d chars =>
      rw [List.flatMap_cons] at heq
      have hd := hchars d List.mem_cons_self
      have hpick := pick_encoded hc rest (encode_le c)
      rw [heq, pick_encoded hd _ (encode_le d)] at hpick
      have hrest := congrArg picked.start (Option.some.inj (Option.some.inj hpick))
      exact ⟨chars, fun e he => hchars e (List.mem_cons_of_mem d he), hrest.symm⟩
  · rintro ⟨chars, hchars, rfl⟩
    exact ⟨c :: chars, List.forall_mem_cons.mpr ⟨hc, hchars⟩, rfl⟩

/-- A well-formed text starts with a character. -/
theorem WellFormed.pick {text : List UInt8} (h : WellFormed text) (hne : text ≠ [])
    (rest : List UInt8) : ∃ p, pick_one_utf8_char (text ++ rest) none = some (some p) := by
  obtain ⟨_ | ⟨c, chars⟩, hchars, rfl⟩ := h
  · exact absurd rfl hne
  · rw [List.flatMap_cons, List.append_assoc,
      pick_encoded (hchars c List.mem_cons_self) _ (encode_le c)]
    exact ⟨_, rfl⟩

/-- A character that is picked in front of the NUL lies in the text. -/
theorem picked_in_text {b : UInt8} {text rest start : List UInt8} {c : Char} (hb : b ≠ 0)
    (heq : b :: text ++ 0 :: rest = String.utf8EncodeChar c ++ start) :
    ∃ left, b :: text = String.utf8EncodeChar c ++ left ∧ start = left ++ 0 :: rest := by
  have hc : c.toNat ≠ 0 := by
    intro h0
    rcases encode_cases c with ⟨_, he⟩ | ⟨_, _, _⟩ | ⟨_, _, _⟩ | ⟨_, _⟩
    · rw [he, h0] at heq
      exact hb (List.cons.inj heq).1
    all_goals omega
  rcases List.append_eq_append_iff.mp heq with ⟨more, hmore, hzero⟩ | ⟨left, hleft, hstart⟩
  · cases more with
    | nil => exact ⟨[], by rw [List.append_nil, hmore, List.append_nil], hzero.symm⟩
    | cons d more =>
      obtain ⟨rfl, _⟩ := List.cons.inj hzero
      exact absurd (hmore ▸ by simp) (zero_notMem_encode hc)
  · exact ⟨left, hleft, hstart⟩

theorem is_utf8_wellFormed (n : Nat) : ∀ text : List UInt8, text.length = n → 0 ∉ text →
    ∀ rest, ∃ answer, is_utf8 (text ++ 0 :: rest) = some answer ∧
      (answer = true ↔ WellFormed text) := by
  induction n using Nat.strong_induction_on with
  | _ n ih =>
    intro text hn hzero rest
    cases text with
    | nil =>
      refine ⟨true, by rw [List.nil_append, is_utf8, if_pos rfl], fun _ => ?_, fun _ => rfl⟩
      exact ⟨[], fun c hc => absurd hc List.not_mem_nil, rfl⟩
    | cons b text =>
      have hb : b ≠ 0 := fun h => hzero (h ▸ List.mem_cons_self)
      obtain ⟨r, hr⟩ := pick_stops_at_nul (b :: text) rest none
      rw [List.cons_append, is_utf8_cons hb, ← List.cons_append, hr]
      cases r with
      | none =>
        refine ⟨false, rfl, fun h => absurd h Bool.false_ne_true, fun h => ?_⟩
        obtain ⟨p, hp⟩ := h.pick (List.cons_ne_nil b text) (0 :: rest)
        rw [hr] at hp
        cases hp
      | some p =>
        obtain ⟨c, hc, heq⟩ := pick_some hr
        obtain ⟨left, hleft, hstart⟩ := picked_in_text hb heq
        have hshort : left.length < n := by
          have hlen := congrArg List.length hleft
          have hpos := List.length_pos_iff.mpr (encode_ne_nil c)
          rw [List.length_append] at hlen
          omega
        obtain ⟨answer, hanswer, hiff⟩ := ih left.length hshort left rfl
          (fun h => hzero (hleft ▸ List.mem_append_right _ h)) rest
        refine ⟨answer, ?_, ?_⟩
        · rw [← hstart] at hanswer
          exact hanswer
        · rw [hiff, hleft, wellFormed_append hc]

/-- A text is accepted exactly where it is well formed, and no byte is read behind the NUL or
behind the given remaining length. -/
theorem is_utf8_accepts_well_formed {text : List UInt8} (hzero : 0 ∉ text) :
    (∀ rest, ∃ answer, is_utf8 (text ++ 0 :: rest) = some answer ∧
      (answer = true ↔ WellFormed text)) ∧
    (∀ remainder_p, ∃ r, pick_one_utf8_char (text ++ [0]) remainder_p = some r) ∧
    ∀ s : List UInt8, ∃ r, pick_one_utf8_char s (some s.length) = some r :=
  ⟨is_utf8_wellFormed text.length text rfl hzero, pick_stops_at_nul text [],
    pick_stays_in_remainder⟩

/-- The euro sign. -/
theorem the_euro_sign_is_picked :
    0 ∉ ([0xe2, 0x82, 0xac] : List UInt8) ∧
      (∀ rest, ∃ answer, is_utf8 ([0xe2, 0x82, 0xac] ++ 0 :: rest) = some answer ∧
        (answer = true ↔ WellFormed [0xe2, 0x82, 0xac])) ∧
      (∀ remainder_p, ∃ r,
        pick_one_utf8_char ([0xe2, 0x82, 0xac] ++ [0]) remainder_p = some r) ∧
      ∀ s : List UInt8, ∃ r, pick_one_utf8_char s (some s.length) = some r :=
  ⟨by decide, is_utf8_accepts_well_formed (by decide)⟩

end git.utf8
