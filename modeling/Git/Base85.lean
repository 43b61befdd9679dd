-- `base85.c`: four bytes are five digits to the base 85, the last group padded
-- with zeros.
import Git.CacheEntry

namespace git.base85

/-- `0`-`9`, `A`-`Z`, `a`-`z` and 23 punctuation marks. -/
def en85 : Bytes := [
   48, 49, 50, 51, 52, 53, 54, 55, 56, 57, 65, 66, 67, 68, 69, 70, 71, 72, 73, 74,
   75, 76, 77, 78, 79, 80, 81, 82, 83, 84, 85, 86, 87, 88, 89, 90, 97, 98, 99, 100,
   101, 102, 103, 104, 105, 106, 107, 108, 109, 110, 111, 112, 113, 114, 115, 116, 117, 118, 119, 120,
   121, 122, 33, 35, 36, 37, 38, 40, 41, 42, 43, 45, 59, 60, 61, 62, 63, 64, 94, 95,
   96, 123, 124, 125, 126]

/-- One more than the digit, 0 for a character that is none. -/
def de85 (ch : UInt8) : Nat := if ch ∈ en85 then en85.idxOf ch + 1 else 0

/-! ## Encoding -/

/-- `acc |= ch << cnt` for `cnt` from 24 down, as long as there are bytes. -/
def group_acc (data : Bytes) : Nat :=
  (data.zip [24, 16, 8, 0]).foldl (fun acc p => acc ||| (p.1.toNat <<< p.2)) 0

/-- `val = acc % 85; acc /= 85; buf[cnt] = en85[val];` from the last place on. -/
def group_digits : Nat → Nat → Bytes → Bytes
  | 0, _, buf => buf
  | n + 1, acc, buf => group_digits n (acc / 85) (en85.getD (acc % 85) 0 :: buf)

def encode_85 (data : Bytes) : Bytes :=
  if data = [] then []
  else group_digits 5 (group_acc data) [] ++ encode_85 (data.drop 4)
  termination_by data.length
  decreasing_by
    rw [List.length_drop]
    have := List.length_pos_of_ne_nil (by assumption)
    omega

/-! ## Decoding -/

inductive decoded (α : Type) where
  /-- A byte past the end is read. -/
  | outside
  | invalid
  | ok (a : α)

/-- `acc = acc * 85 + de`, `cnt` times. -/
def decode_digits : Nat → Nat → Bytes → decoded (Nat × Bytes)
  | 0, acc, buffer => .ok (acc, buffer)
  | _ + 1, _, [] => .outside
  | cnt + 1, acc, ch :: buffer =>
    if de85 ch = 0 then .invalid else decode_digits cnt (acc * 85 + (de85 ch - 1)) buffer

/-- Four digits, and a fifth that may not take the number over 32 bits. -/
def decode_group (buffer : Bytes) : decoded (Nat × Bytes) :=
  match decode_digits 4 0 buffer with
  | .outside => .outside
  | .invalid => .invalid
  | .ok (_, []) => .outside
  | .ok (acc, ch :: buffer) =>
    if de85 ch = 0 then .invalid
    else if 0xffffffff / 85 < acc ∨ 0xffffffff - (de85 ch - 1) < acc * 85 then .invalid
    else .ok (acc * 85 + (de85 ch - 1), buffer)

/-- `acc = (acc << 8) | (acc >> 24); *dst++ = acc;`, `cnt` times. -/
def group_bytes : Nat → Nat → Bytes
  | 0, _ => []
  | cnt + 1, acc =>
    let acc := (acc <<< 8) % 2 ^ 32 ||| acc >>> 24
    UInt8.ofNat acc :: group_bytes cnt acc

/-- The bytes that go to `dst`. -/
def decode_85 (len : Nat) (buffer : Bytes) : decoded Bytes :=
  if len = 0 then .ok []
  else
    match decode_group buffer with
    | .outside => .outside
    | .invalid => .invalid
    | .ok (acc, buffer) =>
      match decode_85 (len - min len 4) buffer with
      | .ok dst => .ok (group_bytes (min len 4) acc ++ dst)
      | .outside => .outside
      | .invalid => .invalid
  termination_by len
  decreasing_by omega

/-! ## Digits -/

theorem length_en85 : en85.length = 85 := by decide

theorem nodup_en85 : en85.Nodup := by decide

theorem digit_mem (n : Nat) (h : n < 85) : en85.getD n 0 ∈ en85 := by
  rw [List.getD_eq_getElem _ _ (by rw [length_en85]; exact h)]
  exact List.getElem_mem _

/-- A digit that is written is read. -/
theorem de85_digit (n : Nat) (h : n < 85) : de85 (en85.getD n 0) = n + 1 := by
  rw [de85, if_pos (digit_mem n h), List.getD_eq_getElem _ _ (by rw [length_en85]; exact h),
    List.Nodup.idxOf_getElem nodup_en85]

theorem de85_le (ch : UInt8) : de85 ch ≤ 85 := by
  rw [de85]
  split
  · next h =>
    have := List.idxOf_lt_length_of_mem h
    rw [length_en85] at this
    omega
  · omega

theorem five_digits (n : Nat) : group_digits 5 n [] =
    [en85.getD (n / 85 / 85 / 85 / 85 % 85) 0, en85.getD (n / 85 / 85 / 85 % 85) 0,
      en85.getD (n / 85 / 85 % 85) 0, en85.getD (n / 85 % 85) 0, en85.getD (n % 85) 0] := rfl

/-- Five digits are read as the number they were written for. -/
theorem decode_group_digits (n : Nat) (h : n < 2 ^ 32) (rest : Bytes) :
    decode_group (group_digits 5 n [] ++ rest) = .ok (n, rest) := by
  have hd : ∀ m, m % 85 < 85 := fun m => Nat.mod_lt m (by omega)
  have hs : ∀ m, de85 (en85.getD (m % 85) 0) = m % 85 + 1 := fun m => de85_digit _ (hd m)
  rw [five_digits]
  simp only [decode_group, List.cons_append, List.nil_append, decode_digits, hs,
    Nat.add_one_ne_zero, if_false, Nat.add_sub_cancel]
  have hhigh : (((0 * 85 + n / 85 / 85 / 85 / 85 % 85) * 85 + n / 85 / 85 / 85 % 85) * 85 +
      n / 85 / 85 % 85) * 85 + n / 85 % 85 = n / 85 := by
    omega
  rw [hhigh]
  have hsum : n / 85 * 85 + n % 85 = n := by omega
  rw [if_neg (by omega), hsum]

/-! ## Groups -/

/-- A byte goes under all those set so far. -/
theorem or_lower (k b s : Nat) (h : b < 256) :
    k * 2 ^ (s + 8) ||| (b <<< s) = k * 2 ^ (s + 8) + b * 2 ^ s := by
  have hlt : b <<< s < 2 ^ (s + 8) := by
    rw [Nat.shiftLeft_eq, Nat.pow_add, Nat.mul_comm]
    exact Nat.mul_lt_mul_of_pos_left h (Nat.two_pow_pos s)
  rw [← Nat.shiftLeft_eq, ← Nat.shiftLeft_add_eq_or_of_lt hlt, Nat.shiftLeft_eq, Nat.shiftLeft_eq]

/-- Four bytes, the highest first. -/
def word (a b c d : UInt8) : Nat :=
  a.toNat * 2 ^ 24 + b.toNat * 2 ^ 16 + c.toNat * 2 ^ 8 + d.toNat

/-- The four bytes, the missing ones zero. -/
def padded (data : Bytes) : Nat :=
  word (data.getD 0 0) (data.getD 1 0) (data.getD 2 0) (data.getD 3 0)

theorem group_acc_eq (data : Bytes) : group_acc data = padded data := by
  have h0 : ∀ b : UInt8, 0 ||| (b.toNat <<< 24) = b.toNat * 2 ^ 24 := by
    intro b
    rw [Nat.zero_or, Nat.shiftLeft_eq]
  have h1 : ∀ a b : UInt8, a.toNat * 2 ^ 24 ||| (b.toNat <<< 16) =
      a.toNat * 2 ^ 24 + b.toNat * 2 ^ 16 := fun a b => or_lower a.toNat b.toNat 16 b.toNat_lt
  have h2 : ∀ a b c : UInt8, a.toNat * 2 ^ 24 + b.toNat * 2 ^ 16 ||| (c.toNat <<< 8) =
      a.toNat * 2 ^ 24 + b.toNat * 2 ^ 16 + c.toNat * 2 ^ 8 := by
    intro a b c
    have := or_lower (a.toNat * 2 ^ 8 + b.toNat) c.toNat 8 c.toNat_lt
    rw [show (a.toNat * 2 ^ 8 + b.toNat) * 2 ^ (8 + 8) =
      a.toNat * 2 ^ 24 + b.toNat * 2 ^ 16 by ring] at this
    exact this
  have h3 : ∀ a b c d : UInt8,
      a.toNat * 2 ^ 24 + b.toNat * 2 ^ 16 + c.toNat * 2 ^ 8 ||| (d.toNat <<< 0) =
      a.toNat * 2 ^ 24 + b.toNat * 2 ^ 16 + c.toNat * 2 ^ 8 + d.toNat := by
    intro a b c d
    have := or_lower (a.toNat * 2 ^ 16 + b.toNat * 2 ^ 8 + c.toNat) d.toNat 0 d.toNat_lt
    rw [show (a.toNat * 2 ^ 16 + b.toNat * 2 ^ 8 + c.toNat) * 2 ^ (0 + 8) =
      a.toNat * 2 ^ 24 + b.toNat * 2 ^ 16 + c.toNat * 2 ^ 8 by ring, Nat.pow_zero,
      Nat.mul_one] at this
    exact this
  rcases data with _ | ⟨a, _ | ⟨b, _ | ⟨c, _ | ⟨d, rest⟩⟩⟩⟩
  · rfl
  · simp only [group_acc, padded, word, List.zip_cons_cons, List.zip_nil_left, List.foldl_cons,
      List.foldl_nil, h0]
    simp
  · simp only [group_acc, padded, word, List.zip_cons_cons, List.zip_nil_left, List.foldl_cons,
      List.foldl_nil, h0, h1]
    simp
  · simp only [group_acc, padded, word, List.zip_cons_cons, List.zip_nil_left, List.foldl_cons,
      List.foldl_nil, h0, h1, h2]
    simp
  · simp only [group_acc, padded, word, List.zip_cons_cons, List.zip_nil_right, List.foldl_cons,
      List.foldl_nil, h0, h1, h2, h3]
    simp

theorem word_lt (a b c d : UInt8) : word a b c d < 2 ^ 32 := by
  have ha := a.toNat_lt
  have hb := b.toNat_lt
  have hc := c.toNat_lt
  have hd := d.toNat_lt
  rw [word]
  omega

theorem padded_lt (data : Bytes) : padded data < 2 ^ 32 := word_lt _ _ _ _

/-- The highest byte comes out, the others move up. -/
theorem rotate_eq (acc : Nat) (h : acc < 2 ^ 32) :
    (acc <<< 8) % 2 ^ 32 ||| acc >>> 24 = acc % 2 ^ 24 * 256 + acc / 2 ^ 24 := by
  have hlow : (acc <<< 8) % 2 ^ 32 = acc % 2 ^ 24 * 2 ^ 8 := by
    rw [Nat.shiftLeft_eq]
    omega
  have hhigh : acc >>> 24 < 2 ^ 8 := by
    rw [Nat.shiftRight_eq_div_pow]
    omega
  rw [hlow, ← Nat.shiftLeft_eq, ← Nat.shiftLeft_add_eq_or_of_lt hhigh, Nat.shiftLeft_eq,
    Nat.shiftRight_eq_div_pow]

theorem group_bytes_word (cnt : Nat) (a b c d : UInt8) :
    group_bytes (cnt + 1) (word a b c d) = a :: group_bytes cnt (word b c d a) := by
  have ha := a.toNat_lt
  have hb := b.toNat_lt
  have hc := c.toNat_lt
  have hd := d.toNat_lt
  have hrot : word a b c d % 2 ^ 24 * 256 + word a b c d / 2 ^ 24 = word b c d a := by
    rw [word, word]
    omega
  have hbyte : UInt8.ofNat (word b c d a) = a := by
    apply UInt8.toNat_inj.mp
    rw [UInt8.toNat_ofNat', word]
    omega
  rw [group_bytes, rotate_eq _ (word_lt a b c d), hrot, hbyte]

/-- The bytes of a group come back, without the padding. -/
theorem group_bytes_padded (data : Bytes) :
    group_bytes (min data.length 4) (padded data) = data.take 4 := by
  rcases data with _ | ⟨a, _ | ⟨b, _ | ⟨c, _ | ⟨d, rest⟩⟩⟩⟩
  · rfl
  · change group_bytes (0 + 1) (word a 0 0 0) = [a]
    rw [group_bytes_word, group_bytes]
  · change group_bytes (0 + 1 + 1) (word a b 0 0) = [a, b]
    rw [group_bytes_word, group_bytes_word, group_bytes]
  · change group_bytes (0 + 1 + 1 + 1) (word a b c 0) = [a, b, c]
    rw [group_bytes_word, group_bytes_word, group_bytes_word, group_bytes]
  · have hlen : min (a :: b :: c :: d :: rest).length 4 = 0 + 1 + 1 + 1 + 1 := by
      simp only [List.length_cons]
      omega
    rw [hlen]
    change group_bytes (0 + 1 + 1 + 1 + 1) (word a b c d) = [a, b, c, d]
    rw [group_bytes_word, group_bytes_word, group_bytes_word, group_bytes_word, group_bytes]

/-! ## The round trip -/

/-- What was encoded is decoded, whatever stands behind it. -/
theorem decode_85_encode_85 (data rest : Bytes) :
    decode_85 data.length (encode_85 data ++ rest) = .ok data := by
  induction h : data.length using Nat.strong_induction_on generalizing data with
  | _ n ih =>
    rw [encode_85, decode_85]
    by_cases h0 : data = []
    · rw [if_pos (by rw [← h, h0]; rfl), h0]
    · have hpos := List.length_pos_of_ne_nil h0
      have hlt := padded_lt data
      rw [if_neg (by omega), if_neg h0, List.append_assoc, group_acc_eq,
        decode_group_digits _ hlt]
      have hdrop : (data.drop 4).length = n - min n 4 := by
        rw [List.length_drop]
        omega
      dsimp only
      rw [ih (n - min n 4) (by omega) (data.drop 4) hdrop, ← h]
      dsimp only
      rw [group_bytes_padded, List.take_append_drop]

theorem length_group_digits (n : Nat) : (group_digits 5 n []).length = 5 := rfl

/-- Five characters for each group. -/
theorem length_encode_85 (data : Bytes) : (encode_85 data).length = 5 * ((data.length + 3) / 4) := by
  induction h : data.length using Nat.strong_induction_on generalizing data with
  | _ n ih =>
    rw [encode_85]
    by_cases h0 : data = []
    · have : n = 0 := by rw [← h, h0]; rfl
      rw [if_pos h0, this]
      rfl
    · have hpos := List.length_pos_of_ne_nil h0
      have hdrop : (data.drop 4).length = n - 4 := by rw [List.length_drop, h]
      rw [if_neg h0, List.length_append, length_group_digits, ih (n - 4) (by omega) _ hdrop]
      omega

/-- Only digits are written. -/
theorem mem_encode_85 (data : Bytes) : ∀ ch ∈ encode_85 data, ch ∈ en85 := by
  induction h : data.length using Nat.strong_induction_on generalizing data with
  | _ n ih =>
    rw [encode_85]
    by_cases h0 : data = []
    · rw [if_pos h0]
      simp
    · have hpos := List.length_pos_of_ne_nil h0
      rw [if_neg h0]
      intro ch hch
      rcases List.mem_append.mp hch with hch | hch
      · rw [five_digits] at hch
        have hd : ∀ m, en85.getD (m % 85) 0 ∈ en85 := fun m => digit_mem _ (Nat.mod_lt m (by omega))
        simp only [List.mem_cons, List.not_mem_nil, or_false] at hch
        rcases hch with rfl | rfl | rfl | rfl | rfl <;> exact hd _
      · exact ih (n - 4) (by omega) (data.drop 4) (by rw [List.length_drop, h]) ch hch

/-! ## What is read -/

theorem decode_digits_inside (cnt : Nat) :
    ∀ (acc : Nat) (buffer : Bytes), cnt ≤ buffer.length →
      decode_digits cnt acc buffer ≠ .outside ∧ ∀ v rest,
        decode_digits cnt acc buffer = .ok (v, rest) → rest = buffer.drop cnt := by
  induction cnt with
  | zero =>
    intro acc buffer _
    rw [decode_digits]
    refine ⟨by simp, fun v rest h => ?_⟩
    cases h
    rfl
  | succ cnt ih =>
    intro acc buffer h
    cases buffer with
    | nil => simp at h
    | cons ch buffer =>
      rw [decode_digits]
      split
      · simp
      · exact ih _ buffer (by simpa using h)

theorem decode_group_inside (buffer : Bytes) (h : 5 ≤ buffer.length) :
    decode_group buffer ≠ .outside ∧ ∀ v rest,
      decode_group buffer = .ok (v, rest) → rest = buffer.drop 5 := by
  obtain ⟨hin, hrest⟩ := decode_digits_inside 4 0 buffer (by omega)
  rw [decode_group]
  cases hd : decode_digits 4 0 buffer with
  | outside => exact absurd hd hin
  | invalid => simp
  | ok p =>
    obtain ⟨acc, rest⟩ := p
    have heq := hrest acc rest hd
    cases rest with
    | nil =>
      have := congrArg List.length heq
      rw [List.length_drop] at this
      simp at this
      omega
    | cons ch rest =>
      have hdrop : rest = buffer.drop 5 := by
        have := congrArg List.tail heq
        rw [List.tail_drop] at this
        exact this
      dsimp only
      split
      · simp
      · split
        · simp
        · refine ⟨by simp, fun v r hr => ?_⟩
          cases hr
          exact hdrop

/-- Five characters a group are read, and `len` bytes are written. -/
theorem decode_85_inside (len : Nat) (buffer : Bytes) (h : 5 * ((len + 3) / 4) ≤ buffer.length) :
    decode_85 len buffer ≠ .outside ∧ ∀ dst, decode_85 len buffer = .ok dst → dst.length = len := by
  induction len using Nat.strong_induction_on generalizing buffer with
  | _ len ih =>
    rw [decode_85]
    by_cases h0 : len = 0
    · rw [if_pos h0]
      refine ⟨by simp, fun dst hd => ?_⟩
      cases hd
      exact h0.symm
    · obtain ⟨hin, hrest⟩ := decode_group_inside buffer (by omega)
      rw [if_neg h0]
      cases hg : decode_group buffer with
      | outside => exact absurd hg hin
      | invalid => simp
      | ok p =>
        obtain ⟨acc, rest⟩ := p
        have heq := hrest acc rest hg
        obtain ⟨ho, hlen⟩ := ih (len - min len 4) (by omega) rest
          (by rw [heq, List.length_drop]; omega)
        dsimp only
        cases hd : decode_85 (len - min len 4) rest with
        | outside => exact absurd hd ho
        | invalid => simp
        | ok dst =>
          refine ⟨by simp, fun d hdst => ?_⟩
          have hl := hlen dst hd
          cases hdst
          have hcnt : ∀ cnt a, (group_bytes cnt a).length = cnt := by
            intro cnt
            induction cnt with
            | zero => exact fun _ => rfl
            | succ cnt ihc => exact fun a => by rw [group_bytes, List.length_cons, ihc]
          rw [List.length_append, hcnt, hl]
          omega

end git.base85
