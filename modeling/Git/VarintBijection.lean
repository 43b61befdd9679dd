-- The numbers of `varint.c` and the byte strings that end one stand for each other, each number
-- in one way only, and the reader refuses just the numbers that are too large.
import Git.Varint

namespace git

/-- A byte string that ends a number: all bytes but the last one go on. -/
def Terminated : Bytes → Prop
  | [] => False
  | c :: buf => if c.toNat < 128 then buf = [] else Terminated buf

/-- The number, without a limit. Each byte that goes on adds one to what it stands for. -/
def number_from (val : Nat) : Bytes → Nat
  | [] => val
  | c :: buf => number_from ((val + 1) * 128 + c.toNat % 128) buf

def number : Bytes → Nat
  | [] => 0
  | c :: buf => number_from (c.toNat % 128) buf

theorem le_number_from (val : Nat) (buf : Bytes) : val ≤ number_from val buf := by
  induction buf generalizing val with
  | nil => exact le_refl _
  | cons c buf ih =>
    rw [number_from]
    have := ih ((val + 1) * 128 + c.toNat % 128)
    omega

theorem number_from_append (val : Nat) (buf : Bytes) (c : UInt8) :
    number_from val (buf ++ [c]) = (number_from val buf + 1) * 128 + c.toNat % 128 := by
  induction buf generalizing val with
  | nil => rfl
  | cons d buf ih => rw [List.cons_append, number_from, ih, ← number_from]

theorem number_append {buf : Bytes} (h : buf ≠ []) (c : UInt8) :
    number (buf ++ [c]) = (number buf + 1) * 128 + c.toNat % 128 := by
  cases buf with
  | nil => exact absurd rfl h
  | cons d buf => exact number_from_append _ _ _

theorem number_last (buf : Bytes) (c : UInt8) : number (buf ++ [c]) % 128 = c.toNat % 128 := by
  cases buf with
  | nil => simp [number, number_from]
  | cons d buf =>
    rw [number_append (List.cons_ne_nil d buf)]
    omega

theorem Terminated.split {a : Bytes} (h : Terminated a) :
    ∃ buf c, a = buf ++ [c] ∧ (∀ d ∈ buf, 128 ≤ d.toNat) ∧ c.toNat < 128 := by
  induction a with
  | nil => exact h.elim
  | cons c buf ih =>
    rw [Terminated] at h
    split at h
    next hc =>
      subst h
      exact ⟨[], c, rfl, by simp, hc⟩
    next hc =>
      obtain ⟨buf', c', rfl, hbuf, hc'⟩ := ih h
      refine ⟨c :: buf', c', rfl, ?_, hc'⟩
      intro d hd
      rcases List.mem_cons.mp hd with rfl | hd
      · exact Nat.le_of_not_lt hc
      · exact hbuf d hd

/-! ## Writing what was read -/

/-- The writer puts the bytes that go on in front of the last one. -/
theorem encode_varint_from_number (buf : Bytes) (hbuf : ∀ d ∈ buf, 128 ≤ d.toNat) (c d : UInt8)
    (varint : Bytes) :
    encode_varint_from (number (buf ++ [c])) (d :: varint) = buf ++ d :: varint := by
  induction buf using List.reverseRecOn generalizing c d varint with
  | nil =>
    have hsmall : number [c] / 128 = 0 := by
      rw [number, number_from]
      omega
    rw [List.nil_append, encode_varint_from, if_pos hsmall]
    rfl
  | append_singleton buf e ih =>
    have hnumber := number_append (show buf ++ [e] ≠ [] by simp) c
    have hone : number (buf ++ [e] ++ [c]) / 128 ≠ 0 := by omega
    have hprev : number (buf ++ [e] ++ [c]) / 128 - 1 = number (buf ++ [e]) := by omega
    have hbyte : UInt8.ofNat (128 ||| (number (buf ++ [e]) &&& 127)) = e := by
      apply UInt8.toNat_inj.mp
      have he := hbuf e (by simp)
      have hlt := e.toNat_lt
      have hlast := number_last buf e
      rw [continued_byte]
      omega
    rw [encode_varint_from, if_neg hone, hprev, hbyte,
      ih (fun d hd => hbuf d (List.mem_append_left _ hd)), List.append_assoc]
    rfl

theorem encode_varint_number {a : Bytes} (h : Terminated a) : encode_varint (number a) = a := by
  obtain ⟨buf, c, rfl, hbuf, hc⟩ := h.split
  have hlast : UInt8.ofNat (number (buf ++ [c]) &&& 127) = c := by
    apply UInt8.toNat_inj.mp
    rw [last_byte, number_last]
    omega
  rw [encode_varint, hlast]
  exact encode_varint_from_number buf hbuf c c []

/-! ## Reading -/

theorem decode_varint_from_terminated (bufp rest : Bytes) {buf : Bytes} :
    ∀ {c : UInt8} {val : Nat}, val < 2 ^ 64 → Terminated (c :: buf) →
      decode_varint_from bufp c val (buf ++ rest) =
        if number_from val buf < 2 ^ 64 then some (number_from val buf, rest)
        else some (0, bufp) := by
  induction buf with
  | nil =>
    intro c val hval h
    rw [Terminated] at h
    have hc : c.toNat < 128 := by
      by_contra hc
      rw [if_neg hc] at h
      exact h
    rw [decode_varint_from, if_pos ((top_bit _ c.toNat_lt).mpr hc), number_from, if_pos hval]
    rfl
  | cons d buf ih =>
    intro c val hval h
    rw [Terminated] at h
    have hc : ¬ c.toNat < 128 := by
      intro hc
      rw [if_pos hc] at h
      cases h
    rw [if_neg hc] at h
    rw [decode_varint_from, if_neg (fun h0 => hc ((top_bit _ c.toNat_lt).mp h0))]
    by_cases hbig : 2 ^ 57 ≤ val + 1
    · -- the number only grows from here on
      have hle := le_number_from ((val + 1) * 128 + d.toNat % 128) buf
      have hover : (val + 1) % 2 ^ 64 = 0 ∨ 2 ^ 57 ≤ (val + 1) % 2 ^ 64 := by omega
      simp only
      rw [if_pos hover, number_from, if_neg (by omega)]
    · have hmod : (val + 1) % 2 ^ 64 = val + 1 := by omega
      have hnext : ((val + 1) * 128 + (d.toNat &&& 127)) % 2 ^ 64 =
          (val + 1) * 128 + d.toNat % 128 := by
        rw [low_bits]
        omega
      simp only [hmod, List.cons_append, hnext]
      rw [if_neg (by omega), number_from]
      exact ih (by omega) h

/-- The reader gives the number, or 0 and the place where it was. -/
theorem decode_varint_terminated {a : Bytes} (h : Terminated a) (rest : Bytes) :
    decode_varint (a ++ rest) =
      if number a < 2 ^ 64 then some (number a, rest) else some (0, a ++ rest) := by
  cases a with
  | nil => exact h.elim
  | cons c buf =>
    have hval : c.toNat &&& 127 < 2 ^ 64 := by
      rw [low_bits]
      omega
    have hread := decode_varint_from_terminated (c :: buf ++ rest) rest hval h
    rw [low_bits] at hread
    rw [List.cons_append, decode_varint, low_bits]
    exact hread

/-! ## Results -/

/-- Every number of 64 bits is read back from what was written, two byte strings that are read
as one number are equal, and the reader refuses a byte string just if its number has more than 64
bits. Then it stays where it was. -/
theorem varint_bijection :
    (∀ value < 2 ^ 64, ∀ rest, decode_varint (encode_varint value ++ rest) = some (value, rest)) ∧
      (∀ a b value, Terminated a → Terminated b → decode_varint a = some (value, []) →
        decode_varint b = some (value, []) → a = b ∧ encode_varint value = a) ∧
      ∀ a rest, Terminated a →
        (number a < 2 ^ 64 → decode_varint (a ++ rest) = some (number a, rest)) ∧
        (2 ^ 64 ≤ number a → decode_varint (a ++ rest) = some (0, a ++ rest)) := by
  refine ⟨fun value hvalue rest => decode_encode_varint value rest hvalue, ?_, ?_⟩
  · have hread : ∀ a value, Terminated a → decode_varint a = some (value, []) →
        encode_varint value = a := by
      intro a value h hrun
      have hspec := decode_varint_terminated h []
      rw [List.append_nil, hrun] at hspec
      split at hspec
      next =>
        cases hspec
        exact encode_varint_number h
      next =>
        cases hspec
        exact h.elim
    intro a b value ha hb hruna hrunb
    exact ⟨(hread a value ha hruna).symm.trans (hread b value hb hrunb), hread a value ha hruna⟩
  · intro a rest h
    rw [decode_varint_terminated h]
    exact ⟨fun hlt => if_pos hlt, fun hle => if_neg (Nat.not_lt.mpr hle)⟩

end git
