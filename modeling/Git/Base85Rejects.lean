-- What `decode_85` refuses: a group with a character that is no digit, and a group whose number
-- has more than 32 bits.
import Git.Base85

namespace git.base85

/-- The number of a group to the base 85. -/
def group_value (acc : Nat) (group : Bytes) : Nat :=
  group.foldl (fun acc ch => acc * 85 + (de85 ch - 1)) acc

/-- Five characters that stand for no four bytes. -/
structure BadGroup (group : Bytes) : Prop where
  length : group.length = 5
  bad : (∃ ch ∈ group, ch ∉ en85) ∨ 2 ^ 32 - 1 < group_value 0 group

theorem de85_eq_zero {ch : UInt8} : de85 ch = 0 ↔ ch ∉ en85 := by
  unfold de85
  split
  next h => exact ⟨fun h0 => absurd h0 (Nat.succ_ne_zero _), fun hn => absurd h hn⟩
  next h => exact ⟨fun _ => h, fun _ => rfl⟩

theorem decode_digits_append (acc : Nat) (group rest : Bytes) :
    decode_digits group.length acc (group ++ rest) =
      if ∃ ch ∈ group, ch ∉ en85 then .invalid else .ok (group_value acc group, rest) := by
  induction group generalizing acc with
  | nil =>
    rw [if_neg (by simp)]
    rfl
  | cons ch group ih =>
    rw [List.length_cons, List.cons_append, decode_digits]
    by_cases hch : de85 ch = 0
    · rw [if_pos hch, if_pos ⟨ch, List.mem_cons_self, de85_eq_zero.mp hch⟩]
    · have hiff : (∃ c ∈ ch :: group, c ∉ en85) ↔ ∃ c ∈ group, c ∉ en85 := by
        have hmem : ch ∈ en85 := not_not.mp fun hn => hch (de85_eq_zero.mpr hn)
        simp [hmem]
      rw [if_neg hch, ih]
      simp only [hiff]
      rfl

theorem decode_group_bad {group : Bytes} (h : BadGroup group) (rest : Bytes) :
    decode_group (group ++ rest) = .invalid := by
  obtain ⟨first, last, rfl⟩ : ∃ first last, group = first ++ [last] := by
    have hne : group ≠ [] := by
      intro h0
      have := h.length
      rw [h0] at this
      cases this
    exact ⟨group.dropLast, group.getLast hne, (List.dropLast_append_getLast hne).symm⟩
  have hlen : first.length = 4 := by
    have := h.length
    rw [List.length_append, List.length_singleton] at this
    omega
  have hdigits := decode_digits_append 0 first (last :: rest)
  rw [hlen] at hdigits
  rw [List.append_assoc, List.singleton_append, decode_group, hdigits]
  by_cases hfirst : ∃ ch ∈ first, ch ∉ en85
  · rw [if_pos hfirst]
  · rw [if_neg hfirst]
    simp only
    by_cases hlast : de85 last = 0
    · rw [if_pos hlast]
    · rw [if_neg hlast]
      have hvalue : 2 ^ 32 - 1 < group_value 0 (first ++ [last]) := by
        refine h.bad.resolve_left ?_
        rintro ⟨ch, hch, hnot⟩
        rcases List.mem_append.mp hch with hch | hch
        · exact hfirst ⟨ch, hch, hnot⟩
        · rw [List.mem_singleton.mp hch] at hnot
          exact hlast (de85_eq_zero.mpr hnot)
      rw [group_value, List.foldl_append] at hvalue
      -- the check of the product and the one of the sum together are exact
      refine if_pos ?_
      have hle := de85_le last
      change 2 ^ 32 - 1 < group_value 0 first * 85 + (de85 last - 1) at hvalue
      omega

/-- A group that the length asks for is read, unless one before it is refused. -/
theorem decode_85_bad (k : Nat) :
    ∀ {len : Nat} {buffer : Bytes}, 4 * k < len → BadGroup ((buffer.drop (5 * k)).take 5) →
      decode_85 len buffer = .invalid := by
  induction k with
  | zero =>
    intro len buffer hlen h
    have hgroup := decode_group_bad h (buffer.drop 5)
    rw [Nat.mul_zero, List.drop_zero, List.take_append_drop] at hgroup
    rw [decode_85, if_neg (by omega), hgroup]
  | succ k ih =>
    intro len buffer hlen h
    have hfive : 5 ≤ buffer.length := by
      have := h.length
      rw [List.length_take, List.length_drop] at this
      omega
    obtain ⟨hin, hrest⟩ := decode_group_inside buffer hfive
    rw [decode_85, if_neg (by omega)]
    cases hgroup : decode_group buffer with
    | outside => exact absurd hgroup hin
    | invalid => rfl
    | ok p =>
      obtain ⟨acc, rest⟩ := p
      have hnext : decode_85 (len - min len 4) rest = .invalid := by
        refine ih (by omega) ?_
        rw [hrest acc rest hgroup, List.drop_drop]
        rwa [show 5 + 5 * k = 5 * (k + 1) by omega]
      simp only [hnext]

/-! ## Results -/

/-- What was encoded is decoded to the same bytes, and whatever the length that is asked for, a
bad group in it is an error. -/
theorem decode_85_exact :
    (∀ data rest : Bytes, 1 ≤ data.length →
      decode_85 data.length (encode_85 data ++ rest) = .ok data) ∧
    ∀ (len k : Nat) (buffer : Bytes), 4 * k < len → BadGroup ((buffer.drop (5 * k)).take 5) →
      decode_85 len buffer = .invalid :=
  ⟨fun data rest _ => decode_85_encode_85 data rest, fun _ k _ hlen h => decode_85_bad k hlen h⟩

end git.base85
