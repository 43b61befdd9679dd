-- `get_sha1_hex` of `hex.c`, and that it reads back what `sha1_to_hex` writes.
import Git.Convert

namespace git.hex

open git.convert (hexdigit sha1_to_hex)

/-- Nothing where `hexval_table` has -1. -/
def hexval (c : UInt8) : Option Nat :=
  if 48 ≤ c ∧ c ≤ 57 then some (c.toNat - 48)
  else if 97 ≤ c ∧ c ≤ 102 then some (c.toNat - 87)
  else if 65 ≤ c ∧ c ≤ 70 then some (c.toNat - 55)
  else none

/-- The loop: so many bytes from two digits each. The text may end early. -/
def sha1_bytes : Nat → Bytes → Option Bytes
  | 0, _ => some []
  | i + 1, high :: low :: hex =>
    match hexval high, hexval low with
    | some high, some low => (sha1_bytes i hex).map (.ofNat (16 * high + low) :: ·)
    | _, _ => none
  | _ + 1, _ => none

def get_sha1_hex (hex : Bytes) : Option Sha1 :=
  (sha1_bytes 20 hex).bind fun bytes =>
    if h : bytes.length = 20 then some ⟨bytes.toArray, h⟩ else none

theorem hexval_hexdigit {n : Nat} (h : n < 16) : hexval (hexdigit n) = some n := by
  interval_cases n <;> rfl

theorem sha1_bytes_hex (bytes rest : Bytes) :
    sha1_bytes bytes.length
        (bytes.flatMap (fun b => [hexdigit (b.toNat / 16), hexdigit (b.toNat % 16)]) ++ rest) =
      some bytes := by
  induction bytes with
  | nil => rfl
  | cons b bytes ih =>
    have hb := b.toNat_lt
    have hvalue : 16 * (b.toNat / 16) + b.toNat % 16 = b.toNat := Nat.div_add_mod _ _
    rw [List.length_cons, List.flatMap_cons, List.append_assoc, List.cons_append,
      List.cons_append, List.nil_append, sha1_bytes, hexval_hexdigit (by omega),
      hexval_hexdigit (by omega)]
    simp only [ih, Option.map_some, hvalue, UInt8.ofNat_toNat]

@[simp] theorem length_sha1_to_hex (sha1 : Sha1) : (sha1_to_hex sha1).length = 40 := by
  rw [sha1_to_hex, List.length_flatMap]
  simp

/-- A name is read back, whatever follows. -/
theorem get_sha1_hex_append (sha1 : Sha1) (rest : Bytes) :
    get_sha1_hex (sha1_to_hex sha1 ++ rest) = some sha1 := by
  have hlen : sha1.toList.length = 20 := sha1.length_toList
  have hbytes := sha1_bytes_hex sha1.toList rest
  rw [hlen] at hbytes
  rw [get_sha1_hex, sha1_to_hex, hbytes, Option.bind_some, dif_pos hlen]
  rfl

/-- What holds of every digit holds of every character of a name. -/
theorem mem_sha1_to_hex {P : UInt8 → Prop} (h : ∀ n < 16, P (hexdigit n)) {sha1 : Sha1} {c : UInt8}
    (hc : c ∈ sha1_to_hex sha1) : P c := by
  obtain ⟨b, -, hdigit⟩ := List.mem_flatMap.mp hc
  have hb := b.toNat_lt
  rcases List.mem_pair.mp hdigit with rfl | rfl
  · exact h _ (by omega)
  · exact h _ (by omega)

end git.hex
