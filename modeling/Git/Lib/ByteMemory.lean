-- Memory as a function from addresses to bytes: which bytes stand at a place, and what one write
-- does to them.
import Mathlib

namespace byte_memory

abbrev memory := Nat → UInt8

def write (mem : memory) (place : Nat) (c : UInt8) : memory :=
  fun i => if i = place then c else mem i

/-- The bytes stand at the place. -/
def Holds (mem : memory) (place : Nat) (bytes : List UInt8) : Prop :=
  ∀ i c, bytes[i]? = some c → mem (place + i) = c

variable {mem : memory} {place : Nat} {bytes : List UInt8} {c : UInt8}

@[simp] theorem write_self (mem : memory) (place : Nat) (c : UInt8) :
    write mem place c place = c := if_pos rfl

theorem write_other {i : Nat} (h : i ≠ place) (c : UInt8) : write mem place c i = mem i := if_neg h

theorem Holds.nil (mem : memory) (place : Nat) : Holds mem place [] := by simp [Holds]

theorem Holds.head (h : Holds mem place (c :: bytes)) : mem place = c := h 0 c rfl

theorem Holds.tail (h : Holds mem place (c :: bytes)) : Holds mem (place + 1) bytes := by
  intro i d hd
  rw [Nat.add_assoc, Nat.add_comm 1]
  exact h (i + 1) d hd

/-- A write outside of the bytes leaves them there. -/
theorem Holds.write_outside (h : Holds mem place bytes) {at_ : Nat}
    (hout : ∀ i < bytes.length, place + i ≠ at_) (c : UInt8) :
    Holds (write mem at_ c) place bytes := by
  intro i d hd
  rw [write_other (hout i (List.getElem?_eq_some_iff.mp hd).1)]
  exact h i d hd

/-- A write right behind the bytes makes them one longer. -/
theorem Holds.write_behind (h : Holds mem place bytes) (c : UInt8) :
    Holds (write mem (place + bytes.length) c) place (bytes ++ [c]) := by
  intro i d hd
  rw [List.getElem?_append] at hd
  split at hd
  · rename_i hlt
    rw [write_other (by omega)]
    exact h i d hd
  · rename_i hge
    obtain ⟨hone, rfl⟩ : i - bytes.length = 0 ∧ c = d := by
      cases hi : i - bytes.length with
      | zero => simpa [hi] using hd
      | succ n => simp [hi] at hd
    have hi : i = bytes.length := by omega
    rw [hi, write_self]

theorem Holds.left {more : List UInt8} (h : Holds mem place (bytes ++ more)) :
    Holds mem place bytes := by
  intro i d hd
  refine h i d ?_
  rw [List.getElem?_append_left (List.getElem?_eq_some_iff.mp hd).1, hd]

end byte_memory
