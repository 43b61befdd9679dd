-- A buffer of a fixed length that is read and written a piece at a time.
import Mathlib

namespace overwrite

variable {α : Type*} {piece : List α} {place : Nat}

/-- The `n` elements from a place on, where there are as many. -/
def read_at (buf : List α) (place n : Nat) : Option (List α) :=
  if place + n ≤ buf.length then some ((buf.drop place).take n) else none

/-- The buffer with a piece at a place. -/
def written (buf : List α) (place : Nat) (piece : List α) : List α :=
  buf.take place ++ piece ++ buf.drop (place + piece.length)

def write_at (buf : List α) (place : Nat) (piece : List α) : Option (List α) :=
  if place + piece.length ≤ buf.length then some (written buf place piece) else none

/-! ## A buffer in pieces -/

theorem read_at_append {front back : List α} {n : Nat} (hplace : front.length = place)
    (hn : piece.length = n) : read_at (front ++ piece ++ back) place n = some piece := by
  subst hplace hn
  rw [read_at, if_pos (by rw [List.length_append, List.length_append]; omega), List.append_assoc,
    List.drop_left, List.take_left]

/-- A piece takes the place of another one of its length. -/
theorem write_at_append {front old back : List α} (hplace : front.length = place)
    (hlen : piece.length = old.length) :
    write_at (front ++ old ++ back) place piece = some (front ++ piece ++ back) := by
  subst hplace
  have hdrop : (front ++ old ++ back).drop (front.length + piece.length) = back := by
    rw [hlen, ← List.length_append, List.drop_left]
  have htake : (front ++ old ++ back).take front.length = front := by
    rw [List.append_assoc, List.take_left]
  rw [write_at, if_pos (by simp only [List.length_append]; omega), written, hdrop, htake]

end overwrite
