-- How different and how similar two files are, of `diffcore-break.c` and `diffcore-rename.c`.
import Git.CountChanges
import Git.Lib.Binary64

namespace git.similarity

open git.quote git.count_changes binary64

def MAX_SCORE : ℚ := 60000

def MINIMUM_BREAK_SIZE : Nat := 400

/-- A side of a pair. `populate` is what `diff_populate_filespec` returns, with and without
`size_only`: true where it fails. -/
structure filespec where
  one : diff_filespec
  S_ISREG : Bool
  sha1_valid : Bool
  sha1 : Bytes
  populate : Bool → Bool

def filespec.size (f : filespec) : Nat := f.one.size

/-! ## Unsigned arithmetic of 64 bits, and casts: `none` where the result does not fit -/

def add64 (a b : Nat) : Option Nat := if a + b < 2 ^ 64 then some (a + b) else none

def sub64 (a b : Nat) : Option Nat := if b ≤ a then some (a - b) else none

def mul64 (a b : Nat) : Option Nat := if a * b < 2 ^ 64 then some (a * b) else none

def to_int (x : ℚ) : Option Int := if x < 2 ^ 31 then some ⌊x⌋ else none

def to_ulong (x : ℚ) : Option Nat := if x < 2 ^ 64 then some ⌊x⌋₊ else none

/-! ## The two functions -/

/-- The two counts after the sanity checks. -/
def sane_counts (src_size dst_size : Nat) (counts : Nat × Nat) : Option (Nat × Nat) := do
  let src_copied := if src_size < counts.1 then src_size else counts.1
  let sum ← add64 counts.2 src_copied
  if dst_size < sum then
    if src_copied < dst_size then
      let literal_added ← sub64 dst_size src_copied
      return (src_copied, literal_added)
    else return (src_copied, 0)
  else return (src_copied, counts.2)

/-- `*merge_score_p` and what is returned, from the counts on. -/
def break_scores (src_size max_size break_score src_copied literal_added : Nat) :
    Option (Int × Bool) := do
  let src_removed ← sub64 src_size src_copied
  let removed := mul (of_nat src_removed) MAX_SCORE
  let quotient ← div removed (of_nat src_size)
  let merge_score ← to_int quotient
  if (break_score : Int) < merge_score then return (merge_score, true)
  else
    let delta_size ← add64 src_removed literal_added
    let extent ← div (mul (of_nat delta_size) MAX_SCORE) (of_nat max_size)
    if extent < break_score then return (merge_score, false)
    else
      let least ← mul64 src_size break_score
      let added ← mul64 literal_added 20
      -- a lot removed without new material is not a rewrite
      return (merge_score,
        !(of_nat least < removed && added < src_removed && added < src_copied))

def should_break (src dst : filespec) (break_score : Nat) : Option (Int × Bool) :=
  if src.S_ISREG ≠ dst.S_ISREG then (to_int MAX_SCORE).map fun m => (m, true)
  else if src.sha1_valid && dst.sha1_valid && src.sha1 = dst.sha1 then some (0, false)
  else if src.populate false || dst.populate false then some (0, false)
  else
    let max_size := if dst.size < src.size then src.size else dst.size
    if max_size < MINIMUM_BREAK_SIZE then some (0, false)
    else do
      let counts ← diffcore_count_changes src.one dst.one
      let (src_copied, literal_added) ← sane_counts src.size dst.size counts
      break_scores src.size max_size break_score src_copied literal_added

def estimate_similarity (src dst : filespec) (minimum_score : Nat) : Option Int :=
  if !src.S_ISREG || !dst.S_ISREG then some 0
  else if src.populate true || dst.populate true then some 0
  else do
    let max_size := if dst.size < src.size then src.size else dst.size
    let base_size := if src.size < dst.size then src.size else dst.size
    let delta_size ← sub64 max_size base_size
    let slack := rnd (MAX_SCORE - minimum_score)
    if mul (of_nat max_size) slack < mul (of_nat delta_size) MAX_SCORE then return 0
    else if src.populate false || dst.populate false then return 0
    else
      let limit ← div (mul (of_nat base_size) slack) MAX_SCORE
      let _delta_limit ← to_ulong limit
      let (src_copied, _) ← diffcore_count_changes src.one dst.one
      if dst.size = 0 then return 0
      else
        let quotient ← div (mul (of_nat src_copied) MAX_SCORE) (of_nat max_size)
        to_int quotient

end git.similarity
