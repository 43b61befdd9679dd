-- The search in an open pack index: what `find_pack_entry_one` gives for every
-- name, listed or not.
import Git.PackIdxTables

namespace git.pack_idx

/-! ## What an open index reads -/

/-- Where the first-level table, the names and their next neighbours stand. -/
def pack_index.level1_ofs (p : pack_index) : Nat := if 1 < p.index_version then 8 else 0

def pack_index.names (p : pack_index) : Nat := if 1 < p.index_version then 1032 else 1028

def pack_index.stride (p : pack_index) : BitVec 32 := if 1 < p.index_version then 20 else 24

/-- The open index `p` tells of the list `l`. `stray` is what stands in the place
behind the last name, and `past` the offset that is read for that place. -/
structure Reads (p : pack_index) (l : List pack_idx_entry) (stray : Sha1) (past : Option Nat) :
    Prop where
  sorted : Sorted l
  small : l.length < 2 ^ 28
  num : p.num_objects = BitVec.ofNat 32 l.length
  fan : ∀ k < 256, ∃ tail,
    p.index_data.drop (p.level1_ofs + 4 * k) = htonl (fan l (k + 1)) ++ tail
  name : ∀ i (hi : i < l.length), ∃ tail,
    p.index_data.drop (p.names + (BitVec.ofNat 32 i * p.stride).toNat) = l[i].sha1.toList ++ tail
  stray : ∃ tail,
    p.index_data.drop (p.names + (p.num_objects * p.stride).toNat) = stray.toList ++ tail
  offset : ∀ i (hi : i < l.length),
    nth_packed_object_offset p (BitVec.ofNat 32 i) = some l[i].offset
  past : nth_packed_object_offset p p.num_objects = past

variable {p : pack_index} {l : List pack_idx_entry} {stray : Sha1} {past : Option Nat}

/-- How the name that is sought compares with the one at a place. -/
def probe (l : List pack_idx_entry) (sha1 : Sha1) (i : Nat) : Ordering :=
  (l[i]?.map (fun obj => (hashcmp obj.sha1 sha1).swap)).getD .eq

theorem probe_compares {i : Nat} (hi : i < l.length) (sha1 : Sha1) :
    (probe l sha1 i).Compares sha1.toList l[i].sha1.toList := by
  unfold probe
  rw [List.getElem?_eq_getElem hi]
  exact Ordering.compares_swap.mpr (hashcmp_compares _ _)

theorem middle {lo hi : Nat} (h : lo + hi < 2 ^ 32) :
    (BitVec.ofNat 32 lo + BitVec.ofNat 32 hi) / 2 = BitVec.ofNat 32 ((lo + hi) / 2) := by
  have htwo : (2 : BitVec 32).toNat = 2 := rfl
  apply BitVec.eq_of_toNat_eq
  simp only [BitVec.toNat_udiv, BitVec.toNat_add, BitVec.toNat_ofNat, htwo]
  omega

theorem ofNat_succ (i : Nat) : BitVec.ofNat 32 i + 1 = BitVec.ofNat 32 (i + 1) := by
  rw [BitVec.ofNat_add]
  rfl

theorem ofNat_lt {i j : Nat} (hi : i < 2 ^ 32) (hj : j < 2 ^ 32) :
    BitVec.ofNat 32 i < BitVec.ofNat 32 j ↔ i < j := by
  rw [BitVec.lt_def, BitVec.toNat_ofNat, BitVec.toNat_ofNat, Nat.mod_eq_of_lt hi,
    Nat.mod_eq_of_lt hj]

/-- A bucket that is not empty is searched by halves. -/
theorem find_from_bucket (h : Reads p l stray past) (sha1 : Sha1) {turns lo hi : Nat}
    (hlt : lo < hi) (hhi : hi ≤ l.length) :
    find_from p p.names p.stride sha1 turns (BitVec.ofNat 32 lo) (BitVec.ofNat 32 hi) =
      match bsearch.loop (probe l sha1) turns lo hi with
      | .found i => nth_packed_object_offset p (BitVec.ofNat 32 i)
      | .absent _ => some 0 := by
  induction turns generalizing lo hi with
  | zero => rfl
  | succ turns ih =>
    have hsmall := h.small
    have hmi : (lo + hi) / 2 < l.length := by omega
    obtain ⟨tail, hname⟩ := h.name _ hmi
    have hmid := @middle lo hi (by omega)
    have hprobe : probe l sha1 ((lo + hi) / 2) = (hashcmp l[(lo + hi) / 2].sha1 sha1).swap := by
      unfold probe
      rw [List.getElem?_eq_getElem hmi]
      rfl
    have hlow := @ofNat_lt lo ((lo + hi) / 2) (by omega) (by omega)
    have hnext := ofNat_succ ((lo + hi) / 2)
    have hhigh := @ofNat_lt ((lo + hi) / 2 + 1) hi (by omega) (by omega)
    rw [find_from]
    simp only [hmid, hname, sha1_at_append]
    rw [bsearch.loop, if_pos hlt]
    simp only [hprobe]
    cases hashcmp l[(lo + hi) / 2].sha1 sha1 with
    | eq => rfl
    | gt =>
      simp only [Ordering.swap, hlow]
      split_ifs with hgo
      · exact ih hgo (by omega)
      · have hstop : bsearch.loop (probe l sha1) turns lo ((lo + hi) / 2) = .absent lo := by
          cases turns with
          | zero => rfl
          | succ turns => rw [bsearch.loop, if_neg hgo]
        rw [hstop]
    | lt =>
      simp only [Ordering.swap, hnext, hhigh]
      split_ifs with hgo
      · exact ih hgo hhi
      · have hstop : bsearch.loop (probe l sha1) turns ((lo + hi) / 2 + 1) hi =
            .absent ((lo + hi) / 2 + 1) := by
          cases turns with
          | zero => rfl
          | succ turns => rw [bsearch.loop, if_neg hgo]
        rw [hstop]

/-- An empty bucket has its one turn at the place where the next bucket begins. -/
theorem find_from_empty (h : Reads p l stray past) (sha1 : Sha1) {lo : Nat} (hlo : lo ≤ l.length)
    (hnext : ∀ hlt : lo < l.length, sha1.toList < l[lo].sha1.toList) :
    find_from p p.names p.stride sha1 1 (BitVec.ofNat 32 lo) (BitVec.ofNat 32 lo) =
      if lo = l.length ∧ stray = sha1 then past else some 0 := by
  have hsmall := h.small
  have hmid : (BitVec.ofNat 32 lo + BitVec.ofNat 32 lo) / 2 = BitVec.ofNat 32 lo := by
    rw [middle (by omega)]
    congr 1
    omega
  have hdown : ¬ BitVec.ofNat 32 lo < BitVec.ofNat 32 lo := BitVec.lt_irrefl _
  have hup : ¬ BitVec.ofNat 32 lo + 1 < BitVec.ofNat 32 lo := by
    rw [ofNat_succ, ofNat_lt (by omega) (by omega)]
    omega
  rw [find_from]
  simp only [hmid, if_neg hdown, if_neg hup]
  rcases Nat.eq_or_lt_of_le hlo with heq | hlt
  · obtain ⟨tail, hstray⟩ := h.stray
    rw [h.num, ← heq] at hstray
    simp only [hstray, sha1_at_append]
    by_cases hsha1 : stray = sha1
    · rw [(hashcmp_eq_iff stray sha1).mpr hsha1, if_pos ⟨heq, hsha1⟩, heq, ← h.num]
      exact h.past
    · have hne := mt (hashcmp_eq_iff stray sha1).mp hsha1
      rw [if_neg (fun hand => hsha1 hand.2)]
      cases hcmp : hashcmp stray sha1 with
      | eq => exact absurd hcmp hne
      | lt => rfl
      | gt => rfl
  · obtain ⟨tail, hname⟩ := h.name lo hlt
    have hgt : hashcmp l[lo].sha1 sha1 = .gt := (hashcmp_compares _ _).eq_gt.mpr (hnext hlt)
    simp only [hname, sha1_at_append, hgt]
    rw [if_neg (fun hand => hlt.ne hand.1)]

theorem fan_toNat (h : Reads p l stray past) (k : Nat) : (fan l k).toNat = below l k := by
  have hle := below_le l k
  have hsmall := h.small
  unfold fan
  rw [BitVec.toNat_ofNat]
  exact Nat.mod_eq_of_lt (by omega)

/-- The search goes through the bucket of the first byte. -/
theorem find_eq_find_from (h : Reads p l stray past) {file : packed_git}
    (hopen : open_pack_index file = some p) (sha1 : Sha1) :
    find_pack_entry_one sha1 file =
      find_from p p.names p.stride sha1
        (below l (first_byte sha1 + 1) - below l (first_byte sha1) + 1)
        (fan l (first_byte sha1)) (fan l (first_byte sha1 + 1)) := by
  obtain ⟨tail, hhi⟩ := h.fan _ (first_byte_lt sha1)
  have hlo : (if first_byte sha1 = 0 then some 0
      else (ntohl (p.index_data.drop (p.level1_ofs + 4 * (first_byte sha1 - 1)))).map
        (fun r => r.1)) = some (fan l (first_byte sha1)) := by
    split_ifs with hzero
    · rw [hzero, fan, below_zero]
      rfl
    · obtain ⟨tail, hlo⟩ := h.fan (first_byte sha1 - 1) (by
        have := first_byte_lt sha1
        omega)
      rw [hlo, ntohl_htonl, Nat.sub_add_cancel (Nat.pos_of_ne_zero hzero)]
      rfl
  have hle : fan l (first_byte sha1) ≤ fan l (first_byte sha1 + 1) := by
    rw [BitVec.le_def, fan_toNat h, fan_toNat h]
    exact below_mono l (Nat.le_succ _)
  have hturns : (fan l (first_byte sha1 + 1) - fan l (first_byte sha1)).toNat =
      below l (first_byte sha1 + 1) - below l (first_byte sha1) := by
    rw [BitVec.toNat_sub_of_le hle, fan_toNat h, fan_toNat h]
  unfold pack_index.level1_ofs at hhi hlo
  unfold first_byte at *
  unfold find_pack_entry_one
  simp only [hopen, hhi, hlo, ntohl_htonl, hturns]
  unfold pack_index.names pack_index.stride
  split_ifs
  · rfl
  · rfl

/-- What a search finds: the offset of a listed name, and for every other name
nothing, but for the stray one when no bucket begins at its first byte or later. -/
theorem find_spec (h : Reads p l stray past) {file : packed_git}
    (hopen : open_pack_index file = some p) (sha1 : Sha1) :
    (∃ obj ∈ l, obj.sha1 = sha1 ∧ find_pack_entry_one sha1 file = some obj.offset) ∨
      (∀ obj ∈ l, obj.sha1 ≠ sha1) ∧ find_pack_entry_one sha1 file =
        if below l (first_byte sha1) = l.length ∧ stray = sha1 then past else some 0 := by
  have hlo := below_le l (first_byte sha1)
  have hhi := below_le l (first_byte sha1 + 1)
  have hmono : below l (first_byte sha1) ≤ below l (first_byte sha1 + 1) :=
    below_mono l (Nat.le_succ _)
  rw [find_eq_find_from h hopen]
  unfold fan
  rcases Nat.eq_or_lt_of_le hmono with heq | hlt
  · right
    have hnext : ∀ hlt : below l (first_byte sha1) < l.length,
        sha1.toList < l[below l (first_byte sha1)].sha1.toList := by
      intro hlt
      apply lt_of_first_byte_lt
      have := (lt_below_iff h.sorted (first_byte sha1 + 1) hlt).not.mp (by omega)
      omega
    refine ⟨?_, ?_⟩
    · intro obj hobj hsha1
      obtain ⟨i, hi, rfl⟩ := List.getElem_of_mem hobj
      have h1 := (lt_below_iff h.sorted (first_byte sha1) hi).not.mpr (by rw [hsha1]; omega)
      have h2 := (lt_below_iff h.sorted (first_byte sha1 + 1) hi).mpr (by rw [hsha1]; omega)
      omega
    · rw [← heq, Nat.sub_self]
      exact find_from_empty h sha1 hlo hnext
  · rw [find_from_bucket h sha1 hlt hhi]
    have hspec := bsearch.loop_spec (probe l sha1) l.length
      (below l (first_byte sha1 + 1) - below l (first_byte sha1) + 1) _ _ hhi hmono ?_ ?_
      (by omega) ⟨?_, ?_⟩
    · rcases hspec with ⟨i, hi, hfound, heq⟩ | ⟨i, hi, habsent, hbefore, hbehind⟩
      · left
        have hsha1 : l[i].sha1 = sha1 :=
          (Vector.toList_inj.mp ((probe_compares hi sha1).eq_eq.mp heq)).symm
        refine ⟨l[i], List.getElem_mem hi, hsha1, ?_⟩
        rw [hfound]
        exact h.offset i hi
      · right
        refine ⟨?_, ?_⟩
        · intro obj hobj hsha1
          obtain ⟨j, hj, rfl⟩ := List.getElem_of_mem hobj
          have hprobe : probe l sha1 j = .eq :=
            (probe_compares hj sha1).eq_eq.mpr (congrArg Vector.toList hsha1.symm)
          rcases Nat.lt_or_ge j i with hji | hij
          · exact absurd (hprobe.symm.trans (hbefore j hji)) (by decide)
          · exact absurd (hprobe.symm.trans (hbehind j hij hj)) (by decide)
        · rw [habsent, if_neg (fun hand => absurd hand.1 (by omega))]
    · intro i j hij hj hi
      have h1 := (probe_compares (hij.trans hj) sha1).eq_lt.mp hi
      exact (probe_compares hj sha1).eq_lt.mpr (h1.trans (h.sorted.lt hij _ hj))
    · intro i j hij hj hi
      have h1 := (probe_compares hj sha1).eq_gt.mp hi
      exact (probe_compares (hij.trans hj) sha1).eq_gt.mpr ((h.sorted.lt hij _ hj).trans h1)
    · intro i hi
      have hil : i < l.length := by omega
      exact (probe_compares hil sha1).eq_gt.mpr
        (lt_of_first_byte_lt ((lt_below_iff h.sorted _ hil).mp hi))
    · intro i hi hil
      have := (lt_below_iff h.sorted (first_byte sha1 + 1) hil).not.mp (by omega)
      exact (probe_compares hil sha1).eq_lt.mpr (lt_of_first_byte_lt (by omega))

end git.pack_idx
