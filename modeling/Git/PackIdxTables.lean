-- The tables of the pack index: what stands at each place of them.
import Git.Lib.Records
import Git.PackIdx

namespace git.pack_idx

/-! ## The order of the names -/

theorem hashcmp_compares (sha1 sha2 : Sha1) :
    (hashcmp sha1 sha2).Compares sha1.toList sha2.toList := by
  have h := memcmp_compares sha1.toList sha2.toList
  have h1 : sha1.toList.length = 20 := by simp
  have h2 : sha2.toList.length = 20 := by simp
  rw [h1, h2, Nat.min_self] at h
  unfold hashcmp
  revert h
  split_ifs with hne h20
  · exact fun h => h
  · exact absurd h20 (Nat.lt_irrefl 20)
  · rw [not_not.mp hne]
    exact fun h => h

theorem hashcmp_eq_iff (sha1 sha2 : Sha1) : hashcmp sha1 sha2 = .eq ↔ sha1 = sha2 := by
  rw [(hashcmp_compares sha1 sha2).eq_eq]
  exact Vector.toList_inj

theorem first_byte_lt (sha1 : Sha1) : first_byte sha1 < 256 := UInt8.toNat_lt _

theorem lt_of_first_byte_lt {sha1 sha2 : Sha1} (h : first_byte sha1 < first_byte sha2) :
    sha1.toList < sha2.toList := by
  obtain ⟨tail1, h1⟩ := toList_eq_cons sha1
  obtain ⟨tail2, h2⟩ := toList_eq_cons sha2
  rw [h1, h2]
  exact List.cons_lt_cons_iff.mpr (Or.inl h)

theorem first_byte_le_of_lt {sha1 sha2 : Sha1} (h : sha1.toList < sha2.toList) :
    first_byte sha1 ≤ first_byte sha2 := by
  by_contra hlt
  exact absurd h (lt_of_first_byte_lt (not_le.mp hlt)).not_gt

/-- A list in the order of the names. -/
def Sorted (l : List pack_idx_entry) : Prop :=
  bsearch.Ascends (fun obj : pack_idx_entry => obj.sha1.toList) l

theorem Sorted.tail {obj : pack_idx_entry} {l : List pack_idx_entry} (h : Sorted (obj :: l)) :
    Sorted l := List.Pairwise.of_cons h

theorem Sorted.first_byte_le {obj : pack_idx_entry} {l : List pack_idx_entry}
    (h : Sorted (obj :: l)) {e : pack_idx_entry} (he : e ∈ l) :
    first_byte obj.sha1 ≤ first_byte e.sha1 :=
  first_byte_le_of_lt (List.rel_of_pairwise_cons h he)

theorem sorted_by_sha_perm (objects : List pack_idx_entry) :
    (sorted_by_sha objects).Perm objects := List.mergeSort_perm _ _

theorem sha1_compare_ne_gt (a b : pack_idx_entry) :
    (sha1_compare a b != .gt) = true ↔ a.sha1.toList ≤ b.sha1.toList := by
  have h := hashcmp_compares a.sha1 b.sha1
  unfold sha1_compare
  rw [bne_iff_ne, ne_eq, h.eq_gt, not_lt]

theorem sorted_by_sha_sorted {objects : List pack_idx_entry}
    (hnodup : (objects.map (·.sha1)).Nodup) : Sorted (sorted_by_sha objects) := by
  have hle : (sorted_by_sha objects).Pairwise (fun a b => a.sha1.toList ≤ b.sha1.toList) := by
    refine (List.pairwise_mergeSort ?_ ?_ objects).imp (fun h => (sha1_compare_ne_gt _ _).mp h)
    · intro a b c hab hbc
      rw [sha1_compare_ne_gt] at hab hbc ⊢
      exact hab.trans hbc
    · intro a b
      rw [Bool.or_eq_true, sha1_compare_ne_gt, sha1_compare_ne_gt]
      exact le_total _ _
  have hne : (sorted_by_sha objects).Pairwise (fun a b => a.sha1 ≠ b.sha1) := by
    have hperm := (sorted_by_sha_perm objects).map (·.sha1)
    exact List.pairwise_map.mp (hperm.nodup_iff.mpr hnodup)
  apply (hle.and hne).imp
  rintro a b ⟨h1, h2⟩
  exact lt_of_le_of_ne h1 (fun heq => h2 (Vector.toList_inj.mp heq))

theorem Sorted.not_twice {l : List pack_idx_entry} (h : Sorted l) : appears_twice l = false := by
  induction l with
  | nil => rfl
  | cons a l ih =>
    cases l with
    | nil => rfl
    | cons b l =>
      have hlt : a.sha1.toList < b.sha1.toList := List.rel_of_pairwise_cons h List.mem_cons_self
      have hne : hashcmp a.sha1 b.sha1 = .lt := (hashcmp_compares _ _).eq_lt.mpr hlt
      unfold appears_twice
      rw [hne, ih h.tail]
      rfl

/-! ## The first-level table -/

/-- How many names have a first byte below `k`. -/
def below (l : List pack_idx_entry) (k : Nat) : Nat :=
  l.countP (fun obj => first_byte obj.sha1 < k)

theorem below_le (l : List pack_idx_entry) (k : Nat) : below l k ≤ l.length :=
  List.countP_le_length

theorem below_zero (l : List pack_idx_entry) : below l 0 = 0 := by simp [below]

theorem below_mono (l : List pack_idx_entry) {j k : Nat} (h : j ≤ k) :
    below l j ≤ below l k := by
  apply List.countP_mono_left
  intro obj _ hlt
  simp only [decide_eq_true_eq] at hlt ⊢
  exact hlt.trans_le h

theorem below_all (l : List pack_idx_entry) : below l 256 = l.length := by
  apply List.countP_eq_length.mpr
  intro obj _
  exact decide_eq_true (first_byte_lt obj.sha1)

/-- The names with a first byte below `k` stand in front. -/
theorem lt_below_iff {l : List pack_idx_entry} (h : Sorted l) (k : Nat) {i : Nat}
    (hi : i < l.length) : i < below l k ↔ first_byte l[i].sha1 < k := by
  induction l generalizing i with
  | nil => exact absurd hi (Nat.not_lt_zero i)
  | cons obj l ih =>
    by_cases hobj : first_byte obj.sha1 < k
    · have hcount : below (obj :: l) k = below l k + 1 :=
        List.countP_cons_of_pos (decide_eq_true hobj)
      rw [hcount]
      cases i with
      | zero => simpa using hobj
      | succ i =>
        rw [Nat.add_lt_add_iff_right, ih h.tail (Nat.lt_of_succ_lt_succ hi)]
        rfl
    · have hall : ∀ e ∈ obj :: l, ¬ first_byte e.sha1 < k := by
        intro e he
        rcases List.mem_cons.mp he with rfl | he
        · exact hobj
        · exact fun hlt => hobj ((h.first_byte_le he).trans_lt hlt)
      have hzero : below (obj :: l) k = 0 := by
        apply List.countP_eq_zero.mpr
        intro e he
        simpa using hall e he
      rw [hzero]
      exact iff_of_false (Nat.not_lt_zero i) (hall _ (List.getElem_mem hi))

/-- The word of the first-level table for the first bytes below `k`. -/
def fan (l : List pack_idx_entry) (k : Nat) : BitVec 32 := BitVec.ofNat 32 (below l k)

/-- The entries whose first byte is `i` come off the front of those from `i` on. -/
theorem below_takeWhile {l : List pack_idx_entry} (h : Sorted l) {i : Nat}
    (hi : ∀ e ∈ l, i ≤ first_byte e.sha1) :
    (l.takeWhile (fun obj => first_byte obj.sha1 == i)).length = below l (i + 1) := by
  induction l with
  | nil => rfl
  | cons obj l ih =>
    have hobj := hi obj List.mem_cons_self
    by_cases heq : first_byte obj.sha1 = i
    · have htest : (first_byte obj.sha1 == i) = true := beq_iff_eq.mpr heq
      have hcount : below (obj :: l) (i + 1) = below l (i + 1) + 1 :=
        List.countP_cons_of_pos (decide_eq_true (by omega))
      rw [List.takeWhile_cons, if_pos htest, List.length_cons, hcount,
        ih h.tail (fun e he => hi e (List.mem_cons_of_mem _ he))]
    · have htest : ¬ (first_byte obj.sha1 == i) = true := fun hb => heq (beq_iff_eq.mp hb)
      have hzero : below (obj :: l) (i + 1) = 0 := by
        apply List.countP_eq_zero.mpr
        intro e he
        have hle : first_byte obj.sha1 ≤ first_byte e.sha1 := by
          rcases List.mem_cons.mp he with rfl | he
          · exact Nat.le_refl _
          · exact h.first_byte_le he
        simp only [decide_eq_true_eq]
        omega
      rw [List.takeWhile_cons, if_neg htest, hzero]
      rfl

theorem first_level_eq {turns i passed : Nat} {l : List pack_idx_entry} (h : Sorted l)
    (hi : ∀ e ∈ l, i ≤ first_byte e.sha1) :
    first_level turns i passed l =
      (List.range' i turns).flatMap
        (fun j => htonl (BitVec.ofNat 32 (passed + below l (j + 1)))) := by
  induction turns generalizing i passed l with
  | zero => rfl
  | succ turns ih =>
    have hsame := below_takeWhile h hi
    unfold first_byte at hsame
    have hrest : ∀ e ∈ l.drop (below l (i + 1)), i + 1 ≤ first_byte e.sha1 := by
      intro e he
      obtain ⟨j, hj, rfl⟩ := List.getElem_of_mem he
      rw [List.length_drop] at hj
      rw [List.getElem_drop]
      have := (lt_below_iff h (i + 1) (i := below l (i + 1) + j) (by omega)).not.mp (by omega)
      omega
    have hsorted : Sorted (l.drop (below l (i + 1))) := h.sublist (List.drop_sublist _ l)
    have hword : ∀ j ∈ List.range' (i + 1) turns,
        htonl (BitVec.ofNat 32 (passed + below l (i + 1) +
            below (l.drop (below l (i + 1))) (j + 1))) =
          htonl (BitVec.ofNat 32 (passed + below l (j + 1))) := by
      intro j hj
      have hij : i + 1 ≤ j := (List.mem_range'_1.mp hj).1
      have htake : below (l.take (below l (i + 1))) (j + 1) = below l (i + 1) := by
        have hle := below_le l (i + 1)
        have hfull : below (l.take (below l (i + 1))) (j + 1) =
            (l.take (below l (i + 1))).length := by
          apply List.countP_eq_length.mpr
          intro e he
          obtain ⟨m, hm, rfl⟩ := List.getElem_of_mem he
          rw [List.length_take] at hm
          rw [List.getElem_take]
          have := (lt_below_iff h (i + 1) (i := m) (by omega)).mp (by omega)
          simp only [decide_eq_true_eq]
          omega
        rw [hfull, List.length_take, Nat.min_eq_left hle]
      have hsplit : below l (j + 1) =
          below (l.take (below l (i + 1))) (j + 1) + below (l.drop (below l (i + 1))) (j + 1) := by
        unfold below
        rw [← List.countP_append, List.take_append_drop]
      rw [hsplit, htake, Nat.add_assoc]
    rw [first_level]
    simp only [hsame]
    rw [ih hsorted hrest, List.range'_succ, List.flatMap_cons]
    congr 1
    exact List.flatMap_congr hword

/-- The whole table. -/
theorem first_level_words {l : List pack_idx_entry} (h : Sorted l) :
    first_level 256 0 0 l = (List.range' 0 256).flatMap (fun j => htonl (fan l (j + 1))) := by
  rw [first_level_eq h (fun _ _ => Nat.zero_le _)]
  simp only [Nat.zero_add]
  rfl

/-- Words that do not fall pass the check. -/
theorem monotonic_words {word : Nat → BitVec 32} (hmono : ∀ j, word j ≤ word (j + 1))
    (turns i : Nat) (rest : Bytes) :
    monotonic turns (word i)
        ((List.range' i turns).flatMap (fun j => htonl (word (j + 1))) ++ rest) =
      some (word (i + turns)) := by
  induction turns generalizing i with
  | zero => rfl
  | succ turns ih =>
    have hlt : ¬ word (i + 1) < word i := BitVec.not_lt.mpr (hmono i)
    rw [List.range'_succ, List.flatMap_cons, List.append_assoc]
    unfold monotonic
    simp only [ntohl_htonl]
    rw [if_neg hlt, ih (i + 1)]
    congr 2
    omega

/-! ## The offset tables -/

/-- The offsets that go to the table of large ones. -/
def Large (opts : pack_idx_option) (obj : pack_idx_entry) : Bool :=
  need_large_offset obj.offset opts

theorem offset_table_count (opts : pack_idx_option) (nr : Nat) (l : List pack_idx_entry) :
    (offset_table opts nr l).2 = nr + l.countP (Large opts) := by
  induction l generalizing nr with
  | nil => rfl
  | cons obj l ih =>
    unfold offset_table
    by_cases hlarge : need_large_offset obj.offset opts
    · rw [if_pos hlarge, List.countP_cons_of_pos (show Large opts obj = true from hlarge)]
      simp only [ih]
      omega
    · rw [if_neg hlarge, List.countP_cons_of_neg (show ¬ Large opts obj = true from hlarge)]
      simp only [ih]

@[simp] theorem length_offset_table (opts : pack_idx_option) (nr : Nat) (l : List pack_idx_entry) :
    (offset_table opts nr l).1.length = 4 * l.length := by
  induction l generalizing nr with
  | nil => rfl
  | cons obj l ih =>
    unfold offset_table
    split_ifs
    · simp only [List.length_append, length_htonl, ih, List.length_cons]
      omega
    · simp only [List.length_append, length_htonl, ih, List.length_cons]
      omega

/-- The word for an offset: its own, or its place in the table of large ones. -/
def offset_word (opts : pack_idx_option) (nr : Nat) (obj : pack_idx_entry) : BitVec 32 :=
  if Large opts obj then 0x80000000 ||| BitVec.ofNat 32 nr else BitVec.ofNat 32 obj.offset

theorem offset_table_get (opts : pack_idx_option) {nr : Nat} {l : List pack_idx_entry} {i : Nat}
    (hi : i < l.length) (rest : Bytes) :
    ∃ tail, ((offset_table opts nr l).1 ++ rest).drop (4 * i) =
      htonl (offset_word opts (nr + (l.take i).countP (Large opts)) l[i]) ++ tail := by
  induction l generalizing nr i with
  | nil => exact absurd hi (Nat.not_lt_zero i)
  | cons obj l ih =>
    by_cases hlarge : Large opts obj
    · have htable : offset_table opts nr (obj :: l) =
          (htonl (0x80000000 ||| BitVec.ofNat 32 nr) ++ (offset_table opts (nr + 1) l).1,
            (offset_table opts (nr + 1) l).2) := by
        rw [offset_table]
        exact if_pos hlarge
      rw [htable]
      cases i with
      | zero =>
        refine ⟨(offset_table opts (nr + 1) l).1 ++ rest, ?_⟩
        simp [offset_word, hlarge, List.append_assoc]
      | succ i =>
        obtain ⟨tail, htail⟩ := @ih (nr + 1) i (Nat.lt_of_succ_lt_succ hi)
        refine ⟨tail, ?_⟩
        have h4 : 4 * (i + 1) = (htonl (0x80000000 ||| BitVec.ofNat 32 nr)).length + 4 * i := by
          rw [length_htonl]
          omega
        rw [List.append_assoc, h4, List.drop_length_add_append, htail, List.take_succ_cons,
          List.countP_cons_of_pos hlarge, List.getElem_cons_succ]
        congr 3
        omega
    · have htable : offset_table opts nr (obj :: l) =
          (htonl (BitVec.ofNat 32 obj.offset) ++ (offset_table opts nr l).1,
            (offset_table opts nr l).2) := by
        rw [offset_table]
        exact if_neg hlarge
      rw [htable]
      cases i with
      | zero =>
        refine ⟨(offset_table opts nr l).1 ++ rest, ?_⟩
        simp [offset_word, hlarge, List.append_assoc]
      | succ i =>
        obtain ⟨tail, htail⟩ := @ih nr i (Nat.lt_of_succ_lt_succ hi)
        refine ⟨tail, ?_⟩
        have h4 : 4 * (i + 1) = (htonl (BitVec.ofNat 32 obj.offset)).length + 4 * i := by
          rw [length_htonl]
          omega
        rw [List.append_assoc, h4, List.drop_length_add_append, htail, List.take_succ_cons,
          List.countP_cons_of_neg hlarge, List.getElem_cons_succ]

/-- The two words of a large offset. -/
def split (obj : pack_idx_entry) : Bytes :=
  htonl (BitVec.ofNat 32 (obj.offset >>> 32)) ++ htonl (BitVec.ofNat 32 obj.offset)

@[simp] theorem length_split (obj : pack_idx_entry) : (split obj).length = 8 := by simp [split]

theorem large_offset_table_eq (opts : pack_idx_option) (l : List pack_idx_entry) :
    large_offset_table opts (l.countP (Large opts)) l = (l.filter (Large opts)).flatMap split := by
  induction l with
  | nil => rfl
  | cons obj l ih =>
    by_cases hlarge : Large opts obj
    · rw [List.countP_cons_of_pos hlarge, List.filter_cons_of_pos hlarge, List.flatMap_cons,
        large_offset_table, ← ih]
      exact if_pos hlarge
    · rw [List.countP_cons_of_neg hlarge, List.filter_cons_of_neg hlarge, ← ih]
      cases l.countP (Large opts) with
      | zero => simp [large_offset_table]
      | succ nr =>
        rw [large_offset_table]
        exact if_neg hlarge

/-- The large offsets stand in the order of the names. -/
theorem filter_get {α : Type} {p : α → Bool} {l : List α} {i : Nat} (hi : i < l.length)
    (hp : p l[i] = true) :
    ∃ h : (l.take i).countP p < (l.filter p).length,
      (l.filter p)[(l.take i).countP p] = l[i] := by
  have hl : l = l.take i ++ l[i] :: l.drop (i + 1) := by
    rw [← List.drop_eq_getElem_cons hi, List.take_append_drop]
  have hfilter : l.filter p = (l.take i).filter p ++ l[i] :: (l.drop (i + 1)).filter p := by
    conv_lhs => rw [hl]
    rw [List.filter_append, List.filter_cons_of_pos hp]
  have hcount : (l.take i).countP p = ((l.take i).filter p).length := List.countP_eq_length_filter
  have hlt : (l.take i).countP p < (l.filter p).length := by
    rw [hfilter, List.length_append, List.length_cons, hcount]
    omega
  refine ⟨hlt, ?_⟩
  simp only [hfilter, hcount]
  rw [List.getElem_append_right (Nat.le_refl _)]
  simp

end git.pack_idx
