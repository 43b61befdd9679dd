-- A delta that `create_delta` returns gives the target back: what the loop has
-- emitted always says the target up to `data`, as opcodes and open literals.
import Git.DiffDelta

namespace git.delta

/-! ## The index stays in the source -/

theorem populate_inside (buffer : Bytes) (bound n : Nat) :
    ∀ (prev_val : UInt32) (entries : List index_entry), n * RABIN_WINDOW ≤ bound →
      (∀ e ∈ entries, e.ptr ≤ bound) →
      ∀ e ∈ populate buffer n prev_val entries, e.ptr ≤ bound := by
  induction n with
  | zero => exact fun _ _ _ h => h
  | succ n ih =>
    intro prev_val entries hn h
    have hend : n * RABIN_WINDOW + RABIN_WINDOW ≤ bound := by
      rw [← Nat.succ_mul]
      exact hn
    unfold populate
    dsimp only
    split
    · split
      · exact ih _ _ (by omega) h
      · next entry rest =>
        apply ih _ _ (by omega)
        intro e he
        rcases List.mem_cons.mp he with rfl | he
        · exact hend
        · exact h e (List.mem_cons_of_mem _ he)
    · apply ih _ _ (by omega)
      intro e he
      rcases List.mem_cons.mp he with rfl | he
      · exact hend
      · exact h e he

theorem cull_skip_subset (acc : Int) (l : List index_entry) : (cull_skip acc l).2 ⊆ l := by
  induction l generalizing acc with
  | nil => exact fun _ h => h
  | cons e rest ih =>
    rw [cull_skip]
    split
    · exact List.Subset.trans (ih _) (List.subset_cons_self _ _)
    · exact List.subset_cons_self _ _

theorem cull_subset (count fuel : Nat) (acc : Int) (l : List index_entry) :
    cull count fuel acc l ⊆ l := by
  induction fuel generalizing acc l with
  | zero => simp [cull]
  | succ fuel ih =>
    cases l with
    | nil => simp [cull]
    | cons e rest =>
      rw [cull]
      split
      · apply List.cons_subset_cons
        exact List.Subset.trans (ih _ _) (cull_skip_subset _ _)
      · exact List.cons_subset_cons _ (ih _ _)

theorem cull_bucket_subset (l : List index_entry) : cull_bucket l ⊆ l := by
  rw [cull_bucket]
  split
  · exact fun _ h => h
  · exact cull_subset _ _ _ _

theorem index_entries_inside (n : Nat) : index_entries n * RABIN_WINDOW ≤ n := by
  rw [index_entries, RABIN_WINDOW]
  split <;> omega

/-- Every entry is the end of a block of the source. -/
def InSource (src : Bytes) (index : delta_index) : Prop :=
  index.src_buf = src ∧ ∀ i, ∀ e ∈ index.hash i, e.ptr ≤ src.length

theorem create_delta_index_in_source {buf : Bytes} {index : delta_index}
    (h : create_delta_index buf = some index) : InSource buf index := by
  rw [create_delta_index] at h
  by_cases hnil : buf = []
  · rw [if_pos hnil] at h
    cases h
  · rw [if_neg hnil] at h
    cases h
    refine ⟨rfl, fun i e he => ?_⟩
    have hmem := List.mem_of_mem_filter (cull_bucket_subset _ he)
    exact populate_inside buf buf.length _ _ _ (index_entries_inside _) (by simp) e hmem

theorem create_delta_index_some {buf : Bytes} (h : buf ≠ []) :
    ∃ index, create_delta_index buf = some index := by
  rw [create_delta_index, if_neg h]
  exact ⟨_, rfl⟩

/-! ## Matches -/

/-- The source from `moff` and the target from `data` agree over `msize` bytes. -/
structure Matched (src trg : Bytes) (data moff msize : Nat) : Prop where
  in_source : moff + msize ≤ src.length
  in_target : data + msize ≤ trg.length
  same : (src.drop moff).take msize = (trg.drop data).take msize

theorem common_length_spec (n : Nat) (a b : Bytes) :
    common_length n a b ≤ a.length ∧ common_length n a b ≤ b.length ∧
      a.take (common_length n a b) = b.take (common_length n a b) := by
  fun_induction common_length n a b with
  | case1 n s a b ih =>
    obtain ⟨ha, hb, heq⟩ := ih
    refine ⟨by simpa using ha, by simpa using hb, ?_⟩
    rw [List.take_succ_cons, List.take_succ_cons, heq]
  | case2 => simp
  | case3 => simp

/-- The match found last is one, whatever the entries' values say. -/
theorem best_match_matched {src trg : Bytes} {data : Nat} (val : UInt32)
    (hdata : data ≤ trg.length) (entries : List index_entry) :
    ∀ moff msize, (∀ e ∈ entries, e.ptr ≤ src.length) → Matched src trg data moff msize →
      Matched src trg data (best_match src trg data val entries moff msize).1
        (best_match src trg data val entries moff msize).2 := by
  induction entries with
  | nil => exact fun _ _ _ h => h
  | cons entry rest ih =>
    intro moff msize hin h
    have hrest : ∀ e ∈ rest, e.ptr ≤ src.length := fun e he => hin e (List.mem_cons_of_mem _ he)
    have hptr : entry.ptr ≤ src.length := hin entry List.mem_cons_self
    have hnew : ∀ n, Matched src trg data entry.ptr
        (common_length n (trg.drop data) (src.drop entry.ptr)) := by
      intro n
      obtain ⟨ht, hs, heq⟩ := common_length_spec n (trg.drop data) (src.drop entry.ptr)
      rw [List.length_drop] at ht hs
      exact ⟨by omega, by omega, heq.symm⟩
    rw [best_match]
    by_cases hval : entry.val ≠ val
    · rw [if_pos hval]
      exact ih _ _ hrest h
    · rw [if_neg hval]
      dsimp only
      split
      · exact h
      · split
        · split
          · exact hnew _
          · exact ih _ _ hrest (hnew _)
        · exact ih _ _ hrest h

/-- A match grows back over a byte that is the same. -/
theorem Matched.back {src trg : Bytes} {data moff msize : Nat}
    (h : Matched src trg data moff msize) (hmoff : moff ≠ 0) (hdata : data ≠ 0)
    (hb : src.getD (moff - 1) 0 = trg.getD (data - 1) 0) :
    Matched src trg (data - 1) (moff - 1) (msize + 1) := by
  have hs := h.in_source
  have ht := h.in_target
  refine ⟨by omega, by omega, ?_⟩
  have hsrc : src.drop (moff - 1) = src.getD (moff - 1) 0 :: src.drop moff := by
    rw [List.drop_eq_getElem_cons (show moff - 1 < src.length by omega),
      show moff - 1 + 1 = moff by omega, List.getD_eq_getElem _ _ (by omega)]
  have htrg : trg.drop (data - 1) = trg.getD (data - 1) 0 :: trg.drop data := by
    rw [List.drop_eq_getElem_cons (show data - 1 < trg.length by omega),
      show data - 1 + 1 = data by omega, List.getD_eq_getElem _ _ (by omega)]
  rw [hsrc, htrg, List.take_succ_cons, List.take_succ_cons, hb, h.same]

/-- The first `n` bytes of a match and the rest of it. -/
theorem Matched.take {src trg : Bytes} {data moff msize n : Nat}
    (h : Matched src trg data moff msize) (hn : n ≤ msize) :
    Matched src trg data moff n ∧ Matched src trg (data + n) (moff + n) (msize - n) := by
  have hs := h.in_source
  have ht := h.in_target
  have heq := h.same
  refine ⟨⟨by omega, by omega, ?_⟩, ⟨by omega, by omega, ?_⟩⟩
  · have := congrArg (List.take n) heq
    rw [List.take_take, List.take_take, Nat.min_eq_left hn] at this
    exact this
  · have := congrArg (List.drop n) heq
    rw [List.drop_take, List.drop_take, List.drop_drop, List.drop_drop] at this
    exact this

/-! ## What the loop has emitted -/

/-- The header and the opcodes `ops`, then a run of literals that is still
open, with the place of its count in front of it. -/
structure Emitting (src trg : Bytes) (s : delta_state) (ops : List opcode) (slot lits : Bytes) :
    Prop where
  sound : ∀ op ∈ ops, op.Sound src
  out_eq : s.out = hdr_bytes src.length ++ (hdr_bytes trg.length ++
    (ops.flatMap opcode.bytes ++ (slot ++ lits)))
  one_slot : slot.length = min 1 lits.length
  gives : ops.flatMap (opcode.gives src) ++ lits = trg.take s.data
  count : lits.length = s.inscnt
  count_lt : s.inscnt < 0x7f
  inside : s.data ≤ trg.length
  matched : Matched src trg s.data s.moff s.msize

/-- The count is put in front of the literals. -/
theorem set_count_eq (front slot lits : Bytes) (h : slot.length = 1) :
    set_count (front ++ (slot ++ lits)) lits.length =
      front ++ UInt8.ofNat lits.length :: lits := by
  obtain ⟨x, rfl⟩ := List.length_eq_one_iff.mp h
  have hpos : (front ++ ([x] ++ lits)).length - lits.length - 1 = front.length := by
    simp only [List.length_append, List.length_singleton]
    omega
  rw [set_count, hpos, List.set_append_right _ _ (le_refl _)]
  simp

/-- The literals become an opcode. -/
theorem Emitting.close {src trg : Bytes} {s : delta_state} {ops : List opcode} {slot lits : Bytes}
    (h : Emitting src trg s ops slot lits) (hne : s.inscnt ≠ 0) :
    (∀ op ∈ ops ++ [.insert lits], op.Sound src) ∧
      set_count s.out s.inscnt = hdr_bytes src.length ++ (hdr_bytes trg.length ++
        (ops ++ [opcode.insert lits]).flatMap opcode.bytes) ∧
      (ops ++ [opcode.insert lits]).flatMap (opcode.gives src) = trg.take s.data := by
  have hlen := h.count
  have hlt := h.count_lt
  have hslot : slot.length = 1 := by
    have := h.one_slot
    omega
  refine ⟨?_, ?_, ?_⟩
  · intro op hop
    rcases List.mem_append.mp hop with hop | hop
    · exact h.sound op hop
    · rw [List.mem_singleton.mp hop]
      exact ⟨by omega, by omega⟩
  · have := set_count_eq (hdr_bytes src.length ++ (hdr_bytes trg.length ++
      ops.flatMap opcode.bytes)) slot lits hslot
    rw [h.out_eq, ← hlen]
    simp only [List.append_assoc] at this ⊢
    rw [this, List.flatMap_append]
    simp [opcode.bytes]
  · rw [List.flatMap_append, ← h.gives]
    simp [opcode.gives]

theorem find_match_emitting {src trg : Bytes} {index : delta_index} (hi : InSource src index)
    {s : delta_state} {ops : List opcode} {slot lits : Bytes}
    (h : Emitting src trg s ops slot lits) :
    Emitting src trg (find_match index trg s) ops slot lits := by
  obtain ⟨rfl, hptr⟩ := hi
  rw [find_match]
  split
  · exact { h with matched := best_match_matched _ h.inside _ _ _ (hptr _) h.matched }
  · exact h

theorem take_succ_getD {l : Bytes} {n : Nat} (h : n < l.length) :
    l.take (n + 1) = l.take n ++ [l.getD n 0] := by
  rw [List.take_add_one, List.getElem?_eq_getElem h, List.getD_eq_getElem _ _ h]
  rfl

/-- A literal is added to the open run, which is closed when it is full. -/
theorem emit_literal_emitting {src trg : Bytes} {s : delta_state} {ops : List opcode}
    {slot lits : Bytes} (h : Emitting src trg s ops slot lits) (hdata : s.data < trg.length) :
    ∃ ops' slot' lits', Emitting src trg (emit_literal trg s) ops' slot' lits' := by
  have hlen := h.count
  have hin := h.matched.in_source
  have hslot := h.one_slot
  -- the run with the byte in it
  have hrun : ∃ slot', (if s.inscnt = 0 then s.out ++ [0] else s.out) ++ [trg.getD s.data 0] =
      hdr_bytes src.length ++ (hdr_bytes trg.length ++ (ops.flatMap opcode.bytes ++
        (slot' ++ (lits ++ [trg.getD s.data 0])))) ∧ slot'.length = 1 := by
    by_cases h0 : s.inscnt = 0
    · have hlits : lits = [] := List.eq_nil_of_length_eq_zero (by omega)
      have hnil : slot = [] := List.eq_nil_of_length_eq_zero (by omega)
      refine ⟨[0], ?_, rfl⟩
      rw [if_pos h0, h.out_eq, hlits, hnil]
      simp
    · refine ⟨slot, ?_, by omega⟩
      rw [if_neg h0, h.out_eq]
      simp
  obtain ⟨slot', hout, hone⟩ := hrun
  have hgives : ops.flatMap (opcode.gives src) ++ (lits ++ [trg.getD s.data 0]) =
      trg.take (s.data + 1) := by
    rw [← List.append_assoc, h.gives, take_succ_getD hdata]
  have hmatched : Matched src trg (s.data + 1) s.moff 0 := ⟨by omega, by omega, by simp⟩
  rw [emit_literal]
  by_cases hfull : s.inscnt + 1 = 0x7f
  · rw [if_pos hfull, hout]
    have hcount : (lits ++ [trg.getD s.data 0]).length = 0x7f := by
      simp only [List.length_append, List.length_singleton]
      omega
    have hset := set_count_eq (hdr_bytes src.length ++ (hdr_bytes trg.length ++
      ops.flatMap opcode.bytes)) slot' (lits ++ [trg.getD s.data 0]) hone
    rw [hcount] at hset
    refine ⟨ops ++ [.insert (lits ++ [trg.getD s.data 0])], [], [], ?_, ?_, rfl, ?_, rfl,
      by dsimp only; omega, hdata, hmatched⟩
    · intro op hop
      rcases List.mem_append.mp hop with hop | hop
      · exact h.sound op hop
      · rw [List.mem_singleton.mp hop]
        exact ⟨by omega, by omega⟩
    · have hbytes : [opcode.insert (lits ++ [trg.getD s.data 0])].flatMap opcode.bytes =
          UInt8.ofNat 0x7f :: (lits ++ [trg.getD s.data 0]) := by
        rw [List.flatMap_singleton, opcode.bytes, hcount]
      simp only [List.append_assoc] at hset ⊢
      rw [hset, List.flatMap_append, hbytes]
      simp
    · rw [List.append_nil, List.flatMap_append, ← hgives]
      simp [opcode.gives]
  · rw [if_neg hfull]
    refine ⟨ops, slot', lits ++ [trg.getD s.data 0], h.sound, hout, ?_, hgives, ?_, ?_, hdata,
      hmatched⟩
    · simp only [List.length_append, List.length_singleton]
      omega
    · simp only [List.length_append, List.length_singleton]
      omega
    · have := h.count_lt
      dsimp only
      omega

theorem length_emit_literal (trg : Bytes) (s : delta_state) :
    (emit_literal trg s).out.length ≤ s.out.length + 2 := by
  have hset : ∀ (out : Bytes) n, (set_count out n).length = out.length := by
    intro out n
    rw [set_count, List.length_set]
  rw [emit_literal]
  split <;> split <;> simp [hset]

/-! ## Back over the literals -/

/-- The last literal of the run and what is before it. -/
theorem Emitting.dropLast {src trg : Bytes} {s : delta_state} {ops : List opcode}
    {slot lits : Bytes} (h : Emitting src trg s ops slot lits) (hne : s.inscnt ≠ 0) :
    s.out.dropLast = hdr_bytes src.length ++ (hdr_bytes trg.length ++
        (ops.flatMap opcode.bytes ++ (slot ++ lits.dropLast))) ∧
      ops.flatMap (opcode.gives src) ++ lits.dropLast = trg.take (s.data - 1) := by
  have hlits : lits ≠ [] := by
    intro h0
    have := h.count
    rw [h0] at this
    exact hne this.symm
  constructor
  · rw [h.out_eq]
    simp only [← List.append_assoc]
    rw [List.dropLast_append_of_ne_nil hlits]
  · have hlast := congrArg List.dropLast h.gives
    have hin := h.inside
    have hcut : (trg.take s.data).dropLast = trg.take (s.data - 1) := by
      rw [List.dropLast_eq_take, List.take_take, List.length_take, Nat.min_eq_left hin,
        Nat.min_eq_left (by omega)]
    rw [List.dropLast_append_of_ne_nil hlits, hcut] at hlast
    exact hlast

/-- As long as bytes match, literals go and the match grows. -/
theorem match_back_emitting (src trg : Bytes) (ops : List opcode) (n : Nat) :
    ∀ (s : delta_state) (slot lits : Bytes), s.inscnt = n → Emitting src trg s ops slot lits →
      ∃ slot' lits', Emitting src trg (match_back src trg n s) ops slot' lits' ∧
        (match_back src trg n s).out.length ≤ s.out.length ∧
        (match_back src trg n s).data + n = s.data + (match_back src trg n s).inscnt ∧
        (match_back src trg n s).data + (match_back src trg n s).msize = s.data + s.msize ∧
        (match_back src trg n s).inscnt ≤ n ∧
        (match_back src trg n s).outsize = s.outsize := by
  induction n with
  | zero => exact fun s slot lits hs h => ⟨slot, lits, h, le_refl _, by rw [match_back, hs], rfl,
      by rw [match_back, hs], rfl⟩
  | succ n ih =>
    intro s slot lits hs h
    rw [match_back]
    by_cases hb : s.moff ≠ 0 ∧ src.getD (s.moff - 1) 0 = trg.getD (s.data - 1) 0
    · rw [if_pos hb]
      have hlen := h.count
      have hlt := h.count_lt
      have hin := h.inside
      have hslot := h.one_slot
      obtain ⟨hout, hgives⟩ := h.dropLast (by omega)
      have hdata : s.inscnt ≤ s.data := by
        have := congrArg List.length h.gives
        rw [List.length_append, List.length_take] at this
        omega
      have hmatched := h.matched.back hb.1 (by omega) hb.2
      have hdrop : lits.dropLast.length = n := by
        rw [List.length_dropLast]
        omega
      have hshort : s.out.dropLast.length + 1 ≤ s.out.length := by
        have hpos := congrArg List.length h.out_eq
        simp only [List.length_append] at hpos
        rw [List.length_dropLast]
        omega
      by_cases hn : n ≠ 0
      · -- literals are left
        have hs' : Emitting src trg { s with
            out := s.out.dropLast, data := s.data - 1, inscnt := n,
            moff := s.moff - 1, msize := s.msize + 1 } ops slot lits.dropLast :=
          ⟨h.sound, hout, by omega, hgives, hdrop, by dsimp only; omega, by dsimp only; omega,
            hmatched⟩
        obtain ⟨slot', lits', he, h1, h2, h3, h4, h5⟩ := ih _ slot lits.dropLast rfl hs'
        rw [if_pos hn]
        dsimp only at h1 h2 h3 h4 h5
        exact ⟨slot', lits', he, by omega, by omega, by omega, by omega, h5⟩
      · -- that was the first of them: its count goes too
        rw [if_neg hn]
        have hnil : lits.dropLast = [] := List.eq_nil_of_length_eq_zero (by omega)
        have hone : slot.length = 1 := by omega
        have hout' : s.out.dropLast.dropLast = hdr_bytes src.length ++ (hdr_bytes trg.length ++
            (ops.flatMap opcode.bytes ++ ([] ++ []))) := by
          obtain ⟨x, rfl⟩ := List.length_eq_one_iff.mp hone
          rw [hout, hnil, List.append_nil]
          simp only [← List.append_assoc]
          rw [List.dropLast_concat, List.append_nil, List.append_nil]
        rw [hnil] at hgives
        refine ⟨[], [], ⟨h.sound, hout', rfl, hgives, ?_, ?_, ?_, hmatched⟩, ?_, ?_, ?_, ?_, rfl⟩
        · simp only [List.length_nil]
          omega
        · dsimp only
          omega
        · dsimp only
          omega
        · dsimp only
          rw [List.length_dropLast]
          omega
        · dsimp only
          omega
        · dsimp only
          omega
        · dsimp only
          omega
    · rw [if_neg hb]
      exact ⟨slot, lits, h, le_refl _, by omega, rfl, by omega, rfl⟩

/-- Before a copy no run is open. -/
theorem end_literals_emitting {src trg : Bytes} {s : delta_state} {ops : List opcode}
    {slot lits : Bytes} (h : Emitting src trg s ops slot lits) :
    ∃ ops', Emitting src trg (end_literals src trg s) ops' [] [] ∧
      (end_literals src trg s).out.length ≤ s.out.length ∧
      s.data ≤ (end_literals src trg s).data + s.inscnt ∧
      (end_literals src trg s).data + (end_literals src trg s).msize = s.data + s.msize ∧
      (end_literals src trg s).data ≤ s.data ∧
      (end_literals src trg s).outsize = s.outsize := by
  obtain ⟨slot', lits', he, h1, h2, h3, h4, h5⟩ :=
    match_back_emitting src trg ops s.inscnt s slot lits rfl h
  rw [end_literals]
  dsimp only
  revert he h1 h2 h3 h4 h5
  generalize match_back src trg s.inscnt s = t
  intro he h1 h2 h3 h4 h5
  have hcount := he.count
  by_cases hne : t.inscnt ≠ 0
  · rw [if_pos hne]
    obtain ⟨hsound, hout, hgives⟩ := he.close hne
    refine ⟨ops ++ [.insert lits'], ⟨hsound, ?_, rfl, ?_, rfl, ?_, he.inside, he.matched⟩,
      ?_, ?_, h3, ?_, h5⟩
    · dsimp only
      rw [hout, List.append_nil, List.append_nil]
    · rw [List.append_nil]
      exact hgives
    · dsimp only
      omega
    · rw [set_count, List.length_set]
      exact h1
    · omega
    · omega
  · rw [if_neg hne]
    have hlits : lits' = [] := List.eq_nil_of_length_eq_zero (by omega)
    have hslot : slot' = [] := List.eq_nil_of_length_eq_zero (by rw [he.one_slot, hlits]; rfl)
    rw [hlits, hslot] at he
    refine ⟨ops, ⟨he.sound, he.out_eq, rfl, he.gives, rfl, ?_, he.inside, he.matched⟩,
      h1, ?_, h3, ?_, h5⟩
    · dsimp only
      omega
    · omega
    · omega

/-! ## A round -/

theorem length_copy_bytes (moff msize : Nat) : (copy_bytes moff msize).length ≤ 7 := by
  have hone : ∀ v k, (operand_bytes v k).length ≤ 1 := by
    intro v k
    rw [operand_bytes]
    split <;> simp
  have h0 := hone moff 0
  have h1 := hone moff 8
  have h2 := hone moff 16
  have h3 := hone moff 24
  have h4 := hone msize 0
  have h5 := hone msize 8
  rw [copy_bytes, List.length_cons]
  simp only [List.length_append]
  omega

/-- A copy takes the loop over at least one byte of the target. -/
theorem emit_copy_emitting {src trg : Bytes} (hsrc : src.length < 2 ^ 32) {s : delta_state}
    {ops : List opcode} {slot lits : Bytes} (h : Emitting src trg s ops slot lits)
    (hmatch : 4 ≤ s.msize) :
    (∃ ops' slot' lits', Emitting src trg (emit_copy src trg s) ops' slot' lits') ∧
      (emit_copy src trg s).out.length ≤ s.out.length + 7 ∧
      s.data < (emit_copy src trg s).data ∧ (emit_copy src trg s).outsize = s.outsize := by
  obtain ⟨ops', he, h1, h2, h3, h4, h5⟩ := end_literals_emitting h
  have hlt := h.count_lt
  rw [emit_copy]
  dsimp only
  revert he h1 h2 h3 h4 h5
  generalize end_literals src trg s = t
  intro he h1 h2 h3 h4 h5
  -- what is copied now, and what is left over
  obtain ⟨m, left, hm, hleft, hsum, hpos, hmax⟩ : ∃ m left,
      t.msize - (if t.msize < 0x10000 then 0 else t.msize - 0x10000) = m ∧
      (if t.msize < 0x10000 then 0 else t.msize - 0x10000) = left ∧ m + left = t.msize ∧
      0 < m ∧ m ≤ 0x10000 ∧ (m = t.msize ∨ m = 0x10000) := by
    refine ⟨_, _, rfl, rfl, ?_⟩
    split <;> omega
  rw [hleft] at hm ⊢
  rw [hm]
  obtain ⟨hnow, hlater⟩ := he.matched.take (show m ≤ t.msize by omega)
  have hin := hnow.in_source
  have hlen := length_copy_bytes t.moff m
  refine ⟨⟨ops' ++ [.copy t.moff m], [], [], ⟨?_, ?_, rfl, ?_, ?_, ?_, ?_, ?_⟩⟩, ?_, ?_, h5⟩
  · intro op hop
    rcases List.mem_append.mp hop with hop | hop
    · exact he.sound op hop
    · rw [List.mem_singleton.mp hop]
      exact ⟨hin, by omega, hpos, hmax.1⟩
  · dsimp only
    rw [he.out_eq, List.flatMap_append]
    simp [opcode.bytes]
  · have hgives := he.gives
    rw [List.append_nil] at hgives
    rw [List.append_nil, List.flatMap_append, hgives, List.flatMap_singleton, opcode.gives,
      hnow.same, ← List.take_add]
  · exact he.count
  · exact he.count_lt
  · exact hnow.in_target
  · have hrest : t.msize - m = left := by omega
    dsimp only
    rw [Nat.mod_eq_of_lt (by omega), ← hrest]
    exact hlater
  · simp only [List.length_append]
    omega
  · omega

/-- The body of the loop: what is emitted still says the target up to `data`,
and `data` has moved on. -/
theorem emit_emitting {src trg : Bytes} {index : delta_index} (hi : InSource src index)
    (hsrc : src.length < 2 ^ 32) {s : delta_state} {ops : List opcode} {slot lits : Bytes}
    (h : Emitting src trg s ops slot lits) (hdata : s.data < trg.length) :
    (∃ ops' slot' lits', Emitting src trg (emit index trg s) ops' slot' lits') ∧
      (emit index trg s).out.length ≤ s.out.length + 7 ∧
      s.data < (emit index trg s).data ∧ (emit index trg s).outsize = s.outsize := by
  have hf := find_match_emitting hi h
  have hsame : (find_match index trg s).out = s.out ∧ (find_match index trg s).data = s.data ∧
      (find_match index trg s).outsize = s.outsize := by
    rw [find_match]
    split <;> exact ⟨rfl, rfl, rfl⟩
  obtain ⟨hout, hd, hsize⟩ := hsame
  rw [emit]
  split
  · refine ⟨emit_literal_emitting hf (by omega), ?_, ?_, ?_⟩
    · have := length_emit_literal trg (find_match index trg s)
      rw [hout] at this
      omega
    · rw [emit_literal]
      split <;> · dsimp only; omega
    · rw [emit_literal]
      split <;> exact hsize
  · rw [hi.1]
    obtain ⟨he, h1, h2, h3⟩ := emit_copy_emitting hsrc hf (by omega)
    exact ⟨he, by rw [← hout]; exact h1, by omega, by rw [h3, hsize]⟩

/-! ## The buffer -/

/-- The states that the loop comes to. -/
inductive Reached (index : delta_index) (trg : Bytes) (max_size : Nat) : delta_state → Prop
  | first : Reached index trg max_size (first_state index trg max_size)
  | more {s t : delta_state} : Reached index trg max_size s → s.data < trg.length →
      create_delta_step index trg max_size s = .more t → Reached index trg max_size t

/-- The round from `s` has the buffer grown, and three times its size is more
than an `unsigned int` holds. -/
def Overgrows (index : delta_index) (trg : Bytes) (max_size : Nat) (s : delta_state) : Prop :=
  s.data < trg.length ∧ s.outsize - MAX_OP_SIZE ≤ (emit index trg s).out.length ∧
    ¬ (max_size ≠ 0 ∧ max_size < (emit index trg s).out.length) ∧ 0x55555555 < s.outsize

/-- The buffer is never grown from more than `0x55555555` bytes. -/
def GrowsInRange (index : delta_index) (trg : Bytes) (max_size : Nat) : Prop :=
  ∀ s, Reached index trg max_size s → ¬ Overgrows index trg max_size s

/-- The largest opcode fits. -/
structure Room (s : delta_state) : Prop where
  least : 36 ≤ s.outsize
  most : s.outsize ≤ 2 ^ 31 + 35
  fits : s.out.length + 7 ≤ s.outsize

/-- What holds whenever the loop tests `data < top`. -/
def Looping (src trg : Bytes) (s : delta_state) : Prop :=
  (∃ ops slot lits, Emitting src trg s ops slot lits) ∧ Room s

/-- A buffer that is grown in range has room for another round. -/
theorem grown_size_room {max_size outsize outpos : Nat} (hleast : 36 ≤ outsize)
    (hrange : outsize ≤ 0x55555555) (hfits : outpos ≤ outsize)
    (hcut : ¬ (max_size ≠ 0 ∧ max_size < outpos)) :
    36 ≤ grown_size max_size outsize ∧ grown_size max_size outsize ≤ 2 ^ 31 + 35 ∧
      outpos + 7 ≤ grown_size max_size outsize := by
  rw [grown_size, MAX_OP_SIZE, Nat.mod_eq_of_lt (by omega)]
  split <;> omega

/-- Out of range it is made smaller than what was written. -/
theorem grown_size_shrinks {max_size outsize outpos : Nat} (hrange : 0x55555555 < outsize)
    (hmost : outsize ≤ 2 ^ 31 + 35) (hfull : outsize - MAX_OP_SIZE ≤ outpos)
    (hcut : ¬ (max_size ≠ 0 ∧ max_size < outpos)) : grown_size max_size outsize < outpos := by
  have hwrap : outsize * 3 % 2 ^ 32 = outsize * 3 - 2 ^ 32 := by omega
  rw [MAX_OP_SIZE] at hfull
  rw [grown_size, MAX_OP_SIZE, hwrap]
  split <;> omega

/-- One round. -/
theorem create_delta_step_spec {src trg : Bytes} {index : delta_index} (hi : InSource src index)
    (hsrc : src.length < 2 ^ 32) (max_size : Nat) {s : delta_state} (h : Looping src trg s)
    (hdata : s.data < trg.length) :
    (∃ t, create_delta_step index trg max_size s = .more t ∧ Looping src trg t ∧
        s.data < t.data ∧ ¬ Overgrows index trg max_size s) ∨
      (∃ t, create_delta_step index trg max_size s = .stop t ∧ max_size ≠ 0 ∧
        max_size < t.out.length ∧ ¬ Overgrows index trg max_size s) ∨
      (create_delta_step index trg max_size s = .overrun ∧ Overgrows index trg max_size s) := by
  obtain ⟨⟨ops, slot, lits, he⟩, hroom⟩ := h
  obtain ⟨he', hlen, hmoved, hsize⟩ := emit_emitting hi hsrc he hdata
  have hleast := hroom.least
  have hmost := hroom.most
  have hfits := hroom.fits
  rw [create_delta_step]
  simp only [Overgrows]
  revert he' hlen hmoved hsize
  generalize emit index trg s = t
  intro he' hlen hmoved hsize
  rw [if_neg (by omega)]
  by_cases hfull : t.outsize - MAX_OP_SIZE ≤ t.out.length
  · rw [if_pos hfull]
    by_cases hcut : max_size ≠ 0 ∧ max_size < t.out.length
    · rw [if_pos hcut]
      exact .inr (.inl ⟨t, rfl, hcut.1, hcut.2, fun ho => ho.2.2.1 hcut⟩)
    · rw [if_neg hcut]
      by_cases hrange : s.outsize ≤ 0x55555555
      · obtain ⟨h1, h2, h3⟩ := grown_size_room (by omega) (hsize ▸ hrange)
          (show t.out.length ≤ t.outsize by omega) hcut
        obtain ⟨ops', slot', lits', he'⟩ := he'
        rw [if_neg (by omega)]
        refine .inl ⟨_, rfl, ⟨⟨ops', slot', lits', ?_⟩, ⟨h1, h2, h3⟩⟩, hmoved, ?_⟩
        · exact ⟨he'.sound, he'.out_eq, he'.one_slot, he'.gives, he'.count, he'.count_lt,
            he'.inside, he'.matched⟩
        · rintro ⟨-, -, -, ho⟩
          omega
      · rw [if_pos (grown_size_shrinks (by omega) (by omega) hfull hcut)]
        exact .inr (.inr ⟨rfl, hdata, hsize ▸ hfull, hcut, by omega⟩)
  · rw [if_neg hfull]
    rw [MAX_OP_SIZE] at hfull
    refine .inl ⟨t, rfl, ⟨he', ⟨by omega, by omega, by omega⟩⟩, hmoved, ?_⟩
    rintro ⟨-, ho, -⟩
    rw [MAX_OP_SIZE] at ho
    omega

theorem first_state_looping {src trg : Bytes} {index : delta_index} (hi : InSource src index)
    (hsrc : src.length < 2 ^ 32) (htrg : trg.length < 2 ^ 32) (hne : trg ≠ []) (max_size : Nat) :
    Looping src trg (first_state index trg max_size) := by
  have hpos := List.length_pos_of_ne_nil hne
  have hs := length_hdr_bytes_le 4 src.length (by omega)
  have ht := length_hdr_bytes_le 4 trg.length (by omega)
  have hwin : (trg.take RABIN_WINDOW).length = min 16 trg.length := List.length_take
  have hsmod : src.length % 2 ^ 32 = src.length := Nat.mod_eq_of_lt hsrc
  have htmod : trg.length % 2 ^ 32 = trg.length := Nat.mod_eq_of_lt htrg
  have hsize : 36 ≤ (first_state index trg max_size).outsize ∧
      (first_state index trg max_size).outsize ≤ 8192 + 35 := by
    simp only [first_state, MAX_OP_SIZE]
    split <;> omega
  refine ⟨⟨[], [0], trg.take RABIN_WINDOW, by simp, ?_, ?_, ?_, rfl, ?_, ?_, ?_⟩, ?_⟩
  · simp only [first_state, hi.1, hsmod, htmod]
    simp
  · rw [hwin, List.length_singleton]
    omega
  · rw [first_state, hwin]
    simp [List.take_eq_take_iff]
  · simp only [first_state, hwin]
    omega
  · simp only [first_state, hwin]
    omega
  · refine ⟨by simp [first_state], ?_, by simp [first_state]⟩
    simp only [first_state, hwin]
    omega
  · refine ⟨hsize.1, by omega, ?_⟩
    have hout : (first_state index trg max_size).out.length ≤ 27 := by
      simp only [first_state, List.length_append, List.length_cons, hwin, hi.1,
        hsmod, htmod]
      omega
    omega

/-! ## The whole run -/

/-- The header and opcodes that say the target, no longer than the buffer. -/
def Written (src trg d : Bytes) : Prop :=
  d.length ≤ 2 ^ 31 + 28 ∧ ∃ ops : List opcode, (∀ op ∈ ops, op.Sound src) ∧
    d = hdr_bytes src.length ++ (hdr_bytes trg.length ++ ops.flatMap opcode.bytes) ∧
    ops.flatMap (opcode.gives src) = trg

theorem finish_written {src trg : Bytes} {s : delta_state} (h : Looping src trg s)
    (hdone : s.data = trg.length) (max_size : Nat) :
    (finish max_size s = .null ∧ max_size ≠ 0) ∨ ∃ d, finish max_size s = .gives d ∧ Written src trg d := by
  obtain ⟨⟨ops, slot, lits, he⟩, hroom⟩ := h
  have hfits := hroom.fits
  have hmost := hroom.most
  rw [finish]
  by_cases hcut : max_size ≠ 0 ∧
      max_size < (if s.inscnt ≠ 0 then set_count s.out s.inscnt else s.out).length
  · rw [if_pos hcut]
    exact .inl ⟨rfl, hcut.1⟩
  · rw [if_neg hcut]
    refine .inr ⟨_, rfl, ?_⟩
    by_cases hne : s.inscnt ≠ 0
    · obtain ⟨hsound, hout, hgives⟩ := he.close hne
      rw [if_pos hne]
      refine ⟨?_, _, hsound, hout, ?_⟩
      · rw [set_count, List.length_set]
        omega
      · rw [hgives, hdone, List.take_length]
    · rw [if_neg hne]
      have hcount := he.count
      have hlits : lits = [] := List.eq_nil_of_length_eq_zero (by omega)
      have hslot : slot = [] := List.eq_nil_of_length_eq_zero (by rw [he.one_slot, hlits]; rfl)
      refine ⟨by omega, ops, he.sound, ?_, ?_⟩
      · rw [he.out_eq, hlits, hslot, List.append_nil, List.append_nil]
      · have := he.gives
        rw [hlits, List.append_nil, hdone, List.take_length] at this
        exact this

theorem finish_cut {max_size : Nat} {s : delta_state} (h0 : max_size ≠ 0)
    (h : max_size < s.out.length) : finish max_size s = .null := by
  rw [finish]
  rw [if_pos]
  refine ⟨h0, ?_⟩
  split
  · rw [set_count, List.length_set]
    exact h
  · exact h

/-- Run from a state that it comes to, the loop is cut off, returns what says
the target, or grows the buffer out of range. -/
theorem create_delta_loop_spec {src trg : Bytes} {index : delta_index} (hi : InSource src index)
    (hsrc : src.length < 2 ^ 32) (max_size fuel : Nat) :
    ∀ s, Looping src trg s → Reached index trg max_size s → trg.length ≤ s.data + fuel →
      (create_delta_loop index trg max_size fuel s = .null ∧ max_size ≠ 0) ∨
        (∃ d, create_delta_loop index trg max_size fuel s = .gives d ∧ Written src trg d) ∨
        (create_delta_loop index trg max_size fuel s = .overrun ∧
          ¬ GrowsInRange index trg max_size) := by
  induction fuel with
  | zero =>
    intro s h _ hfuel
    have hin : s.data = trg.length := by
      obtain ⟨⟨ops, slot, lits, he⟩, -⟩ := h
      have := he.inside
      omega
    rw [create_delta_loop]
    rcases finish_written h hin max_size with hf | hf
    · exact .inl hf
    · exact .inr (.inl hf)
  | succ fuel ih =>
    intro s h hr hfuel
    rw [create_delta_loop]
    by_cases hdata : s.data < trg.length
    · rw [if_pos hdata]
      rcases create_delta_step_spec hi hsrc max_size h hdata with
        ⟨t, hstep, ht, hmoved, -⟩ | ⟨t, hstep, h0, hcut, -⟩ | ⟨hstep, ho⟩
      · rw [hstep]
        exact ih t ht (.more hr hdata hstep) (by omega)
      · rw [hstep]
        exact .inl ⟨finish_cut h0 hcut, h0⟩
      · rw [hstep]
        exact .inr (.inr ⟨rfl, fun hg => hg s hr ho⟩)
    · rw [if_neg hdata]
      have hin : s.data = trg.length := by
        obtain ⟨⟨ops, slot, lits, he⟩, -⟩ := h
        have := he.inside
        omega
      rcases finish_written h hin max_size with hf | hf
      · exact .inl hf
      · exact .inr (.inl hf)

/-- What the run comes to, the loop computes. -/
theorem Reached.loop {src trg : Bytes} {index : delta_index} (hi : InSource src index)
    (hsrc : src.length < 2 ^ 32) (htrg : trg.length < 2 ^ 32) (hne : trg ≠ []) {max_size : Nat}
    {s : delta_state} (h : Reached index trg max_size s) :
    Looping src trg s ∧ ∃ k ≤ s.data, ∀ fuel,
      create_delta_loop index trg max_size (fuel + k) (first_state index trg max_size) =
        create_delta_loop index trg max_size fuel s := by
  induction h with
  | first => exact ⟨first_state_looping hi hsrc htrg hne max_size, 0, Nat.zero_le _, fun _ => rfl⟩
  | more hr hdata hstep ih =>
    rename_i s t
    obtain ⟨hl, k, hk, hrun⟩ := ih
    rcases create_delta_step_spec hi hsrc max_size hl hdata with
      ⟨t', hstep', ht, hmoved, -⟩ | ⟨t', hstep', -⟩ | ⟨hstep', -⟩
    · rw [hstep] at hstep'
      cases hstep'
      refine ⟨ht, k + 1, by omega, fun fuel => ?_⟩
      have hone := hrun (fuel + 1)
      rw [show fuel + 1 + k = fuel + (k + 1) by omega] at hone
      rw [hone, create_delta_loop, if_pos hdata, hstep]
    · rw [hstep] at hstep'
      cases hstep'
    · rw [hstep] at hstep'
      cases hstep'

theorem create_delta_spec {src trg : Bytes} {index : delta_index} (hi : InSource src index)
    (hsrc : src.length < 2 ^ 32) (htrg : trg.length < 2 ^ 32) (hne : trg ≠ []) (max_size : Nat) :
    (create_delta index trg max_size = .null ∧ max_size ≠ 0) ∨
      (∃ d, create_delta index trg max_size = .gives d ∧ Written src trg d) ∨
      (create_delta index trg max_size = .overrun ∧ ¬ GrowsInRange index trg max_size) := by
  rw [create_delta, if_neg hne]
  exact create_delta_loop_spec hi hsrc max_size _ _
    (first_state_looping hi hsrc htrg hne max_size) .first (by omega)

/-- A buffer that is grown out of range is overrun. -/
theorem create_delta_overruns {src trg : Bytes} {index : delta_index} (hi : InSource src index)
    (hsrc : src.length < 2 ^ 32) (htrg : trg.length < 2 ^ 32) (hne : trg ≠ []) {max_size : Nat}
    (h : ¬ GrowsInRange index trg max_size) : create_delta index trg max_size = .overrun := by
  rw [GrowsInRange] at h
  push Not at h
  obtain ⟨s, hr, ho⟩ := h
  obtain ⟨hl, k, hk, hrun⟩ := hr.loop hi hsrc htrg hne
  have hdata := ho.1
  have hfuel := hrun (trg.length - k)
  rw [Nat.sub_add_cancel (by omega)] at hfuel
  rw [create_delta, if_neg hne, hfuel]
  obtain ⟨n, hn⟩ : ∃ n, trg.length - k = n + 1 := ⟨trg.length - k - 1, by omega⟩
  rw [hn, create_delta_loop, if_pos hdata]
  rcases create_delta_step_spec hi hsrc max_size hl hdata with
    ⟨t, -, -, -, hno⟩ | ⟨t, -, -, -, hno⟩ | ⟨hstep, -⟩
  · exact absurd ho hno
  · exact absurd ho hno
  · rw [hstep]

/-! ## The round trip -/

/-- A delta that is returned gives the target, and its header has both sizes. -/
def Recreates (src trg : Bytes) : created → Prop
  | .null => True
  | .overrun => False
  | .gives d => patch_delta src d = .gives trg ∧ ∃ data ops,
      get_delta_hdr_size d = some (src.length, data) ∧
      get_delta_hdr_size data = some (trg.length, ops)

theorem Written.recreates {src trg d : Bytes} (hsrc : src.length < 2 ^ 32)
    (htrg : trg.length < 2 ^ 32) (hne : trg ≠ []) (h : Written src trg d) :
    Recreates src trg (.gives d) := by
  obtain ⟨-, ops, hsound, rfl, hgives⟩ := h
  have hops : ops ≠ [] := by
    intro h0
    rw [h0] at hgives
    exact hne hgives.symm
  exact ⟨patch_delta_opcodes src trg (by omega) (by omega) ops hsound hgives hops, _, _,
    get_delta_hdr_size_hdr_bytes _ (by omega) _, get_delta_hdr_size_hdr_bytes _ (by omega) _⟩

/-- A source of one byte saves nothing. -/
theorem length_gives_le (x : UInt8) (ops : List opcode) (h : ∀ op ∈ ops, op.Sound [x]) :
    (ops.flatMap (opcode.gives [x])).length ≤ (ops.flatMap opcode.bytes).length := by
  induction ops with
  | nil => simp
  | cons op ops ih =>
    have hrest := ih fun o ho => h o (List.mem_cons_of_mem _ ho)
    have hop : (op.gives [x]).length ≤ op.bytes.length := by
      have hsound := h op List.mem_cons_self
      cases op with
      | copy moff msize =>
        have hin := hsound.1
        have hpos := length_opcode_pos (.copy moff msize)
        rw [opcode.gives, length_gives_copy hin]
        rw [List.length_singleton] at hin
        omega
      | insert lits => simp [opcode.gives, opcode.bytes]
    rw [List.flatMap_cons, List.flatMap_cons, List.length_append, List.length_append]
    omega

/-- A target of one window is emitted before the loop. -/
theorem one_window_grows_in_range (index : delta_index) (trg : Bytes) (max_size : Nat)
    (h : trg.length ≤ RABIN_WINDOW) : GrowsInRange index trg max_size := by
  have hfirst : ∀ s, Reached index trg max_size s → ¬ s.data < trg.length := by
    intro s hr
    induction hr with
    | first =>
      simp only [first_state, List.length_take]
      omega
    | more hr hdata hstep ih => exact absurd hdata ih
  exact fun s hr ho => hfirst s hr ho.1

/-- `front` is in front, and the open literals and their count are behind it. -/
def Headed (front : Bytes) (s : delta_state) : Prop :=
  ∃ rest, s.out = front ++ rest ∧ (s.inscnt ≠ 0 → s.inscnt + 1 ≤ rest.length)

theorem set_count_headed (front rest : Bytes) (n : Nat) (h : n + 1 ≤ rest.length) :
    ∃ rest', set_count (front ++ rest) n = front ++ rest' := by
  rw [set_count, List.set_append_right _ _ (by rw [List.length_append]; omega)]
  exact ⟨_, rfl⟩

theorem emit_literal_headed {front : Bytes} {s : delta_state} (trg : Bytes)
    (h : Headed front s) : Headed front (emit_literal trg s) := by
  obtain ⟨rest, hout, hroom⟩ := h
  have hrun : ∃ rest', (if s.inscnt = 0 then s.out ++ [0] else s.out) ++ [trg.getD s.data 0] =
      front ++ rest' ∧ s.inscnt + 2 ≤ rest'.length := by
    by_cases h0 : s.inscnt = 0
    · rw [if_pos h0, hout, h0]
      exact ⟨rest ++ [0] ++ [trg.getD s.data 0], by simp, by simp⟩
    · have := hroom h0
      rw [if_neg h0, hout]
      refine ⟨rest ++ [trg.getD s.data 0], by simp, ?_⟩
      rw [List.length_append, List.length_singleton]
      omega
  obtain ⟨rest', hrun, hlen⟩ := hrun
  rw [emit_literal]
  by_cases hfull : s.inscnt + 1 = 0x7f
  · rw [if_pos hfull, hrun]
    obtain ⟨rest'', hset⟩ := set_count_headed front rest' 0x7f (by omega)
    exact ⟨rest'', hset, fun hne => absurd rfl hne⟩
  · rw [if_neg hfull]
    exact ⟨rest', hrun, fun _ => hlen⟩

theorem match_back_headed (front src trg : Bytes) (n : Nat) :
    ∀ s : delta_state, s.inscnt = n → Headed front s → Headed front (match_back src trg n s) := by
  induction n with
  | zero => exact fun _ _ h => h
  | succ n ih =>
    intro s hs h
    rw [match_back]
    by_cases hb : s.moff ≠ 0 ∧ src.getD (s.moff - 1) 0 = trg.getD (s.data - 1) 0
    · obtain ⟨rest, hout, hroom⟩ := h
      have hlen := hroom (by omega)
      have hdrop : ∀ r : Bytes, 0 < r.length → (front ++ r).dropLast = front ++ r.dropLast :=
        fun r hr => List.dropLast_append_of_ne_nil (List.ne_nil_of_length_pos hr)
      have hone := hdrop rest (by omega)
      rw [if_pos hb]
      by_cases hn : n ≠ 0
      · rw [if_pos hn]
        apply ih _ rfl
        refine ⟨rest.dropLast, by dsimp only; rw [hout, hone], fun _ => ?_⟩
        dsimp only
        rw [List.length_dropLast]
        omega
      · rw [if_neg hn]
        refine ⟨rest.dropLast.dropLast, ?_, fun hne => absurd hne hn⟩
        dsimp only
        rw [hout, hone, hdrop _ (by rw [List.length_dropLast]; omega)]
    · rw [if_neg hb]
      exact h

theorem emit_copy_headed {front : Bytes} {s : delta_state} (src trg : Bytes)
    (h : Headed front s) : Headed front (emit_copy src trg s) := by
  have hend : Headed front (end_literals src trg s) := by
    obtain ⟨rest, hout, hroom⟩ := match_back_headed front src trg s.inscnt s rfl h
    rw [end_literals]
    by_cases hne : (match_back src trg s.inscnt s).inscnt ≠ 0
    · rw [if_pos hne, hout]
      obtain ⟨rest', hset⟩ := set_count_headed front rest _ (hroom hne)
      exact ⟨rest', hset, fun hc => absurd rfl hc⟩
    · rw [if_neg hne]
      exact ⟨rest, hout, fun hc => absurd rfl hc⟩
  obtain ⟨rest, hout, -⟩ := hend
  have hcnt : (end_literals src trg s).inscnt = 0 := by rw [end_literals]
  rw [emit_copy]
  refine ⟨rest ++ copy_bytes (end_literals src trg s).moff ((end_literals src trg s).msize -
      if (end_literals src trg s).msize < 0x10000 then 0
      else (end_literals src trg s).msize - 0x10000), ?_, fun hne => absurd hcnt hne⟩
  rw [hout, List.append_assoc]

theorem emit_headed {front : Bytes} {s : delta_state} (index : delta_index) (trg : Bytes)
    (h : Headed front s) : Headed front (emit index trg s) := by
  have hf : Headed front (find_match index trg s) := by
    rw [find_match]
    split <;> exact h
  rw [emit]
  split
  · exact emit_literal_headed trg hf
  · exact emit_copy_headed _ trg hf

/-- What a delta has in any case: its header, and a length that fits the buffer. -/
theorem create_delta_loop_headed (front : Bytes) (index : delta_index) (trg : Bytes)
    (max_size fuel : Nat) :
    ∀ s d, Headed front s → s.out.length ≤ s.outsize → s.outsize ≤ 2 ^ 31 + 35 →
      create_delta_loop index trg max_size fuel s = .gives d →
      (∃ rest, d = front ++ rest) ∧ d.length ≤ 2 ^ 31 + 35 := by
  have hfinish : ∀ s d, Headed front s → s.out.length ≤ s.outsize → s.outsize ≤ 2 ^ 31 + 35 →
      finish max_size s = .gives d → (∃ rest, d = front ++ rest) ∧ d.length ≤ 2 ^ 31 + 35 := by
    intro s d h hlen hmost hd
    obtain ⟨rest, hout, hroom⟩ := h
    rw [finish] at hd
    by_cases hne : s.inscnt ≠ 0
    · rw [if_pos hne] at hd
      split at hd
      · cases hd
      · cases hd
        obtain ⟨rest', hset⟩ := set_count_headed front rest _ (hroom hne)
        refine ⟨⟨rest', by rw [hout, hset]⟩, ?_⟩
        rw [set_count, List.length_set]
        omega
    · rw [if_neg hne] at hd
      split at hd
      · cases hd
      · cases hd
        exact ⟨⟨rest, hout⟩, by omega⟩
  induction fuel with
  | zero => exact hfinish
  | succ fuel ih =>
    intro s d h hlen hmost hd
    rw [create_delta_loop] at hd
    by_cases hdata : s.data < trg.length
    · have he := emit_headed index trg h
      have hsize : (emit index trg s).outsize = s.outsize := by
        have hback : ∀ n t, (match_back index.src_buf trg n t).outsize = t.outsize := by
          intro n
          induction n with
          | zero => exact fun _ => rfl
          | succ n ihn =>
            intro t
            rw [match_back]
            split
            · split
              · exact ihn _
              · rfl
            · rfl
        have hf : (find_match index trg s).outsize = s.outsize := by
          rw [find_match]
          split <;> rfl
        rw [emit]
        split
        · rw [emit_literal]
          split <;> exact hf
        · rw [emit_copy, end_literals]
          dsimp only
          rw [hback, hf]
      rw [if_pos hdata, create_delta_step] at hd
      by_cases hover : (emit index trg s).outsize < (emit index trg s).out.length
      · rw [if_pos hover] at hd
        cases hd
      · rw [if_neg hover] at hd
        by_cases hfull : (emit index trg s).outsize - MAX_OP_SIZE ≤ (emit index trg s).out.length
        · rw [if_pos hfull] at hd
          by_cases hcut : max_size ≠ 0 ∧ max_size < (emit index trg s).out.length
          · rw [if_pos hcut] at hd
            exact hfinish _ d he (by omega) (by omega) hd
          · rw [if_neg hcut] at hd
            by_cases hsmall : grown_size max_size (emit index trg s).outsize <
                (emit index trg s).out.length
            · rw [if_pos hsmall] at hd
              cases hd
            · rw [if_neg hsmall] at hd
              dsimp only at hd
              refine ih _ d ?_ ?_ ?_ hd
              · exact he
              · dsimp only
                omega
              · dsimp only
                rw [grown_size, MAX_OP_SIZE]
                split <;> omega
        · rw [if_neg hfull] at hd
          exact ih _ d he (by omega) (by omega) hd
    · rw [if_neg hdata] at hd
      exact hfinish s d h hlen hmost hd

theorem create_delta_headed {index : delta_index} {trg d : Bytes} {max_size : Nat}
    (h : create_delta index trg max_size = .gives d) :
    (∃ rest, d = hdr_bytes (index.src_buf.length % 2 ^ 32) ++
      (hdr_bytes (trg.length % 2 ^ 32) ++ rest)) ∧ d.length ≤ 2 ^ 31 + 35 := by
  rw [create_delta] at h
  by_cases hne : trg = []
  · rw [if_pos hne] at h
    cases h
  · rw [if_neg hne] at h
    have hs := length_hdr_bytes_le 4 (index.src_buf.length % 2 ^ 32) (by omega)
    have ht := length_hdr_bytes_le 4 (trg.length % 2 ^ 32) (by omega)
    have hwin : (trg.take RABIN_WINDOW).length ≤ 16 := List.length_take_le _ _
    have hsize : 36 ≤ (first_state index trg max_size).outsize ∧
        (first_state index trg max_size).outsize ≤ 2 ^ 31 + 35 := by
      simp only [first_state, MAX_OP_SIZE]
      split <;> omega
    obtain ⟨⟨rest, hd⟩, hlen⟩ := create_delta_loop_headed
      (hdr_bytes (index.src_buf.length % 2 ^ 32) ++ hdr_bytes (trg.length % 2 ^ 32)) index trg
      max_size trg.length (first_state index trg max_size) d ⟨_, rfl, fun _ => by simp [first_state]⟩
      (by
        have hout : (first_state index trg max_size).out.length ≤ 27 := by
          simp only [first_state, List.length_append, List.length_cons]
          omega
        omega) hsize.2 h
    exact ⟨⟨rest, by rw [hd, List.append_assoc]⟩, hlen⟩

theorem patch_loop_length (src : Bytes) (fuel : Nat) :
    ∀ out size data dst, patch_loop src fuel out size data = .gives dst →
      dst.length = out.length + size := by
  have hsane : ∀ out size data dst, sanity_check out size data = .gives dst →
      dst.length = out.length + size := by
    intro out size data dst h
    rw [sanity_check] at h
    split at h
    · cases h
    · next hok =>
      cases h
      omega
  induction fuel with
  | zero => exact hsane
  | succ fuel ih =>
    intro out size data dst h
    cases data with
    | nil => exact hsane _ _ _ _ h
    | cons cmd data =>
      rw [patch_loop] at h
      by_cases htop : cmd.toNat &&& 0x80 ≠ 0
      · rw [if_pos htop] at h
        cases hread : copy_operands cmd.toNat data with
        | none =>
          rw [hread] at h
          cases h
        | some p =>
          obtain ⟨cp_off, cp_size, rest⟩ := p
          rw [hread] at h
          dsimp only at h
          by_cases hbad : 2 ^ 64 ≤ cp_off + cp_size ∨ src.length < cp_off + cp_size ∨ size < cp_size
          · rw [if_pos hbad] at h
            exact hsane _ _ _ _ h
          · rw [if_neg hbad] at h
            have := ih _ _ _ _ h
            rw [List.length_append, length_gives_copy (by omega)] at this
            omega
      · rw [if_neg htop] at h
        split at h
        · split at h
          · exact hsane _ _ _ _ h
          · split at h
            · cases h
            · have := ih _ _ _ _ h
              rw [List.length_append, List.length_take] at this
              omega
        · cases h

/-- A delta that gives its target back is one of sizes that fit in its header. -/
theorem sizes_of_recreated {src trg d : Bytes} {max_size : Nat}
    (h : diff_delta src trg max_size = .gives d) (hpatch : patch_delta src d = .gives trg) :
    src.length < 2 ^ 32 ∧ trg.length < 2 ^ 32 := by
  rw [diff_delta] at h
  cases hindex : create_delta_index src with
  | none =>
    rw [hindex] at h
    cases h
  | some index =>
    rw [hindex] at h
    obtain ⟨⟨rest, hd⟩, -⟩ := create_delta_headed h
    rw [(create_delta_index_in_source hindex).1] at hd
    rw [patch_delta, hd, get_delta_hdr_size_hdr_bytes _ (by omega)] at hpatch
    split at hpatch
    · cases hpatch
    · dsimp only at hpatch
      by_cases hsrc : src.length % 2 ^ 32 ≠ src.length
      · rw [if_pos hsrc] at hpatch
        cases hpatch
      · rw [if_neg hsrc, get_delta_hdr_size_hdr_bytes _ (by omega)] at hpatch
        have hlen := patch_loop_length _ _ _ _ _ _ hpatch
        rw [List.length_nil] at hlen
        omega

/-- For sizes that do, the delta gives the target. -/
theorem diff_delta_recreates {src trg d : Bytes} {max_size : Nat} (hs : src.length < 2 ^ 32)
    (ht : trg.length < 2 ^ 32) (hne : trg ≠ []) (h : diff_delta src trg max_size = .gives d) :
    patch_delta src d = .gives trg := by
  rw [diff_delta] at h
  cases hindex : create_delta_index src with
  | none =>
    rw [hindex] at h
    cases h
  | some index =>
    rw [hindex] at h
    dsimp only at h
    rcases create_delta_spec (create_delta_index_in_source hindex) hs ht hne max_size with
      ⟨hnull, -⟩ | ⟨d', hd, hw⟩ | ⟨ho, -⟩
    · rw [hnull] at h
      cases h
    · rw [hd] at h
      cases h
      exact (hw.recreates hs ht hne).1
    · rw [ho] at h
      cases h

theorem length_of_diff_delta {src trg d : Bytes} {max_size : Nat}
    (h : diff_delta src trg max_size = .gives d) : d.length < 2 ^ 64 := by
  rw [diff_delta] at h
  cases hindex : create_delta_index src with
  | none =>
    rw [hindex] at h
    cases h
  | some index =>
    rw [hindex] at h
    have := (create_delta_headed h).2
    omega

end git.delta
