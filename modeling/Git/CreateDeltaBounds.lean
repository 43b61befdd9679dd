-- The writes of `create_delta` into its output buffer, beside what is allocated for it
-- then: the buffer is grown in 32 bits.
import Git.DeltaRoundTrip

namespace git.delta

/-! ## The writes -/

/-- A write to `out[index]`, where `outsize` bytes are allocated. -/
structure buffer_write where
  index : Nat
  outsize : Nat

/-- All writes of a run, and what it returns; `none` is NULL. -/
structure traced where
  writes : List buffer_write
  returned : Option Bytes

def traced.after (first : List Nat) (outsize : Nat) (t : traced) : traced :=
  { t with writes := first.map (⟨·, outsize⟩) ++ t.writes }

/-- The header and the first window; the place of its count is skipped. -/
def first_writes (index : delta_index) (trg : Bytes) : List Nat :=
  let header := (hdr_bytes (index.src_buf.length % 2 ^ 32) ++ hdr_bytes (trg.length % 2 ^ 32)).length
  List.range header ++ List.range' (header + 1) (trg.take RABIN_WINDOW).length

/-- The literal, and the count of a run that is full. -/
def literal_writes (s : delta_state) : List Nat :=
  let outpos := if s.inscnt = 0 then s.out.length + 1 else s.out.length
  if s.inscnt + 1 = 0x7f then [outpos, outpos + 1 - 0x7f - 1] else [outpos]

/-- The count of the literals that are left, at `outpos` if that is -1, the operands, and
the opcode. -/
def copy_writes (ref_data trg : Bytes) (s : delta_state) : List Nat :=
  let t := match_back ref_data trg s.inscnt s
  let count :=
    if s.inscnt = 0 then []
    else if t.inscnt = 0 then [t.out.length]
    else [t.out.length - t.inscnt - 1]
  let left := if t.msize < 0x10000 then 0 else t.msize - 0x10000
  let op := t.out.length
  count ++ List.range' (op + 1) ((copy_bytes t.moff (t.msize - left)).length - 1) ++ [op]

/-- The writes of one round, beside `emit`. -/
def round_writes (index : delta_index) (trg : Bytes) (s : delta_state) : List Nat :=
  let s := find_match index trg s
  if s.msize < 4 then literal_writes s else copy_writes index.src_buf trg s

/-- `if (inscnt) out[outpos - inscnt - 1] = inscnt;` -/
def last_writes (s : delta_state) : List Nat :=
  if s.inscnt ≠ 0 then [s.out.length - s.inscnt - 1] else []

/-- After the loop. -/
def finish_traced (max_size : Nat) (s : delta_state) : traced :=
  let out := if s.inscnt ≠ 0 then set_count s.out s.inscnt else s.out
  traced.after (last_writes s) s.outsize
    ⟨[], if max_size ≠ 0 ∧ max_size < out.length then none else some out⟩

/-- The loop. Where it breaks, `outsize` is a new number already, but the buffer is the
old one. An `outpos` that an `unsigned int` does not hold is behind the end of every
buffer. -/
def traced_loop (index : delta_index) (trg : Bytes) (max_size : Nat) : Nat → delta_state → traced
  | 0, s => finish_traced max_size s
  | fuel + 1, s =>
    if s.data < trg.length then
      let t := emit index trg s
      traced.after (round_writes index trg s) s.outsize
        -- `outpos >= outsize - MAX_OP_SIZE`, without a sign
        (if (t.outsize + 2 ^ 32 - MAX_OP_SIZE) % 2 ^ 32 ≤ t.out.length then
          if max_size ≠ 0 ∧ max_size < t.out.length then finish_traced max_size t
          else
            traced_loop index trg max_size fuel
              { t with outsize := grown_size max_size t.outsize }
        else traced_loop index trg max_size fuel t)
    else finish_traced max_size s

/-- `create_delta` with its writes. Memory is there when it is asked for. -/
def create_delta_traced (index : delta_index) (trg_buf : Bytes) (max_size : Nat) : traced :=
  if trg_buf = [] then ⟨[], none⟩
  else
    let s := first_state index trg_buf max_size
    traced.after (first_writes index trg_buf) s.outsize
      (traced_loop index trg_buf max_size trg_buf.length s)

/-! ## What is asked of it -/

/-- The rounds without a limit. -/
def emit_all (index : delta_index) (trg : Bytes) : Nat → delta_state → delta_state
  | 0, s => s
  | fuel + 1, s => if s.data < trg.length then emit_all index trg fuel (emit index trg s) else s

/-- The length of the finished delta. -/
def finished_length (index : delta_index) (trg : Bytes) : Nat :=
  (emit_all index trg trg.length (first_state index trg 0)).out.length

/-- Every write goes into the buffer as it is then, and a delta that is longer than
`max_size` is not returned. -/
def StaysInside (index : delta_index) (trg : Bytes) (max_size : Nat) : Prop :=
  (∀ w ∈ (create_delta_traced index trg max_size).writes, w.index < w.outsize) ∧
    (max_size ≠ 0 → max_size < finished_length index trg →
      (create_delta_traced index trg max_size).returned = none)

/-- The round from `s` has the buffer grown from more bytes than an `unsigned int` holds a
third of, and something is still to be written. -/
def CutsShort (index : delta_index) (trg : Bytes) (max_size : Nat) (s : delta_state) : Prop :=
  Overgrows index trg max_size s ∧
    ((emit index trg s).data < trg.length ∨ (emit index trg s).inscnt ≠ 0)

/-! ## Where a round writes -/

variable {src trg : Bytes} {index : delta_index} {max_size : Nat}

theorem length_set_count (out : Bytes) (n : Nat) : (set_count out n).length = out.length := by
  rw [set_count, List.length_set]

theorem copy_bytes_pos (moff msize : Nat) : 1 ≤ (copy_bytes moff msize).length := by
  rw [copy_bytes, List.length_cons]
  omega

theorem length_end_literals (ref_data trg : Bytes) (s : delta_state) :
    (end_literals ref_data trg s).out.length = (match_back ref_data trg s.inscnt s).out.length := by
  rw [end_literals]
  dsimp only
  split
  · exact length_set_count _ _
  · rfl

theorem literal_writes_lt (trg : Bytes) (s : delta_state) :
    ∀ i ∈ literal_writes s, i < (emit_literal trg s).out.length := by
  have hlen : (emit_literal trg s).out.length =
      (if s.inscnt = 0 then s.out.length + 1 else s.out.length) + 1 := by
    rw [emit_literal]
    split <;> split <;> simp [length_set_count]
  rw [hlen]
  unfold literal_writes
  dsimp only
  generalize (if s.inscnt = 0 then s.out.length + 1 else s.out.length) = outpos
  intro i hi
  split_ifs at hi
  · simp only [List.mem_cons, List.not_mem_nil, or_false] at hi
    omega
  · rw [List.mem_singleton] at hi
    omega

theorem copy_writes_lt (ref_data trg : Bytes) (s : delta_state) :
    ∀ i ∈ copy_writes ref_data trg s, i < (emit_copy ref_data trg s).out.length := by
  have hlen : (emit_copy ref_data trg s).out.length =
      (match_back ref_data trg s.inscnt s).out.length +
        (copy_bytes (match_back ref_data trg s.inscnt s).moff
          ((match_back ref_data trg s.inscnt s).msize -
            if (match_back ref_data trg s.inscnt s).msize < 0x10000 then 0
            else (match_back ref_data trg s.inscnt s).msize - 0x10000)).length := by
    have hend := length_end_literals ref_data trg s
    rw [emit_copy]
    dsimp only
    rw [List.length_append, hend]
    rfl
  rw [hlen]
  unfold copy_writes
  dsimp only
  generalize match_back ref_data trg s.inscnt s = t
  generalize (if t.msize < 0x10000 then 0 else t.msize - 0x10000) = left
  have hpos := copy_bytes_pos t.moff (t.msize - left)
  generalize (copy_bytes t.moff (t.msize - left)).length = k at hpos ⊢
  intro i hi
  rw [List.mem_append, List.mem_append] at hi
  rcases hi with (hi | hi) | hi
  · split_ifs at hi
    · exact absurd hi List.not_mem_nil
    · rw [List.mem_singleton] at hi
      omega
    · rw [List.mem_singleton] at hi
      omega
  · rw [List.mem_range'_1] at hi
    omega
  · rw [List.mem_singleton] at hi
    omega

theorem round_writes_lt (index : delta_index) (trg : Bytes) (s : delta_state) :
    ∀ i ∈ round_writes index trg s, i < (emit index trg s).out.length := by
  unfold round_writes emit
  dsimp only
  split_ifs
  · exact literal_writes_lt _ _
  · exact copy_writes_lt _ _ _

/-- Matching back takes no more than the open run away. -/
theorem le_match_back (ref_data trg : Bytes) (n : Nat) (s : delta_state) :
    s.out.length ≤ (match_back ref_data trg n s).out.length + n + 1 := by
  induction n generalizing s with
  | zero =>
    rw [match_back]
    omega
  | succ n ih =>
    rw [match_back]
    split
    · dsimp only
      split
      · have := ih { s with
          out := s.out.dropLast, data := s.data - 1, inscnt := n,
          moff := s.moff - 1, msize := s.msize + 1 }
        dsimp only at this
        rw [List.length_dropLast] at this
        omega
      · rw [List.length_dropLast, List.length_dropLast]
        omega
    · omega

/-- A round writes behind all but the open run. -/
theorem exists_late_write (index : delta_index) (trg : Bytes) {s : delta_state}
    (hcount : s.inscnt < 0x7f) : ∃ i ∈ round_writes index trg s, s.out.length ≤ i + 0x80 := by
  have hsame : (find_match index trg s).out = s.out ∧
      (find_match index trg s).inscnt = s.inscnt := by
    rw [find_match]
    split <;> exact ⟨rfl, rfl⟩
  unfold round_writes
  dsimp only
  generalize find_match index trg s = t at hsame
  obtain ⟨hout, hinscnt⟩ := hsame
  rw [← hinscnt] at hcount
  rw [← hout]
  split_ifs
  · unfold literal_writes
    dsimp only
    refine ⟨if t.inscnt = 0 then t.out.length + 1 else t.out.length, ?_, ?_⟩
    · split_ifs <;> simp
    · split_ifs <;> omega
  · have hback := le_match_back index.src_buf trg t.inscnt t
    exact ⟨_, List.mem_append_right _ (List.mem_singleton_self _), by omega⟩

theorem last_writes_lt {s : delta_state} (h : s.inscnt ≠ 0 → 0 < s.out.length) :
    ∀ i ∈ last_writes s, i < s.out.length := by
  unfold last_writes
  intro i hi
  split_ifs at hi with hne
  · rw [List.mem_singleton] at hi
    have := h hne
    omega
  · exact absurd hi List.not_mem_nil

/-! ## The writes of the loop -/

theorem mem_after {first : List Nat} {outsize : Nat} {t : traced} {w : buffer_write} :
    w ∈ (t.after first outsize).writes ↔
      (∃ i ∈ first, w = ⟨i, outsize⟩) ∨ w ∈ t.writes := by
  unfold traced.after
  rw [List.mem_append, List.mem_map]
  refine or_congr_left ?_
  constructor
  · rintro ⟨i, hi, rfl⟩
    exact ⟨i, hi, rfl⟩
  · rintro ⟨i, hi, rfl⟩
    exact ⟨i, hi, rfl⟩

theorem mem_finish_traced {s : delta_state} {w : buffer_write} :
    w ∈ (finish_traced max_size s).writes ↔ ∃ i ∈ last_writes s, w = ⟨i, s.outsize⟩ := by
  unfold finish_traced
  rw [mem_after]
  simp

/-- An open run has a literal, and the place of its count in front. -/
theorem Emitting.out_pos {s : delta_state} {ops : List opcode} {slot lits : Bytes}
    (h : Emitting src trg s ops slot lits) (hne : s.inscnt ≠ 0) : 0 < s.out.length := by
  have hlen := congrArg List.length h.out_eq
  have hcount := h.count
  simp only [List.length_append] at hlen
  omega

theorem finish_traced_inside {s : delta_state} (hpos : s.inscnt ≠ 0 → 0 < s.out.length)
    (hfits : s.out.length ≤ s.outsize) :
    ∀ w ∈ (finish_traced max_size s).writes, w.index < w.outsize := by
  intro w hw
  obtain ⟨i, hi, rfl⟩ := mem_finish_traced.mp hw
  have := last_writes_lt hpos i hi
  dsimp only
  omega

/-- The test of the loop, where `outsize` is what it comes to be. -/
theorem low_mark {outsize : Nat} (hleast : 36 ≤ outsize) (hmost : outsize ≤ 2 ^ 31 + 35) :
    (outsize + 2 ^ 32 - MAX_OP_SIZE) % 2 ^ 32 = outsize - MAX_OP_SIZE := by
  have hsum : outsize + 2 ^ 32 - MAX_OP_SIZE = outsize - MAX_OP_SIZE + 2 ^ 32 := by
    rw [MAX_OP_SIZE]
    omega
  rw [hsum, Nat.add_mod_right, Nat.mod_eq_of_lt]
  rw [MAX_OP_SIZE]
  omega

/-- What follows a round, as `create_delta_step` has it. -/
theorem traced_loop_step (hi : InSource src index) (hsrc : src.length < 2 ^ 32)
    {s : delta_state} (h : Looping src trg s) (hdata : s.data < trg.length) (fuel : Nat) :
    traced_loop index trg max_size (fuel + 1) s =
      traced.after (round_writes index trg s) s.outsize
        (match create_delta_step index trg max_size s with
        | .more t => traced_loop index trg max_size fuel t
        | .stop t => finish_traced max_size t
        | .overrun =>
          traced_loop index trg max_size fuel
            { emit index trg s with outsize := grown_size max_size s.outsize }) := by
  obtain ⟨⟨ops, slot, lits, he⟩, hroom⟩ := h
  obtain ⟨-, hlen, -, hsize⟩ := emit_emitting hi hsrc he hdata
  have hfits := hroom.fits
  have hmark := low_mark hroom.least hroom.most
  rw [← hsize] at hmark
  rw [traced_loop, if_pos hdata]
  dsimp only
  have hroomy : ¬(emit index trg s).outsize < (emit index trg s).out.length := by omega
  rw [hmark, create_delta_step, if_neg hroomy]
  by_cases hfull : (emit index trg s).outsize - MAX_OP_SIZE ≤ (emit index trg s).out.length
  · rw [if_pos hfull, if_pos hfull]
    by_cases hcut : max_size ≠ 0 ∧ max_size < (emit index trg s).out.length
    · rw [if_pos hcut, if_pos hcut]
    · rw [if_neg hcut, if_neg hcut]
      by_cases hshrinks : grown_size max_size (emit index trg s).outsize <
          (emit index trg s).out.length
      · rw [if_pos hshrinks, hsize]
      · rw [if_neg hshrinks]
  · rw [if_neg hfull, if_neg hfull]

/-- The step is the round, whatever becomes of the buffer. -/
theorem step_emit (index : delta_index) (trg : Bytes) (max_size : Nat) (s : delta_state) :
    (∀ t, create_delta_step index trg max_size s = .stop t → t = emit index trg s) ∧
      ∀ t, create_delta_step index trg max_size s = .more t →
        ∃ outsize, t = { emit index trg s with outsize := outsize } ∧
          (outsize = (emit index trg s).outsize ∨
            outsize = grown_size max_size (emit index trg s).outsize) := by
  rw [create_delta_step]
  dsimp only
  generalize emit index trg s = u
  split_ifs
  · exact ⟨fun t ht => (by cases ht), fun t ht => (by cases ht)⟩
  · exact ⟨fun t ht => (step_result.stop.inj ht).symm, fun t ht => (by cases ht)⟩
  · exact ⟨fun t ht => (by cases ht), fun t ht => (by cases ht)⟩
  · exact ⟨fun t ht => (by cases ht),
      fun t ht => ⟨_, (step_result.more.inj ht).symm, Or.inr rfl⟩⟩
  · exact ⟨fun t ht => (by cases ht),
      fun t ht => ⟨u.outsize, (step_result.more.inj ht).symm, Or.inl rfl⟩⟩

/-- The writes of a round go into the buffer. -/
theorem round_writes_inside (hi : InSource src index) (hsrc : src.length < 2 ^ 32)
    {s : delta_state} (h : Looping src trg s) (hdata : s.data < trg.length) :
    ∀ i ∈ round_writes index trg s, i < s.outsize := by
  obtain ⟨⟨ops, slot, lits, he⟩, hroom⟩ := h
  obtain ⟨-, hlen, -, -⟩ := emit_emitting hi hsrc he hdata
  have hfits := hroom.fits
  intro i hin
  have := round_writes_lt index trg s i hin
  omega

/-- While the buffer is not made smaller too early, the loop writes inside it. -/
theorem traced_loop_inside (hi : InSource src index) (hsrc : src.length < 2 ^ 32)
    (hnever : ∀ s, Reached index trg max_size s → ¬CutsShort index trg max_size s)
    (fuel : Nat) : ∀ s, Looping src trg s → Reached index trg max_size s →
      ∀ w ∈ (traced_loop index trg max_size fuel s).writes, w.index < w.outsize := by
  have hdone : ∀ s, Looping src trg s →
      ∀ w ∈ (finish_traced max_size s).writes, w.index < w.outsize := by
    rintro s ⟨⟨ops, slot, lits, he⟩, hroom⟩
    have hfits := hroom.fits
    exact finish_traced_inside he.out_pos (by omega)
  induction fuel with
  | zero =>
    intro s h _
    rw [traced_loop]
    exact hdone s h
  | succ fuel ih =>
    intro s h hr
    by_cases hdata : s.data < trg.length
    · rw [traced_loop_step hi hsrc h hdata]
      intro w hw
      rcases mem_after.mp hw with ⟨i, hin, rfl⟩ | hw
      · exact round_writes_inside hi hsrc h hdata i hin
      rcases create_delta_step_spec hi hsrc max_size h hdata with
        ⟨t, hstep, ht, -, -⟩ | ⟨t, hstep, -, -, -⟩ | ⟨hstep, hover⟩
      · rw [hstep] at hw
        exact ih t ht (.more hr hdata hstep) w hw
      · rw [hstep] at hw
        obtain ⟨⟨ops, slot, lits, he⟩, hroom⟩ := h
        obtain ⟨⟨ops', slot', lits', he'⟩, hlen, -, hsize⟩ := emit_emitting hi hsrc he hdata
        have hfits := hroom.fits
        obtain rfl := (step_emit index trg max_size s).1 t hstep
        exact finish_traced_inside he'.out_pos (by omega) w hw
      · -- the buffer is made smaller, but there is nothing left to write
        rw [hstep] at hw
        have hlast := not_and.mp (hnever s hr) hover
        obtain ⟨hend, hrun⟩ := not_or.mp hlast
        have hnone : (traced_loop index trg max_size fuel
            { emit index trg s with outsize := grown_size max_size s.outsize }).writes = [] := by
          have hfinish : traced_loop index trg max_size fuel
              { emit index trg s with outsize := grown_size max_size s.outsize } =
              finish_traced max_size
                { emit index trg s with outsize := grown_size max_size s.outsize } := by
            cases fuel with
            | zero => rfl
            | succ fuel =>
              rw [traced_loop]
              exact if_neg hend
          rw [hfinish, List.eq_nil_iff_forall_not_mem]
          intro w hw
          obtain ⟨i, hin, -⟩ := mem_finish_traced.mp hw
          unfold last_writes at hin
          rw [if_neg hrun] at hin
          exact List.not_mem_nil hin
        rw [hnone] at hw
        exact absurd hw List.not_mem_nil
    · rw [traced_loop, if_neg hdata]
      exact hdone s h

/-- What the run comes to, the loop with its writes comes to. -/
theorem Reached.traced (hi : InSource src index) (hsrc : src.length < 2 ^ 32)
    (htrg : trg.length < 2 ^ 32) (hne : trg ≠ []) {s : delta_state}
    (h : Reached index trg max_size s) :
    Looping src trg s ∧ ∃ k ≤ s.data, ∀ fuel,
      ∀ w ∈ (traced_loop index trg max_size fuel s).writes,
        w ∈ (traced_loop index trg max_size (fuel + k)
          (first_state index trg max_size)).writes := by
  induction h with
  | first =>
    exact ⟨first_state_looping hi hsrc htrg hne max_size, 0, Nat.zero_le _, fun _ _ hw => hw⟩
  | more hr hdata hstep ih =>
    rename_i s t
    obtain ⟨hl, k, hk, hrun⟩ := ih
    rcases create_delta_step_spec hi hsrc max_size hl hdata with
      ⟨t', hstep', ht, hmoved, -⟩ | ⟨t', hstep', -⟩ | ⟨hstep', -⟩
    · rw [hstep] at hstep'
      cases hstep'
      refine ⟨ht, k + 1, by omega, fun fuel w hw => ?_⟩
      have hone := hrun (fuel + 1)
      rw [show fuel + 1 + k = fuel + (k + 1) by omega] at hone
      apply hone
      rw [traced_loop_step hi hsrc hl hdata, hstep]
      exact mem_after.mpr (Or.inr hw)
    · rw [hstep] at hstep'
      cases hstep'
    · rw [hstep] at hstep'
      cases hstep'

/-- A new size that wrapped is far below what was written. -/
theorem grown_size_far_below {outsize outpos : Nat} (hrange : 0x55555555 < outsize)
    (hmost : outsize ≤ 2 ^ 31 + 35) (hfull : outsize - MAX_OP_SIZE ≤ outpos) :
    grown_size max_size outsize + 0x100 ≤ outpos := by
  have hwrap : outsize * 3 % 2 ^ 32 = outsize * 3 - 2 ^ 32 := by omega
  rw [MAX_OP_SIZE] at hfull
  rw [grown_size, MAX_OP_SIZE, hwrap]
  split <;> omega

/-- Where the buffer is made smaller too early, a write goes outside. -/
theorem write_outside (hi : InSource src index) (hsrc : src.length < 2 ^ 32)
    (htrg : trg.length < 2 ^ 32) (hne : trg ≠ []) {s : delta_state}
    (hr : Reached index trg max_size s) (hcuts : CutsShort index trg max_size s) :
    ∃ w ∈ (create_delta_traced index trg max_size).writes, ¬w.index < w.outsize := by
  obtain ⟨hl, k, hk, hrun⟩ := hr.traced hi hsrc htrg hne
  obtain ⟨hover, hleft⟩ := hcuts
  obtain ⟨hdata, hfull, hcut, hrange⟩ := hover
  obtain ⟨fuel, hfuel⟩ : ∃ n, trg.length = n + 1 + k := ⟨trg.length - k - 1, by omega⟩
  suffices hout : ∃ w ∈ (traced_loop index trg max_size (fuel + 1) s).writes,
      ¬w.index < w.outsize by
    obtain ⟨w, hw, hnot⟩ := hout
    refine ⟨w, ?_, hnot⟩
    rw [create_delta_traced, if_neg hne]
    refine mem_after.mpr (Or.inr ?_)
    rw [hfuel]
    exact hrun (fuel + 1) w hw
  rcases create_delta_step_spec hi hsrc max_size hl hdata with
    ⟨t, -, -, -, hno⟩ | ⟨t, -, -, -, hno⟩ | ⟨hstep, -⟩
  · exact absurd ⟨hdata, hfull, hcut, hrange⟩ hno
  · exact absurd ⟨hdata, hfull, hcut, hrange⟩ hno
  rw [traced_loop_step hi hsrc hl hdata, hstep]
  obtain ⟨⟨ops, slot, lits, he⟩, hroom⟩ := hl
  obtain ⟨⟨ops', slot', lits', he'⟩, hlen, hmoved, hsize⟩ := emit_emitting hi hsrc he hdata
  have hbelow := @grown_size_far_below max_size _ _ hrange hroom.most hfull
  have hcount := he'.count_lt
  by_cases hend : (emit index trg s).data < trg.length
  · -- the next round writes behind the open run
    obtain ⟨n, rfl⟩ : ∃ n, fuel = n + 1 := ⟨fuel - 1, by omega⟩
    obtain ⟨i, hin, hlate⟩ := exists_late_write index trg
      (s := { emit index trg s with outsize := grown_size max_size s.outsize }) hcount
    refine ⟨⟨i, grown_size max_size s.outsize⟩, mem_after.mpr (Or.inr ?_), ?_⟩
    · rw [traced_loop, if_pos (by exact hend)]
      exact mem_after.mpr (Or.inl ⟨i, hin, rfl⟩)
    · dsimp only at hlate ⊢
      omega
  · -- the count of the last run is put in front of it
    have hrun' := hleft.resolve_left hend
    refine ⟨⟨(emit index trg s).out.length - (emit index trg s).inscnt - 1,
      grown_size max_size s.outsize⟩, mem_after.mpr (Or.inr ?_), ?_⟩
    · have hfinish : traced_loop index trg max_size fuel
          { emit index trg s with outsize := grown_size max_size s.outsize } =
          finish_traced max_size
            { emit index trg s with outsize := grown_size max_size s.outsize } := by
        cases fuel with
        | zero => rfl
        | succ fuel =>
          rw [traced_loop]
          exact if_neg hend
      dsimp only
      rw [hfinish]
      refine mem_finish_traced.mpr ⟨_, ?_, rfl⟩
      unfold last_writes
      rw [if_pos hrun']
      exact List.mem_singleton_self _
    · dsimp only
      omega

/-! ## A delta that is too long -/

theorem match_back_outsize (ref_data trg : Bytes) (n : Nat) (s : delta_state) (outsize : Nat) :
    match_back ref_data trg n { s with outsize := outsize } =
      { match_back ref_data trg n s with outsize := outsize } := by
  induction n generalizing s with
  | zero => rfl
  | succ n ih =>
    rw [match_back, match_back]
    dsimp only
    split
    · split
      · exact ih { s with
          out := s.out.dropLast, data := s.data - 1, inscnt := n,
          moff := s.moff - 1, msize := s.msize + 1 }
      · rfl
    · rfl

/-- What is emitted has nothing to do with the size of the buffer. -/
theorem emit_outsize (index : delta_index) (trg : Bytes) (s : delta_state) (outsize : Nat) :
    emit index trg { s with outsize := outsize } =
      { emit index trg s with outsize := outsize } := by
  have hfind : find_match index trg { s with outsize := outsize } =
      { find_match index trg s with outsize := outsize } := by
    rw [find_match, find_match]
    dsimp only
    split <;> rfl
  rw [emit, emit, hfind]
  dsimp only
  split
  · rw [emit_literal, emit_literal]
    dsimp only
    split <;> rfl
  · rw [emit_copy, emit_copy, end_literals, end_literals]
    dsimp only
    rw [match_back_outsize]

theorem emit_all_outsize (index : delta_index) (trg : Bytes) (fuel : Nat) (s : delta_state)
    (outsize : Nat) : (emit_all index trg fuel { s with outsize := outsize }).out =
      (emit_all index trg fuel s).out := by
  induction fuel generalizing s with
  | zero => rfl
  | succ fuel ih =>
    rw [emit_all, emit_all]
    dsimp only
    split
    · rw [emit_outsize]
      exact ih _
    · rfl

theorem returned_after (first : List Nat) (outsize : Nat) (t : traced) :
    (t.after first outsize).returned = t.returned := rfl

theorem finish_traced_null {s : delta_state} (h0 : max_size ≠ 0) (h : max_size < s.out.length) :
    (finish_traced max_size s).returned = none := by
  unfold finish_traced traced.after
  dsimp only
  rw [if_pos]
  refine ⟨h0, ?_⟩
  split
  · rwa [length_set_count]
  · exact h

theorem traced_loop_null (h0 : max_size ≠ 0) (fuel : Nat) :
    ∀ s, max_size < (emit_all index trg fuel s).out.length →
      (traced_loop index trg max_size fuel s).returned = none := by
  induction fuel with
  | zero => exact fun s h => finish_traced_null h0 h
  | succ fuel ih =>
    intro s h
    rw [emit_all] at h
    rw [traced_loop]
    by_cases hdata : s.data < trg.length
    · rw [if_pos hdata] at h ⊢
      dsimp only
      rw [returned_after]
      generalize emit index trg s = t at h ⊢
      by_cases hfull : (t.outsize + 2 ^ 32 - MAX_OP_SIZE) % 2 ^ 32 ≤ t.out.length
      · rw [if_pos hfull]
        by_cases hcut : max_size ≠ 0 ∧ max_size < t.out.length
        · rw [if_pos hcut]
          exact finish_traced_null h0 hcut.2
        · rw [if_neg hcut]
          generalize grown_size max_size t.outsize = outsize
          have hsame := emit_all_outsize index trg fuel t outsize
          exact ih { t with outsize := outsize } (hsame ▸ h)
      · rw [if_neg hfull]
        exact ih t h
    · rw [if_neg hdata] at h ⊢
      exact finish_traced_null h0 h

theorem create_delta_null (h0 : max_size ≠ 0) (h : max_size < finished_length index trg) :
    (create_delta_traced index trg max_size).returned = none := by
  rw [create_delta_traced]
  split
  · rfl
  · apply traced_loop_null h0
    have hfirst : first_state index trg max_size =
        { first_state index trg 0 with
          outsize := (first_state index trg max_size).outsize } := rfl
    rw [hfirst, emit_all_outsize]
    exact h

/-! ## The same run without its writes -/

/-! ## Small targets and small limits -/

/-- Two bytes are emitted for one of the target at most. -/
theorem emit_length_data (hi : InSource src index) {s : delta_state} {ops : List opcode}
    {slot lits : Bytes} (h : Emitting src trg s ops slot lits) :
    (emit index trg s).out.length + 2 * s.data ≤
      s.out.length + 2 * (emit index trg s).data := by
  have hf := find_match_emitting hi h
  have hsame : (find_match index trg s).out = s.out ∧
      (find_match index trg s).data = s.data := by
    rw [find_match]
    split <;> exact ⟨rfl, rfl⟩
  rw [emit]
  generalize find_match index trg s = t at hf hsame
  obtain ⟨hout, hdata⟩ := hsame
  rw [← hout, ← hdata]
  split
  · have hlen := length_emit_literal trg t
    have hmoved : (emit_literal trg t).data = t.data + 1 := by
      rw [emit_literal]
      split <;> rfl
    omega
  · rw [hi.1]
    obtain ⟨-, -, h1, h2, h3, -, -⟩ := end_literals_emitting hf
    have hlt := hf.count_lt
    rw [emit_copy]
    dsimp only
    revert h1 h2 h3
    generalize end_literals src trg t = u
    intro h1 h2 h3
    -- a match of four bytes is no longer as an opcode than seven
    obtain ⟨m, hm, hall⟩ : ∃ m, u.msize - (if u.msize < 0x10000 then 0 else u.msize - 0x10000) =
        m ∧ (m = u.msize ∨ m = 0x10000) := by
      refine ⟨_, rfl, ?_⟩
      split <;> omega
    have hlen := length_copy_bytes u.moff m
    rw [hm, List.length_append]
    omega

theorem first_state_length (hi : InSource src index) (hsrc : src.length < 2 ^ 32)
    (htrg : trg.length < 2 ^ 32) (max_size : Nat) :
    (first_state index trg max_size).out.length ≤ 27 := by
  have hs := length_hdr_bytes_le 4 src.length (by omega)
  have ht := length_hdr_bytes_le 4 trg.length (by omega)
  have hwin : (trg.take RABIN_WINDOW).length = min 16 trg.length := List.length_take
  have hsmod : src.length % 2 ^ 32 = src.length := Nat.mod_eq_of_lt hsrc
  have htmod : trg.length % 2 ^ 32 = trg.length := Nat.mod_eq_of_lt htrg
  simp only [first_state, List.length_append, List.length_cons, hwin, hi.1, hsmod, htmod]
  omega

/-- The buffer is smaller than `max_size`, or it is as large as it will be. -/
def Limited (max_size : Nat) (s : delta_state) : Prop :=
  max_size ≠ 0 → s.outsize < max_size ∨ s.outsize = max_size + MAX_OP_SIZE + 1

theorem grown_size_limited (max_size outsize : Nat) (h0 : max_size ≠ 0) :
    grown_size max_size outsize < max_size ∨
      grown_size max_size outsize = max_size + MAX_OP_SIZE + 1 := by
  rw [grown_size]
  split
  · exact Or.inr rfl
  · omega

theorem Reached.small (hi : InSource src index) (hsrc : src.length < 2 ^ 32)
    (htrg : trg.length < 2 ^ 32) (hne : trg ≠ []) {s : delta_state}
    (h : Reached index trg max_size s) :
    s.out.length ≤ 27 + 2 * s.data ∧ Limited max_size s := by
  induction h with
  | first =>
    have hlen := first_state_length hi hsrc htrg max_size
    refine ⟨by omega, fun h0 => ?_⟩
    simp only [first_state]
    split
    · exact Or.inr rfl
    · omega
  | @more s t hr hdata hstep ih =>
    obtain ⟨⟨⟨ops, slot, lits, he⟩, -⟩, -⟩ := hr.traced hi hsrc htrg hne
    have hemit := emit_length_data hi he
    have hsize := (emit_emitting hi hsrc he hdata).2.2.2
    obtain ⟨outsize, rfl, hnew⟩ := (step_emit index trg max_size s).2 t hstep
    refine ⟨by dsimp only; omega, fun h0 => ?_⟩
    dsimp only
    rcases hnew with rfl | rfl
    · rw [hsize]
      exact ih.2 h0
    · exact grown_size_limited max_size _ h0

/-- With such a limit, or such a target, the buffer is never made smaller. -/
theorem not_cuts_short (hi : InSource src index) (hsrc : src.length < 2 ^ 32)
    (htrg : trg.length < 2 ^ 32) (hne : trg ≠ [])
    (hsmall : max_size ≠ 0 ∧ max_size ≤ 0x55555556 ∨ trg.length ≤ 715827852) {s : delta_state}
    (h : Reached index trg max_size s) : ¬CutsShort index trg max_size s := by
  rintro ⟨⟨hdata, hfull, hcut, hrange⟩, -⟩
  obtain ⟨⟨⟨ops, slot, lits, he⟩, -⟩, -⟩ := h.traced hi hsrc htrg hne
  obtain ⟨⟨ops', slot', lits', he'⟩, -, -, -⟩ := emit_emitting hi hsrc he hdata
  obtain ⟨hlen, hlimited⟩ := h.small hi hsrc htrg hne
  have hemit := emit_length_data hi he
  have hinside := he'.inside
  rw [MAX_OP_SIZE] at hfull
  rcases hsmall with ⟨h0, hmax⟩ | hshort
  · rcases hlimited h0 with hless | hlast
    · omega
    · rw [MAX_OP_SIZE] at hlast
      exact hcut ⟨h0, by omega⟩
  · omega

/-! ## The whole run -/

theorem first_writes_inside (hi : InSource src index) (hsrc : src.length < 2 ^ 32)
    (htrg : trg.length < 2 ^ 32) (hne : trg ≠ []) :
    ∀ i ∈ first_writes index trg, i < (first_state index trg max_size).outsize := by
  have hroom := (first_state_looping hi hsrc htrg hne max_size).2
  have hfits := hroom.fits
  have hlen : (first_state index trg max_size).out.length =
      (hdr_bytes (index.src_buf.length % 2 ^ 32) ++ hdr_bytes (trg.length % 2 ^ 32)).length +
        ((trg.take RABIN_WINDOW).length + 1) := by
    simp only [first_state, List.length_append, List.length_cons]
  intro i hin
  unfold first_writes at hin
  dsimp only at hin
  rcases List.mem_append.mp hin with hin | hin
  · rw [List.mem_range] at hin
    omega
  · rw [List.mem_range'_1] at hin
    omega

/-- What is emitted against a single byte is no shorter than what it says. -/
theorem Emitting.le_length {x : UInt8} {s : delta_state} {ops : List opcode} {slot lits : Bytes}
    (h : Emitting [x] trg s ops slot lits) : s.data ≤ s.out.length := by
  have hle := length_gives_le x ops h.sound
  have hgives := congrArg List.length h.gives
  have hout := congrArg List.length h.out_eq
  have hin := h.inside
  rw [List.length_append, List.length_take, Nat.min_eq_left hin] at hgives
  simp only [List.length_append] at hout
  omega

/-- Against a single byte the delta of a target of three gigabytes does not fit in the
largest buffer. -/
theorem cuts_short_of_single {x : UInt8} (hi : InSource [x] index)
    (hlen : trg.length = 3221225472) :
    ∃ s, Reached index trg 0 s ∧ CutsShort index trg 0 s := by
  have hsrc : ([x] : Bytes).length < 2 ^ 32 := by
    rw [List.length_singleton]
    omega
  have htrg : trg.length < 2 ^ 32 := by omega
  have hne : trg ≠ [] := by
    rintro rfl
    rw [List.length_nil] at hlen
    omega
  obtain ⟨s, hr, hover⟩ : ∃ s, Reached index trg 0 s ∧ Overgrows index trg 0 s := by
    by_contra hnone
    rcases create_delta_spec hi hsrc htrg hne 0 with ⟨-, h0⟩ | ⟨d, -, hw⟩ | ⟨-, hno⟩
    · exact h0 rfl
    · obtain ⟨hmost, ops, hsound, hd, hgives⟩ := hw
      have hle := length_gives_le x ops hsound
      have hdlen := congrArg List.length hd
      simp only [List.length_append] at hdlen
      rw [hgives, hlen] at hle
      omega
    · exact hno fun s hr hover => hnone ⟨s, hr, hover⟩
  refine ⟨s, hr, hover, Or.inl ?_⟩
  obtain ⟨⟨⟨ops, slot, lits, he⟩, hroom⟩, -⟩ := hr.traced hi hsrc htrg hne
  obtain ⟨⟨ops', slot', lits', he'⟩, hshort, -, -⟩ := emit_emitting hi hsrc he hover.1
  have hlong := he'.le_length
  have hfits := hroom.fits
  have hmost := hroom.most
  omega

end git.delta
