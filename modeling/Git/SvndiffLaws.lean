-- The applier reads a delta as the format says: it gives the targets of the windows where the
-- delta is well formed, an error where it is not, and reads nothing that is not there.
import Git.Svndiff
import Git.SvndiffFormat
import Git.Lib.Computes

namespace git.svndiff

open git.quote computes

/-! ## Integers that fit -/

theorem keep_agrees (n : Nat) : SameUnless .too_large (below_off_max n) (uintmax n) := by
  unfold below_off_max uintmax
  split_ifs with h
  · rw [Nat.mod_eq_of_lt (by omega)]
    exact SameUnless.refl _ _
  · exact Or.inl rfl

theorem read_int_agrees (file : Bytes) : ∀ rv len,
    SameUnless .too_large (read_int below_off_max rv file len) (read_int uintmax rv file len) := by
  induction file with
  | nil =>
    intro rv len
    cases len with
    | zero => exact SameUnless.refl _ _
    | succ len => exact SameUnless.refl _ _
  | cons ch file ih =>
    intro rv len
    cases len with
    | zero => exact SameUnless.refl _ _
    | succ len =>
      rw [read_int, read_int]
      refine (keep_agrees _).bind fun rv => ?_
      exact SameUnless.ite (ih rv len) (SameUnless.refl _ _)

theorem parse_int_agrees (buf : Bytes) : ∀ rv,
    SameUnless .too_large (parse_int below_off_max rv buf) (parse_int uintmax rv buf) := by
  induction buf with
  | nil => exact fun rv => SameUnless.refl _ _
  | cons ch buf ih =>
    intro rv
    rw [parse_int, parse_int]
    refine (keep_agrees _).bind fun rv => ?_
    exact SameUnless.ite (ih rv) (SameUnless.refl _ _)

theorem read_offset_agrees (delta : line_buffer) :
    SameUnless .too_large (read_offset below_off_max delta) (read_offset uintmax delta) :=
  (read_int_agrees _ _ _).bind fun _ => SameUnless.refl _ _

theorem read_length_agrees (delta : line_buffer) :
    SameUnless .too_large (read_length below_off_max delta) (read_length uintmax delta) :=
  (read_int_agrees _ _ _).bind fun _ => SameUnless.refl _ _

theorem parse_first_operand_agrees (buf : Bytes) :
    SameUnless .too_large (parse_first_operand below_off_max buf)
      (parse_first_operand uintmax buf) := by
  cases buf with
  | nil => exact SameUnless.refl _ _
  | cons ch buf =>
    unfold parse_first_operand
    exact SameUnless.ite (SameUnless.refl _ _)
      ((parse_int_agrees _ _).bind fun _ => SameUnless.refl _ _)

theorem execute_agrees (view : sliding_view) (data instructions : Bytes) (data_pos : Nat)
    (out : Bytes) : SameUnless .too_large
      (execute_one_instruction below_off_max view data instructions data_pos out)
      (execute_one_instruction uintmax view data instructions data_pos out) := by
  unfold execute_one_instruction
  refine (parse_first_operand_agrees _).bind ?_
  rintro ⟨selector, nbytes, instructions⟩
  rcases selector with - | - | - | selector
  · refine SameUnless.bind ?_ fun _ => SameUnless.refl _ _
    exact (parse_int_agrees _ _).bind fun _ => SameUnless.refl _ _
  · refine SameUnless.bind ?_ fun _ => SameUnless.refl _ _
    exact (parse_int_agrees _ _).bind fun _ => SameUnless.refl _ _
  · exact SameUnless.refl _ _
  · exact SameUnless.refl _ _

theorem run_agrees (view : sliding_view) (data : Bytes) (left : Nat) :
    ∀ instructions data_pos out, SameUnless .too_large
      (run_instructions below_off_max view data left instructions data_pos out)
      (run_instructions uintmax view data left instructions data_pos out) := by
  induction left with
  | zero =>
    rintro (- | ⟨c, instructions⟩) data_pos out
    · exact SameUnless.refl _ _
    · exact SameUnless.refl _ _
  | succ left ih =>
    rintro (- | ⟨c, instructions⟩) data_pos out
    · exact SameUnless.refl _ _
    · rw [run_instructions, run_instructions]
      exact (execute_agrees _ _ _ _ _).bind fun _ => ih _ _ _

theorem apply_one_window_agrees (delta : line_buffer) (view : sliding_view) :
    SameUnless .too_large (apply_one_window below_off_max delta view)
      (apply_one_window uintmax delta view) := by
  unfold apply_one_window
  refine (read_length_agrees _).bind fun _ => ?_
  refine (read_length_agrees _).bind fun _ => ?_
  refine (read_length_agrees _).bind fun _ => ?_
  refine (SameUnless.refl _ _).bind fun _ => ?_
  refine (SameUnless.refl _ _).bind fun _ => ?_
  exact (run_agrees _ _ _ _ _ _).bind fun _ => SameUnless.refl _ _

theorem apply_windows_agrees (left : Nat) : ∀ delta view postimage, SameUnless .too_large
    (apply_windows below_off_max left delta view postimage)
    (apply_windows uintmax left delta view postimage) := by
  induction left with
  | zero =>
    intro delta view postimage
    unfold apply_windows
    exact SameUnless.refl _ _
  | succ left ih =>
    intro delta view postimage
    unfold apply_windows
    refine SameUnless.ite (SameUnless.refl _ _) ?_
    refine (read_offset_agrees _).bind fun _ => ?_
    refine (read_length_agrees _).bind fun _ => ?_
    refine (SameUnless.refl _ _).bind fun _ => ?_
    exact (apply_one_window_agrees _ _).bind fun _ => ih _ _ _

/-- Where no integer of the delta is 2^63 or more, 64 bits are enough. -/
theorem svndiff0_apply_agrees (delta : line_buffer) (view : sliding_view) :
    SameUnless .too_large (svndiff0_apply below_off_max delta view)
      (svndiff0_apply uintmax delta view) :=
  (SameUnless.refl _ _).bind fun _ => apply_windows_agrees _ _ _ _

/-! ## Reading the delta -/

/-- The errors that a delta or a preimage can be at fault for. -/
def AtFault (e : error) : Prop := e ≠ .assertion ∧ e ≠ .out_of_bounds

/-- The bytes that were read between two states of the delta. -/
def Reads (delta : line_buffer) (bs : Bytes) (delta' : line_buffer) : Prop :=
  delta.file = bs ++ delta'.file ∧ delta.len = bs.length + delta'.len

theorem Reads.trans {d d' d'' : line_buffer} {bs bs' : Bytes} (h : Reads d bs d')
    (h' : Reads d' bs' d'') : Reads d (bs ++ bs') d'' := by
  obtain ⟨hfile, hlen⟩ := h
  obtain ⟨hfile', hlen'⟩ := h'
  refine ⟨by rw [hfile, hfile', List.append_assoc], ?_⟩
  rw [hlen, hlen', List.length_append, Nat.add_assoc]

/-- What is read can be read in two parts. -/
theorem Reads.split {d d'' : line_buffer} {bs bs' : Bytes} (h : Reads d (bs ++ bs') d'') :
    ∃ d', Reads d bs d' ∧ Reads d' bs' d'' := by
  obtain ⟨hfile, hlen⟩ := h
  refine ⟨⟨bs' ++ d''.file, bs'.length + d''.len⟩, ⟨?_, ?_⟩, rfl, rfl⟩
  · rw [hfile, List.append_assoc]
  · rw [hlen, List.length_append, Nat.add_assoc]

theorem keep_computes (n : Nat) :
    Computes AtFault (below_off_max n) fun m => n < 2 ^ 63 ∧ m = n := by
  unfold below_off_max
  by_cases h : n < 2 ^ 63
  · rw [if_pos h]
    exact (Computes.ok n).congr fun m => ⟨fun hm => ⟨h, hm⟩, fun hm => hm.2⟩
  · rw [if_neg h]
    exact Computes.fail ⟨by decide, by decide⟩ fun m hm => h hm.1

theorem read_int_computes (file : Bytes) : ∀ rv len,
    Computes AtFault (read_int below_off_max rv file len) fun r =>
      ∃ ds, Digits rv ds r.1 ∧ r.1 < 2 ^ 63 ∧ Reads ⟨file, len⟩ ds r.2 := by
  have hshort : ∀ rv file len, (file = [] ∨ len = 0) → ∀ r : Nat × line_buffer,
      ¬ ∃ ds, Digits rv ds r.1 ∧ r.1 < 2 ^ 63 ∧ Reads ⟨file, len⟩ ds r.2 := by
    rintro rv file len hend r ⟨ds, hds, -, hfile, hlen⟩
    have hpos := List.length_pos_iff.mpr hds.ne_nil
    rcases hend with rfl | rfl
    · have := congrArg List.length hfile
      rw [List.length_append, List.length_nil] at this
      omega
    · dsimp only at hlen
      omega
  induction file with
  | nil =>
    intro rv len
    cases len with
    | zero => exact Computes.fail ⟨by decide, by decide⟩ (hshort rv [] 0 (Or.inl rfl))
    | succ len => exact Computes.fail ⟨by decide, by decide⟩ (hshort rv [] _ (Or.inl rfl))
  | cons ch file ih =>
    intro rv len
    cases len with
    | zero => exact Computes.fail ⟨by decide, by decide⟩ (hshort rv _ 0 (Or.inr rfl))
    | succ len =>
      rw [read_int]
      by_cases hhigh : 128 ≤ ch.toNat
      · refine ((keep_computes _).bind (fun rv' r => ∃ ds, Digits rv' ds r.1 ∧ r.1 < 2 ^ 63 ∧
          Reads ⟨file, len⟩ ds r.2) fun rv' hrv' => ?_).congr ?_
        · rw [if_pos hhigh]
          exact ih rv' len
        · rintro ⟨n, delta⟩
          constructor
          · rintro ⟨rv', ⟨-, rfl⟩, ds, hds, hn, hfile, hlen⟩
            refine ⟨ch :: ds, Digits.high hhigh hds, hn, ?_, ?_⟩
            · exact congrArg (ch :: ·) hfile
            · rw [List.length_cons]
              dsimp only at hlen ⊢
              omega
          · rintro ⟨ds, hds, hn, hfile, hlen⟩
            cases hds with
            | low hlow =>
              cases hfile
              omega
            | high hhigh' hds =>
              cases hfile
              refine ⟨_, ⟨lt_of_le_of_lt hds.le hn, rfl⟩, _, hds, hn, rfl, ?_⟩
              rw [List.length_cons] at hlen
              dsimp only at hlen ⊢
              omega
      · have hlow : ch.toNat % 128 = ch.toNat := Nat.mod_eq_of_lt (by omega)
        refine ((keep_computes _).bind (fun rv' r => r = (rv', ⟨file, len⟩))
          fun rv' hrv' => ?_).congr ?_
        · rw [if_neg hhigh]
          exact Computes.ok _
        · rintro ⟨n, delta⟩
          rw [hlow]
          constructor
          · rintro ⟨rv', ⟨hlt, rfl⟩, heq⟩
            cases heq
            refine ⟨[ch], Digits.low (by omega), hlt, rfl, ?_⟩
            rw [List.length_singleton]
            exact Nat.add_comm len 1
          · rintro ⟨ds, hds, hn, hfile, hlen⟩
            cases hds with
            | low _ =>
              obtain ⟨file', len'⟩ := delta
              cases hfile
              rw [List.length_singleton] at hlen
              dsimp only at hlen
              have hlen' : len' = len := by omega
              rw [hlen']
              exact ⟨_, ⟨hn, rfl⟩, rfl⟩
            | high hhigh' _ =>
              cases hfile
              exact absurd hhigh' hhigh

theorem parse_int_computes (buf : Bytes) : ∀ rv,
    Computes AtFault (parse_int below_off_max rv buf) fun r =>
      ∃ ds, Digits rv ds r.1 ∧ r.1 < 2 ^ 63 ∧ buf = ds ++ r.2 := by
  induction buf with
  | nil =>
    intro rv
    refine Computes.fail ⟨by decide, by decide⟩ ?_
    rintro r ⟨ds, hds, -, hbuf⟩
    exact hds.ne_nil (List.append_eq_nil_iff.mp hbuf.symm).1
  | cons ch buf ih =>
    intro rv
    rw [parse_int]
    by_cases hhigh : 128 ≤ ch.toNat
    · refine ((keep_computes _).bind (fun rv' r => ∃ ds, Digits rv' ds r.1 ∧ r.1 < 2 ^ 63 ∧
        buf = ds ++ r.2) fun rv' hrv' => ?_).congr ?_
      · rw [if_pos hhigh]
        exact ih rv'
      · rintro ⟨n, rest⟩
        constructor
        · rintro ⟨rv', ⟨-, rfl⟩, ds, hds, hn, hbuf⟩
          exact ⟨ch :: ds, Digits.high hhigh hds, hn, congrArg (ch :: ·) hbuf⟩
        · rintro ⟨ds, hds, hn, hbuf⟩
          cases hds with
          | low hlow =>
            cases hbuf
            omega
          | high hhigh' hds =>
            cases hbuf
            exact ⟨_, ⟨lt_of_le_of_lt hds.le hn, rfl⟩, _, hds, hn, rfl⟩
    · have hlow : ch.toNat % 128 = ch.toNat := Nat.mod_eq_of_lt (by omega)
      refine ((keep_computes _).bind (fun rv' r => r = (rv', buf)) fun rv' hrv' => ?_).congr ?_
      · rw [if_neg hhigh]
        exact Computes.ok _
      · rintro ⟨n, rest⟩
        rw [hlow]
        constructor
        · rintro ⟨rv', ⟨hlt, rfl⟩, heq⟩
          cases heq
          exact ⟨[ch], Digits.low (by omega), hlt, rfl⟩
        · rintro ⟨ds, hds, hn, hbuf⟩
          cases hds with
          | low _ =>
            cases hbuf
            exact ⟨_, ⟨hn, rfl⟩, rfl⟩
          | high hhigh' _ =>
            cases hbuf
            exact absurd hhigh' hhigh

theorem read_length_computes (delta : line_buffer) :
    Computes AtFault (read_length below_off_max delta) fun r =>
      ∃ ds, Int63 ds r.1 ∧ Reads delta ds r.2 := by
  refine ((read_int_computes delta.file 0 delta.len).bind (fun r r' => r' = r)
    fun r hr => ?_).congr ?_
  · obtain ⟨n, delta'⟩ := r
    obtain ⟨ds, -, hlt, -⟩ := hr
    dsimp only at hlt ⊢
    rw [if_neg (by omega)]
    exact Computes.ok _
  · intro r
    constructor
    · rintro ⟨r', ⟨ds, hds, hlt, hreads⟩, rfl⟩
      exact ⟨ds, ⟨hds, hlt⟩, hreads⟩
    · rintro ⟨ds, ⟨hds, hlt⟩, hreads⟩
      exact ⟨r, ⟨ds, hds, hlt, hreads⟩, rfl⟩

theorem read_offset_computes (delta : line_buffer) :
    Computes AtFault (read_offset below_off_max delta) fun r =>
      ∃ ds, Int63 ds r.1 ∧ Reads delta ds r.2 := by
  refine ((read_int_computes delta.file 0 delta.len).bind (fun r r' => r' = r)
    fun r hr => ?_).congr ?_
  · obtain ⟨n, delta'⟩ := r
    obtain ⟨ds, -, hlt, -⟩ := hr
    dsimp only at hlt ⊢
    rw [if_neg (by omega)]
    exact Computes.ok _
  · intro r
    constructor
    · rintro ⟨r', ⟨ds, hds, hlt, hreads⟩, rfl⟩
      exact ⟨ds, ⟨hds, hlt⟩, hreads⟩
    · rintro ⟨ds, ⟨hds, hlt⟩, hreads⟩
      exact ⟨r, ⟨ds, hds, hlt, hreads⟩, rfl⟩

theorem read_chunk_computes (delta : line_buffer) (len : Nat) :
    Computes AtFault (read_chunk delta len) fun r => r.1.length = len ∧ Reads delta r.1 r.2 := by
  unfold read_chunk
  refine (Computes.unless (fun _ => ⟨by decide, by decide⟩) fun _ => Computes.ok _).congr ?_
  rintro ⟨bs, delta'⟩
  constructor
  · rintro ⟨hroom, heq⟩
    cases heq
    refine ⟨List.length_take_of_le (by omega), ?_, ?_⟩
    · exact (List.take_append_drop len delta.file).symm
    · rw [List.length_take_of_le (by omega)]
      dsimp only
      omega
  · rintro ⟨rfl, hfile, hlen⟩
    dsimp only at hfile hlen
    refine ⟨?_, ?_⟩
    · rw [hfile, List.length_append]
      dsimp only
      omega
    · rw [hfile, List.take_left, List.drop_left, hlen, Nat.add_sub_cancel_left]

/-! ## Instructions -/

theorem parse_first_operand_computes {instructions : Bytes} (hne : instructions ≠ []) :
    Computes AtFault (parse_first_operand below_off_max instructions) fun r =>
      ∃ bs, Operand r.1 bs r.2.1 ∧ instructions = bs ++ r.2.2 := by
  obtain ⟨ch, buf, rfl⟩ := List.exists_cons_of_ne_nil hne
  unfold parse_first_operand
  dsimp only
  by_cases hpacked : ch.toNat % 64 ≠ 0
  · rw [if_pos hpacked]
    refine (Computes.ok _).congr ?_
    rintro ⟨selector, nbytes, rest⟩
    constructor
    · intro heq
      cases heq
      exact ⟨[ch], Operand.packed hpacked, rfl⟩
    · rintro ⟨bs, hop, heq⟩
      cases hop with
      | packed _ =>
        cases heq
        rfl
      | int hzero _ =>
        cases heq
        exact absurd hzero hpacked
  · rw [if_neg hpacked]
    have hzero := not_not.mp hpacked
    refine ((parse_int_computes buf 0).bind (fun r r' => r' = (ch.toNat / 64, r.1, r.2))
      fun r hr => Computes.ok _).congr ?_
    rintro ⟨selector, nbytes, rest⟩
    constructor
    · rintro ⟨⟨n, rest'⟩, ⟨ds, hds, hlt, hbuf⟩, heq⟩
      cases heq
      exact ⟨ch :: ds, Operand.int hzero ⟨hds, hlt⟩, congrArg (ch :: ·) hbuf⟩
    · rintro ⟨bs, hop, heq⟩
      cases hop with
      | packed h =>
        cases heq
        exact absurd h hpacked
      | int _ hds =>
        cases heq
        exact ⟨(nbytes, rest), ⟨_, hds.1, hds.2, rfl⟩, rfl⟩

/-- The loop copies what it has written itself. -/
theorem copy_bytes_repeated (start : Bytes) (offset : Nat) (hoff : offset < start.length)
    (nbytes : Nat) : ∀ done,
      copy_bytes (offset + done) nbytes (start ++ repeated start offset done) =
      .ok (start ++ repeated start offset (done + nbytes)) := by
  induction nbytes with
  | zero => exact fun done => rfl
  | succ nbytes ih =>
    intro done
    have hnext : (start ++ repeated start offset done)[offset + done]? =
        some (start.getD (offset + done % (start.length - offset)) 0) := by
      have hperiod : done % (start.length - offset) < start.length - offset :=
        Nat.mod_lt _ (by omega)
      rw [List.getD_eq_getElem?_getD]
      by_cases hold : offset + done < start.length
      · rw [List.getElem?_append_left hold,
          Nat.mod_eq_of_lt (by omega : done < start.length - offset), List.getElem?_eq_getElem hold]
        rfl
      · have hlen : (repeated start offset done).length = done := by
          rw [repeated, List.length_map, List.length_range]
        rw [List.getElem?_append_right (not_lt.mp hold), repeated, List.getElem?_map,
          List.getElem?_range (by omega), Option.map_some, List.getD_eq_getElem?_getD,
          show offset + done - start.length = done - (start.length - offset) by omega,
          ← Nat.mod_eq_sub_mod (by omega)]
    have hgrown : start ++ repeated start offset done ++
        [start.getD (offset + done % (start.length - offset)) 0] =
        start ++ repeated start offset (done + 1) := by
      unfold repeated
      rw [List.range_succ, List.map_append, List.append_assoc]
      rfl
    rw [copy_bytes, hnext]
    simp only
    rw [hgrown, Nat.add_assoc, ih (done + 1), Nat.add_assoc, Nat.add_comm 1]

theorem copy_bytes_computes {out : Bytes} {offset : Nat} (hoff : offset < out.length)
    (nbytes : Nat) : copy_bytes offset nbytes out = .ok (out ++ repeated out offset nbytes) := by
  have h := copy_bytes_repeated out offset hoff nbytes 0
  have hnone : out ++ repeated out offset 0 = out := List.append_nil out
  rw [hnone, Nat.zero_add] at h
  exact h

/-- The view as the instructions see it. -/
def seen (view : sliding_view) : Bytes := view.buf.take view.width

/-- The view is all there. -/
def Filled (view : sliding_view) : Prop :=
  view.width ≤ view.buf.length ∧ view.off + view.buf.length < 2 ^ 63

theorem seen_length {view : sliding_view} (h : Filled view) : (seen view).length = view.width :=
  List.length_take_of_le h.1

theorem copyfrom_source_computes {view : sliding_view} (h : Filled view) (instructions : Bytes)
    (nbytes : Nat) (out : Bytes) :
    Computes AtFault (copyfrom_source below_off_max view instructions nbytes out) fun r =>
      ∃ ds offset, Int63 ds offset ∧ instructions = ds ++ r.1 ∧
        offset + nbytes ≤ (seen view).length ∧
        r.2 = out ++ ((seen view).drop offset).take nbytes := by
  obtain ⟨hwidth, hfits⟩ := h
  rw [seen_length ⟨hwidth, hfits⟩]
  refine ((parse_int_computes instructions 0).bind (fun p r => p.1 + nbytes ≤ view.width ∧
    r = (p.2, out ++ ((seen view).drop p.1).take nbytes)) fun p hp => ?_).congr ?_
  · obtain ⟨offset, rest⟩ := p
    dsimp only
    refine (Computes.unless (fun _ => ⟨by decide, by decide⟩) fun hin =>
      Computes.unless (fun hout => ?_) fun _ => Computes.ok _).congr ?_
    · omega
    · intro r
      constructor
      · rintro ⟨hin, -, rfl⟩
        have hle : offset + nbytes ≤ view.width := by omega
        refine ⟨hle, ?_⟩
        rw [seen, List.drop_take, List.take_take, Nat.min_eq_left (by omega)]
      · rintro ⟨hle, rfl⟩
        refine ⟨by omega, by omega, ?_⟩
        rw [seen, List.drop_take, List.take_take, Nat.min_eq_left (by omega)]
  · rintro ⟨rest, out'⟩
    constructor
    · rintro ⟨⟨offset, rest'⟩, ⟨ds, hds, hlt, heq⟩, hle, hr⟩
      cases hr
      exact ⟨ds, offset, ⟨hds, hlt⟩, heq, hle, rfl⟩
    · rintro ⟨ds, offset, ⟨hds, hlt⟩, heq, hle, hout⟩
      exact ⟨(offset, rest), ⟨ds, hds, hlt, heq⟩, hle, by rw [← hout]⟩

theorem copyfrom_target_computes (instructions : Bytes) (nbytes : Nat) (out : Bytes) :
    Computes AtFault (copyfrom_target below_off_max instructions nbytes out) fun r =>
      ∃ ds offset, Int63 ds offset ∧ instructions = ds ++ r.1 ∧ offset < out.length ∧
        r.2 = out ++ repeated out offset nbytes := by
  refine ((parse_int_computes instructions 0).bind (fun p r => p.1 < out.length ∧
    r = (p.2, out ++ repeated out p.1 nbytes)) fun p hp => ?_).congr ?_
  · obtain ⟨offset, rest⟩ := p
    dsimp only
    have hcopy : ¬ out.length ≤ offset → Computes AtFault
        (copy_bytes offset nbytes out >>= fun out => Except.ok (rest, out))
        fun r => r = (rest, out ++ repeated out offset nbytes) := by
      intro hin
      rw [copy_bytes_computes (not_le.mp hin)]
      exact Computes.ok _
    refine (Computes.unless (fun _ => ⟨by decide, by decide⟩) hcopy).congr ?_
    intro r
    rw [not_le]
  · rintro ⟨rest, out'⟩
    constructor
    · rintro ⟨⟨offset, rest'⟩, ⟨ds, hds, hlt, heq⟩, hle, hr⟩
      cases hr
      exact ⟨ds, offset, ⟨hds, hlt⟩, heq, hle, rfl⟩
    · rintro ⟨ds, offset, ⟨hds, hlt⟩, heq, hle, hout⟩
      exact ⟨(offset, rest), ⟨ds, hds, hlt, heq⟩, hle, by rw [← hout]⟩

theorem copyfrom_data_computes {data : Bytes} (hdata : data.length < 2 ^ 64)
    (data_pos nbytes : Nat) (out : Bytes) :
    Computes AtFault (copyfrom_data data data_pos nbytes out) fun r =>
      data_pos + nbytes ≤ data.length ∧
        r = (data_pos + nbytes, out ++ (data.drop data_pos).take nbytes) := by
  unfold copyfrom_data
  refine (Computes.unless (fun _ => ⟨by decide, by decide⟩) fun _ => Computes.ok _).congr ?_
  intro r
  constructor
  · rintro ⟨hin, rfl⟩
    exact ⟨by omega, rfl⟩
  · rintro ⟨hin, rfl⟩
    exact ⟨by omega, rfl⟩

/-- One instruction is read and carried out. -/
theorem execute_computes {view : sliding_view} (h : Filled view) {data instructions : Bytes}
    (hdata : data.length < 2 ^ 64) (hne : instructions ≠ []) (data_pos : Nat) (out : Bytes) :
    Computes AtFault
      (execute_one_instruction below_off_max view data instructions data_pos out) fun r =>
      ∃ bs i, Instruction bs i ∧ instructions = bs ++ r.1 ∧
        Step (seen view) data (data_pos, out) i r.2 := by
  refine ((parse_first_operand_computes hne).bind (fun p r => ∃ ds i, Operation p.1 p.2.1 ds i ∧
    p.2.2 = ds ++ r.1 ∧ Step (seen view) data (data_pos, out) i r.2) fun p _ => ?_).congr ?_
  · obtain ⟨selector, nbytes, rest⟩ := p
    rcases selector with - | - | - | selector
    · refine ((copyfrom_source_computes h rest nbytes out).bind
        (fun q r => r = (q.1, data_pos, q.2)) fun q _ => Computes.ok _).congr ?_
      rintro ⟨rest', pos', out'⟩
      constructor
      · rintro ⟨q, ⟨ds, offset, hds, heq, hle, hout⟩, hr⟩
        cases hr
        refine ⟨ds, _, Operation.source hds, heq, ?_⟩
        rw [hout]
        exact Step.source hle
      · rintro ⟨ds, i, hop, heq, hstep⟩
        cases hop with
        | source hds =>
          cases hstep with
          | source hle => exact ⟨(rest', _), ⟨ds, _, hds, heq, hle, rfl⟩, rfl⟩
    · refine ((copyfrom_target_computes rest nbytes out).bind
        (fun q r => r = (q.1, data_pos, q.2)) fun q _ => Computes.ok _).congr ?_
      rintro ⟨rest', pos', out'⟩
      constructor
      · rintro ⟨q, ⟨ds, offset, hds, heq, hlt, hout⟩, hr⟩
        cases hr
        refine ⟨ds, _, Operation.target hds, heq, ?_⟩
        rw [hout]
        exact Step.target hlt
      · rintro ⟨ds, i, hop, heq, hstep⟩
        cases hop with
        | target hds =>
          cases hstep with
          | target hlt => exact ⟨(rest', _), ⟨ds, _, hds, heq, hlt, rfl⟩, rfl⟩
    · refine ((copyfrom_data_computes hdata data_pos nbytes out).bind
        (fun q r => r = (rest, q.1, q.2)) fun q _ => Computes.ok _).congr ?_
      rintro ⟨rest', pos', out'⟩
      constructor
      · rintro ⟨q, ⟨hle, hq⟩, hr⟩
        cases hq
        cases hr
        exact ⟨[], _, Operation.data, rfl, Step.data hle⟩
      · rintro ⟨ds, i, hop, heq, hstep⟩
        cases hop with
        | data =>
          cases hstep with
          | data hle =>
            dsimp only at heq
            exact ⟨_, ⟨hle, rfl⟩, by rw [heq]; rfl⟩
    · refine Computes.fail ⟨by decide, by decide⟩ ?_
      rintro r ⟨ds, i, hop, -, -⟩
      cases hop
  · rintro ⟨rest', pos', out'⟩
    constructor
    · rintro ⟨p, ⟨bs, hop, heq⟩, ds, i, hoperation, heq', hstep⟩
      refine ⟨bs ++ ds, i, Instruction.mk hop hoperation, ?_, hstep⟩
      rw [heq, heq', List.append_assoc]
    · rintro ⟨bs, i, hinsn, heq, hstep⟩
      cases hinsn with
      | mk hop hoperation =>
        rw [List.append_assoc] at heq
        exact ⟨(_, _, _), ⟨_, hop, heq⟩, _, i, hoperation, rfl, hstep⟩

theorem Instruction.ne_nil {bs : Bytes} {i : instruction} (h : Instruction bs i) : bs ≠ [] := by
  cases h with
  | mk hop _ =>
    cases hop with
    | packed _ => exact List.cons_ne_nil _ _
    | int _ _ => exact List.cons_ne_nil _ _

/-- A section of instructions is carried out to its end. -/
theorem run_computes {view : sliding_view} (h : Filled view) {data : Bytes}
    (hdata : data.length < 2 ^ 64) (left : Nat) :
    ∀ instructions data_pos out, instructions.length ≤ left →
      Computes AtFault (run_instructions below_off_max view data left instructions data_pos out)
        fun out' => ∃ is, Instructions instructions is ∧
          Run (seen view) data (data_pos, out) is (data.length, out') := by
  have hdone : ∀ data_pos out, Computes AtFault
      (if data_pos ≠ data.length then .error .does_not_copy_all_inline_data
        else .ok out : Except error Bytes) fun out' => ∃ is, Instructions [] is ∧
          Run (seen view) data (data_pos, out) is (data.length, out') := by
    intro data_pos out
    refine (Computes.unless (fun _ => ⟨by decide, by decide⟩) fun _ => Computes.ok _).congr ?_
    intro out'
    constructor
    · rintro ⟨hall, rfl⟩
      rw [not_not.mp hall]
      exact ⟨[], Instructions.nil, Run.nil⟩
    · rintro ⟨is, hinsns, hrun⟩
      generalize hbs : ([] : Bytes) = bs at hinsns
      cases hinsns with
      | nil =>
        cases hrun
        exact ⟨not_not.mpr rfl, rfl⟩
      | cons hinsn _ => exact absurd (List.append_eq_nil_iff.mp hbs.symm).1 hinsn.ne_nil
  induction left with
  | zero =>
    rintro (- | ⟨c, instructions⟩) data_pos out hleft
    · exact hdone data_pos out
    · exact absurd hleft (Nat.not_succ_le_zero _)
  | succ left ih =>
    rintro (- | ⟨c, instructions⟩) data_pos out hleft
    · exact hdone data_pos out
    · rw [run_instructions]
      refine ((execute_computes h hdata (List.cons_ne_nil c instructions) data_pos out).bind
        (fun p out' => ∃ is, Instructions p.1 is ∧
          Run (seen view) data p.2 is (data.length, out')) fun p hp => ?_).congr ?_
      · obtain ⟨rest, pos', out'⟩ := p
        obtain ⟨bs, i, hinsn, heq, -⟩ := hp
        apply ih
        have hpos := List.length_pos_iff.mpr hinsn.ne_nil
        have hlen := congrArg List.length heq
        rw [List.length_append] at hlen
        dsimp only at hlen
        omega
      · intro out'
        constructor
        · rintro ⟨p, ⟨bs, i, hinsn, heq, hstep⟩, is, hinsns, hrun⟩
          rw [heq]
          exact ⟨i :: is, Instructions.cons hinsn hinsns, Run.cons hstep hrun⟩
        · rintro ⟨is, hinsns, hrun⟩
          generalize hbs : c :: instructions = bs at hinsns
          cases hinsns with
          | nil => cases hbs
          | cons hinsn hrest =>
            cases hrun with
            | cons hstep hrun =>
              exact ⟨(_, _), ⟨_, _, hinsn, rfl, hstep⟩, _, hrest, hrun⟩

/-! ## The preimage -/

/-- A view over `content` that was read up to `pos`. -/
def view_at (content : Bytes) (max_off : Int) (off width pos : Nat) : sliding_view :=
  ⟨content.drop pos, off, width, max_off, (content.drop off).take (pos - off)⟩

/-- The preimage: the content as far as the view may go. -/
def preimage_of (content : Bytes) (max_off : Int) : Bytes :=
  if max_off < 0 then content else content.take max_off.toNat

theorem le_preimage_length {content : Bytes} {max_off : Int} {n : Nat} :
    n ≤ (preimage_of content max_off).length ↔
      n ≤ content.length ∧ ¬ (0 ≤ max_off ∧ max_off < n) := by
  unfold preimage_of
  split_ifs with h
  · refine ⟨fun hn => ⟨hn, by omega⟩, fun hn => hn.1⟩
  · rw [List.length_take]
    omega

theorem preimage_view {content : Bytes} {max_off : Int} {off len : Nat}
    (h : off + len ≤ (preimage_of content max_off).length) :
    ((preimage_of content max_off).drop off).take len = (content.drop off).take len := by
  unfold preimage_of at h ⊢
  split_ifs with hneg
  · rfl
  · rw [if_neg hneg, List.length_take] at h
    rw [List.drop_take, List.take_take, Nat.min_eq_left (by omega)]

/-- The positions of a view lie in order within a file. -/
structure Placed (content : Bytes) (off width pos : Nat) : Prop where
  view : off + width ≤ pos
  read : pos ≤ content.length
  fits : content.length < 2 ^ 63

variable {content : Bytes} {max_off : Int} {off width pos : Nat}

theorem Placed.buf_length (h : Placed content off width pos) :
    (view_at content max_off off width pos).buf.length = pos - off := by
  have hview := h.view
  have hread := h.read
  rw [view_at]
  dsimp only
  rw [List.length_take, List.length_drop]
  omega

theorem Placed.filled (h : Placed content off width pos) :
    Filled (view_at content max_off off width pos) := by
  have hview := h.view
  have hread := h.read
  have hfits := h.fits
  rw [Filled, h.buf_length]
  rw [view_at]
  dsimp only
  omega

theorem Placed.seen (h : Placed content off width pos) :
    seen (view_at content max_off off width pos) = (content.drop off).take width := by
  have hview := h.view
  rw [svndiff.seen, view_at]
  dsimp only
  rw [List.take_take, Nat.min_eq_left (by omega)]

/-- The overlap, or nothing at the new offset. -/
theorem move_overlap_computes (h : Placed content off width pos) {off' : Nat} (hle : off ≤ off') :
    Computes AtFault (move_overlap (view_at content max_off off width pos) off') fun r =>
      off' ≤ content.length ∧
        r = (content.drop (max pos off'), (content.drop off').take (max pos off' - off')) := by
  have hview := h.view
  have hread := h.read
  have hpos : off + (pos - off) = pos := by omega
  unfold move_overlap
  rw [h.buf_length]
  dsimp only [view_at]
  rw [hpos]
  by_cases hover : off' < pos
  · rw [if_pos hover, Nat.max_eq_left (by omega)]
    refine (Computes.ok _).congr fun r => ?_
    rw [List.drop_take, List.drop_drop, show off + (off' - off) = off' by omega,
      show pos - off - (off' - off) = pos - off' by omega]
    exact ⟨fun heq => ⟨by omega, heq⟩, fun heq => heq.2⟩
  · rw [if_neg hover, Nat.max_eq_right (by omega), Nat.sub_self, List.take_zero, skip_or_whine,
      List.length_drop]
    by_cases hgap : content.length - pos < off' - pos
    · rw [if_pos hgap]
      exact Computes.fail ⟨by decide, by decide⟩ fun r hr => by omega
    · rw [if_neg hgap, List.drop_drop, show pos + (off' - pos) = off' by omega]
      refine (Computes.ok _).congr fun r => ?_
      exact ⟨fun heq => ⟨by omega, heq⟩, fun heq => heq.2⟩

theorem fill_view_computes {off' width' pos' : Nat} (hread : pos' ≤ content.length)
    (hle : off' ≤ pos') :
    Computes AtFault
      (fill_view (content.drop pos') ((content.drop off').take (pos' - off')) width') fun r =>
      off' + width' ≤ content.length ∧ r = (content.drop (max pos' (off' + width')),
        (content.drop off').take (max pos' (off' + width') - off')) := by
  have hlen : ((content.drop off').take (pos' - off')).length = pos' - off' := by
    rw [List.length_take, List.length_drop]
    omega
  unfold fill_view read_to_fill_or_whine
  dsimp only
  rw [hlen]
  by_cases hmore : width' < pos' - off'
  · rw [if_pos hmore, Nat.max_eq_left (by omega)]
    refine (Computes.ok _).congr fun r => ?_
    exact ⟨fun heq => ⟨by omega, heq⟩, fun heq => heq.2⟩
  · have hsplit : (content.drop off').take (pos' - off') ++
        (content.drop pos').take (width' - (pos' - off')) = (content.drop off').take width' := by
      have hdrop : content.drop pos' = (content.drop off').drop (pos' - off') := by
        rw [List.drop_drop, show off' + (pos' - off') = pos' by omega]
      rw [hdrop, ← List.take_add, show pos' - off' + (width' - (pos' - off')) = width' by omega]
    rw [if_neg hmore, Nat.max_eq_right (by omega), hsplit, List.length_take, List.length_drop,
      List.drop_drop, show pos' + (width' - (pos' - off')) = off' + width' by omega,
      Nat.add_sub_cancel_left]
    refine (Computes.unless (fun _ => ⟨by decide, by decide⟩) fun _ => Computes.ok _).congr ?_
    intro r
    constructor
    · rintro ⟨hall, heq⟩
      exact ⟨by omega, heq⟩
    · rintro ⟨hin, heq⟩
      exact ⟨by omega, heq⟩

/-- The view moves to where it is asked for, if that is in the preimage and not to the left. -/
theorem move_window_computes (h : Placed content off width pos) (off' width' : Nat) :
    Computes AtFault (move_window (view_at content max_off off width pos) off' width') fun r =>
      off ≤ off' ∧ off + width ≤ off' + width' ∧
        off' + width' ≤ (preimage_of content max_off).length ∧
        r = view_at content max_off off' width' (max pos (off' + width')) := by
  have hview := h.view
  have hfits := h.fits
  have hcheck : Computes AtFault (check_offset_overflow off' width') fun _ =>
      off' + width' < 2 ^ 63 := by
    unfold check_offset_overflow
    refine (Computes.unless (fun _ => ⟨by decide, by decide⟩) fun _ =>
      Computes.unless (fun _ => ⟨by decide, by decide⟩) fun _ => Computes.ok ()).congr fun r => ?_
    exact ⟨fun hr => by omega, fun hr => ⟨by omega, by omega, rfl⟩⟩
  have hmove : off ≤ off' → Computes AtFault
      (move_overlap (view_at content max_off off width pos) off' >>= fun p =>
        fill_view p.1 p.2 width' >>= fun q =>
          Except.ok (sliding_view.mk q.1 off' width' max_off q.2))
      fun r => off' + width' ≤ content.length ∧
        r = view_at content max_off off' width' (max pos (off' + width')) := by
    intro hle
    have hread := h.read
    have hmax : max (max pos off') (off' + width') = max pos (off' + width') := by omega
    refine ((move_overlap_computes h hle).bind (fun p r => off' + width' ≤ content.length ∧
      r = view_at content max_off off' width' (max pos (off' + width'))) fun p hp => ?_).congr ?_
    · obtain ⟨hin, rfl⟩ := hp
      refine ((fill_view_computes (by omega) (by omega)).bind
        (fun q r => r = sliding_view.mk q.1 off' width' max_off q.2)
        fun q hq => Computes.ok _).congr ?_
      intro r
      rw [hmax]
      constructor
      · rintro ⟨q, ⟨hin', rfl⟩, rfl⟩
        exact ⟨hin', rfl⟩
      · rintro ⟨hin', rfl⟩
        exact ⟨_, ⟨hin', rfl⟩, rfl⟩
    · intro r
      constructor
      · rintro ⟨p, -, hr⟩
        exact hr
      · rintro ⟨hin, hr⟩
        exact ⟨_, ⟨by omega, rfl⟩, hin, hr⟩
  have hfilled : Filled (view_at content max_off off width pos) := h.filled
  have hsteps : Computes AtFault (do
      check_offset_overflow off' width'
      if off' < off ∨ off' + width' < off + width then .error .window_slides_left
      else if 0 ≤ max_off ∧ max_off < off' + width' then .error .delta_preimage_ends_early
      else
        move_overlap (view_at content max_off off width pos) off' >>= fun p =>
          fill_view p.1 p.2 width' >>= fun q => .ok (sliding_view.mk q.1 off' width' max_off q.2))
      fun r => off ≤ off' ∧ off + width ≤ off' + width' ∧
        off' + width' ≤ (preimage_of content max_off).length ∧
        r = view_at content max_off off' width' (max pos (off' + width')) := by
    refine (hcheck.bind (fun _ r => ¬ (off' < off ∨ off' + width' < off + width) ∧
      ¬ (0 ≤ max_off ∧ max_off < off' + width') ∧ off' + width' ≤ content.length ∧
      r = view_at content max_off off' width' (max pos (off' + width'))) fun _ _ => ?_).congr ?_
    · refine Computes.unless (fun _ => ⟨by decide, by decide⟩) fun hright => ?_
      exact Computes.unless (fun _ => ⟨by decide, by decide⟩) fun _ => hmove (by omega)
    · intro r
      rw [le_preimage_length]
      push_cast
      constructor
      · rintro ⟨-, -, hright, hmax, hin, hr⟩
        exact ⟨by omega, by omega, ⟨hin, hmax⟩, hr⟩
      · rintro ⟨hoff, hend, ⟨hin, hmax⟩, hr⟩
        exact ⟨(), by omega, by omega, hmax, hin, hr⟩
  unfold move_window
  rw [if_neg (not_or.mpr ⟨not_lt.mpr hfilled.1, not_le.mpr hfilled.2⟩)]
  exact hsteps

/-! ## Windows -/

/-- A window behind its source view. -/
theorem apply_one_window_computes (h : Placed content off width pos) (delta : line_buffer) :
    Computes AtFault
      (apply_one_window below_off_max delta (view_at content max_off off width pos)) fun r =>
      ∃ bs w, w.off = off ∧ w.len = width ∧ Reads delta bs r.2 ∧ Sections bs w ∧
        Makes ((content.drop off).take width) w.instructions w.data r.1 ∧
        r.1.length = w.out_len := by
  have hlast : ∀ (a b c : Nat × line_buffer) (d e : Bytes × line_buffer),
      e.1.length < 2 ^ 64 → Computes AtFault (do
        let out ← run_instructions below_off_max (view_at content max_off off width pos) e.1
          d.1.length d.1 0 []
        if out.length ≠ a.1 then .error .incorrect_postimage_length else .ok (out, e.2))
        fun r => Makes ((content.drop off).take width) d.1 e.1 r.1 ∧ r.1.length = a.1 ∧
          r.2 = e.2 := by
    intro a b c d e hdata
    refine ((run_computes h.filled hdata d.1.length d.1 0 [] le_rfl).bind (fun out r =>
      out.length = a.1 ∧ r = (out, e.2)) fun out _ => ?_).congr ?_
    · refine (Computes.unless (fun _ => ⟨by decide, by decide⟩) fun _ => Computes.ok _).congr ?_
      exact fun r => and_congr_left fun _ => not_not
    · rintro ⟨out, delta'⟩
      rw [h.seen]
      constructor
      · rintro ⟨out', hmakes, hlen, heq⟩
        cases heq
        exact ⟨hmakes, hlen, rfl⟩
      · rintro ⟨hmakes, hlen, rfl⟩
        exact ⟨out, hmakes, hlen, rfl⟩
  refine ((read_length_computes delta).bind _ fun a _ => (read_length_computes a.2).bind _
    fun b _ => (read_length_computes b.2).bind _ fun c hc => (read_chunk_computes c.2 b.1).bind _
    fun d _ => (read_chunk_computes d.2 c.1).bind _ fun e he => hlast a b c d e ?_).congr ?_
  · obtain ⟨ds, ⟨-, hlt⟩, -⟩ := hc
    rw [he.1]
    omega
  · rintro ⟨out, delta'⟩
    constructor
    · rintro ⟨a, ⟨out_ds, hout, ha⟩, b, ⟨insns_ds, hinsns, hb⟩, c, ⟨data_ds, hdata, hc⟩, d,
        ⟨hdlen, hd⟩, e, ⟨helen, he⟩, hmakes, hlen, hrest⟩
      rw [← hdlen] at hinsns
      rw [← helen] at hdata
      refine ⟨_, ⟨off, width, a.1, d.1, e.1⟩, rfl, rfl, ?_, Sections.mk hout hinsns hdata, hmakes,
        hlen⟩
      rw [show delta' = e.2 from hrest]
      exact (((ha.trans hb).trans hc).trans hd).trans he
    · rintro ⟨bs, w, -, -, hreads, hsections, hmakes, hlen⟩
      cases hsections with
      | mk hout hinsns hdata =>
        obtain ⟨d4, hreads, h5⟩ := hreads.split
        obtain ⟨d3, hreads, h4⟩ := hreads.split
        obtain ⟨d2, hreads, h3⟩ := hreads.split
        obtain ⟨d1, h1, h2⟩ := hreads.split
        exact ⟨(_, d1), ⟨_, hout, h1⟩, (_, d2), ⟨_, hinsns, h2⟩, (_, d3), ⟨_, hdata, h3⟩,
          (_, d4), ⟨rfl, h4⟩, (_, delta'), ⟨rfl, h5⟩, hmakes, hlen, rfl⟩

/-- The rest of the delta is windows, and their targets are written behind the others. -/
def Rest (preimage : Bytes) (off stop : Nat) (delta : line_buffer) (before out : Bytes) : Prop :=
  ∃ bs ws tail, (∃ file, Reads delta bs ⟨file, 0⟩) ∧ Windows bs ws ∧
    Targets preimage off stop ws tail ∧ out = before ++ tail

theorem Window.ne_nil {bs : Bytes} {w : window} (h : Window bs w) : bs ≠ [] := by
  cases h with
  | mk hoff _ _ => exact fun hnil => hoff.1.ne_nil (List.append_eq_nil_iff.mp
      (List.append_eq_nil_iff.mp hnil).1).1

theorem Rest.at_end {preimage : Bytes} {off stop : Nat} {delta : line_buffer} {before out : Bytes}
    (hend : delta.len = 0) : Rest preimage off stop delta before out ↔ out = before := by
  constructor
  · rintro ⟨bs, ws, tail, ⟨file, -, hlen⟩, hwindows, htargets, rfl⟩
    have hnil : bs = [] := List.length_eq_zero_iff.mp (by omega)
    cases hwindows with
    | nil =>
      cases htargets with
      | nil => exact List.append_nil before
    | cons hwindow _ => exact absurd (List.append_eq_nil_iff.mp hnil).1 hwindow.ne_nil
  · rintro rfl
    refine ⟨[], [], [], ⟨delta.file, rfl, ?_⟩, Windows.nil, Targets.nil, ?_⟩
    · rw [hend]
      rfl
    · exact (List.append_nil out).symm

/-- The loop over the windows gives their targets. -/
theorem apply_windows_computes (left : Nat) : ∀ {off width pos : Nat},
    Placed content off width pos → ∀ delta before, delta.len ≤ left →
      Computes AtFault (apply_windows below_off_max left delta
        (view_at content max_off off width pos) before)
        (Rest (preimage_of content max_off) off (off + width) delta before) := by
  induction left with
  | zero =>
    intro off width pos h delta before hleft
    have hend : delta.len = 0 := by omega
    unfold apply_windows
    rw [if_pos hend]
    exact (Computes.ok before).congr fun out => (Rest.at_end hend).symm
  | succ left ih =>
    intro off width pos h delta before hleft
    unfold apply_windows
    by_cases hend : delta.len = 0
    · rw [if_pos hend]
      exact (Computes.ok before).congr fun out => (Rest.at_end hend).symm
    rw [if_neg hend]
    refine ((read_offset_computes delta).bind _ fun a ha => (read_length_computes a.2).bind _
      fun b hb => (move_window_computes h a.1 b.1).bind (fun v out => ∃ r : Bytes × line_buffer,
        (∃ bs w, w.off = a.1 ∧ w.len = b.1 ∧ Reads b.2 bs r.2 ∧ Sections bs w ∧
        Makes ((content.drop a.1).take b.1) w.instructions w.data r.1 ∧ r.1.length = w.out_len) ∧
        Rest (preimage_of content max_off) a.1 (a.1 + b.1) r.2 (before ++ r.1) out)
      fun v hv => ?_).congr ?_
    · obtain ⟨hoff, hstop, hin, rfl⟩ := hv
      have hin' := (le_preimage_length.mp hin).1
      have hread := h.read
      have hplaced : Placed content a.1 b.1 (max pos (a.1 + b.1)) :=
        ⟨by omega, by omega, h.fits⟩
      refine (apply_one_window_computes hplaced b.2).bind _ fun r hr => ih hplaced r.2 _ ?_
      obtain ⟨off_ds, hoff_ds, hreads⟩ := ha
      obtain ⟨len_ds, -, hreads'⟩ := hb
      obtain ⟨bs, w, -, -, hreads'', -⟩ := hr
      have hpos := List.length_pos_iff.mpr hoff_ds.1.ne_nil
      have hlen := ((hreads.trans hreads').trans hreads'').2
      rw [List.length_append, List.length_append] at hlen
      omega
    · intro out
      constructor
      · rintro ⟨a, ⟨off_ds, hoff_ds, ha⟩, b, ⟨len_ds, hlen_ds, hb⟩, v, ⟨hoff, hstop, hin, -⟩, r,
          ⟨bs, w, hw, hw', hreads, hsections, hmakes, hlen⟩, bs', ws, tail, ⟨file, hrest⟩, hwindows,
          htargets, hout⟩
        rw [← hw] at hoff_ds hoff hstop hin hmakes htargets
        rw [← hw'] at hlen_ds hstop hin hmakes htargets
        refine ⟨_, w :: ws, r.1 ++ tail, ⟨file, ((ha.trans hb).trans hreads).trans hrest⟩,
          Windows.cons (Window.mk hoff_ds hlen_ds hsections) hwindows,
          Targets.cons hoff hstop ⟨hin, ?_, hlen⟩ htargets, ?_⟩
        · rw [preimage_view hin]
          exact hmakes
        · rw [hout, List.append_assoc]
      · rintro ⟨bs, ws, tail, ⟨file, hreads⟩, hwindows, htargets, hout⟩
        cases hwindows with
        | nil =>
          have hlen : delta.len = 0 := hreads.2
          exact absurd hlen hend
        | cons hwindow hrest =>
          cases htargets with
          | cons hoff hstop htarget htargets =>
            cases hwindow with
            | mk hoff_ds hlen_ds hsections =>
              obtain ⟨d3, hreads, h4⟩ := hreads.split
              obtain ⟨d2, hreads, h3⟩ := hreads.split
              obtain ⟨d1, h1, h2⟩ := hreads.split
              have hmakes := htarget.makes
              rw [preimage_view htarget.inside] at hmakes
              refine ⟨(_, d1), ⟨_, hoff_ds, h1⟩, (_, d2), ⟨_, hlen_ds, h2⟩, _,
                ⟨hoff, hstop, htarget.inside, rfl⟩, (_, d3),
                ⟨_, _, rfl, rfl, h3, hsections, hmakes, htarget.length⟩, _, _, _, ⟨file, h4⟩,
                hrest, htargets, ?_⟩
              rw [hout, List.append_assoc]

/-! ## The delta -/

theorem read_magic_computes (delta : line_buffer) :
    Computes AtFault (read_magic delta) fun delta' => Reads delta [83, 86, 78, 0] delta' := by
  refine ((read_chunk_computes delta 4).bind (fun p d => p.1 = [83, 86, 78, 0] ∧ d = p.2)
    fun p _ => ?_).congr ?_
  · obtain ⟨sb, delta'⟩ := p
    dsimp only
    by_cases h : sb = [83, 86, 78, 0]
    · rw [if_pos h]
      exact (Computes.ok delta').congr fun d => (and_iff_right h).symm
    · rw [if_neg h]
      exact Computes.fail ⟨by decide, by decide⟩ fun d hd => h hd.1
  · intro delta'
    constructor
    · rintro ⟨⟨sb, d⟩, ⟨-, hreads⟩, hsb, rfl⟩
      rw [← show sb = [83, 86, 78, 0] from hsb]
      exact hreads
    · exact fun hreads => ⟨([83, 86, 78, 0], delta'), ⟨rfl, hreads⟩, rfl, rfl⟩

/-- A view at the start of a file of which `buf` was read. -/
def view_init (file buf : Bytes) (max_off : Int) : sliding_view := ⟨file, 0, 0, max_off, buf⟩

theorem view_init_at (file buf : Bytes) (max_off : Int) :
    view_init file buf max_off = view_at (buf ++ file) max_off 0 0 buf.length := by
  rw [view_init, view_at, List.drop_left, List.drop_zero, Nat.sub_zero, List.take_left]

/-- The delta lies in its file, and makes `out` of the preimage. -/
def Postimage (preimage : Bytes) (delta : line_buffer) (out : Bytes) : Prop :=
  delta.len ≤ delta.file.length ∧ Applies preimage (delta.file.take delta.len) out

theorem reads_to_end {delta : line_buffer} {bs : Bytes} :
    (∃ file, Reads delta bs ⟨file, 0⟩) ↔
      delta.len ≤ delta.file.length ∧ delta.file.take delta.len = bs := by
  constructor
  · rintro ⟨file, hfile, hlen⟩
    dsimp only at hfile hlen
    rw [hfile, hlen, Nat.add_zero, List.length_append, List.take_left]
    exact ⟨Nat.le_add_right _ _, rfl⟩
  · rintro ⟨hle, rfl⟩
    refine ⟨delta.file.drop delta.len, (List.take_append_drop _ _).symm, ?_⟩
    rw [List.length_take_of_le hle]
    rfl

theorem svndiff0_apply_computes (delta : line_buffer) (file buf : Bytes) (max_off : Int)
    (hsize : (buf ++ file).length < 2 ^ 63) :
    Computes AtFault (svndiff0_apply below_off_max delta (view_init file buf max_off))
      (Postimage (preimage_of (buf ++ file) max_off) delta) := by
  have hplaced : Placed (buf ++ file) 0 0 buf.length := by
    refine ⟨Nat.zero_le _, ?_, hsize⟩
    rw [List.length_append]
    exact Nat.le_add_right _ _
  rw [view_init_at]
  refine ((read_magic_computes delta).bind _ fun delta' _ =>
    apply_windows_computes delta'.len hplaced delta' [] le_rfl).congr ?_
  intro out
  unfold Postimage Applies
  constructor
  · rintro ⟨delta', hmagic, bs, ws, tail, ⟨rest, hreads⟩, hwindows, htargets, hout⟩
    obtain ⟨hle, hall⟩ := reads_to_end.mp ⟨rest, hmagic.trans hreads⟩
    rw [List.nil_append] at hout
    rw [hout]
    exact ⟨hle, bs, ws, hall, hwindows, htargets⟩
  · rintro ⟨hle, bs, ws, hall, hwindows, htargets⟩
    obtain ⟨rest, hreads⟩ := reads_to_end.mpr ⟨hle, hall⟩
    obtain ⟨delta', hmagic, hreads⟩ := hreads.split
    exact ⟨delta', hmagic, bs, ws, out, ⟨rest, hreads⟩, hwindows, htargets, rfl⟩

/-- For a preimage of a size that a file can have and a delta whose integers are below 2^63, the
applier gives what the format says and nothing else, reads what is there and asserts what is
so. -/
theorem svndiff0_apply_implements_format (delta : line_buffer) (file buf : Bytes) (max_off : Int)
    (hsize : (buf ++ file).length < 2 ^ 63)
    (hints : svndiff0_apply below_off_max delta (view_init file buf max_off) ≠
      .error .too_large) :
    (∀ out, svndiff0_apply uintmax delta (view_init file buf max_off) = .ok out ↔
      Postimage (preimage_of (buf ++ file) max_off) delta out) ∧
    svndiff0_apply uintmax delta (view_init file buf max_off) ≠ .error .assertion ∧
    svndiff0_apply uintmax delta (view_init file buf max_off) ≠ .error .out_of_bounds := by
  have hcomputes := svndiff0_apply_computes delta file buf max_off hsize
  rcases svndiff0_apply_agrees delta (view_init file buf max_off) with hlarge | heq
  · exact absurd hlarge hints
  · rw [heq]
    exact ⟨hcomputes.value, fun h => (hcomputes.failure _ h).1 rfl,
      fun h => (hcomputes.failure _ h).2 rfl⟩

/-- One window that copies a byte of the preimage, repeats it and adds one. -/
theorem svndiff0_apply_implements_format_tiny :
    (∀ out, svndiff0_apply uintmax
        ⟨[83, 86, 78, 0, 0, 2, 4, 5, 1, 1, 1, 66, 0, 129, 99], 15⟩ (view_init [97, 98] [] (-1)) =
        .ok out ↔
      Postimage (preimage_of ([] ++ [97, 98]) (-1))
        ⟨[83, 86, 78, 0, 0, 2, 4, 5, 1, 1, 1, 66, 0, 129, 99], 15⟩ out) ∧
    svndiff0_apply uintmax ⟨[83, 86, 78, 0, 0, 2, 4, 5, 1, 1, 1, 66, 0, 129, 99], 15⟩
      (view_init [97, 98] [] (-1)) ≠ .error .assertion ∧
    svndiff0_apply uintmax ⟨[83, 86, 78, 0, 0, 2, 4, 5, 1, 1, 1, 66, 0, 129, 99], 15⟩
      (view_init [97, 98] [] (-1)) ≠ .error .out_of_bounds :=
  svndiff0_apply_implements_format _ _ _ _ (by decide) (by decide)

/-- The window of the witness makes four bytes. -/
example : svndiff0_apply uintmax ⟨[83, 86, 78, 0, 0, 2, 4, 5, 1, 1, 1, 66, 0, 129, 99], 15⟩
    (view_init [97, 98] [] (-1)) = .ok [98, 98, 98, 99] := by
  decide

end git.svndiff
