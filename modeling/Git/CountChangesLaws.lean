-- What the comparison of two contents measures: the bytes of the chunks that were counted,
-- and these are all bytes where the last chunk is complete.
import Git.CountChangesTable

namespace git.count_changes

open git.quote git.header_name git.ws linear_probing

/-! ## The bytes that are counted -/

/-- How many bytes the loop counts, with `n` of them before `buf`. -/
def hashed (is_text : Bool) : Bytes → Nat → Nat
  | [], _ => 0
  | c :: buf, n =>
    if is_text && c = CR && buf.head? = some LF then hashed is_text buf n
    else if n + 1 < 64 ∧ c ≠ LF then hashed is_text buf (n + 1)
    else n + 1 + hashed is_text buf 0

theorem hashed_le (is_text : Bool) (buf : Bytes) : ∀ n, hashed is_text buf n ≤ n + buf.length := by
  induction buf with
  | nil => exact fun n => Nat.zero_le _
  | cons c buf ih =>
    intro n
    rw [hashed, List.length_cons]
    split_ifs
    · have := ih n
      omega
    · have := ih (n + 1)
      omega
    · have := ih 0
      omega

theorem hash_loop_counted (is_text : Bool) (buf : Bytes) :
    ∀ (n total : Nat) (accum1 accum2 : UInt32) (hash : spanhash_top), n < 64 →
      Counted hash total → total + n + buf.length < 2 ^ 32 →
      ∃ top, hash_loop is_text buf n accum1 accum2 hash = some top ∧
        Counted top (total + hashed is_text buf n) := by
  induction buf with
  | nil => exact fun n total accum1 accum2 hash _ h _ => ⟨hash, rfl, h⟩
  | cons c buf ih =>
    intro n total accum1 accum2 hash hn h hsize
    rw [List.length_cons] at hsize
    rw [hash_loop, hashed]
    simp only
    split_ifs with hcr hgoes
    · exact ih n total _ _ hash hn h (by omega)
    · exact ih (n + 1) total _ _ hash hgoes.1 h (by omega)
    · obtain ⟨top, htop, hcounted⟩ := add_spanhash_counted h (Nat.mod_lt _ (by decide))
        (Nat.succ_pos n) (by omega)
      rw [htop, ← Nat.add_assoc]
      exact ih 0 (total + (n + 1)) 0 0 top (by decide) hcounted (by omega)

/-! ## The sorted counts -/

/-- The entries before the first count of zero. -/
def total (l : List spanhash) : Nat := ((l.takeWhile fun h => !vacant h).map spanhash.cnt).sum

theorem total_cons_of_pos {h : spanhash} {l : List spanhash} (hpos : h.cnt ≠ 0) :
    total (h :: l) = h.cnt + total l := by
  rw [total, List.takeWhile_cons, vacant_false.mpr hpos]
  rfl

theorem total_cons_of_zero {h : spanhash} {l : List spanhash} (hzero : h.cnt = 0) :
    total (h :: l) = 0 := by
  rw [total, List.takeWhile_cons, vacant, decide_eq_true hzero]
  rfl

/-- A list that the loops do not run over: a count of zero ends it. -/
def Sentinel (l : List spanhash) : Prop := ∃ h ∈ l, h.cnt = 0

theorem Sentinel.of_cons {h : spanhash} {l : List spanhash} (hs : Sentinel (h :: l))
    (hpos : h.cnt ≠ 0) : Sentinel l := by
  obtain ⟨h', hmem, hzero⟩ := hs
  rcases List.mem_cons.mp hmem with rfl | hmem
  · exact absurd hzero hpos
  · exact ⟨h', hmem, hzero⟩

theorem spanhash_le_trans (a b c : spanhash) (hab : spanhash_le a b = true)
    (hbc : spanhash_le b c = true) : spanhash_le a c = true := by
  unfold spanhash_le at *
  split_ifs at * with ha hb hc <;> simp_all
  omega

theorem spanhash_le_total (a b : spanhash) : (spanhash_le a b || spanhash_le b a) = true := by
  unfold spanhash_le
  split_ifs with ha hb hb <;> simp_all
  omega

/-- Behind a count of zero there are only such. -/
theorem total_sorted {l : List spanhash} (h : l.Pairwise fun a b => spanhash_le a b = true) :
    total l = (l.map spanhash.cnt).sum := by
  induction l with
  | nil => rfl
  | cons a l ih =>
    rw [List.pairwise_cons] at h
    rw [List.map_cons, List.sum_cons]
    by_cases ha : a.cnt = 0
    · rw [total_cons_of_zero ha, ha, Nat.zero_add]
      symm
      apply List.sum_eq_zero
      intro x hx
      obtain ⟨b, hb, rfl⟩ := List.mem_map.mp hx
      have hle := h.1 b hb
      rw [spanhash_le, if_pos ha] at hle
      exact of_decide_eq_true hle
    · rw [total_cons_of_pos ha, ih h.2]

theorem hash_chars_spec (one : diff_filespec) :
    ∃ l, hash_chars one = some l ∧ Sentinel l ∧
      total l = hashed (!one.is_binary) (one.data.take (one.size % 2 ^ 32)) 0 := by
  have hlen : (one.data.take (one.size % 2 ^ 32)).length < 2 ^ 32 :=
    Nat.lt_of_le_of_lt (List.length_take_le _ _) (Nat.mod_lt _ (by decide))
  obtain ⟨top, htop, hcounted⟩ := hash_loop_counted (!one.is_binary)
    (one.data.take (one.size % 2 ^ 32)) 0 0 0 0 _ (by decide) counted_new (by omega)
  rw [Nat.zero_add] at hcounted
  obtain ⟨hlow, hhigh, n, hn, hholds, -⟩ := hcounted
  have hperm := List.mergeSort_perm ((List.range (2 ^ top.alloc_log2)).map top.data) spanhash_le
  refine ⟨_, by rw [hash_chars, htop]; rfl, ?_, ?_⟩
  · obtain ⟨hfits, -⟩ := initial_free_lt hlow hhigh
    obtain ⟨i, hi, hvacant⟩ := exists_vacant (by rw [hholds.card]; omega :
      (taken (2 ^ top.alloc_log2) vacant top.data).card < 2 ^ top.alloc_log2)
    refine ⟨top.data i, hperm.mem_iff.mpr ?_, of_decide_eq_true hvacant⟩
    exact List.mem_map_of_mem (List.mem_range.mpr hi)
  · rw [total_sorted (List.pairwise_mergeSort spanhash_le_trans spanhash_le_total _),
      (hperm.map spanhash.cnt).sum_eq, slots_sum hholds]

/-! ## The two loops -/

theorem skip_dst_spec (hashval : Nat) (ds : List spanhash) :
    ∀ la, Sentinel ds → ∃ d ds' la', skip_dst hashval ds la = some (d :: ds', la') ∧
      Sentinel (d :: ds') ∧ la ≤ la' ∧ la' + total (d :: ds') = la + total ds := by
  induction ds with
  | nil =>
    rintro la ⟨h, hmem, -⟩
    exact absurd hmem List.not_mem_nil
  | cons d ds ih =>
    intro la hs
    rw [skip_dst]
    split_ifs with hskip
    · obtain ⟨d', ds', la', heq, hs', hle, hsum⟩ := ih (la + d.cnt) (hs.of_cons hskip.1)
      refine ⟨d', ds', la', heq, hs', by omega, ?_⟩
      rw [hsum, total_cons_of_pos hskip.1, Nat.add_assoc]
    · exact ⟨d, ds, la, rfl, hs, le_refl _, rfl⟩

/-- Each entry of the destination goes to one of the two sums, and what goes to the first is
there in the source too. -/
theorem count_loop_spec (ss : List spanhash) :
    ∀ ds sc la, Sentinel ss → Sentinel ds →
      ∃ ds' sc' la', count_loop ss ds sc la = some (ds', sc', la') ∧ Sentinel ds' ∧
        sc' + la' + total ds' = sc + la + total ds ∧ sc' ≤ sc + total ss := by
  induction ss with
  | nil =>
    rintro ds sc la ⟨h, hmem, -⟩
    exact absurd hmem List.not_mem_nil
  | cons s ss ih =>
    intro ds sc la hss hds
    rw [count_loop]
    by_cases hzero : s.cnt = 0
    · rw [if_pos hzero]
      exact ⟨ds, sc, la, rfl, hds, rfl, Nat.le_add_right _ _⟩
    rw [if_neg hzero, total_cons_of_pos hzero]
    obtain ⟨d, ds', la', hskip, hds', hle, hsum⟩ := skip_dst_spec s.hashval ds la hds
    have hss' := hss.of_cons hzero
    rw [hskip]
    simp only
    by_cases hsame : d.cnt ≠ 0 ∧ d.hashval = s.hashval
    · have hrest := hds'.of_cons hsame.1
      rw [total_cons_of_pos hsame.1] at hsum
      rw [if_pos hsame, if_pos hsame]
      by_cases hless : s.cnt < d.cnt
      · rw [if_pos hless]
        obtain ⟨ds2, sc2, la2, heq, hs2, hsum2, hle2⟩ :=
          ih ds' (sc + s.cnt) (la' + (d.cnt - s.cnt)) hss' hrest
        exact ⟨ds2, sc2, la2, heq, hs2, by omega, by omega⟩
      · rw [if_neg hless]
        obtain ⟨ds2, sc2, la2, heq, hs2, hsum2, hle2⟩ := ih ds' (sc + d.cnt) la' hss' hrest
        exact ⟨ds2, sc2, la2, heq, hs2, by omega, by omega⟩
    · rw [if_neg hsame, if_neg hsame, if_neg (Nat.not_lt_zero _)]
      obtain ⟨ds2, sc2, la2, heq, hs2, hsum2, hle2⟩ := ih (d :: ds') (sc + 0) la' hss' hds'
      exact ⟨ds2, sc2, la2, heq, hs2, by omega, by omega⟩

/-- Beside itself a list has nothing to add. -/
theorem count_loop_self (l : List spanhash) :
    ∀ sc la, Sentinel l → ∃ rest, count_loop l l sc la = some (rest, sc + total l, la) ∧
      Sentinel rest ∧ total rest = 0 := by
  induction l with
  | nil =>
    rintro sc la ⟨h, hmem, -⟩
    exact absurd hmem List.not_mem_nil
  | cons s l ih =>
    intro sc la hs
    rw [count_loop]
    by_cases hzero : s.cnt = 0
    · rw [if_pos hzero, total_cons_of_zero hzero]
      exact ⟨s :: l, rfl, hs, total_cons_of_zero hzero⟩
    rw [if_neg hzero, total_cons_of_pos hzero]
    have hskip : skip_dst s.hashval (s :: l) la = some (s :: l, la) := by
      rw [skip_dst, if_neg]
      exact fun h => lt_irrefl _ h.2
    rw [hskip, ← Nat.add_assoc]
    simp only [ne_eq, hzero, not_false_eq_true, and_self, if_true, lt_irrefl, if_false]
    exact ih (sc + s.cnt) la (hs.of_cons hzero)

theorem add_rest_spec (ds : List spanhash) :
    ∀ la, Sentinel ds → add_rest ds la = some (la + total ds) := by
  induction ds with
  | nil =>
    rintro la ⟨h, hmem, -⟩
    exact absurd hmem List.not_mem_nil
  | cons d ds ih =>
    intro la hs
    rw [add_rest]
    by_cases hzero : d.cnt = 0
    · rw [if_neg (not_not.mpr hzero), total_cons_of_zero hzero]
      rfl
    · rw [if_pos hzero, total_cons_of_pos hzero, ih _ (hs.of_cons hzero), Nat.add_assoc]

/-! ## The comparison -/

/-- The bytes of a file that are counted. -/
def counted (one : diff_filespec) : Nat :=
  hashed (!one.is_binary) (one.data.take (one.size % 2 ^ 32)) 0

theorem counted_le (one : diff_filespec) : counted one ≤ one.size := by
  refine (hashed_le _ _ 0).trans ?_
  rw [Nat.zero_add, List.length_take]
  exact Nat.min_le_right _ _

/-- The two sums are the counted bytes of the destination. -/
theorem count_changes_sum (src dst : diff_filespec) :
    ∃ sc la, diffcore_count_changes src dst = some (sc, la) ∧ sc + la = counted dst ∧
      sc ≤ counted src := by
  obtain ⟨ls, hsrc, hss, htotal⟩ := hash_chars_spec src
  obtain ⟨ld, hdst, hds, htotal'⟩ := hash_chars_spec dst
  obtain ⟨ds, sc, la, hloop, hrest, hsum, hle⟩ := count_loop_spec ls ld 0 0 hss hds
  refine ⟨sc, la + total ds, ?_, ?_, ?_⟩
  · unfold diffcore_count_changes
    rw [hsrc, hdst]
    simp only [Option.bind_eq_bind, Option.bind_some, hloop, add_rest_spec ds la hrest]
    rfl
  · rw [counted, ← htotal']
    omega
  · rw [counted, ← htotal]
    omega

theorem count_changes_self {src dst : diff_filespec} (h : hash_chars src = hash_chars dst) :
    diffcore_count_changes src dst = some (counted dst, 0) := by
  obtain ⟨l, hdst, hs, htotal⟩ := hash_chars_spec dst
  obtain ⟨rest, hloop, hrest, hzero⟩ := count_loop_self l 0 0 hs
  unfold diffcore_count_changes
  rw [h, hdst]
  simp only [Option.bind_eq_bind, Option.bind_some, hloop, add_rest_spec rest 0 hrest, hzero,
    htotal, Nat.zero_add]
  rfl

/-! ## The last chunk -/

/-- The bytes behind the last LF. -/
def last_line (buf : Bytes) : Bytes := buf.rtakeWhile (· ≠ LF)

/-- A CR in a CRLF sequence is ignored in text; elsewhere it makes no difference what is text. -/
def NoCrlf (buf : Bytes) : Prop := ¬ [CR, LF] <:+: buf

theorem NoCrlf.of_cons {c : UInt8} {buf : Bytes} (h : NoCrlf (c :: buf)) : NoCrlf buf :=
  fun hin => h (List.infix_cons hin)

theorem NoCrlf.head {c : UInt8} {buf : Bytes} (h : NoCrlf (c :: buf)) :
    ¬ (c = CR ∧ buf.head? = some LF) := by
  rintro ⟨rfl, hhead⟩
  obtain ⟨buf', rfl⟩ := List.head?_eq_some_iff.mp hhead
  exact h ⟨[], buf', rfl⟩

theorem hash_loop_plain {is_text : Bool} (buf : Bytes) (h : is_text = true → NoCrlf buf) :
    ∀ n accum1 accum2 hash,
      hash_loop is_text buf n accum1 accum2 hash = hash_loop false buf n accum1 accum2 hash := by
  cases is_text with
  | false => exact fun _ _ _ _ => rfl
  | true =>
    have hno := h rfl
    clear h
    induction buf with
    | nil => exact fun _ _ _ _ => rfl
    | cons c buf ih =>
      intro n accum1 accum2 hash
      have hcr : ¬ (true && c = CR && buf.head? = some LF) = true := by
        simp only [Bool.true_and, Bool.and_eq_true, decide_eq_true_eq]
        exact hno.head
      rw [hash_loop, hash_loop, if_neg hcr]
      simp only [Bool.false_and, Bool.false_eq_true, if_false, ih hno.of_cons]

theorem hashed_plain {is_text : Bool} (buf : Bytes) (h : is_text = true → NoCrlf buf) :
    ∀ n, hashed is_text buf n = hashed false buf n := by
  cases is_text with
  | false => exact fun _ => rfl
  | true =>
    have hno := h rfl
    clear h
    induction buf with
    | nil => exact fun _ => rfl
    | cons c buf ih =>
      intro n
      have hcr : ¬ (true && c = CR && buf.head? = some LF) = true := by
        simp only [Bool.true_and, Bool.and_eq_true, decide_eq_true_eq]
        exact hno.head
      rw [hashed, hashed, if_neg hcr]
      simp only [Bool.false_and, Bool.false_eq_true, if_false, ih hno.of_cons]

theorem last_line_cons (c : UInt8) (buf : Bytes) :
    last_line (c :: buf) = if LF ∈ buf ∨ c = LF then last_line buf else c :: buf := by
  unfold last_line List.rtakeWhile
  rw [List.reverse_cons, List.takeWhile_append]
  by_cases hin : LF ∈ buf
  · rw [if_pos (Or.inl hin), if_neg]
    intro hlen
    have hall := (List.takeWhile_prefix _).eq_of_length hlen
    have := List.takeWhile_eq_self_iff.mp hall LF (List.mem_reverse.mpr hin)
    exact absurd rfl (of_decide_eq_true this)
  · have hall : buf.reverse.takeWhile (fun x => decide (x ≠ LF)) = buf.reverse := by
      apply List.takeWhile_eq_self_iff.mpr
      intro x hx
      apply decide_eq_true
      rintro rfl
      exact hin (List.mem_reverse.mp hx)
    rw [hall, if_pos rfl]
    by_cases hc : c = LF
    · rw [if_pos (Or.inr hc), List.takeWhile_cons_of_neg (by simpa using hc), List.append_nil]
    · rw [if_neg (by tauto), List.takeWhile_cons_of_pos (by simpa using hc), List.takeWhile_nil,
        List.reverse_append, List.reverse_reverse]
      rfl

theorem last_line_of_not_mem {buf : Bytes} (h : LF ∉ buf) : last_line buf = buf := by
  induction buf with
  | nil => rfl
  | cons c buf ih =>
    rw [last_line_cons, if_neg]
    rintro (hin | rfl)
    · exact h (List.mem_cons_of_mem c hin)
    · exact h List.mem_cons_self

/-- What is left out is the last chunk, where it is not complete. -/
theorem hashed_last (buf : Bytes) :
    ∀ n < 64, hashed false buf n +
      (if LF ∈ buf then (last_line buf).length else n + buf.length) % 64 = n + buf.length := by
  induction buf with
  | nil =>
    intro n hn
    rw [if_neg List.not_mem_nil, hashed, List.length_nil, Nat.add_zero, Nat.mod_eq_of_lt hn,
      Nat.zero_add]
  | cons c buf ih =>
    intro n hn
    rw [hashed]
    simp only [Bool.false_and, Bool.false_eq_true, if_false, List.length_cons, List.mem_cons,
      last_line_cons]
    by_cases hlf : c = LF
    · -- a chunk ends here
      rw [if_neg fun h => h.2 hlf, if_pos (Or.inl hlf.symm), if_pos (Or.inr hlf)]
      have hrest := ih 0 (by decide)
      by_cases hin : LF ∈ buf
      · rw [if_pos hin] at hrest
        omega
      · rw [if_neg hin, Nat.zero_add] at hrest
        rw [last_line_of_not_mem hin]
        omega
    · have hsame : (LF = c ∨ LF ∈ buf) ↔ LF ∈ buf := by
        refine ⟨fun h => h.resolve_left fun heq => hlf heq.symm, Or.inr⟩
      have hsame' : (LF ∈ buf ∨ c = LF) ↔ LF ∈ buf := by
        refine ⟨fun h => h.resolve_right hlf, Or.inl⟩
      simp only [hsame, hsame']
      by_cases hfull : n + 1 < 64
      · rw [if_pos ⟨hfull, hlf⟩]
        have hrest := ih (n + 1) hfull
        by_cases hin : LF ∈ buf
        · rw [if_pos hin] at hrest
          rw [if_pos hin, if_pos hin]
          omega
        · rw [if_neg hin] at hrest
          rw [if_neg hin]
          omega
      · rw [if_neg fun h => hfull h.1]
        have hrest := ih 0 (by decide)
        by_cases hin : LF ∈ buf
        · rw [if_pos hin] at hrest
          rw [if_pos hin, if_pos hin]
          omega
        · rw [if_neg hin, Nat.zero_add] at hrest
          rw [if_neg hin]
          omega

/-- All but an incomplete last chunk is counted, of a file that is not too long. -/
theorem counted_last {one : diff_filespec} (hsize : one.size < 2 ^ 32)
    (hcrlf : one.is_binary = false → NoCrlf one.data) :
    counted one + (last_line one.data).length % 64 = one.size := by
  have htake : one.data.take (one.size % 2 ^ 32) = one.data := by
    rw [Nat.mod_eq_of_lt hsize]
    exact List.take_length
  have hlast := hashed_last one.data 0 (by decide)
  rw [counted, htake, hashed_plain _ fun h => hcrlf (by simpa using h)]
  by_cases hin : LF ∈ one.data
  · rw [if_pos hin, Nat.zero_add] at hlast
    exact hlast
  · rw [if_neg hin, Nat.zero_add] at hlast
    rw [last_line_of_not_mem hin]
    exact hlast

/-- An ignored CR is not counted. -/
theorem hashed_crlf (buf : Bytes) : ∀ n, ¬ NoCrlf buf → hashed true buf n < n + buf.length := by
  induction buf with
  | nil =>
    intro n hcrlf
    exact absurd (fun hin => absurd (List.eq_nil_of_infix_nil hin) (by simp)) hcrlf
  | cons c buf ih =>
    intro n hcrlf
    rw [hashed, List.length_cons]
    by_cases hcr : (true && c = CR && buf.head? = some LF) = true
    · rw [if_pos hcr]
      have := hashed_le true buf n
      omega
    rw [if_neg hcr]
    have hrest : ¬ NoCrlf buf := by
      intro hno
      apply hcrlf
      intro hin
      rcases List.infix_cons_iff.mp hin with hstart | hin
      · obtain ⟨rest, hrest⟩ := hstart
        cases hrest
        exact hcr rfl
      · exact hno hin
    split_ifs
    · have := ih (n + 1) hrest
      omega
    · have := ih 0 hrest
      omega

/-- When a file is counted as a whole. -/
theorem counted_all (one : diff_filespec) :
    counted one = one.size ↔ one.size < 2 ^ 32 ∧ (one.is_binary = false → NoCrlf one.data) ∧
      (last_line one.data).length % 64 = 0 := by
  constructor
  · intro hall
    have hsize : one.size < 2 ^ 32 := by
      have hle := hashed_le (!one.is_binary) (one.data.take (one.size % 2 ^ 32)) 0
      rw [← counted, hall, List.length_take] at hle
      have := Nat.mod_lt one.size (by decide : 0 < 2 ^ 32)
      omega
    have hcrlf : one.is_binary = false → NoCrlf one.data := by
      intro htext
      by_contra hno
      have hless := hashed_crlf one.data 0 hno
      have htake : one.data.take (one.size % 2 ^ 32) = one.data := by
        rw [Nat.mod_eq_of_lt hsize]
        exact List.take_length
      rw [counted, htake, htext, Bool.not_false] at hall
      rw [hall, Nat.zero_add] at hless
      exact lt_irrefl _ hless
    have hlast := counted_last hsize hcrlf
    exact ⟨hsize, hcrlf, by omega⟩
  · rintro ⟨hsize, hcrlf, hend⟩
    have hlast := counted_last hsize hcrlf
    omega

theorem hash_chars_same {src dst : diff_filespec} (h : src.data = dst.data)
    (hsrc : src.is_binary = false → NoCrlf src.data)
    (hdst : dst.is_binary = false → NoCrlf dst.data) : hash_chars src = hash_chars dst := by
  have hcut : ∀ {buf : Bytes} (n : Nat), NoCrlf buf → NoCrlf (buf.take n) :=
    fun n hno hin => hno (hin.trans (List.take_prefix n _).isInfix)
  unfold hash_chars diff_filespec.size
  rw [hash_loop_plain _ fun hb => hcut _ (hsrc (by simpa using hb)),
    hash_loop_plain _ fun hb => hcut _ (hdst (by simpa using hb)), h]

/-- The two sums make up the destination, neither more nor less, exactly where the destination
ends with a chunk: where the bytes behind its last LF are none, or a multiple of 64. -/
theorem count_changes_measures (src dst : diff_filespec) (hdst : dst.size < 2 ^ 31)
    (hcrlf : src.is_binary = false → NoCrlf src.data)
    (hcrlf' : dst.is_binary = false → NoCrlf dst.data) :
    (∃ sc la, diffcore_count_changes src dst = some (sc, la) ∧ sc + la = dst.size ∧
      sc ≤ src.size ∧ sc ≤ dst.size ∧ (src.data = dst.data → sc = dst.size ∧ la = 0)) ↔
    (last_line dst.data).length % 64 = 0 := by
  have hlast := counted_last (by omega : dst.size < 2 ^ 32) hcrlf'
  obtain ⟨sc, la, hcount, hsum, hle⟩ := count_changes_sum src dst
  constructor
  · rintro ⟨sc', la', hcount', hsum', -⟩
    rw [hcount] at hcount'
    cases hcount'
    omega
  · intro hend
    have hsrc_le := counted_le src
    refine ⟨sc, la, hcount, by omega, by omega, by omega, fun heq => ?_⟩
    rw [count_changes_self (hash_chars_same heq hcrlf hcrlf')] at hcount
    cases hcount
    omega

/-- Two files of a line each, and the line is counted. -/
theorem a_line_is_measured :
    (∃ sc la, diffcore_count_changes ⟨[97, LF], false⟩ ⟨[97, LF], false⟩ = some (sc, la) ∧
      sc + la = 2 ∧ sc ≤ 2 ∧ sc ≤ 2 ∧ ([97, LF] = [97, LF] → sc = 2 ∧ la = 0)) ↔
    (last_line [97, LF]).length % 64 = 0 :=
  count_changes_measures ⟨[97, LF], false⟩ ⟨[97, LF], false⟩ (by decide)
    (fun _ => by unfold NoCrlf; decide) (fun _ => by unfold NoCrlf; decide)

/-- A byte without LF is in no chunk: nothing of the destination is counted. -/
theorem an_incomplete_line_is_not_counted :
    diffcore_count_changes ⟨[97], false⟩ ⟨[97], false⟩ = some (0, 0) := by
  obtain ⟨sc, la, hcount, hsum, -⟩ := count_changes_sum ⟨[97], false⟩ ⟨[97], false⟩
  have hzero : counted ⟨[97], false⟩ = 0 := by decide
  have hsc : sc = 0 := by omega
  have hla : la = 0 := by omega
  rw [hcount, hsc, hla]

end git.count_changes
