-- The entries of an index file: what `write_index` leaves in the file is what
-- `read_index_from` finds there, in each of the three layouts.
import Git.IndexFile
import Git.IndexOrder

open big_endian

namespace git

/-! ## What the writer has taken -/

/-- The writer took the bytes `bs`: the file has them but for those in the
buffer, and the SHA-1 context was given those in the file. -/
def Wrote (w : index_writer) (bs : Bytes) : Prop :=
  w.fd ++ w.write_buffer = bs ∧ w.context = w.fd ∧ w.write_buffer.length < WRITE_BUFFER_SIZE

theorem write_in_full_eq {env : index_env} {w w' : index_writer} {buf : Bytes}
    (h : write_in_full env w buf = some w') : w' = { w with fd := w.fd ++ buf } := by
  unfold write_in_full at h
  by_cases ht : env.takes (w.fd ++ buf)
  · simp only [ht, if_true, Option.some.injEq] at h
    exact h.symm
  · simp [ht] at h

theorem ce_write_flush_eq {env : index_env} {w w' : index_writer} (hne : w.write_buffer ≠ [])
    (h : ce_write_flush env w = some w') :
    w' = ⟨w.fd ++ w.write_buffer, w.context ++ w.write_buffer, []⟩ := by
  unfold ce_write_flush at h
  rw [if_neg hne] at h
  cases hf : write_in_full env { w with context := w.context ++ w.write_buffer } w.write_buffer with
  | none => simp [hf] at h
  | some w1 =>
    simp only [hf, Option.some.injEq] at h
    rw [← h, write_in_full_eq hf]

/-- The buffer is flushed whenever it is full, and it never runs over. -/
theorem ce_write_from_wrote {env : index_env} {turns : Nat} {w w' : index_writer} {bs data : Bytes}
    (hwrote : Wrote w bs) (hturns : data.length ≤ turns)
    (h : ce_write_from env turns w data = some w') : Wrote w' (bs ++ data) := by
  induction turns generalizing w bs data with
  | zero =>
    have hdata : data = [] := List.eq_nil_of_length_eq_zero (by omega)
    simp only [ce_write_from, Option.some.injEq] at h
    rw [← h, hdata, List.append_nil]
    exact hwrote
  | succ turns ih =>
    obtain ⟨hbs, hctx, hlen⟩ := hwrote
    rw [ce_write_from] at h
    by_cases hdata : data = []
    · simp only [hdata, if_true, Option.some.injEq] at h
      rw [← h, hdata, List.append_nil]
      exact ⟨hbs, hctx, hlen⟩
    · simp only [hdata, if_false] at h
      generalize hroom : WRITE_BUFFER_SIZE - w.write_buffer.length = room at h
      have hleft : (data.drop room).length ≤ turns := by
        have := List.length_pos_of_ne_nil hdata
        rw [List.length_drop]
        omega
      have hsplit : bs ++ data = bs ++ data.take room ++ data.drop room := by
        rw [List.append_assoc, List.take_append_drop]
      by_cases hfull : (w.write_buffer ++ data.take room).length = WRITE_BUFFER_SIZE
      · simp only [hfull, if_true] at h
        cases hf : ce_write_flush env { w with write_buffer := w.write_buffer ++ data.take room } with
        | none => simp [hf] at h
        | some w1 =>
          simp only [hf] at h
          have hne : w.write_buffer ++ data.take room ≠ [] := by
            intro hnil
            rw [hnil] at hfull
            exact absurd hfull (by decide)
          have hw1 := ce_write_flush_eq (w := ⟨w.fd, w.context, w.write_buffer ++ data.take room⟩)
            hne hf
          rw [hsplit]
          apply ih _ hleft h
          rw [hw1]
          refine ⟨?_, ?_, Nat.zero_lt_succ _⟩
          · simp [← hbs]
          · simp [hctx]
      · simp only [hfull, if_false] at h
        rw [hsplit]
        apply ih _ hleft h
        refine ⟨?_, hctx, ?_⟩
        · simp [← hbs]
        · simp only [List.length_append, List.length_take] at hfull ⊢
          omega

theorem ce_write_wrote {env : index_env} {w w' : index_writer} {bs data : Bytes}
    (hwrote : Wrote w bs) (h : ce_write env w data = some w') : Wrote w' (bs ++ data) :=
  ce_write_from_wrote hwrote (le_refl _) h

/-- The trailer is the SHA-1 of all that was written before it. -/
theorem ce_flush_wrote {env : index_env} {w w' : index_writer} {bs : Bytes}
    (hwrote : Wrote w bs) (h : ce_flush env w = some w') :
    w'.fd = bs ++ (env.sha1 bs).toList := by
  obtain ⟨hbs, hctx, _⟩ := hwrote
  have hsha : w.context ++ w.write_buffer = bs := by rw [hctx, hbs]
  unfold ce_flush at h
  simp only [hsha] at h
  by_cases hroom : WRITE_BUFFER_SIZE < w.write_buffer.length + 20
  · simp only [hroom, if_true] at h
    cases hf : write_in_full env ⟨w.fd, bs, []⟩ w.write_buffer with
    | none => simp [hf] at h
    | some w1 =>
      simp only [hf] at h
      rw [write_in_full_eq h, write_in_full_eq hf]
      simp [hbs]
  · simp only [hroom, if_false] at h
    rw [write_in_full_eq h]
    simp [← List.append_assoc, hbs]

/-- The bytes of an extension, if there is one. -/
def extension_bytes {α : Type} (ext : BitVec 32) (write : α → Bytes) : Option α → Bytes
  | none => []
  | some payload =>
    htonl ext ++ (htonl (unsigned_int (write payload).length) ++ write payload)

theorem write_extension_wrote {α : Type} {env : index_env} {w w' : index_writer} {bs : Bytes}
    {ext : BitVec 32} {write : α → Bytes} {payload : Option α} (hwrote : Wrote w bs)
    (h : write_extension env w ext write payload = some w') :
    Wrote w' (bs ++ extension_bytes ext write payload) := by
  cases payload with
  | none =>
    simp only [write_extension, Option.some.injEq] at h
    rw [← h, extension_bytes, List.append_nil]
    exact hwrote
  | some payload =>
    simp only [write_extension, write_index_ext_header] at h
    cases h1 : ce_write env w (htonl ext) with
    | none => simp [h1] at h
    | some w1 =>
      simp only [h1] at h
      cases h2 : ce_write env w1 (htonl (unsigned_int (write payload).length)) with
      | none => simp [h2] at h
      | some w2 =>
        simp only [h2] at h
        have := ce_write_wrote (ce_write_wrote (ce_write_wrote hwrote h1) h2) h
        simpa [extension_bytes, List.append_assoc] using this

/-! ## What becomes of the entries -/

/-- The entry as `write_index` writes it: the size of a racily clean one is
smudged. -/
def as_written (env : index_env) (istate : index_state) (ce : cache_entry) : cache_entry :=
  if !ce_uptodate ce && is_racy_timestamp istate ce && racily_clean env.cfg env.wt ce then
    { ce with ce_size := 0 }
  else ce

/-- The entry as `write_index` leaves it in core. -/
def left_in_core (env : index_env) (istate : index_state) (ce : cache_entry) : cache_entry :=
  if ce.has CE_REMOVE then ce else as_written env istate ce

def live (ce : cache_entry) : Bool := !ce.has CE_REMOVE

def entry_bytes (ce : cache_entry) (previous_name : Option Bytes) : Bytes :=
  copy_cache_entry_to_ondisk ce ++ ondisk_name ce previous_name

/-- The entries one after the other. -/
def section_bytes : Option Bytes → List cache_entry → Bytes
  | _, [] => []
  | previous_name, ce :: cache =>
    entry_bytes ce previous_name ++ section_bytes (next_previous ce previous_name) cache

theorem as_written_eq (env : index_env) (istate : index_state) (ce : cache_entry) :
    as_written env istate ce = ce ∨ as_written env istate ce = { ce with ce_size := 0 } := by
  unfold as_written
  split_ifs
  · exact Or.inr rfl
  · exact Or.inl rfl

theorem as_written_flags (env : index_env) (istate : index_state) (ce : cache_entry) :
    (as_written env istate ce).ce_flags = ce.ce_flags := by
  rcases as_written_eq env istate ce with h | h <;> rw [h]

theorem live_as_written (env : index_env) (istate : index_state) (ce : cache_entry) :
    live (as_written env istate ce) = live ce := by
  unfold live cache_entry.has
  rw [as_written_flags]

/-- The step of the loop in `write_index` before it writes the entry. -/
theorem smudged_eq {env : index_env} {istate : index_state} {ce ce' : cache_entry}
    (h : (if !ce_uptodate ce && is_racy_timestamp istate ce then
        ce_smudge_racily_clean_entry env.cfg env.wt ce else some ce) = some ce') :
    ce' = as_written env istate ce := by
  unfold as_written
  by_cases hr : !ce_uptodate ce && is_racy_timestamp istate ce
  · rw [if_pos hr] at h
    rw [hr, Bool.true_and]
    exact smudge_spec h
  · rw [if_neg hr] at h
    rw [Bool.not_eq_true] at hr
    rw [hr, Bool.false_and]
    exact (Option.some.inj h).symm

theorem ce_write_entry_wrote {env : index_env} {w w' : index_writer} {bs : Bytes}
    {ce : cache_entry} {previous_name : Option Bytes} (hwrote : Wrote w bs)
    (h : ce_write_entry env w ce previous_name = some w') :
    Wrote w' (bs ++ entry_bytes ce previous_name) := by
  unfold ce_write_entry at h
  cases hx : xcalloc (copy_cache_entry_to_ondisk ce ++ ondisk_name ce previous_name).length with
  | none => simp only [hx, reduceCtorEq] at h
  | some size =>
    simp only [hx] at h
    exact ce_write_wrote hwrote h

/-- The loop over the entries writes the live ones, and smudges on the way. -/
theorem write_entries_wrote {env : index_env} {istate : index_state} {w w' : index_writer}
    {bs : Bytes} {previous_name : Option Bytes} {cache cache' : List cache_entry}
    (hwrote : Wrote w bs)
    (h : write_entries env istate w previous_name cache = some (cache', w')) :
    cache' = cache.map (left_in_core env istate) ∧
      Wrote w' (bs ++ section_bytes previous_name (cache'.filter live)) := by
  induction cache generalizing w bs previous_name cache' with
  | nil =>
    simp only [write_entries, Option.some.injEq, Prod.mk.injEq] at h
    obtain ⟨rfl, rfl⟩ := h
    refine ⟨rfl, ?_⟩
    simpa [section_bytes] using hwrote
  | cons ce cache ih =>
    rw [write_entries] at h
    by_cases hrem : ce.has CE_REMOVE
    · simp only [hrem, if_true] at h
      cases hrest : write_entries env istate w previous_name cache with
      | none => simp [hrest] at h
      | some r =>
        simp only [hrest, Option.some.injEq, Prod.mk.injEq] at h
        obtain ⟨rfl, rfl⟩ := h
        obtain ⟨hcache, hw⟩ := ih hwrote hrest
        refine ⟨?_, ?_⟩
        · rw [List.map_cons, left_in_core, if_pos hrem, hcache]
        · rw [List.filter_cons_of_neg (by simp [live, hrem])]
          exact hw
    · simp only [hrem, Bool.false_eq_true, if_false] at h
      split at h
      · exact absurd h (by simp)
      · rename_i ce1 hsm
        have hce1 := smudged_eq hsm
        cases hwr : ce_write_entry env w ce1 previous_name with
        | none => simp [hwr] at h
        | some w1 =>
          simp only [hwr] at h
          cases hrest : write_entries env istate w1 (next_previous ce1 previous_name) cache with
          | none => simp [hrest] at h
          | some r =>
            simp only [hrest, Option.some.injEq, Prod.mk.injEq] at h
            obtain ⟨rfl, rfl⟩ := h
            obtain ⟨hcache, hw⟩ := ih (ce_write_entry_wrote hwrote hwr) hrest
            have hlive : live ce1 = true := by
              rw [hce1, live_as_written]
              simp [live, hrem]
            refine ⟨?_, ?_⟩
            · rw [List.map_cons, left_in_core, if_neg hrem, hcache, hce1]
            · rw [List.filter_cons_of_pos hlive, section_bytes, ← List.append_assoc]
              exact hw

/-! ## The words of the flags -/

theorem low_mask_bit (i : Nat) : (0xffff : BitVec 32).getLsbD i = decide (i < 16) := by
  by_cases h : i < 32
  · interval_cases i <;> rfl
  · have h16 : ¬ i < 16 := by omega
    rw [BitVec.getLsbD_of_ge _ _ (by omega)]
    simp [h16]

theorem extended_mask_bit (i : Nat) :
    CE_EXTENDED_FLAGS.getLsbD i = decide (i = 29 ∨ i = 30) := by
  by_cases h : i < 32
  · interval_cases i <;> rfl
  · have h29 : ¬ (i = 29 ∨ i = 30) := by omega
    rw [BitVec.getLsbD_of_ge _ _ (by omega)]
    simp [h29]

/-- The first flag word is the low half of the flags. -/
theorem low_word (f : BitVec 32) : (f.setWidth 16).setWidth 32 = f &&& 0xffff := by
  apply BitVec.eq_of_getLsbD_eq
  intro i hi
  rw [BitVec.getLsbD_and, low_mask_bit]
  simp only [BitVec.getLsbD_setWidth, hi, decide_true, Bool.true_and]
  by_cases h : i < 16 <;> simp [h]

/-- The second flag word brings back the extended flags. -/
theorem high_word (f : BitVec 32) :
    (((f &&& CE_EXTENDED_FLAGS) >>> 16).setWidth 16).setWidth 32 <<< 16 =
      f &&& CE_EXTENDED_FLAGS := by
  apply BitVec.eq_of_getLsbD_eq
  intro i hi
  simp only [BitVec.getLsbD_shiftLeft, BitVec.getLsbD_setWidth, BitVec.getLsbD_ushiftRight,
    BitVec.getLsbD_and, extended_mask_bit, hi, decide_true, Bool.true_and]
  by_cases h : i < 16
  · have : ¬ (i = 29 ∨ i = 30) := by omega
    simp [h, this]
  · have h1 : i - 16 < 16 := by omega
    have h2 : i - 16 < 32 := by omega
    have h3 : 16 + (i - 16) = i := by omega
    simp [h, h1, h2, h3]

theorem only_extended (f : BitVec 32) :
    (f &&& CE_EXTENDED_FLAGS) &&& ~~~CE_EXTENDED_FLAGS = 0 := by
  rw [BitVec.and_assoc]
  simp

/-- A mask of low bits sees the same in the first flag word. -/
theorem low_word_and {mask : BitVec 32} (f : BitVec 32) (h : (0xffff : BitVec 32) &&& mask = mask) :
    (f &&& 0xffff) &&& mask = f &&& mask := by
  rw [BitVec.and_assoc, h]

/-! ## Entries as they are read -/

/-- What `cache_entry_size(len)` allocates. -/
def cache_entry_size (len : Nat) : Nat := 80 + len + 1

/-- Flags that tell the length of a name without a NUL, and a size that is
an `int`, as where the entry was allocated. -/
structure Storable (ce : cache_entry) : Prop where
  named : Named ce
  no_nul : 0 ∉ ce.name
  size : cache_entry_size ce.name.length < 2 ^ 31

/-- CE_EXTENDED tells of the extended flags, as `write_index` makes it. -/
def Reduced (ce : cache_entry) : Prop := ce.has CE_EXTENDED = ce.has CE_EXTENDED_FLAGS

/-- The entry as it comes from the disk: the flags are those on disk. -/
def loaded (ce : cache_entry) : cache_entry :=
  { ce with ce_flags := (ce.ce_flags &&& 0xffff) ||| (ce.ce_flags &&& CE_EXTENDED_FLAGS) }

theorem c_string_append (s rest : Bytes) (h : 0 ∉ s) : c_string (s ++ 0 :: rest) = some (s, rest) := by
  induction s with
  | nil => simp [c_string]
  | cons c s ih =>
    have hc : c ≠ 0 := by
      intro hc
      exact h (by simp [hc])
    have hs : 0 ∉ s := fun hs => h (List.mem_cons_of_mem c hs)
    simp [c_string, hc, ih hs]

theorem common_length_le (name previous : Bytes) :
    common_length name previous ≤ name.length ∧ common_length name previous ≤ previous.length := by
  induction name generalizing previous with
  | nil => simp [common_length]
  | cons a name ih =>
    cases previous with
    | nil => simp [common_length]
    | cons b previous =>
      have := ih previous
      rw [common_length]
      split_ifs <;> simp only [List.length_cons] <;> omega

theorem take_common_length (name previous : Bytes) :
    previous.take (common_length name previous) = name.take (common_length name previous) := by
  induction name generalizing previous with
  | nil => simp [common_length]
  | cons a name ih =>
    cases previous with
    | nil => simp [common_length]
    | cons b previous =>
      rw [common_length]
      by_cases hab : a = b
      · simp [hab, ih]
      · simp [hab]

/-- The name after `strbuf_splice` is the name of the entry. -/
theorem next_previous_some {ce : cache_entry} (h : Named ce) (previous_name : Bytes) :
    next_previous ce (some previous_name) = some ce.name := by
  have hle := common_length_le ce.name previous_name
  rw [next_previous]
  simp only [h.namelen]
  rw [take_common_length, List.take_of_length_le (l := ce.name.drop _) (by simp),
    List.take_append_drop]

theorem bind_ntohl {α : Type} (x : BitVec 32) (rest : Bytes) (f : BitVec 32 × Bytes → Option α) :
    (ntohl (htonl x ++ rest) >>= f) = f (x, rest) := by
  rw [ntohl_htonl]
  rfl

/-- The fields before the name come back, with the low half of the flags. -/
theorem cache_entry_from_copied (ce : cache_entry) (name : Bytes) :
    cache_entry_from_ondisk (copy_cache_entry_to_ondisk ce ++ name) =
      some ({ ce with ce_flags := ce.ce_flags &&& 0xffff, name := [] },
        (if ce.has CE_EXTENDED then
          htons (((ce.ce_flags &&& CE_EXTENDED_FLAGS) >>> 16).setWidth 16) else []) ++ name) := by
  unfold copy_cache_entry_to_ondisk
  simp only [List.append_assoc]
  unfold cache_entry_from_ondisk
  simp only [↓bind_ntohl]
  rw [sha1_at_append, Option.bind_eq_bind, Option.bind_some, ntohs_htons]
  simp only [Option.bind_eq_bind, Option.bind_some, Option.pure_def, low_word]

theorem ok_bind {α β : Type} (a : α) (f : α → Except read_error β) : (.ok a >>= f) = f a := rfl

/-- The second flag word is there where CE_EXTENDED says so. -/
theorem read_extended_flags_copied {ce : cache_entry} (h : Reduced ce) (name : Bytes) :
    read_extended_flags (ce.ce_flags &&& 0xffff)
      ((if ce.has CE_EXTENDED then
        htons (((ce.ce_flags &&& CE_EXTENDED_FLAGS) >>> 16).setWidth 16) else []) ++ name) =
      .ok ((loaded ce).ce_flags, name) := by
  have hbit : (ce.ce_flags &&& 0xffff) &&& CE_EXTENDED = ce.ce_flags &&& CE_EXTENDED :=
    low_word_and _ (by decide)
  unfold read_extended_flags
  rw [hbit]
  by_cases hx : ce.has CE_EXTENDED
  · have hne : ce.ce_flags &&& CE_EXTENDED ≠ 0 := by simpa [cache_entry.has] using hx
    rw [if_pos hne, if_pos hx]
    simp only [ntohs_htons, in_mapping, ok_bind, high_word, only_extended, ne_eq,
      not_true_eq_false, if_false, loaded]
    rfl
  · have hxf : ¬ ce.has CE_EXTENDED_FLAGS := by
      rw [← h]
      exact hx
    have h0 : ce.ce_flags &&& CE_EXTENDED = 0 := by simpa [cache_entry.has] using hx
    have hf0 : ce.ce_flags &&& CE_EXTENDED_FLAGS = 0 := by simpa [cache_entry.has] using hxf
    rw [if_neg (by simpa using h0), if_neg hx]
    simp [loaded, hf0]
    rfl

theorem loaded_and {mask : BitVec 32} (ce : cache_entry) (h : (0xffff : BitVec 32) &&& mask = mask)
    (hx : CE_EXTENDED_FLAGS &&& mask = 0) : (loaded ce).ce_flags &&& mask = ce.ce_flags &&& mask := by
  have hright : (ce.ce_flags &&& CE_EXTENDED_FLAGS) &&& mask = 0 := by
    rw [BitVec.and_assoc, hx]
    simp
  rw [loaded, BitVec.and_or_distrib_right, hright, low_word_and _ h]
  simp

theorem loaded_named {ce : cache_entry} (h : Named ce) : Named (loaded ce) := by
  unfold Named at *
  rw [loaded_and ce (by decide) (by decide)]
  exact h

theorem loaded_offset (ce : cache_entry) : ondisk_offset (loaded ce) = ondisk_offset ce := by
  unfold ondisk_offset cache_entry.has
  rw [loaded_and ce (by decide) (by decide)]

theorem length_copied (ce : cache_entry) :
    (copy_cache_entry_to_ondisk ce).length = ondisk_offset ce := by
  unfold copy_cache_entry_to_ondisk ondisk_offset
  by_cases hx : ce.has CE_EXTENDED
  · simp [hx]
  · simp [hx]

/-- The padding has a NUL at least. -/
theorem padding {ce : cache_entry} (h : Named ce) :
    ∃ n, ondisk_ce_size ce = ondisk_offset ce + ce.name.length + (n + 1) := by
  refine ⟨ondisk_ce_size ce - ondisk_offset ce - ce.name.length - 1, ?_⟩
  unfold ondisk_ce_size
  rw [h.namelen]
  omega

theorem length_entry_none {ce : cache_entry} (h : Named ce) :
    (entry_bytes ce none).length = ondisk_ce_size ce := by
  obtain ⟨n, hn⟩ := padding h
  rw [entry_bytes, ondisk_name, List.length_append, length_copied, h.namelen]
  simp only [List.take_length, List.length_append, List.length_replicate]
  omega

/-- The name of a padded entry is found by its length, or by the NUL. -/
theorem padded_name {ce : cache_entry} (h : Storable ce) (n : Nat) (rest : Bytes) :
    name_of_length (ce.ce_flags &&& CE_NAMEMASK).toNat
      (ce.name ++ (List.replicate (n + 1) 0 ++ rest)) = .ok ce.name := by
  have hlen : (ce.ce_flags &&& CE_NAMEMASK).toNat = min ce.name.length 0x0fff := h.named
  unfold name_of_length
  rw [hlen]
  by_cases hlong : 0x0fff ≤ ce.name.length
  · rw [if_pos (by omega), List.replicate_succ, List.cons_append,
      c_string_append ce.name _ h.no_nul]
    rfl
  · have hmin : min ce.name.length 0x0fff = ce.name.length := by omega
    rw [hmin, if_neg (by omega), if_neg (by simp)]
    simp

/-- The name of a v4 entry is expanded from the previous one. -/
theorem expanded_name {ce : cache_entry} (h : Storable ce) {previous_name : Bytes}
    (hprev : previous_name.length < 2 ^ 31) (rest : Bytes) :
    expand_name_field previous_name (ondisk_name ce (some previous_name) ++ rest) =
      .ok (ce.name, (ondisk_name ce (some previous_name)).length) := by
  have hle := common_length_le ce.name previous_name
  have hnul : 0 ∉ ce.name.drop (common_length ce.name previous_name) :=
    fun h0 => h.no_nul (List.mem_of_mem_drop h0)
  rw [ondisk_name]
  simp only [h.named.namelen]
  generalize hcommon : common_length ce.name previous_name = common at *
  rw [List.take_of_length_le (l := ce.name.drop common) (by simp)]
  unfold expand_name_field
  rw [List.append_assoc, decode_encode_varint _ _ (by omega)]
  simp only [in_mapping, ok_bind]
  rw [if_neg (by omega), List.append_assoc, List.singleton_append,
    c_string_append _ rest hnul]
  have hkeep : previous_name.length - (previous_name.length - common) = common := by omega
  have hname : previous_name.take common ++ ce.name.drop common = ce.name := by
    rw [← hcommon, take_common_length, List.take_append_drop]
  simp only [ok_bind, hkeep, hname, List.length_append, List.length_cons, List.length_nil]
  congr 2
  omega

/-- What `ce_write_entry` wrote is what `create_from_disk` makes. -/
theorem create_from_disk_written {ce : cache_entry} (h : Storable ce) (hx : Reduced ce)
    {previous_name : Option Bytes} (hprev : ∀ name ∈ previous_name, name.length < 2 ^ 31)
    (rest : Bytes) :
    create_from_disk (entry_bytes ce previous_name ++ rest) previous_name =
      .ok (loaded ce, (entry_bytes ce previous_name).length, next_previous ce previous_name) := by
  have hlen : (ce.ce_flags &&& 0xffff) &&& CE_NAMEMASK = ce.ce_flags &&& CE_NAMEMASK :=
    low_word_and _ (by decide)
  unfold create_from_disk
  rw [entry_bytes, List.append_assoc, cache_entry_from_copied]
  simp only [in_mapping, ok_bind, hlen]
  rw [read_extended_flags_copied hx]
  simp only [ok_bind]
  cases previous_name with
  | none =>
    obtain ⟨n, hn⟩ := padding h.named
    have hpad : ondisk_name ce none = ce.name ++ List.replicate (n + 1) 0 := by
      rw [ondisk_name, h.named.namelen, List.take_length]
      congr 2
      omega
    have hsize : ondisk_ce_size (loaded ce) = ondisk_ce_size ce := by
      unfold ondisk_ce_size
      rw [loaded_offset, (loaded_named h.named).namelen, h.named.namelen]
      rfl
    have hbytes := length_entry_none h.named
    rw [entry_bytes] at hbytes
    rw [hbytes, hpad, List.append_assoc]
    simp only [padded_name h n rest, ok_bind, next_previous]
    rw [← hsize]
    rfl
  | some previous_name =>
    simp only [expanded_name h (hprev previous_name rfl) rest, ok_bind,
      next_previous_some h.named]
    rw [List.length_append, List.length_append, List.length_append, length_copied]
    congr 2
    simp only [Prod.mk.injEq, and_true]
    omega

theorem next_previous_short {ce : cache_entry} (h : Storable ce) {previous_name : Option Bytes} :
    ∀ name ∈ next_previous ce previous_name, name.length < 2 ^ 31 := by
  intro name hname
  cases previous_name with
  | none => simp [next_previous] at hname
  | some previous_name =>
    rw [next_previous_some h.named, Option.mem_some_iff] at hname
    have := h.size
    unfold cache_entry_size at this
    rw [← hname]
    omega

/-- The name before the first entry. -/
theorem first_previous_short (version : BitVec 32) :
    ∀ name ∈ (if version = 4 then some ([] : Bytes) else none), name.length < 2 ^ 31 := by
  intro name hname
  split_ifs at hname
  · rw [Option.mem_some_iff] at hname
    simp [← hname]
  · simp at hname

/-- The loop over the entries reads a whole section. -/
theorem read_entries_written {mmap : Bytes} {istate : index_state} {src_offset : Nat}
    {previous_name : Option Bytes} {cache : List cache_entry} {rest : Bytes}
    (hce : ∀ ce ∈ cache, Storable ce ∧ Reduced ce)
    (hprev : ∀ name ∈ previous_name, name.length < 2 ^ 31)
    (hmap : mmap.drop src_offset = section_bytes previous_name cache ++ rest) :
    read_entries mmap cache.length istate src_offset previous_name =
      .ok ({ istate with
          cache := istate.cache ++ cache.map (fun ce => add_name_hash istate (loaded ce)) },
        src_offset + (section_bytes previous_name cache).length) := by
  induction cache generalizing istate src_offset previous_name with
  | nil => simp [read_entries, section_bytes]
  | cons ce cache ih =>
    obtain ⟨hst, hred⟩ := hce ce List.mem_cons_self
    rw [section_bytes, List.append_assoc] at hmap
    have hdrop : mmap.drop (src_offset + (entry_bytes ce previous_name).length) =
        section_bytes (next_previous ce previous_name) cache ++ rest := by
      rw [← List.drop_drop, hmap, List.drop_append_of_le_length (le_refl _), List.drop_length,
        List.nil_append]
    rw [List.length_cons, read_entries, hmap, create_from_disk_written hst hred hprev]
    simp only [ok_bind]
    rw [ih (fun ce hmem => hce ce (List.mem_cons_of_mem _ hmem)) (next_previous_short hst) hdrop]
    simp only [section_bytes, List.length_append, List.map_cons, List.append_assoc,
      List.singleton_append, add_name_hash]
    congr 2
    omega

/-! ## Extensions -/

/-- An extension is read whole when its length fits the word for it. -/
theorem read_extension_turn {α : Type} {env : index_env} {mmap rest : Bytes} {turns : Nat}
    {istate : index_state} {src_offset : Nat} {ext : BitVec 32} {write : α → Bytes} {payload : α}
    (hfit : (write payload).length < 2 ^ 32) (hrest : 20 ≤ rest.length)
    (hmap : mmap.drop src_offset = extension_bytes ext write (some payload) ++ rest) :
    read_extensions env mmap (turns + 1) istate src_offset =
      (read_index_extension env istate ext (write payload)).bind (fun istate =>
        read_extensions env mmap turns istate (src_offset + 8 + (write payload).length)) := by
  have hlen := congrArg List.length hmap
  simp only [List.length_drop, List.length_append, extension_bytes, length_htonl] at hlen
  have hsz : (unsigned_int (write payload).length).toNat = (write payload).length := by
    unfold unsigned_int
    rw [BitVec.toNat_ofNat]
    omega
  rw [read_extensions, if_neg (by omega), hmap, extension_bytes]
  simp only [List.append_assoc, ntohl_htonl, in_mapping, ok_bind, hsz]
  rw [List.take_append_of_le_length (le_refl _), List.take_length]
  rfl

/-- The reading stops at the trailer. -/
theorem read_extensions_stop {env : index_env} {mmap : Bytes} {turns : Nat} {istate : index_state}
    {src_offset : Nat} (hpos : 8 ≤ src_offset) (hend : mmap.length ≤ src_offset + 20) :
    read_extensions env mmap turns istate src_offset = .ok istate := by
  cases turns with
  | zero => rfl
  | succ turns => rw [read_extensions, if_pos (by omega)]

/-- The extension is not there, or its length fits the word for it. -/
def Fits32 {α : Type} (write : α → Bytes) (payload : Option α) : Prop :=
  ∀ p ∈ payload, (write p).length < 2 ^ 32

/-- One extension leaves the entries of the index alone. -/
theorem read_extension_written {α : Type} {env : index_env} {mmap rest : Bytes} {turns : Nat}
    {istate : index_state} {src_offset : Nat} {ext : BitVec 32} {write : α → Bytes}
    {payload : Option α}
    (hfit : Fits32 write payload) (hrest : 20 ≤ rest.length)
    (hmap : mmap.drop src_offset = extension_bytes ext write payload ++ rest)
    (htake : ∀ data, ∃ istate', read_index_extension env istate ext data = .ok istate' ∧
      istate'.cache = istate.cache)
    (hthen : ∀ istate' turns', turns ≤ turns' → istate'.cache = istate.cache →
      ∃ after, read_extensions env mmap turns' istate'
        (src_offset + (extension_bytes ext write payload).length) = .ok after ∧
        after.cache = istate.cache) :
    ∃ after, read_extensions env mmap (turns + 1) istate src_offset = .ok after ∧
      after.cache = istate.cache := by
  cases payload with
  | none => exact hthen istate (turns + 1) (by omega) rfl
  | some p =>
    obtain ⟨istate', htaken, hcache⟩ := htake (write p)
    rw [read_extension_turn (hfit p rfl) hrest hmap, htaken]
    have hoff : src_offset + (extension_bytes ext write (some p)).length =
        src_offset + 8 + (write p).length := by
      simp only [extension_bytes, List.length_append, length_htonl]
      omega
    have := hthen istate' turns (le_refl _) hcache
    rw [hoff] at this
    exact this

/-- The two extensions of an index file leave its entries alone. -/
theorem read_extensions_written {env : index_env} {mmap trailer : Bytes} {istate : index_state}
    {tree : Option cache_tree} {undo : Option (List (Bytes × Option resolve_undo_info))}
    {src_offset turns : Nat} (htree : Fits32 env.cache_tree_write tree)
    (hundo : Fits32 env.resolve_undo_write undo) (hpos : 8 ≤ src_offset)
    (htrailer : trailer.length = 20)
    (hmap : mmap.drop src_offset = extension_bytes CACHE_EXT_TREE env.cache_tree_write tree ++
      (extension_bytes CACHE_EXT_RESOLVE_UNDO env.resolve_undo_write undo ++ trailer)) :
    ∃ after, read_extensions env mmap (turns + 2) istate src_offset = .ok after ∧
      after.cache = istate.cache := by
  have hlen := congrArg List.length hmap
  simp only [List.length_drop, List.length_append] at hlen
  refine read_extension_written htree (by rw [List.length_append]; omega) hmap ?_ ?_
  · intro data
    exact ⟨_, rfl, rfl⟩
  · intro istate1 turns1 hturns hcache1
    obtain ⟨turns2, rfl⟩ : ∃ k, turns1 = k + 1 := ⟨turns1 - 1, by omega⟩
    have hmap2 := congrArg
      (List.drop (extension_bytes CACHE_EXT_TREE env.cache_tree_write tree).length) hmap
    rw [List.drop_drop, List.drop_append_of_le_length (le_refl _), List.drop_length,
      List.nil_append] at hmap2
    rw [← hcache1]
    refine read_extension_written hundo (by omega) hmap2 ?_ ?_
    · intro data
      exact ⟨_, rfl, rfl⟩
    · intro istate2 turns3 _ hcache2
      exact ⟨istate2, read_extensions_stop (by omega) (by omega), hcache2⟩

/-! ## The whole file -/

/-- The entry but for its in-memory flags, and for CE_EXTENDED, which only
tells of the second flag word. -/
def on_disk (ce : cache_entry) : cache_entry :=
  { ce with ce_flags :=
      ce.ce_flags &&& (CE_NAMEMASK ||| CE_STAGEMASK ||| CE_VALID ||| CE_EXTENDED_FLAGS) }

theorem reduce_extended_and (ce : cache_entry) {mask : BitVec 32} (h : CE_EXTENDED &&& mask = 0) :
    (reduce_extended ce).ce_flags &&& mask = ce.ce_flags &&& mask := by
  unfold reduce_extended
  simp only
  split_ifs
  · exact (or_and_apart h).trans (andNot_and_apart h)
  · exact andNot_and_apart h

theorem reduce_extended_eq (ce : cache_entry) :
    reduce_extended ce = { ce with ce_flags := (reduce_extended ce).ce_flags } := by
  unfold reduce_extended
  simp only
  split_ifs <;> rfl

theorem reduce_extended_has (ce : cache_entry) {mask : BitVec 32} (h : CE_EXTENDED &&& mask = 0) :
    (reduce_extended ce).has mask = ce.has mask := by
  unfold cache_entry.has
  rw [reduce_extended_and ce h]

theorem reduce_extended_reduced (ce : cache_entry) : Reduced (reduce_extended ce) := by
  have hx : (reduce_extended ce).has CE_EXTENDED_FLAGS = (ce.clear CE_EXTENDED).has CE_EXTENDED_FLAGS := by
    rw [reduce_extended_has ce (by decide), cache_entry.has, cache_entry.has, cache_entry.clear,
      andNot_and_apart (by decide)]
  unfold Reduced
  rw [hx]
  unfold reduce_extended
  by_cases h : (ce.clear CE_EXTENDED).has CE_EXTENDED_FLAGS
  · simp only [h, if_true]
    exact has_mark _ (by decide)
  · simp only [h, Bool.false_eq_true, if_false]
    exact has_clear ce CE_EXTENDED

theorem reduce_extended_storable {ce : cache_entry} (h : Storable ce) :
    Storable (reduce_extended ce) := by
  have hname : (reduce_extended ce).name = ce.name := by rw [reduce_extended_eq]
  refine ⟨?_, ?_, ?_⟩
  · unfold Named
    rw [reduce_extended_and ce (by decide), hname]
    exact h.named
  · rw [hname]
    exact h.no_nul
  · rw [hname]
    exact h.size

theorem on_disk_reduce (ce : cache_entry) : on_disk (reduce_extended ce) = on_disk ce := by
  unfold on_disk
  rw [reduce_extended_and ce (by decide), reduce_extended_eq]

theorem on_disk_loaded (ce : cache_entry) : on_disk (loaded ce) = on_disk ce := by
  unfold on_disk loaded
  simp only
  rw [← BitVec.and_or_distrib_left, BitVec.and_assoc]
  congr 2

theorem on_disk_add_name_hash (istate : index_state) (ce : cache_entry) :
    on_disk (add_name_hash istate ce) = on_disk ce := by
  unfold on_disk add_name_hash cache_entry.clear cache_entry.mark
  simp only
  split_ifs
  · simp only
    rw [or_and_apart (by decide), andNot_and_apart (by decide)]
  · simp only
    rw [andNot_and_apart (by decide)]

theorem racily_clean_reduce (cfg : config) (wt : worktree) (ce : cache_entry) :
    racily_clean cfg wt (reduce_extended ce) = racily_clean cfg wt ce := by
  have hrem : (reduce_extended ce).has CE_REMOVE = ce.has CE_REMOVE :=
    reduce_extended_has ce (by decide)
  unfold racily_clean ce_match_stat_basic
  rw [hrem, reduce_extended_eq]
  rfl

/-- The second flag word has no part in the smudging. -/
theorem on_disk_as_written_reduce (env : index_env) (istate : index_state) (ce : cache_entry) :
    on_disk (as_written env istate (reduce_extended ce)) = on_disk (as_written env istate ce) := by
  have hup : ce_uptodate (reduce_extended ce) = ce_uptodate ce :=
    reduce_extended_has ce (by decide)
  have hracy : is_racy_timestamp istate (reduce_extended ce) = is_racy_timestamp istate ce := by
    rw [reduce_extended_eq]
    rfl
  unfold as_written
  rw [hup, hracy, racily_clean_reduce]
  split_ifs
  · unfold on_disk
    simp only
    rw [reduce_extended_and ce (by decide), reduce_extended_eq]
  · exact on_disk_reduce ce

/-- The file before its trailer. -/
def index_body (env : index_env) (istate : index_state) : Bytes :=
  htonl CACHE_SIGNATURE ++ (htonl istate.version ++
    (htonl (unsigned_int (istate.cache.filter live).length) ++
      (section_bytes (if istate.version = 4 then some [] else none) (istate.cache.filter live) ++
        (extension_bytes CACHE_EXT_TREE env.cache_tree_write istate.cache_tree ++
          extension_bytes CACHE_EXT_RESOLVE_UNDO env.resolve_undo_write istate.resolve_undo))))

theorem live_left_in_core (env : index_env) (istate : index_state) (ce : cache_entry) :
    live (left_in_core env istate ce) = live ce := by
  unfold left_in_core
  split_ifs
  · rfl
  · exact live_as_written env istate ce

theorem length_live_left (env : index_env) (istate : index_state) (cache : List cache_entry) :
    ((cache.map (left_in_core env istate)).filter live).length = (cache.filter live).length := by
  rw [List.filter_map, List.length_map]
  congr 2
  funext ce
  exact live_left_in_core env istate ce

theorem length_live (cache : List cache_entry) :
    cache.length - cache.countP (·.has CE_REMOVE) = (cache.filter live).length := by
  have := List.length_eq_countP_add_countP (fun ce : cache_entry => ce.has CE_REMOVE) (l := cache)
  have hrest : cache.countP (fun ce => ¬ ce.has CE_REMOVE = true) = (cache.filter live).length := by
    rw [List.countP_eq_length_filter]
    congr 2
    funext ce
    simp [live]
  omega

theorem wrote_nothing : Wrote ⟨[], [], []⟩ [] := ⟨rfl, rfl, Nat.zero_lt_succ _⟩

/-- The file is the body and its SHA-1, and nothing but the entries, the
version and the timestamp change in core. -/
theorem write_index_spec {env : index_env} {st : Option cache_time} {istate istate' : index_state}
    {file : Bytes} (h : write_index env st istate = some (istate', file)) :
    istate'.cache = (istate.cache.map reduce_extended).map (left_in_core env istate) ∧
      istate'.version = hdr_version istate
        ((istate.cache.map reduce_extended).any (·.has CE_EXTENDED_FLAGS)) ∧
      file = index_body env istate' ++ (env.sha1 (index_body env istate')).toList := by
  unfold write_index at h
  simp only [Option.bind_eq_bind, Option.bind_eq_some_iff, Option.pure_def, Option.some.injEq,
    Prod.mk.injEq, Prod.exists] at h
  obtain ⟨w1, h1, cache, w2, h2, w3, h3, w4, h4, w5, h5, time, _, rfl, rfl⟩ := h
  have hw1 := ce_write_wrote wrote_nothing h1
  obtain ⟨hcache, hw2⟩ := write_entries_wrote hw1 h2
  have hw4 := write_extension_wrote (write_extension_wrote hw2 h3) h4
  refine ⟨hcache, rfl, ?_⟩
  rw [ce_flush_wrote hw4 h5]
  refine congrArg (fun body => body ++ (env.sha1 body).toList) ?_
  unfold index_body
  simp only [List.nil_append, List.append_assoc]
  rw [length_live, hcache, length_live_left]

theorem hdr_version_known {istate : index_state} (extended : Bool)
    (h : istate.version = 0 ∨ 2 ≤ istate.version ∧ istate.version ≤ 4) :
    2 ≤ hdr_version istate extended ∧ hdr_version istate extended ≤ 4 := by
  unfold hdr_version INDEX_FORMAT_DEFAULT
  by_cases h0 : istate.version = 0
  · simp only [h0, if_true, true_or]
    split_ifs <;> exact ⟨by decide, by decide⟩
  · simp only [h0, if_false]
    split_ifs
    · exact ⟨by decide, by decide⟩
    · exact ⟨by decide, by decide⟩
    · exact h.resolve_left h0

/-- A header that `write_index` made is good. -/
theorem verify_hdr_written {env : index_env} {version hdr_entries : BitVec 32} {tail body : Bytes}
    (hver : 2 ≤ version ∧ version ≤ 4)
    (hbody : body = htonl CACHE_SIGNATURE ++ (htonl version ++ (htonl hdr_entries ++ tail))) :
    verify_hdr env (body ++ (env.sha1 body).toList) = .ok (version, hdr_entries) := by
  have hsize : (body ++ (env.sha1 body).toList).length - 20 = body.length := by simp
  have hrange : ¬ (version < 2 ∨ 4 < version) := by
    have h1 := BitVec.le_def.mp hver.1
    have h2 := BitVec.le_def.mp hver.2
    rw [BitVec.lt_def, BitVec.lt_def]
    omega
  unfold verify_hdr
  rw [hsize, List.take_append_of_le_length (le_refl _), List.take_length,
    List.drop_append_of_le_length (le_refl _), List.drop_length]
  conv in ntohl (body ++ _) => rw [hbody]
  simp only [List.append_assoc, ntohl_htonl, in_mapping, ok_bind, ne_eq, not_true_eq_false,
    if_false, hrange, List.nil_append]
  rfl

/-- What follows the header of a written file. -/
theorem after_header (env : index_env) (istate : index_state) (trailer : Bytes) :
    (index_body env istate ++ trailer).drop 12 =
      section_bytes (if istate.version = 4 then some [] else none) (istate.cache.filter live) ++
        (extension_bytes CACHE_EXT_TREE env.cache_tree_write istate.cache_tree ++
          (extension_bytes CACHE_EXT_RESOLVE_UNDO env.resolve_undo_write istate.resolve_undo ++
            trailer)) := by
  have hhdr : ∀ (a b c : BitVec 32) (rest : Bytes),
      (htonl a ++ (htonl b ++ (htonl c ++ rest))).drop 12 = rest := by
    intro a b c rest
    rw [← List.append_assoc, ← List.append_assoc, List.drop_append_of_le_length (by simp)]
    rw [List.drop_eq_nil_of_le (by simp), List.nil_append]
  rw [index_body]
  simp only [List.append_assoc]
  exact hhdr _ _ _ _

/-- The entries of a written file, as they are read. -/
theorem read_entry_section_written {env : index_env} {istate reader : index_state}
    (hver : 2 ≤ istate.version ∧ istate.version ≤ 4) (hcount : istate.cache.length < 2 ^ 31)
    (hce : ∀ ce ∈ istate.cache, Storable ce ∧ Reduced ce) :
    read_entry_section env reader
        (index_body env istate ++ (env.sha1 (index_body env istate)).toList) =
      .ok ({ reader with
          version := istate.version
          cache := (istate.cache.filter live).map (fun ce => add_name_hash reader (loaded ce))
          initialized := true },
        12 + (section_bytes (if istate.version = 4 then some [] else none)
          (istate.cache.filter live)).length) := by
  have hlive : (istate.cache.filter live).length < 2 ^ 31 :=
    Nat.lt_of_le_of_lt (List.length_filter_le _ _) hcount
  have hentries : (unsigned_int (istate.cache.filter live).length).toNat =
      (istate.cache.filter live).length := by
    unfold unsigned_int
    rw [BitVec.toNat_ofNat]
    omega
  have hsize : ¬ (index_body env istate ++ (env.sha1 (index_body env istate)).toList).length <
      12 + 20 := by
    simp only [index_body, List.length_append, length_htonl, Vector.length_toList]
    omega
  have hgood : ∀ ce ∈ istate.cache.filter live, Storable ce ∧ Reduced ce :=
    fun ce hmem => hce ce (List.mem_of_mem_filter hmem)
  unfold read_entry_section
  rw [if_neg hsize, verify_hdr_written hver (by rw [index_body])]
  simp only [ok_bind, hentries]
  rw [read_entries_written hgood (first_previous_short _) (after_header env istate _)]
  rfl

/-- The written file is read to its end. -/
theorem read_index_from_written {env : index_env} {istate reader : index_state} {mtime : cache_time}
    (hver : 2 ≤ istate.version ∧ istate.version ≤ 4) (hcount : istate.cache.length < 2 ^ 31)
    (hce : ∀ ce ∈ istate.cache, Storable ce ∧ Reduced ce) (hreader : reader.initialized = false)
    (htree : Fits32 env.cache_tree_write istate.cache_tree)
    (hundo : Fits32 env.resolve_undo_write istate.resolve_undo) :
    ∃ read, read_index_from env reader
        (some (index_body env istate ++ (env.sha1 (index_body env istate)).toList, mtime)) =
          .ok read ∧
      read.cache = (istate.cache.filter live).map (fun ce => add_name_hash reader (loaded ce)) := by
  have hmap := after_header env istate (env.sha1 (index_body env istate)).toList
  have hmap' := congrArg (List.drop (section_bytes (if istate.version = 4 then some [] else none)
    (istate.cache.filter live)).length) hmap
  rw [List.drop_drop, List.drop_append_of_le_length (le_refl _), List.drop_length,
    List.nil_append] at hmap'
  unfold read_index_from
  rw [hreader]
  simp only [Bool.false_eq_true, if_false]
  rw [read_entry_section_written hver hcount hce]
  simp only [ok_bind]
  obtain ⟨turns, hturns⟩ : ∃ turns,
      (index_body env istate ++ (env.sha1 (index_body env istate)).toList).length = turns + 2 := by
    refine ⟨_ - 2, (Nat.sub_add_cancel ?_).symm⟩
    rw [List.length_append, Vector.length_toList]
    omega
  rw [hturns]
  exact read_extensions_written htree hundo (by omega) (by simp) hmap'

/-! ## The file gets written -/

theorem ce_write_from_total {env : index_env} (htakes : ∀ bs, env.takes bs = true) (turns : Nat)
    (w : index_writer) (data : Bytes) : ∃ w', ce_write_from env turns w data = some w' := by
  induction turns generalizing w data with
  | zero => exact ⟨w, rfl⟩
  | succ turns ih =>
    rw [ce_write_from]
    by_cases hdata : data = []
    · exact ⟨w, by rw [if_pos hdata]⟩
    · simp only [hdata, if_false]
      split_ifs with hfull
      · have hne : w.write_buffer ++ data.take (WRITE_BUFFER_SIZE - w.write_buffer.length) ≠ [] := by
          intro hnil
          rw [hnil] at hfull
          exact absurd hfull (by decide)
        simp only [ce_write_flush, hne, if_false, write_in_full, htakes, if_true]
        exact ih _ _
      · exact ih _ _

theorem ce_write_total {env : index_env} (htakes : ∀ bs, env.takes bs = true) (w : index_writer)
    (data : Bytes) : ∃ w', ce_write env w data = some w' :=
  ce_write_from_total htakes _ w data

theorem write_extension_total {α : Type} {env : index_env} (htakes : ∀ bs, env.takes bs = true)
    (w : index_writer) (ext : BitVec 32) (write : α → Bytes) (payload : Option α) :
    ∃ w', write_extension env w ext write payload = some w' := by
  cases payload with
  | none => exact ⟨w, rfl⟩
  | some p =>
    obtain ⟨w1, h1⟩ := ce_write_total htakes w (htonl ext)
    obtain ⟨w2, h2⟩ := ce_write_total htakes w1 (htonl (unsigned_int (write p).length))
    obtain ⟨w3, h3⟩ := ce_write_total htakes w2 (write p)
    refine ⟨w3, ?_⟩
    simp only [write_extension, write_index_ext_header, h1, h2, h3]

/-- An entry takes no more room on disk than in core. -/
theorem length_entry_lt {ce : cache_entry} (h : Storable ce) {previous_name : Option Bytes}
    (hprev : ∀ name ∈ previous_name, name.length < 2 ^ 31) :
    (entry_bytes ce previous_name).length < 2 ^ 31 := by
  have hsize := h.size
  have hoff : ondisk_offset ce ≤ 64 := by
    unfold ondisk_offset
    split_ifs <;> omega
  unfold cache_entry_size at hsize
  cases previous_name with
  | none =>
    rw [length_entry_none h.named, ondisk_ce_size, h.named.namelen]
    omega
  | some previous_name =>
    have hvar := length_encode_varint
      (previous_name.length - common_length ce.name previous_name)
      (by have := hprev previous_name rfl; omega)
    rw [entry_bytes, List.length_append, length_copied, ondisk_name]
    simp only [List.length_append, List.length_take, List.length_drop, List.length_cons,
      List.length_nil]
    omega

/-- A mode that `create_ce_mode` makes. -/
def KnownMode (ce : cache_entry) : Prop :=
  S_ISREG ce.ce_mode ∨ S_ISLNK ce.ce_mode ∨ S_ISGITLINK ce.ce_mode

theorem ce_match_stat_basic_known {cfg : config} {ce : cache_entry} {f : worktree_file}
    (h : KnownMode ce) : ∃ changed, ce_match_stat_basic cfg ce f = some changed := by
  unfold ce_match_stat_basic
  by_cases hrem : ce.has CE_REMOVE
  · exact ⟨_, if_pos hrem⟩
  · by_cases hreg : S_ISREG ce.ce_mode
    · exact ⟨_, by rw [if_neg hrem, if_pos hreg]⟩
    · by_cases hlnk : S_ISLNK ce.ce_mode
      · exact ⟨_, by rw [if_neg hrem, if_neg hreg, if_pos hlnk]⟩
      · have hgit := (h.resolve_left hreg).resolve_left hlnk
        exact ⟨_, by rw [if_neg hrem, if_neg hreg, if_neg hlnk, if_pos hgit]⟩

theorem smudge_total {cfg : config} {wt : worktree} {ce : cache_entry} (h : KnownMode ce) :
    ∃ ce', ce_smudge_racily_clean_entry cfg wt ce = some ce' := by
  unfold ce_smudge_racily_clean_entry
  cases wt.lstat ce.name with
  | none => exact ⟨ce, rfl⟩
  | some f =>
    obtain ⟨changed, hchanged⟩ := @ce_match_stat_basic_known cfg ce f h
    simp only [hchanged]
    split_ifs
    · exact ⟨_, rfl⟩
    · exact ⟨_, rfl⟩
    · exact ⟨_, rfl⟩

theorem write_entries_total {env : index_env} (htakes : ∀ bs, env.takes bs = true)
    {istate : index_state} {previous_name : Option Bytes} {cache : List cache_entry}
    (w : index_writer) (hce : ∀ ce ∈ cache, Storable ce ∧ KnownMode ce)
    (hprev : ∀ name ∈ previous_name, name.length < 2 ^ 31) :
    ∃ r, write_entries env istate w previous_name cache = some r := by
  induction cache generalizing w previous_name with
  | nil => exact ⟨_, rfl⟩
  | cons ce cache ih =>
    obtain ⟨hst, hmode⟩ := hce ce List.mem_cons_self
    have hrest := fun ce hmem => hce ce (List.mem_cons_of_mem _ hmem)
    rw [write_entries]
    by_cases hrem : ce.has CE_REMOVE
    · obtain ⟨r, hr⟩ := ih w hrest hprev
      exact ⟨(ce :: r.1, r.2), by simp only [hrem, if_true, hr]⟩
    · obtain ⟨ce1, hsm⟩ : ∃ ce1, (if !ce_uptodate ce && is_racy_timestamp istate ce then
          ce_smudge_racily_clean_entry env.cfg env.wt ce else some ce) = some ce1 := by
        split_ifs
        · exact smudge_total hmode
        · exact ⟨ce, rfl⟩
      have hst1 : Storable ce1 := by
        rcases as_written_eq env istate ce with h | h
        · rw [smudged_eq hsm, h]
          exact hst
        · rw [smudged_eq hsm, h]
          exact ⟨hst.named, hst.no_nul, hst.size⟩
      obtain ⟨w1, hw1⟩ := ce_write_total htakes w (entry_bytes ce1 previous_name)
      have hwrite : ce_write_entry env w ce1 previous_name = some w1 := by
        have hlt := length_entry_lt hst1 hprev
        rw [entry_bytes] at hlt hw1
        simp only [ce_write_entry, xcalloc, hlt, if_true, hw1]
      have hnext : ∀ name ∈ next_previous ce1 previous_name, name.length < 2 ^ 31 :=
        next_previous_short hst1
      obtain ⟨r, hr⟩ := ih w1 hrest hnext
      refine ⟨(ce1 :: r.1, r.2), ?_⟩
      simp only [hrem, Bool.false_eq_true, if_false, hsm, hwrite, hr]

theorem ce_flush_total {env : index_env} (htakes : ∀ bs, env.takes bs = true) (w : index_writer) :
    ∃ w', ce_flush env w = some w' := by
  simp only [ce_flush, write_in_full, htakes, if_true]
  split_ifs
  · exact ⟨_, rfl⟩
  · exact ⟨_, rfl⟩

/-- Where the disk takes the file, the index gets written. -/
theorem write_index_total {env : index_env} (htakes : ∀ bs, env.takes bs = true)
    (st : cache_time) {istate : index_state}
    (hce : ∀ ce ∈ istate.cache, Storable ce ∧ KnownMode ce) :
    ∃ r, write_index env (some st) istate = some r := by
  have hgood : ∀ ce ∈ istate.cache.map reduce_extended, Storable ce ∧ KnownMode ce := by
    intro ce hmem
    obtain ⟨ce1, hmem1, rfl⟩ := List.mem_map.mp hmem
    refine ⟨reduce_extended_storable (hce ce1 hmem1).1, ?_⟩
    rw [reduce_extended_eq]
    exact (hce ce1 hmem1).2
  unfold write_index
  simp only [Option.bind_eq_bind, Option.pure_def]
  obtain ⟨w1, h1⟩ := ce_write_total htakes ⟨[], [], []⟩ _
  rw [h1, Option.bind_some]
  obtain ⟨r, hr⟩ := write_entries_total htakes w1 hgood (first_previous_short _)
  rw [hr, Option.bind_some]
  obtain ⟨w3, h3⟩ := write_extension_total htakes r.2 CACHE_EXT_TREE env.cache_tree_write _
  rw [h3, Option.bind_some]
  obtain ⟨w4, h4⟩ := write_extension_total htakes w3 CACHE_EXT_RESOLVE_UNDO
    env.resolve_undo_write _
  rw [h4, Option.bind_some]
  obtain ⟨w5, h5⟩ := ce_flush_total htakes w4
  rw [h5]
  exact ⟨_, rfl⟩

/-! ## Reading back -/

theorem left_in_core_good {ce : cache_entry} (env : index_env) (istate : index_state)
    (h : Storable ce ∧ Reduced ce) :
    Storable (left_in_core env istate ce) ∧ Reduced (left_in_core env istate ce) := by
  have hsame : left_in_core env istate ce = ce ∨
      left_in_core env istate ce = { ce with ce_size := 0 } := by
    unfold left_in_core
    split_ifs
    · exact Or.inl rfl
    · exact as_written_eq env istate ce
  rcases hsame with hs | hs
  · rw [hs]
    exact h
  · rw [hs]
    exact ⟨⟨h.1.named, h.1.no_nul, h.1.size⟩, h.2⟩

theorem on_disk_read (reader : index_state) (cache : List cache_entry) :
    (cache.map (fun ce => add_name_hash reader (loaded ce))).map on_disk = cache.map on_disk := by
  rw [List.map_map]
  apply List.map_congr_left
  intro ce _
  rw [Function.comp_apply, on_disk_add_name_hash, on_disk_loaded]

/-- In core and on disk the live entries are the same afterwards. -/
theorem on_disk_left (env : index_env) (istate : index_state) (cache : List cache_entry) :
    (((cache.map reduce_extended).map (left_in_core env istate)).filter live).map on_disk =
      ((cache.filter live).map (as_written env istate)).map on_disk := by
  induction cache with
  | nil => rfl
  | cons ce cache ih =>
    have hreduce : (reduce_extended ce).has CE_REMOVE = ce.has CE_REMOVE :=
      reduce_extended_has ce (by decide)
    have hlive : live (left_in_core env istate (reduce_extended ce)) = live ce := by
      rw [live_left_in_core, live, hreduce, live]
    simp only [List.map_cons]
    by_cases h : live ce = true
    · have hkeep : left_in_core env istate (reduce_extended ce) =
          as_written env istate (reduce_extended ce) := by
        have hnot : ce.has CE_REMOVE = false := by simpa [live] using h
        rw [left_in_core, hreduce, hnot]
        rfl
      rw [List.filter_cons_of_pos (by rw [hlive, h]), List.filter_cons_of_pos h]
      simp only [List.map_cons]
      rw [ih, hkeep, on_disk_as_written_reduce]
    · rw [List.filter_cons_of_neg (by rw [hlive]; exact h), List.filter_cons_of_neg h]
      exact ih

/-- **An index file reads back as it was written.** The entries that are not
marked CE_REMOVE come back in order, equal in all that is on disk to those in
core, where the sizes of racily clean entries are smudged. -/
theorem an_index_file_reads_back {env : index_env} {st : Option cache_time}
    {istate istate' reader : index_state} {file : Bytes} {mtime : cache_time}
    (hversion : istate.version = 0 ∨ 2 ≤ istate.version ∧ istate.version ≤ 4)
    (hstorable : ∀ ce ∈ istate.cache, Storable ce) (hcount : istate.cache.length < 2 ^ 31)
    (hreader : reader.initialized = false)
    (hwrite : write_index env st istate = some (istate', file)) :
    istate'.cache = (istate.cache.map reduce_extended).map (left_in_core env istate) ∧
    (∃ read src_offset, read_entry_section env reader file = .ok (read, src_offset) ∧
      read.cache.map on_disk =
        ((istate.cache.filter live).map (as_written env istate)).map on_disk ∧
      read.cache.map on_disk = (istate'.cache.filter live).map on_disk) ∧
    (Fits32 env.cache_tree_write istate'.cache_tree →
      Fits32 env.resolve_undo_write istate'.resolve_undo →
      ∃ read, read_index_from env reader (some (file, mtime)) = .ok read ∧
        read.cache.map on_disk =
          ((istate.cache.filter live).map (as_written env istate)).map on_disk) := by
  obtain ⟨hcache, hver, hfile⟩ := write_index_spec hwrite
  have hknown : 2 ≤ istate'.version ∧ istate'.version ≤ 4 := by
    rw [hver]
    exact hdr_version_known _ hversion
  have hcount' : istate'.cache.length < 2 ^ 31 := by
    rw [hcache, List.length_map, List.length_map]
    exact hcount
  have hgood : ∀ ce ∈ istate'.cache, Storable ce ∧ Reduced ce := by
    intro ce hmem
    rw [hcache] at hmem
    obtain ⟨ce1, hmem1, rfl⟩ := List.mem_map.mp hmem
    obtain ⟨ce2, hmem2, rfl⟩ := List.mem_map.mp hmem1
    exact left_in_core_good env istate
      ⟨reduce_extended_storable (hstorable ce2 hmem2), reduce_extended_reduced ce2⟩
  have hleft : (istate'.cache.filter live).map on_disk =
      ((istate.cache.filter live).map (as_written env istate)).map on_disk := by
    rw [hcache]
    exact on_disk_left env istate istate.cache
  have hsection := @read_entry_section_written env istate' reader hknown hcount' hgood
  rw [← hfile] at hsection
  refine ⟨hcache, ⟨_, _, hsection, ?_, ?_⟩, ?_⟩
  · rw [on_disk_read]
    exact hleft
  · exact on_disk_read _ _
  · intro htree hundo
    obtain ⟨read, hread, hentries⟩ :=
      read_index_from_written hknown hcount' hgood hreader htree hundo
    refine ⟨read, ?_, ?_⟩
    · rw [hfile]
      exact hread
    · rw [hentries, on_disk_read]
      exact hleft

/-! ## A racily clean entry -/

/-- An entry with the stat fields of the file and another content, as old as
the index. -/
def racy_entry : cache_entry where
  ce_ctime := ⟨10, 0⟩
  ce_mtime := ⟨10, 0⟩
  ce_dev := 0
  ce_ino := 0
  ce_mode := 0o100644
  ce_uid := 0
  ce_gid := 0
  ce_size := 4
  ce_flags := create_ce_flags 1 0
  sha1 := Vector.replicate 20 1
  name := [102]

def racy_file : worktree_file where
  st := ⟨0o100644, 10, 0, 10, 0, 0, 0, 0, 0, 4⟩
  data := some [1, 2, 3, 4]
  head := none

def racy_env : index_env where
  cfg := ⟨true, true, true, false⟩
  wt := ⟨fun _ => some racy_file, fun _ => Vector.replicate 20 2, fun _ => none⟩
  sha1 := fun _ => Vector.replicate 20 0
  takes := fun _ => true
  cache_tree_write := fun _ => []
  cache_tree_read := fun _ => none
  resolve_undo_write := fun _ => []
  resolve_undo_read := fun _ => none

def racy_index : index_state :=
  { index_state.empty with cache := [racy_entry], timestamp := ⟨10, 0⟩ }

theorem racy_storable : ∀ ce ∈ racy_index.cache, Storable ce := by
  intro ce hce
  rw [List.mem_singleton.mp hce]
  exact ⟨by decide, by decide, by decide⟩

theorem a_racy_index_reads_back : ∃ istate' file,
    write_index racy_env (some ⟨11, 0⟩) racy_index = some (istate', file) ∧
      ∃ read src_offset,
        read_entry_section racy_env index_state.empty file = .ok (read, src_offset) ∧
        read.cache.map on_disk = [on_disk { racy_entry with ce_size := 0 }] := by
  obtain ⟨r, hr⟩ : ∃ r, write_index racy_env (some ⟨11, 0⟩) racy_index = some r :=
    Option.isSome_iff_exists.mp (by decide)
  obtain ⟨_, ⟨read, src_offset, hread, hcache, _⟩, _⟩ :=
    @an_index_file_reads_back racy_env (some ⟨11, 0⟩) racy_index r.1 index_state.empty r.2
      ⟨11, 0⟩ (Or.inl rfl) racy_storable (by decide) rfl hr
  refine ⟨r.1, r.2, hr, read, src_offset, hread, ?_⟩
  rw [hcache]
  decide

/-- The entries that come back from a written file. -/
def read_back (env : index_env) (st : Option cache_time) (istate reader : index_state) :
    Option (List cache_entry) :=
  (write_index env st istate).bind (fun written =>
    (read_entry_section env reader written.2).toOption.map (fun read => read.1.cache))

/-- The stat fields that come back need not be those that the index had. -/
theorem a_racily_clean_entry_loses_its_size :
    Ordered racy_index ∧
      ∃ cache, read_back racy_env (some ⟨11, 0⟩) racy_index index_state.empty = some cache ∧
        cache.map on_disk ≠ (racy_index.cache.filter live).map on_disk := by
  refine ⟨⟨List.pairwise_singleton _ _, by decide⟩, [{ racy_entry with ce_size := 0 }], ?_, ?_⟩
  · decide
  · decide

end git
