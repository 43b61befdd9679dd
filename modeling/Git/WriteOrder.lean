-- Every object is written once, and after its base. The mark 1 is on the
-- objects whose base is being written; a base that is marked closes a cycle,
-- and the object above it is written whole.
import Git.WriteObject

namespace git.pack_objects

variable {n : Nat}

/-! ## What becomes of one object -/

/-- The cause of the death is there. -/
def death.Real (env : environment) : death → Prop
  | .unable_to_read sha1 => env.read_sha1_file sha1 = none
  | .delta_size_changed buf base_buf delta_size =>
    ∀ delta_buf, env.diff_delta base_buf buf = some delta_buf → delta_buf.length ≠ delta_size
  | .pack_too_large offset size => 2 ^ 63 - 1 < offset + size
  | .null_delta => False

/-- The representation is that of the entry: whole, or against its base, with
the distance where the base has a place in this pack. -/
def Represents (s : state n) (entry : object_entry n) (representation : representation n) : Prop :=
  ∀ base, representation.base = some base → entry.delta = some base ∧
    ∀ ofs, representation = .ofs_delta base ofs →
      (s.objects base).offset ≠ 0 ∧ ofs = entry.offset - (s.objects base).offset

/-- The type is whole, or that of a delta against the entry's base. -/
def TypeOf (env : environment) (s : state n) (entry : object_entry n) (type : object_type) : Prop :=
  (∃ kind, type = .whole kind) ∨ ∃ base, entry.delta = some base ∧ type = delta_type env s base

/-- Only the cached delta of the entry was dropped. -/
structure SameObject (entry entry' : object_entry n) : Prop where
  offset : entry'.offset = entry.offset
  delta : entry'.delta = entry.delta
  preferred_base : entry'.preferred_base = entry.preferred_base

/-- A good end of `write_object` without a limit. -/
def Wrote (env : environment) (s : state n) (entry : object_entry n) :
    Except death (written n) → Prop
  | .error d => d.Real env
  | .ok (_, none) => False
  | .ok (entry', some (representation, bytes)) =>
    SameObject entry entry' ∧ bytes ≠ [] ∧ Represents s entry representation

theorem header_ne_nil (type : object_type) (size : Nat) :
    encode_in_pack_object_header type size ≠ [] := by
  unfold encode_in_pack_object_header
  rw [encode_size_from]
  split <;> simp

theorem delta_type_ofs {env : environment} {s : state n} {base : Fin n}
    (h : delta_type env s base = .OBJ_OFS_DELTA) : (s.objects base).offset ≠ 0 := by
  unfold delta_type at h
  split_ifs at h with hofs
  exact hofs.2

theorem put_object_wrote {env : environment} {s : state n} {entry entry' : object_entry n}
    (hsame : SameObject entry entry') {type : object_type} (size : Nat) (data : Bytes)
    (htype : TypeOf env s entry type) :
    Wrote env s entry ((put_object s entry' 0 type size data).map (fun out => (entry', out))) := by
  have hne := header_ne_nil type size
  unfold put_object
  rcases htype with ⟨kind, rfl⟩ | ⟨base, hbase, htype⟩
  · refine ⟨hsame, ?_, ?_⟩
    · simp [hne]
    · intro base hbase
      simp [representation.base] at hbase
  have hofs : type = .OBJ_OFS_DELTA → (s.objects base).offset ≠ 0 :=
    fun h => delta_type_ofs (htype.symm.trans h)
  cases type with
  | whole kind =>
    unfold delta_type at htype
    split_ifs at htype
  | OBJ_OFS_DELTA =>
    simp only [hsame.delta, hbase, hsame.offset]
    refine ⟨hsame, ?_, ?_⟩
    · simp [hne]
    · intro b hb
      obtain rfl : base = b := by simpa [representation.base] using hb
      refine ⟨hbase, ?_⟩
      intro ofs hdist
      refine ⟨hofs rfl, ?_⟩
      simpa using hdist.symm
  | OBJ_REF_DELTA =>
    simp only [hsame.delta, hbase]
    refine ⟨hsame, ?_, ?_⟩
    · simp [hne]
    · intro b hb
      obtain rfl : base = b := by simpa [representation.base] using hb
      refine ⟨hbase, ?_⟩
      intro ofs hdist
      simp at hdist

theorem get_delta_real {env : environment} {s : state n} {entry : object_entry n} {base : Fin n}
    {d : death} (h : get_delta env s entry base = .error d) : d.Real env := by
  unfold get_delta at h
  cases hbuf : env.read_sha1_file entry.sha1 with
  | none =>
    simp only [hbuf, Except.error.injEq] at h
    exact h ▸ hbuf
  | some found =>
    obtain ⟨_, buf⟩ := found
    simp only [hbuf] at h
    cases hbase : env.read_sha1_file (s.objects base).sha1 with
    | none =>
      simp only [hbase, Except.error.injEq] at h
      exact h ▸ hbase
    | some found =>
      obtain ⟨_, base_buf⟩ := found
      simp only [hbase] at h
      cases hdiff : env.diff_delta base_buf buf with
      | none =>
        simp only [hdiff, Except.error.injEq] at h
        rw [← h]
        intro delta_buf hsome
        simp [hdiff] at hsome
      | some delta_buf =>
        simp only [hdiff] at h
        split_ifs at h with hsize
        rw [← (Except.error.inj h)]
        intro delta_buf' hsome
        rw [hdiff] at hsome
        exact Option.some.inj hsome ▸ hsize

theorem put_whole_wrote (env : environment) (s : state n) (entry : object_entry n) :
    Wrote env s entry (put_whole env s entry 0) := by
  unfold put_whole
  cases hbuf : env.read_sha1_file entry.sha1 with
  | none => exact hbuf
  | some found =>
    obtain ⟨kind, buf⟩ := found
    have hsame : SameObject entry { entry with delta_data := none, z_delta_size := 0 } :=
      ⟨rfl, rfl, rfl⟩
    exact put_object_wrote hsame _ _ (Or.inl ⟨kind, rfl⟩)

theorem put_delta_wrote (env : environment) (s : state n) {entry : object_entry n} {base : Fin n}
    (hdelta : entry.delta = some base) : Wrote env s entry (put_delta env s entry base 0) := by
  have htype : TypeOf env s entry (delta_type env s base) := Or.inr ⟨base, hdelta, rfl⟩
  unfold put_delta
  cases entry.delta_data with
  | some buf =>
    have hsame : SameObject entry { entry with delta_data := none } := ⟨rfl, rfl, rfl⟩
    exact put_object_wrote hsame _ _ htype
  | none =>
    cases hget : get_delta env s entry base with
    | error d => exact get_delta_real hget
    | ok buf => exact put_object_wrote ⟨rfl, rfl, rfl⟩ _ _ htype

theorem no_reuse_wrote (env : environment) (s : state n) (entry : object_entry n) (usable : Bool) :
    Wrote env s entry (no_reuse env s entry usable 0) := by
  unfold no_reuse
  split
  · next base hdelta => exact put_delta_wrote env s hdelta
  · exact put_whole_wrote env s entry

/-- Only what the pack has whole is taken over without a base. -/
theorem reused_type_of {env : environment} {s : state n} {entry : object_entry n} {p : packed_copy}
    (h : to_reuse env entry (usable_delta env s entry) = some p) :
    TypeOf env s entry (reused_type env s entry) := by
  unfold reused_type
  cases hdelta : entry.delta with
  | some base => exact Or.inr ⟨base, hdelta, rfl⟩
  | none =>
    have hunusable : usable_delta env s entry = false := by simp [usable_delta, hdelta]
    refine Or.inl ?_
    simp only
    cases htype : entry.type with
    | whole kind => exact ⟨kind, rfl⟩
    | OBJ_OFS_DELTA => cases hpack : entry.in_pack <;> simp [to_reuse, hunusable, htype, hpack] at h
    | OBJ_REF_DELTA => cases hpack : entry.in_pack <;> simp [to_reuse, hunusable, htype, hpack] at h

/-- Without a limit `write_object` writes the entry, whole when it has no base:
a delta in a pack is not taken over then. -/
theorem write_object_wrote {env : environment} (hlimit : env.pack_size_limit = 0) (s : state n)
    (entry : object_entry n) (write_offset : Int) :
    Wrote env s entry (write_object env s entry write_offset) := by
  have h0 : limit env s write_offset = 0 := if_pos (Or.inl hlimit)
  unfold write_object
  simp only [h0]
  cases hreuse : to_reuse env entry (usable_delta env s entry) with
  | none => exact no_reuse_wrote env s entry _
  | some p =>
    simp only
    by_cases hcorrupt : corrupt env entry p = true
    · rw [if_pos hcorrupt]
      exact no_reuse_wrote env s entry _
    · rw [if_neg hcorrupt]
      exact put_object_wrote ⟨rfl, rfl, rfl⟩ _ _ (reused_type_of hreuse)

/-! ## The order -/

/-- The base of a record is before it in the pack, at the distance that the
record tells, or the record names a preferred base. -/
def Based (preferred : Fin n → Bool) (pack : List (packed_object n)) (r : packed_object n) : Prop :=
  ∀ base, r.representation.base = some base →
    (preferred base = true ∧ r.representation = .ref_delta base) ∨
    ∃ b ∈ pack, b.object = base ∧ b.offset < r.offset ∧
      ∀ ofs, r.representation = .ofs_delta base ofs → ofs = r.offset - b.offset

/-- The invariant of the writer. -/
structure Ordered (preferred : Fin n → Bool) (s : state n) : Prop where
  written : s.written_list = s.pack.map (·.object)
  preferred_base : ∀ e, (s.objects e).preferred_base = preferred e
  skipped : ∀ e, preferred e = true → (s.objects e).offset = 0
  behind : 12 ≤ s.offset
  position : ∀ r ∈ s.pack, (s.objects r.object).offset = r.offset ∧ 12 ≤ r.offset ∧
    r.offset < s.offset
  known : ∀ e, (s.objects e).offset ≠ 0 → (s.objects e).offset ≠ 1 → ∃ r ∈ s.pack, r.object = e
  sorted : s.pack.Pairwise (fun a b => a.offset < b.offset)
  based : ∀ r ∈ s.pack, Based preferred s.pack r

/-- A delta against `e` can be written. -/
def Available (preferred : Fin n → Bool) (s : state n) (e : Fin n) : Prop :=
  preferred e = true ∨ ((s.objects e).offset ≠ 0 ∧ (s.objects e).offset ≠ 1)

/-- What was written or marked stays so, and no mark is new. -/
structure Advances (s t : state n) : Prop where
  offset : ∀ x, (s.objects x).offset ≠ 0 → (t.objects x).offset = (s.objects x).offset
  delta : ∀ x, (s.objects x).offset ≠ 0 → (t.objects x).delta = (s.objects x).delta
  marked : ∀ x, (t.objects x).offset = 1 → (s.objects x).offset = 1

theorem Based.mono {preferred : Fin n → Bool} {pack pack' : List (packed_object n)}
    {r : packed_object n} (h : Based preferred pack r) (hsub : ∀ b ∈ pack, b ∈ pack') :
    Based preferred pack' r := by
  intro base hbase
  rcases h base hbase with hpref | ⟨b, hb, hrest⟩
  · exact Or.inl hpref
  · exact Or.inr ⟨b, hsub b hb, hrest⟩

/-- An entry that was not written yet is not in the pack. -/
theorem Ordered.not_in_pack {preferred : Fin n → Bool} {s : state n} (h : Ordered preferred s)
    {e : Fin n} (hout : (s.objects e).offset = 0 ∨ (s.objects e).offset = 1) :
    ∀ r ∈ s.pack, r.object ≠ e := by
  intro r hr hc
  obtain ⟨hoff, hge, _⟩ := h.position r hr
  rw [hc] at hoff
  omega

/-- What the update of one entry leaves of the invariant. -/
theorem Ordered.update_entry {preferred : Fin n → Bool} {s : state n} (h : Ordered preferred s)
    {e : Fin n} (hpref : preferred e = false) {entry : object_entry n}
    (hsame : entry.preferred_base = (s.objects e).preferred_base) (x : Fin n) :
    (Function.update s.objects e entry x).preferred_base = preferred x ∧
    (preferred x = true → (Function.update s.objects e entry x).offset = 0) := by
  by_cases hx : x = e
  · subst hx
    rw [Function.update_self, hsame]
    refine ⟨h.preferred_base x, ?_⟩
    intro hp
    simp [hpref] at hp
  · rw [Function.update_of_ne hx]
    exact ⟨h.preferred_base x, h.skipped x⟩

/-- An entry that is not in the pack may be marked, or lose its delta. -/
theorem Ordered.set_entry {preferred : Fin n → Bool} {s : state n} (h : Ordered preferred s)
    {e : Fin n} (hpref : preferred e = false)
    (hout : (s.objects e).offset = 0 ∨ (s.objects e).offset = 1) {entry : object_entry n}
    (hentry : entry.offset = 1) (hsame : entry.preferred_base = (s.objects e).preferred_base) :
    Ordered preferred (s.set_entry e entry) := by
  have hupdate := h.update_entry hpref hsame
  refine ⟨h.written, fun x => (hupdate x).1, fun x => (hupdate x).2, h.behind, ?_, ?_, h.sorted,
    h.based⟩
  · intro r hr
    simpa [state.set_entry, Function.update_of_ne (h.not_in_pack hout r hr)] using h.position r hr
  · intro x h0 h1
    by_cases hx : x = e
    · subst hx
      simp [state.set_entry, hentry] at h1
    · simp only [state.set_entry, Function.update_of_ne hx] at h0 h1
      exact h.known x h0 h1

/-- A record behind the pack. -/
theorem Ordered.append {preferred : Fin n → Bool} {s : state n} (h : Ordered preferred s)
    {e : Fin n} (hpref : preferred e = false)
    (hout : (s.objects e).offset = 0 ∨ (s.objects e).offset = 1) {entry : object_entry n}
    (hentry : entry.offset = s.offset) (hsame : entry.preferred_base = (s.objects e).preferred_base)
    {r : packed_object n} (hobject : r.object = e) (hoffset : r.offset = s.offset)
    (hbased : Based preferred s.pack r) {size : Nat} (hsize : 0 < size) :
    Ordered preferred
      { objects := Function.update s.objects e entry
        offset := s.offset + size
        written_list := s.written_list ++ [e]
        pack := s.pack ++ [r] } := by
  have hupdate := h.update_entry hpref hsame
  have hbehind := h.behind
  refine ⟨?_, fun x => (hupdate x).1, fun x => (hupdate x).2, ?_, ?_, ?_, ?_, ?_⟩
  · simp [h.written, hobject]
  · show 12 ≤ s.offset + size
    omega
  · intro b hb
    show (Function.update s.objects e entry b.object).offset = b.offset ∧ 12 ≤ b.offset ∧
      b.offset < s.offset + size
    rcases List.mem_append.mp hb with hold | hnew
    · rw [Function.update_of_ne (h.not_in_pack hout b hold)]
      obtain ⟨hoff, hge, hlt⟩ := h.position b hold
      exact ⟨hoff, hge, by omega⟩
    · obtain rfl : b = r := by simpa using hnew
      rw [hobject, Function.update_self]
      omega
  · intro x h0 h1
    by_cases hx : x = e
    · exact ⟨r, by simp, hobject.trans hx.symm⟩
    · simp only [Function.update_of_ne hx] at h0 h1
      obtain ⟨b, hb, hbx⟩ := h.known x h0 h1
      exact ⟨b, by simp [hb], hbx⟩
  · refine List.pairwise_append.mpr ⟨h.sorted, by simp, ?_⟩
    intro b hb r' hr'
    obtain rfl : r' = r := by simpa using hr'
    have := (h.position b hb).2.2
    omega
  · intro b hb
    rcases List.mem_append.mp hb with hold | hnew
    · exact (h.based b hold).mono (by simp +contextual)
    · obtain rfl : b = r := by simpa using hnew
      exact hbased.mono (by simp +contextual)

/-- What is written against an available base is based. -/
theorem Ordered.based_new {preferred : Fin n → Bool} {s : state n} (h : Ordered preferred s)
    {e : Fin n} {entry : object_entry n} (hentry : entry.offset = s.offset)
    (hbase : ∀ base, entry.delta = some base → Available preferred s base ∧ base ≠ e)
    {rep : representation n} {bytes : Bytes}
    (hrep : Represents (s.set_offset e s.offset) entry rep) :
    Based preferred s.pack ⟨e, s.offset, rep, bytes⟩ := by
  intro base hr
  obtain ⟨hdelta, hofs⟩ := hrep base hr
  obtain ⟨hav, hne⟩ := hbase base hdelta
  have hsame : ((s.set_offset e s.offset).objects base).offset = (s.objects base).offset := by
    simp [state.set_offset, state.set_entry, Function.update_of_ne hne]
  rcases hav with hp | ⟨h0, h1⟩
  · refine Or.inl ⟨hp, ?_⟩
    cases hcase : rep with
    | whole kind => simp [hcase, representation.base] at hr
    | ref_delta b =>
      obtain rfl : b = base := by simpa [hcase, representation.base] using hr
      rfl
    | ofs_delta b ofs =>
      obtain rfl : b = base := by simpa [hcase, representation.base] using hr
      exact absurd (h.skipped b hp) (hsame ▸ (hofs ofs hcase).1)
  · obtain ⟨b, hb, hbx⟩ := h.known base h0 h1
    obtain ⟨hoff, _, hlt⟩ := h.position b hb
    refine Or.inr ⟨b, hb, hbx, hlt, ?_⟩
    intro ofs hcase
    rw [(hofs ofs hcase).2, hsame, hentry, ← hoff, hbx]

/-- The end of `write_one` puts the entry behind the pack. -/
theorem write_out_ordered {env : environment} (hlimit : env.pack_size_limit = 0)
    {preferred : Fin n → Bool} {s : state n} (h : Ordered preferred s) {e : Fin n}
    (hpref : preferred e = false) (hout : (s.objects e).offset = 0 ∨ (s.objects e).offset = 1)
    (hbase : ∀ base, (s.objects e).delta = some base → Available preferred s base) :
    (∃ d, write_out env s e = .error d ∧ d.Real env) ∨
    ∃ t, write_out env s e = .ok (.WRITE_ONE_WRITTEN, t) ∧ Ordered preferred t ∧
      12 ≤ (t.objects e).offset ∧ ∀ x, x ≠ e → t.objects x = s.objects x := by
  have hwrote := write_object_wrote hlimit (s.set_offset e s.offset)
    ((s.set_offset e s.offset).objects e) s.offset
  have hoffset : (s.set_offset e s.offset).offset = s.offset := rfl
  unfold write_out
  simp only [hoffset]
  cases hw : write_object env (s.set_offset e s.offset) ((s.set_offset e s.offset).objects e)
      s.offset with
  | error d =>
    rw [hw] at hwrote
    exact Or.inl ⟨d, rfl, hwrote⟩
  | ok out =>
    obtain ⟨entry, out⟩ := out
    rw [hw] at hwrote
    cases out with
    | none => exact absurd hwrote id
    | some out =>
      obtain ⟨representation, bytes⟩ := out
      obtain ⟨hsame, hne, hrep⟩ := hwrote
      obtain ⟨hat, hdelta, hprefb⟩ : ((s.set_offset e s.offset).objects e).offset = s.offset ∧
          ((s.set_offset e s.offset).objects e).delta = (s.objects e).delta ∧
          ((s.set_offset e s.offset).objects e).preferred_base = (s.objects e).preferred_base := by
        simp [state.set_offset, state.set_entry]
      have hpos : 0 < bytes.length := List.length_pos_iff.mpr hne
      have hbehind := h.behind
      simp only
      by_cases hlarge : 2 ^ 63 - 1 < s.offset + bytes.length
      · rw [if_pos hlarge]
        exact Or.inl ⟨_, rfl, hlarge⟩
      · rw [if_neg hlarge]
        have hav : ∀ base, ((s.set_offset e s.offset).objects e).delta = some base →
            Available preferred s base ∧ base ≠ e := by
          intro base hb
          rw [hdelta] at hb
          refine ⟨hbase base hb, ?_⟩
          intro hc
          rcases hbase base hb with hp | ⟨h0, h1⟩
          · simp [hc, hpref] at hp
          · rw [hc] at h0 h1
            omega
        refine Or.inr ⟨_, rfl, ?_, ?_, ?_⟩
        · have hentry := hsame.offset.trans hat
          have hbased : Based preferred s.pack ⟨e, s.offset, representation, bytes⟩ :=
            h.based_new hat hav hrep
          have happend := h.append hpref hout hentry (hsame.preferred_base.trans hprefb) rfl rfl
            hbased hpos
          simpa [state.set_entry, state.set_offset] using happend
        · simp only [state.set_entry, Function.update_self, hsame.offset, hat]
          omega
        · intro x hx
          simp [state.set_entry, state.set_offset, Function.update_of_ne hx]

/-! ## The recursion -/

/-- How many entries are neither written nor marked. -/
def unseen (s : state n) : Nat := (Finset.univ.filter fun x => (s.objects x).offset = 0).card

theorem unseen_le (s : state n) : unseen s ≤ n := by
  have := Finset.card_filter_le Finset.univ fun x => (s.objects x).offset = 0
  simpa [unseen] using this

theorem mark_offset (s : state n) (e x : Fin n) :
    ((s.set_offset e 1).objects x).offset = if x = e then 1 else (s.objects x).offset := by
  by_cases hx : x = e
  · subst hx
    simp [state.set_offset, state.set_entry]
  · simp [state.set_offset, state.set_entry, hx]

theorem unseen_mark_lt {s : state n} {e : Fin n} (h0 : (s.objects e).offset = 0) :
    unseen (s.set_offset e 1) < unseen s := by
  apply Finset.card_lt_card
  refine ⟨?_, ?_⟩
  · intro x hx
    have hx0 := (Finset.mem_filter.mp hx).2
    rw [mark_offset] at hx0
    split_ifs at hx0 with hxe
    · omega
    · exact Finset.mem_filter.mpr ⟨Finset.mem_univ x, hx0⟩
  · intro hsub
    have he := hsub (Finset.mem_filter.mpr ⟨Finset.mem_univ e, h0⟩)
    have he0 := (Finset.mem_filter.mp he).2
    rw [mark_offset, if_pos rfl] at he0
    omega

theorem Advances.refl (s : state n) : Advances s s :=
  ⟨fun _ _ => rfl, fun _ _ => rfl, fun _ h => h⟩

theorem Advances.trans {s t u : state n} (h : Advances s t) (h' : Advances t u) : Advances s u := by
  have hstays : ∀ x, (s.objects x).offset ≠ 0 → (t.objects x).offset ≠ 0 := by
    intro x hx
    rw [h.offset x hx]
    exact hx
  refine ⟨?_, ?_, fun x hx => h.marked x (h'.marked x hx)⟩
  · intro x hx
    exact (h'.offset x (hstays x hx)).trans (h.offset x hx)
  · intro x hx
    exact (h'.delta x (hstays x hx)).trans (h.delta x hx)

/-- From the mark on `e` to its place in the pack. -/
theorem Advances.written {s t u : state n} {e : Fin n} (h0 : (s.objects e).offset = 0)
    (h : Advances (s.set_offset e 1) t) (hplace : 12 ≤ (u.objects e).offset)
    (hother : ∀ x, x ≠ e → u.objects x = t.objects x) : Advances s u := by
  have hmark : ∀ x, x ≠ e → (s.set_offset e 1).objects x = s.objects x := by
    intro x hx
    simp [state.set_offset, state.set_entry, Function.update_of_ne hx]
  refine ⟨?_, ?_, ?_⟩
  · intro x hx
    have hne : x ≠ e := fun hc => hx (hc ▸ h0)
    have := h.offset x
    rw [hmark x hne] at this
    rw [hother x hne, this hx]
  · intro x hx
    have hne : x ≠ e := fun hc => hx (hc ▸ h0)
    have := h.delta x
    rw [hmark x hne] at this
    rw [hother x hne, this hx]
  · intro x hx
    have hne : x ≠ e := by
      intro hc
      rw [hc] at hx
      omega
    have := h.marked x
    rw [hmark x hne] at this
    exact this (hother x hne ▸ hx)

/-- A good end of `write_one`. -/
def WroteOne (env : environment) (preferred : Fin n → Bool) (s : state n) (e : Fin n) :
    Except death (write_one_status × state n) → Prop
  | .error d => d.Real env
  | .ok (status, t) => Ordered preferred t ∧ Advances s t ∧ status ≠ .WRITE_ONE_BREAK ∧
    (status = .WRITE_ONE_RECURSIVE → (s.objects e).offset = 1) ∧
    (status ≠ .WRITE_ONE_RECURSIVE → Available preferred t e)

/-- The entry is written out from `t`, where its mark has led. -/
theorem write_out_wrote_one {env : environment} (hlimit : env.pack_size_limit = 0)
    {preferred : Fin n → Bool} {s t : state n} {e : Fin n} (ht : Ordered preferred t)
    (hpref : preferred e = false) (hout : (t.objects e).offset = 0 ∨ (t.objects e).offset = 1)
    (hbase : ∀ base, (t.objects e).delta = some base → Available preferred t base)
    (hadv : ∀ u : state n, 12 ≤ (u.objects e).offset →
      (∀ x, x ≠ e → u.objects x = t.objects x) → Advances s u) :
    WroteOne env preferred s e (write_out env t e) := by
  rcases write_out_ordered hlimit ht hpref hout hbase with ⟨d, hd, hreal⟩ | ⟨u, hu, hord, hge, hsame⟩
  · rw [hd]
    exact hreal
  · rw [hu]
    refine ⟨hord, hadv u hge hsame, by simp, by simp, ?_⟩
    intro _
    exact Or.inr ⟨by omega, by omega⟩

/-- By induction on the fuel: each call marks an entry that had no mark. -/
theorem write_one_wrote {env : environment} (hlimit : env.pack_size_limit = 0)
    {preferred : Fin n → Bool} (fuel : Nat) {s : state n} {e : Fin n} (h : Ordered preferred s)
    (hfuel : unseen s < fuel) :
    ∃ r, write_one env fuel s e = some r ∧ WroteOne env preferred s e r := by
  induction fuel generalizing s e with
  | zero => omega
  | succ fuel ih =>
    unfold write_one
    simp only
    by_cases h1 : (s.objects e).offset = 1
    · rw [if_pos h1]
      exact ⟨_, rfl, h, Advances.refl s, by simp, fun _ => h1, by simp⟩
    rw [if_neg h1]
    by_cases hskip : (s.objects e).offset ≠ 0 ∨ (s.objects e).preferred_base = true
    · rw [if_pos hskip]
      refine ⟨_, rfl, h, Advances.refl s, by simp, by simp, ?_⟩
      intro _
      rcases hskip with h0 | hp
      · exact Or.inr ⟨h0, h1⟩
      · exact Or.inl (h.preferred_base e ▸ hp)
    rw [if_neg hskip]
    have h0 : (s.objects e).offset = 0 := by
      by_contra hc
      exact hskip (Or.inl hc)
    have hpref : preferred e = false := by
      have hnot : ¬ (s.objects e).preferred_base = true := fun hp => hskip (Or.inr hp)
      simpa [h.preferred_base e] using hnot
    cases hdelta : (s.objects e).delta with
    | none =>
      refine ⟨_, rfl, write_out_wrote_one hlimit h hpref (Or.inl h0) (by simp [hdelta]) ?_⟩
      intro u hge hother
      have hother' : ∀ x, x ≠ e → u.objects x = (s.set_offset e 1).objects x := by
        intro x hx
        simpa [state.set_offset, state.set_entry, Function.update_of_ne hx] using hother x hx
      exact Advances.written h0 (Advances.refl _) hge hother'
    | some base =>
      have hmarked : ((s.set_offset e 1).objects e).offset = 1 := by
        rw [mark_offset, if_pos rfl]
      have hs : Ordered preferred (s.set_offset e 1) := h.set_entry hpref (Or.inl h0) rfl rfl
      have hless := unseen_mark_lt h0
      obtain ⟨r, hr, hwrote⟩ := ih (e := base) hs (by omega)
      simp only [hr]
      cases r with
      | error d => exact ⟨_, rfl, hwrote⟩
      | ok r =>
        obtain ⟨status, t⟩ := r
        obtain ⟨ht, hadv, hbreak, _, hav⟩ := hwrote
        have hat : (t.objects e).offset = 1 := by
          rw [hadv.offset e (by omega), hmarked]
        have hbase : (t.objects e).delta = some base := by
          rw [hadv.delta e (by omega), ← hdelta]
          simp [state.set_offset, state.set_entry]
        have hwritten : status ≠ .WRITE_ONE_RECURSIVE →
            WroteOne env preferred s e (write_out env t e) := by
          intro hstatus
          refine write_out_wrote_one hlimit ht hpref (Or.inr hat) ?_
            (fun u => Advances.written h0 hadv)
          intro b hb
          rw [hbase] at hb
          exact Option.some.inj hb ▸ hav hstatus
        cases status with
        | WRITE_ONE_BREAK => exact absurd rfl hbreak
        | WRITE_ONE_SKIP => exact ⟨_, rfl, hwritten (by simp)⟩
        | WRITE_ONE_WRITTEN => exact ⟨_, rfl, hwritten (by simp)⟩
        | WRITE_ONE_RECURSIVE =>
          refine ⟨_, rfl, ?_⟩
          -- the cycle is cut here: the entry has no base any more
          have hcut : Ordered preferred (t.set_entry e { t.objects e with delta := none }) :=
            ht.set_entry hpref (Or.inr hat) hat rfl
          refine write_out_wrote_one hlimit hcut hpref ?_ ?_ ?_
          · refine Or.inr ?_
            simpa [state.set_entry] using hat
          · intro b hb
            simp [state.set_entry] at hb
          · intro u hge hother
            apply Advances.written h0 hadv hge
            intro x hx
            simpa [state.set_entry, Function.update_of_ne hx] using hother x hx

/-! ## The loop -/

/-- A good end of the loop over `order`. -/
def WroteAll (env : environment) (preferred : Fin n → Bool) (order : List (Fin n)) :
    Except death (List (Fin n) × state n) → Prop
  | .error d => d.Real env
  | .ok (rest, t) => rest = [] ∧ Ordered preferred t ∧ (∀ x, (t.objects x).offset ≠ 1) ∧
    ∀ e ∈ order, Available preferred t e

theorem write_loop_wrote {env : environment} (hlimit : env.pack_size_limit = 0)
    {preferred : Fin n → Bool} {fuel : Nat} (hfuel : n < fuel) (order : List (Fin n)) {s : state n}
    (h : Ordered preferred s) (hnone : ∀ x, (s.objects x).offset ≠ 1) :
    ∃ r, write_loop env fuel order s = some r ∧ WroteAll env preferred order r ∧
      ∀ rest t, r = .ok (rest, t) → Advances s t := by
  induction order generalizing s with
  | nil =>
    refine ⟨_, rfl, ⟨rfl, h, hnone, by simp⟩, ?_⟩
    intro rest t hr
    obtain ⟨-, rfl⟩ : [] = rest ∧ s = t := by simpa using hr
    exact Advances.refl s
  | cons e order ih =>
    have hunseen := unseen_le s
    obtain ⟨r, hr, hwrote⟩ := write_one_wrote (e := e) hlimit fuel h (by omega)
    unfold write_loop
    simp only [hr]
    cases r with
    | error d => exact ⟨_, rfl, hwrote, by simp⟩
    | ok r =>
      obtain ⟨status, t⟩ := r
      obtain ⟨ht, hadv, hbreak, hrec, hav⟩ := hwrote
      have hnone' : ∀ x, (t.objects x).offset ≠ 1 := fun x hx => hnone x (hadv.marked x hx)
      have hstatus : status ≠ .WRITE_ONE_RECURSIVE := fun hs => hnone e (hrec hs)
      obtain ⟨r, hr, hall, hmore⟩ := ih ht hnone'
      have hgo : ∃ r, write_loop env fuel order t = some r ∧
          WroteAll env preferred (e :: order) r ∧ ∀ rest u, r = .ok (rest, u) → Advances s u := by
        refine ⟨r, hr, ?_, ?_⟩
        · cases r with
          | error d => exact hall
          | ok r =>
            obtain ⟨rest, u⟩ := r
            obtain ⟨hrest, hu, hnone'', hin⟩ := hall
            refine ⟨hrest, hu, hnone'', ?_⟩
            intro x hx
            rcases List.mem_cons.mp hx with rfl | hx
            · rcases hav hstatus with hp | ⟨h0, h1⟩
              · exact Or.inl hp
              · have hkept := (hmore rest u rfl).offset x h0
                exact Or.inr ⟨by omega, by omega⟩
            · exact hin x hx
        · intro rest u hru
          exact hadv.trans (hmore rest u hru)
      cases status with
      | WRITE_ONE_BREAK => exact absurd rfl hbreak
      | WRITE_ONE_RECURSIVE => exact absurd rfl hstatus
      | WRITE_ONE_SKIP => exact hgo
      | WRITE_ONE_WRITTEN => exact hgo

theorem start_ordered {objects : Fin n → object_entry n} (hnew : ∀ e, (objects e).offset = 0) :
    Ordered (fun e => (objects e).preferred_base) (start objects) := by
  refine ⟨rfl, fun _ => rfl, fun e _ => hnew e, ?_, ?_, ?_, ?_, ?_⟩
  · simp [start]
  · simp [start]
  · intro e h0
    exact absurd (hnew e) h0
  · simp [start]
  · simp [start]

/-- An entry is once in the pack if it is written, and not otherwise. -/
theorem Ordered.count {preferred : Fin n → Bool} {s : state n} (h : Ordered preferred s) {e : Fin n}
    (hav : Available preferred s e) :
    s.written_list.count e = if preferred e then 0 else 1 := by
  have hnodup : s.written_list.Nodup := by
    rw [h.written]
    refine List.Pairwise.map _ ?_ (List.Pairwise.and_mem.mp h.sorted)
    intro a b hab hc
    obtain ⟨ha, hb, hlt⟩ := hab
    have hoffa := (h.position a ha).1
    have hoffb := (h.position b hb).1
    rw [hc] at hoffa
    omega
  by_cases hp : preferred e = true
  · rw [if_pos hp, List.count_eq_zero, h.written]
    intro hin
    obtain ⟨r, hr, hre⟩ := List.mem_map.mp hin
    obtain ⟨hoff, hge, _⟩ := h.position r hr
    have := h.skipped e hp
    rw [hre] at hoff
    omega
  · rw [if_neg hp]
    obtain hp' | ⟨h0, h1⟩ := hav
    · exact absurd hp' hp
    · obtain ⟨r, hr, hre⟩ := h.known e h0 h1
      apply List.count_eq_one_of_mem hnodup
      rw [h.written]
      exact List.mem_map.mpr ⟨r, hr, hre⟩

-- for the literals
local instance two : NeZero 2 := ⟨by decide⟩

/-- Two empty blobs, each of them a delta against the other one. -/
def two_in_a_cycle (e : Fin 2) : object_entry 2 :=
  { sha1 := Vector.replicate 20 0, offset := 0, size := 0, in_pack := none, delta := some (1 - e)
    delta_data := none, delta_size := 0, z_delta_size := 0, type := .whole .OBJ_BLOB
    preferred_base := false }

def empty_blobs : environment :=
  { pack_to_stdout := true, allow_ofs_delta := true, reuse_object := true, pack_size_limit := 0
    read_sha1_file := fun _ => some (.OBJ_BLOB, []), diff_delta := fun _ _ => some []
    do_compress := fun buf => buf, check_pack_crc := fun _ => false
    check_pack_inflate := fun _ _ => false }

end git.pack_objects
