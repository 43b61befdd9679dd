-- How an entry of a pack is unpacked: whole, or as a delta against a base that comes from the
-- delta base cache, from the pack, or from anywhere else when the pack is corrupt.
import Git.DeltaBaseCache
import Git.Lib.Keeps
import Git.Lib.Runs

open keeps

namespace git.base_cache

/-! ## The objects -/

structure object where
  type : object_type
  size : Nat
  data : Bytes
  deriving DecidableEq

def object.of_data (type : object_type) (data : Bytes) : object := ⟨type, data.length, data⟩

/-- What is in a pack at an offset, as `unpack_object_header`, `get_delta_base` and
`unpack_compressed_entry` read it. -/
inductive pack_entry where
  /-- The crc of the index is another one. -/
  | bad_crc (sha1 : Sha1)
  | unknown_type
  | whole (type : object_type) (data : Option Bytes)
  | delta (base_offset : Option off_t) (delta_data : Option Bytes)

/-- The packs and the other objects. Which pack is tried first depends on the one before. -/
structure object_store where
  entry : packed_git → off_t → pack_entry
  nth_packed_object_sha1 : packed_git → off_t → Option Sha1
  find_pack_entry : Nat → List (packed_git × Sha1) → Sha1 → Option (packed_git × off_t)
  find_cached_object : Sha1 → Option object
  /-- Of a loose file, if there is one, the object that is in it. -/
  loose_object : Sha1 → Option (Option object)
  delta_base_cache_limit : Nat

structure state where
  cache : delta_base_cache
  bad_objects : List (packed_git × Sha1)
  searches : Nat

inductive stop where
  /-- `die("failed to apply delta")`, or a delta that is read past its end. -/
  | died
  /-- Out of turns. -/
  | deep
  deriving DecidableEq

abbrev M (α : Type) := StateT state (Except stop) α

/-! ## Reading them -/

section

variable (w : object_store) (unpack_entry : packed_git → off_t → M (Option object))

def cache_or_unpack_entry (p : packed_git) (base_offset : off_t) (keep_cache : Bool) :
    M (Option object) := do
  let st ← get
  let i := pack_entry_hash p base_offset
  let ent := st.cache.entry i
  match ent.data with
  | none => unpack_entry p base_offset
  | some data =>
    if ent.p ≠ p ∨ ent.base_offset ≠ base_offset then unpack_entry p base_offset
    else if keep_cache then return some ⟨ent.type, ent.size, data.take ent.size⟩
    else
      set { st with cache := take_out st.cache i }
      return some ⟨ent.type, ent.size, data⟩

def mark_bad_packed_object (p : packed_git) (sha1 : Sha1) : M PUnit := do
  let st ← get
  if (p, sha1) ∈ st.bad_objects then return
  set { st with bad_objects := st.bad_objects ++ [(p, sha1)] }

def read_packed_sha1 (read_object : Sha1 → M (Option object)) (sha1 : Sha1) :
    M (Option object) := do
  let st ← get
  set { st with searches := st.searches + 1 }
  match w.find_pack_entry st.searches st.bad_objects sha1 with
  | none => return none
  | some (p, offset) =>
    let data ← cache_or_unpack_entry unpack_entry p offset true
    match data with
    | some o => return some o
    | none =>
      mark_bad_packed_object p sha1
      read_object sha1

/-- Every turn but the first has marked one more object as bad. -/
def read_object : Nat → Sha1 → M (Option object)
  | 0, _ => throw .deep
  | turns + 1, sha1 =>
    match w.find_cached_object sha1 with
    | some co => return some co
    | none => do
      let buf ← read_packed_sha1 w unpack_entry (read_object turns) sha1
      match buf with
      | some o => return some o
      | none =>
        match w.loose_object sha1 with
        | some buf => return buf
        | none => read_packed_sha1 w unpack_entry (read_object turns) sha1

/-- The base: from the cache or the pack, or, in deep shit, from another pack or loose. -/
def delta_base (read_object : Sha1 → M (Option object)) (p : packed_git) (base_offset : off_t) :
    M (Option object) := do
  let base ← cache_or_unpack_entry unpack_entry p base_offset false
  match base with
  | some o => return some o
  | none =>
    match w.nth_packed_object_sha1 p base_offset with
    | none => return none
    | some base_sha1 =>
      mark_bad_packed_object p base_sha1
      read_object base_sha1

def add_base (p : packed_git) (base_offset : off_t) (base : object) : M PUnit := do
  let st ← get
  set { st with
    cache := add_delta_base_cache w.delta_base_cache_limit st.cache p base_offset base.data
      base.size base.type }

def unpack_delta_entry (read_object : Sha1 → M (Option object)) (p : packed_git)
    (base_offset : off_t) (delta_data : Option Bytes) : M (Option object) := do
  let base ← delta_base w unpack_entry read_object p base_offset
  match base, delta_data with
  | none, _ => return none
  | some _, none => return none
  | some base, some delta_data =>
    match delta.patch_delta base.data delta_data with
    | .gives result =>
      add_base w p base_offset base
      return some (object.of_data base.type result)
    | _ => throw .died

end

/-- Of no more levels than `depth`. -/
def unpack_entry (w : object_store) : Nat → packed_git → off_t → M (Option object)
  | 0, _, _ => throw .deep
  | depth + 1, p, obj_offset =>
    match w.entry p obj_offset with
    | .bad_crc sha1 => do
      mark_bad_packed_object p sha1
      return none
    | .unknown_type => return none
    | .whole type data => return data.map (object.of_data type)
    | .delta none _ => return none
    | .delta (some base_offset) delta_data =>
      unpack_delta_entry w (unpack_entry w depth) (read_object w (unpack_entry w depth) depth) p
        base_offset delta_data

/-! ## What an entry stands for -/

/-- The object of an entry whose chain of deltas can be unpacked in its pack. -/
inductive Unpacks (w : object_store) (p : packed_git) : off_t → object → Prop where
  | whole {obj_offset : off_t} {type : object_type} {data : Bytes}
      (h : w.entry p obj_offset = .whole type (some data)) :
      Unpacks w p obj_offset (object.of_data type data)
  | delta {obj_offset base_offset : off_t} {delta_data result : Bytes} {base : object}
      (h : w.entry p obj_offset = .delta (some base_offset) (some delta_data))
      (hbase : Unpacks w p base_offset base)
      (hpatch : delta.patch_delta base.data delta_data = .gives result) :
      Unpacks w p obj_offset (object.of_data base.type result)

theorem Unpacks.size {w : object_store} {p : packed_git} {obj_offset : off_t} {o : object}
    (h : Unpacks w p obj_offset o) : o.size = o.data.length := by
  cases h with
  | whole => rfl
  | delta => rfl

theorem Unpacks.entry {w : object_store} {p : packed_git} {obj_offset : off_t} {o : object}
    (h : Unpacks w p obj_offset o) :
    (∃ type data, w.entry p obj_offset = .whole type (some data) ∧ o = object.of_data type data) ∨
      ∃ base_offset delta_data result base,
        w.entry p obj_offset = .delta (some base_offset) (some delta_data) ∧
        Unpacks w p base_offset base ∧ delta.patch_delta base.data delta_data = .gives result ∧
        o = object.of_data base.type result := by
  cases h with
  | whole h => exact Or.inl ⟨_, _, h, rfl⟩
  | delta h hbase hpatch => exact Or.inr ⟨_, _, _, _, h, hbase, hpatch, rfl⟩

/-- An entry of the cache that is the right one, if there is one. -/
def Right (w : object_store) (e : delta_base_cache_entry) : Prop :=
  ∀ o, Unpacks w e.p e.base_offset o → e.data = some o.data ∧ e.size = o.size ∧ e.type = o.type

/-- The state between two operations. -/
def Good (w : object_store) (st : state) : Prop :=
  ∃ slots, Holds (Right w) st.cache slots 0

/-- It returns the object of the entry, if that can be unpacked. -/
def Sound (w : object_store) (unpack : packed_git → off_t → M (Option object)) : Prop :=
  ∀ p obj_offset, Upholds (Good w) (unpack p obj_offset) fun r =>
    ∀ o, Unpacks w p obj_offset o → r = some o

section

variable {w : object_store} {unpack : packed_git → off_t → M (Option object)}

/-- What is found in the cache. -/
theorem Good.hit {st : state} (h : Good w st) {p : packed_git} {base_offset : off_t}
    {data : Bytes} (hdata : (st.cache.entry (pack_entry_hash p base_offset)).data = some data)
    (hp : (st.cache.entry (pack_entry_hash p base_offset)).p = p)
    (hoffset : (st.cache.entry (pack_entry_hash p base_offset)).base_offset = base_offset) :
    Good w { st with cache := take_out st.cache (pack_entry_hash p base_offset) } ∧
    ∀ o, Unpacks w p base_offset o →
      o = ⟨(st.cache.entry (pack_entry_hash p base_offset)).type,
        (st.cache.entry (pack_entry_hash p base_offset)).size, data⟩ := by
  obtain ⟨slots, hslots⟩ := h
  have hused : pack_entry_hash p base_offset ∈ slots := by
    rw [hslots.used, hdata]
    exact Option.some_ne_none data
  obtain ⟨before, after, rfl⟩ := List.append_of_mem hused
  refine ⟨⟨_, hslots.take_out.1⟩, fun o ho => ?_⟩
  have hright := hslots.right _ hused o
  rw [hp, hoffset, hdata] at hright
  obtain ⟨hd, hsize, htype⟩ := hright ho
  rw [hsize, htype, Option.some.inj hd]

theorem cache_or_unpack_entry_sound (h : Sound w unpack) (p : packed_git) (base_offset : off_t)
    (keep_cache : Bool) :
    Upholds (Good w) (cache_or_unpack_entry unpack p base_offset keep_cache) fun r =>
      ∀ o, Unpacks w p base_offset o → r = some o := by
  unfold cache_or_unpack_entry
  refine Upholds.get.bind fun st hst => ?_
  simp only
  cases hdata : (st.cache.entry (pack_entry_hash p base_offset)).data with
  | none => exact h p base_offset
  | some data =>
    simp only
    split_ifs with hother hkeep
    · exact h p base_offset
    · obtain ⟨hp, hoffset⟩ := not_or.mp hother
      have hhit := (hst.hit hdata (not_not.mp hp) (not_not.mp hoffset)).2
      refine Upholds.pure fun o ho => ?_
      have hsize := ho.size
      rw [hhit o ho] at hsize ⊢
      simp only at hsize
      rw [hsize, List.take_length]
    · obtain ⟨hp, hoffset⟩ := not_or.mp hother
      obtain ⟨hgood, hhit⟩ := hst.hit hdata (not_not.mp hp) (not_not.mp hoffset)
      refine (Upholds.set hgood).bind fun _ _ => Upholds.pure fun o ho => ?_
      rw [hhit o ho]

theorem mark_bad_packed_object_keeps (p : packed_git) (sha1 : Sha1) :
    Upholds (Good w) (mark_bad_packed_object p sha1) fun _ => True := by
  unfold mark_bad_packed_object
  refine Upholds.get.bind fun st hst => ?_
  split_ifs
  · exact Upholds.pure trivial
  · exact Upholds.set hst

theorem read_packed_sha1_keeps (h : Sound w unpack) {read : Sha1 → M (Option object)}
    (hread : ∀ sha1, Upholds (Good w) (read sha1) fun _ => True) (sha1 : Sha1) :
    Upholds (Good w) (read_packed_sha1 w unpack read sha1) fun _ => True := by
  unfold read_packed_sha1
  refine Upholds.get.bind fun st hst => ?_
  have hcounted : Good w { st with searches := st.searches + 1 } := hst
  refine (Upholds.set hcounted).bind fun _ _ => ?_
  cases w.find_pack_entry st.searches st.bad_objects sha1 with
  | none => exact Upholds.pure trivial
  | some e =>
    refine (cache_or_unpack_entry_sound h e.1 e.2 true).bind fun data _ => ?_
    cases data with
    | some o => exact Upholds.pure trivial
    | none => exact (mark_bad_packed_object_keeps e.1 sha1).bind fun _ _ => hread sha1

theorem read_object_keeps (h : Sound w unpack) (turns : Nat) :
    ∀ sha1, Upholds (Good w) (read_object w unpack turns sha1) fun _ => True := by
  induction turns with
  | zero => exact fun _ => Upholds.throw _
  | succ turns ih =>
    intro sha1
    unfold read_object
    cases w.find_cached_object sha1 with
    | some co => exact Upholds.pure trivial
    | none =>
      refine (read_packed_sha1_keeps h ih sha1).bind fun buf _ => ?_
      cases buf with
      | some o => exact Upholds.pure trivial
      | none =>
        cases w.loose_object sha1 with
        | some buf => exact Upholds.pure trivial
        | none => exact read_packed_sha1_keeps h ih sha1

/-- What the pack has comes from the pack. -/
theorem delta_base_sound (h : Sound w unpack) {read : Sha1 → M (Option object)}
    (hread : ∀ sha1, Upholds (Good w) (read sha1) fun _ => True) (p : packed_git)
    (base_offset : off_t) :
    Upholds (Good w) (delta_base w unpack read p base_offset) fun r =>
      ∀ o, Unpacks w p base_offset o → r = some o := by
  unfold delta_base
  refine (cache_or_unpack_entry_sound h p base_offset false).bind fun base hbase => ?_
  cases base with
  | some o => exact Upholds.pure hbase
  | none =>
    have hnot : ∀ r o, Unpacks w p base_offset o → r = some o := fun r o ho =>
      nomatch hbase o ho
    cases w.nth_packed_object_sha1 p base_offset with
    | none => exact Upholds.pure (hnot none)
    | some base_sha1 =>
      refine (mark_bad_packed_object_keeps p base_sha1).bind fun _ _ => ?_
      exact (hread base_sha1).mono fun r _ => hnot r

theorem add_base_keeps {p : packed_git} {base_offset : off_t} {base : object}
    (h : ∀ o, Unpacks w p base_offset o → base = o) :
    Upholds (Good w) (add_base w p base_offset base) fun _ => True := by
  unfold add_base
  refine Upholds.get.bind fun st hst => ?_
  obtain ⟨slots, hslots⟩ := hst
  refine Upholds.set (hslots.add_keeps w.delta_base_cache_limit p base_offset base.data base.size
    base.type fun o ho => ?_)
  rw [h o ho]
  exact ⟨rfl, rfl, rfl⟩

theorem unpack_delta_entry_sound (h : Sound w unpack) {read : Sha1 → M (Option object)}
    (hread : ∀ sha1, Upholds (Good w) (read sha1) fun _ => True) (p : packed_git)
    (base_offset : off_t) (delta_data : Option Bytes) :
    Upholds (Good w) (unpack_delta_entry w unpack read p base_offset delta_data) fun r =>
      ∀ base data result, Unpacks w p base_offset base → delta_data = some data →
        delta.patch_delta base.data data = .gives result →
        r = some (object.of_data base.type result) := by
  unfold unpack_delta_entry
  refine (delta_base_sound h hread p base_offset).bind fun found hfound => ?_
  cases found with
  | none => exact Upholds.pure fun base _ _ hbase => nomatch hfound base hbase
  | some found =>
    cases delta_data with
    | none => exact Upholds.pure fun _ _ _ _ hdata => nomatch hdata
    | some delta_data =>
      simp only
      have hsame : ∀ o, Unpacks w p base_offset o → found = o := fun o ho =>
        Option.some.inj (hfound o ho)
      cases hpatch : delta.patch_delta found.data delta_data with
      | gives result =>
        refine (add_base_keeps hsame).bind fun _ _ => Upholds.pure ?_
        rintro base data result' hbase ⟨⟩ hresult
        rw [hsame base hbase, hresult] at hpatch
        rw [hsame base hbase, delta.patched.gives.inj hpatch]
      | _ => exact Upholds.throw _

end

section

variable (w : object_store) {unpack : packed_git → off_t → M (Option object)}

/-- Every entry whose deltas can be followed comes out right, from any state. -/
theorem unpack_entry_sound (depth : Nat) : Sound w (unpack_entry w depth) := by
  induction depth with
  | zero => exact fun p obj_offset => Upholds.throw _
  | succ depth ih =>
    intro p obj_offset
    unfold unpack_entry
    cases hentry : w.entry p obj_offset with
    | bad_crc sha1 =>
      refine (mark_bad_packed_object_keeps p sha1).bind fun _ _ => Upholds.pure ?_
      intro o ho
      rcases ho.entry with ⟨_, _, h, -⟩ | ⟨_, _, _, _, h, -⟩ <;> rw [hentry] at h <;> cases h
    | unknown_type =>
      refine Upholds.pure ?_
      intro o ho
      rcases ho.entry with ⟨_, _, h, -⟩ | ⟨_, _, _, _, h, -⟩ <;> rw [hentry] at h <;> cases h
    | whole type data =>
      refine Upholds.pure ?_
      intro o ho
      rcases ho.entry with ⟨_, _, h, rfl⟩ | ⟨_, _, _, _, h, -⟩
      · obtain ⟨rfl, rfl⟩ := pack_entry.whole.inj (hentry.symm.trans h)
        rfl
      · rw [hentry] at h
        cases h
    | delta base_offset delta_data =>
      cases base_offset with
      | none =>
        refine Upholds.pure ?_
        intro o ho
        rcases ho.entry with ⟨_, _, h, -⟩ | ⟨_, _, _, _, h, -⟩ <;> rw [hentry] at h <;> cases h
      | some base_offset =>
        refine (unpack_delta_entry_sound ih (read_object_keeps ih depth) p base_offset
          delta_data).mono ?_
        intro r hr o ho
        rcases ho.entry with ⟨_, _, h, -⟩ | ⟨_, data, result, base, h, hbase, hpatch, rfl⟩
        · rw [hentry] at h
          cases h
        · obtain ⟨hoffset, hdata⟩ := pack_entry.delta.inj (hentry.symm.trans h)
          cases hoffset
          exact hr base data result hbase hdata hpatch

variable {w}

theorem cache_or_unpack_entry_returns {p : packed_git} {base_offset : off_t}
    (h : Returns (Good w) (unpack p base_offset)) (keep_cache : Bool) :
    Returns (Good w) (cache_or_unpack_entry unpack p base_offset keep_cache) := by
  unfold cache_or_unpack_entry
  refine Returns.get.bind Upholds.get fun st hst => ?_
  simp only
  cases (st.cache.entry (pack_entry_hash p base_offset)).data with
  | none => exact h
  | some data =>
    simp only
    split_ifs
    · exact h
    · exact Returns.pure _
    · intro s hs
      exact ⟨_, _, rfl⟩

theorem unpack_delta_entry_returns (h : Sound w unpack) {p : packed_git} {base_offset : off_t}
    {base : object} {delta_data result : Bytes} (hbase : Unpacks w p base_offset base)
    (hpatch : delta.patch_delta base.data delta_data = .gives result)
    (hreturns : Returns (Good w) (unpack p base_offset)) (read : Sha1 → M (Option object)) :
    Returns (Good w) (unpack_delta_entry w unpack read p base_offset (some delta_data)) := by
  intro st hst
  obtain ⟨st', hrun⟩ := (cache_or_unpack_entry_returns hreturns false).value
    (cache_or_unpack_entry_sound h p base_offset false) (fun r hr => hr base hbase) hst
  have hdelta_base : delta_base w unpack read p base_offset st = .ok (some base, st') := by
    unfold delta_base
    rw [bind_of_ok hrun]
    rfl
  unfold unpack_delta_entry
  rw [bind_of_ok hdelta_base]
  simp only [hpatch]
  exact ⟨_, _, rfl⟩

/-- And it does come out, where there are enough levels. -/
theorem unpack_entry_returns {p : packed_git} {obj_offset : off_t} {o : object}
    (h : Unpacks w p obj_offset o) :
    ∃ levels, ∀ depth, levels ≤ depth → Returns (Good w) (unpack_entry w depth p obj_offset) := by
  induction h with
  | whole h =>
    refine ⟨1, fun depth hdepth => ?_⟩
    obtain ⟨depth, rfl⟩ := Nat.exists_eq_add_of_le' hdepth
    unfold unpack_entry
    rw [h]
    exact Returns.pure _
  | delta h hbase hpatch ih =>
    obtain ⟨levels, ih⟩ := ih
    refine ⟨levels + 1, fun depth hdepth => ?_⟩
    obtain ⟨more, rfl⟩ := Nat.exists_eq_add_of_le hdepth
    rw [Nat.add_right_comm]
    unfold unpack_entry
    rw [h]
    exact unpack_delta_entry_returns (unpack_entry_sound w _) hbase hpatch
      (ih _ (Nat.le_add_right levels more)) _

end

end git.base_cache
