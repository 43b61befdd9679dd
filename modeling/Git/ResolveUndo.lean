-- The resolve-undo records in the index file (`resolve-undo.c`): what is written of the
-- conflicts that a merge resolved is what is read back.
import Git.Lib.Digits
import Git.AddIndexEntryErrors
import Git.IndexFile

open bsearch digit_text

namespace git

/-! ## Writing and reading -/

/-- One record: the name, the three modes, and the object names of the stages with a mode. -/
def undo_record (string : Bytes) (ui : resolve_undo_info) : Bytes :=
  string ++ 0 :: ((ui.mode.toList.flatMap fun mode => write 8 mode.toNat ++ [0]) ++
    (ui.mode.toList.zip ui.sha1.toList).flatMap fun (mode, sha1) =>
      if mode = 0 then [] else sha1.toList)

def resolve_undo_write (resolve_undo : List (Bytes × Option resolve_undo_info)) : Bytes :=
  resolve_undo.flatMap fun item =>
    match item.2 with
    | none => []
    | some ui => undo_record item.1 ui

/-- One mode, and the NUL behind it. -/
def read_mode (data : Bytes) (size : Nat) : Option (BitVec 32 × Bytes × Nat) :=
  match strtoul 8 data with
  | none => none
  | some (mode, endptr) =>
    if endptr.head? ≠ some 0 then none
    else
      let len := data.length - endptr.length + 1
      if size ≤ len then none else some (BitVec.ofNat 32 mode, endptr.drop 1, size - len)

/-- The object name of a stage with a mode. Another stage keeps what it has. -/
def read_stage (mode : BitVec 32) (sha1 : Sha1) (data : Bytes) (size : Nat) :
    Option (Sha1 × Bytes × Nat) :=
  if mode = 0 then some (sha1, data, size)
  else if size < 20 then none
  else (sha1_at data).map fun (sha1, data) => (sha1, data, size - 20)

def read_record (ui : resolve_undo_info) (data : Bytes) (size : Nat) :
    Option (resolve_undo_info × Bytes × Nat) := do
  let (mode0, data, size) ← read_mode data size
  let (mode1, data, size) ← read_mode data size
  let (mode2, data, size) ← read_mode data size
  let (sha0, data, size) ← read_stage mode0 ui.sha1[0] data size
  let (sha1, data, size) ← read_stage mode1 ui.sha1[1] data size
  let (sha2, data, size) ← read_stage mode2 ui.sha1[2] data size
  some (⟨#v[mode0, mode1, mode2], #v[sha0, sha1, sha2]⟩, data, size)

/-- A record from `xcalloc`. -/
def no_record : resolve_undo_info :=
  ⟨Vector.replicate 3 0, Vector.replicate 3 (Vector.replicate 20 0)⟩

/-- The loop of `resolve_undo_read`, which takes bytes at each turn. -/
def read_records : Nat → List (Bytes × Option resolve_undo_info) → Bytes → Nat →
    Option (List (Bytes × Option resolve_undo_info))
  | 0, resolve_undo, _, _ => some resolve_undo
  | turns + 1, resolve_undo, data, size =>
    if size = 0 then some resolve_undo
    else
      let string := data.takeWhile (· != 0)
      let len := string.length + 1
      if size ≤ len then none
      else
        let (list, pos) := string_list_insert resolve_undo string
        let ui := (list[pos]?.bind (·.2)).getD no_record
        match read_record ui (data.drop len) (size - len) with
        | none => none
        | some (ui, data, size) => read_records turns (list.set pos (string, some ui)) data size

/-- The memory from `data` on, of which `size` bytes are the extension. Nothing for the
error. -/
def resolve_undo_read (data : Bytes) (size : Nat) :
    Option (List (Bytes × Option resolve_undo_info)) := read_records size [] data size

/-- One turn of the loop over the stages: the entry of stage `i + 1`, if the record has a mode
there. The flag is false for an error. `none` stands for the entry that `make_cache_entry`
refuses, which `add_index_entry` would look into. -/
def unmerge_stage (name : Bytes) (mode : BitVec 32) (sha1 : Sha1) (i : Nat) (istate : index_state) :
    Option (index_state × Bool) :=
  if mode = 0 then some (istate, true)
  else (make_cache_entry mode sha1 name (i + 1)).map fun nce => add_index_entry istate nce OK_TO_ADD

/-- `for (i = 0; i < 3; i++)`. The flag is false when `err` is set. -/
def unmerge_stages (name : Bytes) (ru : resolve_undo_info) (istate : index_state) :
    Option (index_state × Bool) := do
  let (istate, ok0) ← unmerge_stage name ru.mode[0] ru.sha1[0] 0 istate
  let (istate, ok1) ← unmerge_stage name ru.mode[1] ru.sha1[1] 1 istate
  let (istate, ok2) ← unmerge_stage name ru.mode[2] ru.sha1[2] 2 istate
  some (istate, ok0 && ok1 && ok2)

/-! ## Lists in order -/

section
variable {α : Type}

/-- The items are in the order of their strings. -/
def ByName (list : List (Bytes × Option α)) : Prop := Ascends (·.1) list

theorem strcmp_compares (a b : Bytes) : (strcmp a b).Compares a b := memcmp_compares a b

/-- The item is there, or it is made where it belongs. -/
theorem string_list_insert_spec {list : List (Bytes × Option α)} (h : ByName list)
    (string : Bytes) : ∃ pre util post,
      (list = pre ++ (string, util) :: post ∨ list = pre ++ post ∧ util = none) ∧
      string_list_insert list string = (pre ++ (string, util) :: post, pre.length) ∧
      ByName (pre ++ (string, util) :: post) := by
  unfold string_list_insert
  rcases search_spec (k := string) h (fun item _ => strcmp_compares string item.1) with
    ⟨pre, ⟨name, util⟩, post, hlist, hpos, hkey⟩ | ⟨pre, post, hlist, hpos, hpre, hpost⟩
  · obtain rfl : name = string := hkey
    exact ⟨pre, util, post, Or.inl hlist, by rw [hpos, hlist], hlist ▸ h⟩
  · refine ⟨pre, none, post, Or.inr ⟨hlist, rfl⟩, ?_, ?_⟩
    · rw [hpos, hlist]
      simp only [insertIdx_append]
    · exact Ascends.insert (hlist ▸ h) hpre hpost

/-- An item of another string is not touched. -/
theorem ByName.mem_others {pre post : List (Bytes × Option α)} {string : Bytes}
    {util : Option α} (h : ByName (pre ++ (string, util) :: post)) (item : Bytes × Option α) :
    item ∈ pre ++ post ↔ item ∈ pre ++ (string, util) :: post ∧ item.1 ≠ string :=
  Ascends.mem_others h item

/-- An item behind all others is appended. -/
theorem string_list_insert_last {list : List (Bytes × Option α)} {string : Bytes}
    (h : ByName (list ++ [(string, none)])) :
    string_list_insert list string = (list ++ [(string, none)], list.length) := by
  have hlist : ByName list := Ascends.sublist h (List.sublist_append_left _ _)
  have hplace : search (fun item => strcmp string item.1) list = .absent list.length :=
    search_eq_absent hlist (fun item _ => strcmp_compares string item.1) (List.append_nil _).symm
      (fun a ha => (List.pairwise_append.mp h).2.2 a ha _ (List.mem_singleton.mpr rfl)) (by simp)
  rw [string_list_insert, hplace]
  simp only [List.insertIdx_length_self]

end

/-! ## Records -/

/-- The record with the mode and the object name of `ce` at its stage. -/
def with_stage (ui : resolve_undo_info) (ce : cache_entry) : resolve_undo_info where
  mode := ui.mode.setIfInBounds (ce_stage ce - 1) ce.ce_mode
  sha1 := ui.sha1.setIfInBounds (ce_stage ce - 1) ce.sha1

/-- The record of a name changes, or is made. -/
theorem record_lost_spec {resolve_undo : List (Bytes × Option resolve_undo_info)}
    (h : ByName resolve_undo) (ce : cache_entry) : ∃ pre util post,
      (resolve_undo = pre ++ (ce.name, util) :: post ∨
        resolve_undo = pre ++ post ∧ util = none) ∧
      record_lost resolve_undo ce =
        pre ++ (ce.name, some (with_stage (util.getD no_record) ce)) :: post ∧
      ByName (record_lost resolve_undo ce) := by
  obtain ⟨pre, util, post, hfrom, hinsert, hin⟩ := string_list_insert_spec h ce.name
  have hrecord : record_lost resolve_undo ce =
      pre ++ (ce.name, some (with_stage (util.getD no_record) ce)) :: post := by
    unfold record_lost
    simp only [hinsert, List.getElem?_append_right (Nat.le_refl _), Nat.sub_self,
      List.getElem?_cons_zero, Option.bind_some, set_append]
    rfl
  refine ⟨pre, util, post, hfrom, hrecord, ?_⟩
  rw [hrecord]
  exact Ascends.replace hin rfl

/-- Some stage has a mode, and the others have no object name. -/
structure WholeRecord (ui : resolve_undo_info) : Prop where
  some_mode : ∃ i, ∃ h : i < 3, ui.mode[i] ≠ 0
  no_sha1 : ∀ i, ∀ h : i < 3, ui.mode[i] = 0 → ui.sha1[i] = Vector.replicate 20 0

theorem vector3_eq {α : Type} (v : Vector α 3) : v = #v[v[0], v[1], v[2]] := by
  ext i hi
  interval_cases i <;> rfl

theorem recorded_with_stage {ui : resolve_undo_info} {ce : cache_entry}
    (h : ∀ i, ∀ h : i < 3, ui.mode[i] = 0 → ui.sha1[i] = Vector.replicate 20 0)
    (hmode : ce.ce_mode ≠ 0) : WholeRecord (with_stage ui ce) := by
  have hlt := stage_lt ce
  constructor
  · refine ⟨ce_stage ce - 1, by omega, ?_⟩
    simpa [with_stage] using hmode
  · intro i hi hzero
    by_cases hslot : ce_stage ce - 1 = i
    · simp [with_stage, hslot] at hzero
      exact absurd hzero hmode
    · simp only [with_stage, Vector.getElem_setIfInBounds_ne hi hslot] at hzero ⊢
      exact h i hi hzero

/-! ## The round trip -/

/-- `"%o%c"` with a NUL. -/
def mode_text (mode : BitVec 32) : Bytes := write 8 mode.toNat ++ [0]

theorem read_mode_append (mode : BitVec 32) (rest : Bytes) {size : Nat} (h : 0 < size) :
    read_mode (mode_text mode ++ rest) ((mode_text mode).length + size) =
      some (mode, rest, size) := by
  have hread : strtoul 8 (write 8 mode.toNat ++ 0 :: rest) = some (mode.toNat, 0 :: rest) := by
    refine strtoul_write (by decide) (by decide) (by have := mode.isLt; omega) ?_
    rintro _ ⟨⟩
    decide
  have hlen : (write 8 mode.toNat ++ 0 :: rest).length - (0 :: rest).length =
      (write 8 mode.toNat).length := by
    rw [List.length_append, Nat.add_sub_cancel]
  rw [mode_text, List.append_assoc, List.singleton_append, List.length_append, List.length_singleton,
    read_mode, hread]
  simp only [List.head?_cons, ne_eq, not_true_eq_false, if_false, hlen]
  rw [if_neg (by omega), Nat.add_sub_cancel_left]
  simp

/-- The object name of a stage, if it has a mode. -/
def stage_bytes (mode : BitVec 32) (sha1 : Sha1) : Bytes := if mode = 0 then [] else sha1.toList

theorem read_stage_append (mode : BitVec 32) (old : Sha1) {sha1 : Sha1} (rest : Bytes) (size : Nat)
    (h : mode = 0 → sha1 = old) :
    read_stage mode old (stage_bytes mode sha1 ++ rest) ((stage_bytes mode sha1).length + size) =
      some (sha1, rest, size) := by
  unfold read_stage stage_bytes
  by_cases hmode : mode = 0
  · simp [hmode, h hmode]
  · have h20 : sha1.toList.length = 20 := by simp
    simp only [if_neg hmode, h20, sha1_at_append, Option.map_some]
    rw [if_neg (by omega), Nat.add_sub_cancel_left]

/-- The three modes in front of `rest`. -/
def mode_bytes (ui : resolve_undo_info) (rest : Bytes) : Bytes :=
  mode_text ui.mode[0] ++ (mode_text ui.mode[1] ++ (mode_text ui.mode[2] ++ rest))

def stages_bytes (ui : resolve_undo_info) : Bytes :=
  stage_bytes ui.mode[0] ui.sha1[0] ++ (stage_bytes ui.mode[1] ui.sha1[1] ++
    stage_bytes ui.mode[2] ui.sha1[2])

theorem undo_record_eq (string : Bytes) (ui : resolve_undo_info) :
    undo_record string ui = string ++ 0 :: mode_bytes ui (stages_bytes ui) := by
  obtain ⟨mode, sha1⟩ := ui
  unfold undo_record mode_bytes stages_bytes
  rw [vector3_eq mode, vector3_eq sha1]
  simp only [stage_bytes, mode_text, Vector.toList_mk, List.flatMap_cons, List.flatMap_nil,
    List.zip_cons_cons, List.zip_nil_right, List.append_nil, List.append_assoc]
  rfl

theorem length_stages_bytes_pos {ui : resolve_undo_info} (h : WholeRecord ui) :
    0 < (stages_bytes ui).length := by
  obtain ⟨i, hi, hmode⟩ := h.some_mode
  have hpos : 0 < (stage_bytes ui.mode[i] ui.sha1[i]).length := by
    rw [stage_bytes, if_neg hmode]
    simp
  simp only [stages_bytes, List.length_append]
  interval_cases i <;> omega

/-- A record is read, up to what stands behind it. -/
theorem read_record_append {ui : resolve_undo_info} (h : WholeRecord ui) (rest : Bytes) (size : Nat) :
    read_record no_record (mode_bytes ui (stages_bytes ui) ++ rest)
      ((mode_bytes ui (stages_bytes ui)).length + size) = some (ui, rest, size) := by
  have hpos := length_stages_bytes_pos h
  have hsha1 : ∀ i, ∀ hi : i < 3, ui.mode[i] = 0 → ui.sha1[i] = no_record.sha1[i] := by
    intro i hi hmode
    rw [h.no_sha1 i hi hmode]
    simp [no_record]
  have htext : mode_bytes ui (stages_bytes ui) ++ rest = mode_bytes ui (stages_bytes ui ++ rest) := by
    simp [mode_bytes]
  have hlen : (mode_bytes ui (stages_bytes ui)).length + size =
      (mode_text ui.mode[0]).length + ((mode_text ui.mode[1]).length +
        ((mode_text ui.mode[2]).length + ((stages_bytes ui).length + size))) := by
    simp only [mode_bytes, List.length_append]
    omega
  have hstages : stages_bytes ui ++ rest = stage_bytes ui.mode[0] ui.sha1[0] ++
      (stage_bytes ui.mode[1] ui.sha1[1] ++ (stage_bytes ui.mode[2] ui.sha1[2] ++ rest)) := by
    simp [stages_bytes]
  have hlen' : (stages_bytes ui).length + size = (stage_bytes ui.mode[0] ui.sha1[0]).length +
      ((stage_bytes ui.mode[1] ui.sha1[1]).length +
        ((stage_bytes ui.mode[2] ui.sha1[2]).length + size)) := by
    simp only [stages_bytes, List.length_append]
    omega
  rw [read_record, htext, hlen, mode_bytes, read_mode_append _ _ (by omega)]
  simp only [Option.bind_eq_bind, Option.bind_some]
  rw [read_mode_append _ _ (by omega)]
  simp only [Option.bind_some]
  rw [read_mode_append _ _ (by omega)]
  simp only [Option.bind_some]
  rw [hstages, hlen', read_stage_append _ _ _ _ (hsha1 0 (by decide))]
  simp only [Option.bind_some]
  rw [read_stage_append _ _ _ _ (hsha1 1 (by decide))]
  simp only [Option.bind_some]
  rw [read_stage_append _ _ _ _ (hsha1 2 (by decide))]
  simp only [Option.bind_some]
  rw [← vector3_eq, ← vector3_eq]

/-- Records that can be stored: in order, under names of paths. -/
structure UndoRecords (resolve_undo : List (Bytes × Option resolve_undo_info)) : Prop where
  by_name : ByName resolve_undo
  names : ∀ item ∈ resolve_undo, 0 ∉ item.1
  recorded : ∀ item ∈ resolve_undo, ∃ ui, item.2 = some ui ∧ WholeRecord ui

theorem takeWhile_name {name : Bytes} (h : 0 ∉ name) (rest : Bytes) :
    (name ++ 0 :: rest).takeWhile (· != 0) = name := by
  rw [List.takeWhile_append_of_pos, List.takeWhile_cons_of_neg (by decide), List.append_nil]
  intro c hc
  rw [bne_iff_ne]
  rintro rfl
  exact h hc

/-- The records are read one by one, behind those that are read already. -/
theorem read_records_append {resolve_undo : List (Bytes × Option resolve_undo_info)} (behind : Bytes) :
    ∀ turns done, UndoRecords (done ++ resolve_undo) →
      (resolve_undo_write resolve_undo).length ≤ turns →
      read_records turns done (resolve_undo_write resolve_undo ++ behind)
        (resolve_undo_write resolve_undo).length = some (done ++ resolve_undo) := by
  induction resolve_undo with
  | nil =>
    intro turns done _ _
    cases turns <;> simp [read_records, resolve_undo_write]
  | cons item resolve_undo ih =>
    intro turns done h hturns
    obtain ⟨string, util⟩ := item
    obtain ⟨ui, hui, hrecorded⟩ := h.recorded (string, util) (by simp)
    obtain rfl : util = some ui := hui
    have hstring : 0 ∉ string := h.names (string, some ui) (by simp)
    have hpos := length_stages_bytes_pos hrecorded
    have hbytes : 0 < (mode_bytes ui (stages_bytes ui)).length := by
      simp only [mode_bytes, List.length_append]
      omega
    have hwrite : resolve_undo_write ((string, some ui) :: resolve_undo) =
        string ++ 0 :: (mode_bytes ui (stages_bytes ui) ++ resolve_undo_write resolve_undo) := by
      rw [resolve_undo_write, List.flatMap_cons, ← resolve_undo_write]
      simp only [undo_record_eq, List.append_assoc, List.cons_append]
    have hsize : (resolve_undo_write ((string, some ui) :: resolve_undo)).length = string.length + 1 +
        ((mode_bytes ui (stages_bytes ui)).length + (resolve_undo_write resolve_undo).length) := by
      rw [hwrite]
      simp only [List.length_append, List.length_cons]
      omega
    obtain ⟨turns, rfl⟩ : ∃ t, turns = t + 1 := ⟨turns - 1, by omega⟩
    have hsplit : done ++ (string, some ui) :: resolve_undo = (done ++ [(string, some ui)]) ++ resolve_undo := by
      rw [List.append_assoc]
      rfl
    have hplace : ByName (done ++ [(string, (none : Option resolve_undo_info))]) := by
      have hfront : ByName (done ++ [(string, some ui)]) :=
        Ascends.sublist (hsplit ▸ h.by_name) (List.sublist_append_left _ _)
      exact Ascends.replace hfront rfl
    have htext : resolve_undo_write ((string, some ui) :: resolve_undo) ++ behind =
        string ++ 0 :: (mode_bytes ui (stages_bytes ui) ++ (resolve_undo_write resolve_undo ++ behind)) := by
      rw [hwrite]
      simp only [List.append_assoc, List.cons_append]
    have hdrop : (string ++ 0 :: (mode_bytes ui (stages_bytes ui) ++
        (resolve_undo_write resolve_undo ++ behind))).drop (string.length + 1) =
          mode_bytes ui (stages_bytes ui) ++ (resolve_undo_write resolve_undo ++ behind) := by
      rw [← List.drop_drop, List.drop_left, List.drop_one, List.tail_cons]
    have hread := read_record_append hrecorded (resolve_undo_write resolve_undo ++ behind)
      (resolve_undo_write resolve_undo).length
    have hrest := ih turns (done ++ [(string, some ui)]) (hsplit ▸ h) (by omega)
    rw [read_records, if_neg (by omega)]
    simp only [htext, takeWhile_name hstring, hdrop, hsize, Nat.add_sub_cancel_left]
    rw [if_neg (by omega), string_list_insert_last hplace]
    simp only [List.getElem?_append_right (Nat.le_refl _), Nat.sub_self, List.getElem?_cons_zero,
      Option.bind_some, Option.getD_none, hread, set_append, hrest]
    rw [hsplit]

theorem resolve_undo_read_write {resolve_undo : List (Bytes × Option resolve_undo_info)}
    (h : UndoRecords resolve_undo) (behind : Bytes) :
    resolve_undo_read (resolve_undo_write resolve_undo ++ behind)
      (resolve_undo_write resolve_undo).length = some resolve_undo :=
  read_records_append behind _ [] h le_rfl

/-! ## Records that the code makes -/

theorem undo_records_nil : UndoRecords [] := ⟨List.Pairwise.nil, by simp, by simp⟩

theorem UndoRecords.record_lost {resolve_undo : List (Bytes × Option resolve_undo_info)}
    (h : UndoRecords resolve_undo) {ce : cache_entry} (hname : 0 ∉ ce.name) (hmode : ce.ce_mode ≠ 0) :
    UndoRecords (record_lost resolve_undo ce) := by
  obtain ⟨pre, util, post, hfrom, hrecord, hin⟩ := record_lost_spec h.by_name ce
  have hold : ∀ item ∈ pre ++ post, item ∈ resolve_undo := by
    intro item hitem
    rcases hfrom with hfrom | ⟨hfrom, -⟩
    · rw [hfrom]
      simp only [List.mem_append, List.mem_cons] at hitem ⊢
      tauto
    · exact hfrom ▸ hitem
  have hslots : ∀ i, ∀ h : i < 3, (util.getD no_record).mode[i] = 0 →
      (util.getD no_record).sha1[i] = Vector.replicate 20 0 := by
    rcases hfrom with hfrom | ⟨-, rfl⟩
    · obtain ⟨ui, hui, hrecorded⟩ := h.recorded (ce.name, util) (by simp [hfrom])
      obtain rfl : util = some ui := hui
      exact hrecorded.no_sha1
    · intro i hi _
      simp [no_record]
  have hcases : ∀ item ∈ git.record_lost resolve_undo ce, item ∈ resolve_undo ∨
      item = (ce.name, some (with_stage (util.getD no_record) ce)) := by
    intro item hitem
    rw [hrecord, List.mem_append, List.mem_cons] at hitem
    rcases hitem with hitem | rfl | hitem
    · exact Or.inl (hold item (List.mem_append_left _ hitem))
    · exact Or.inr rfl
    · exact Or.inl (hold item (List.mem_append_right _ hitem))
  refine ⟨hin, ?_, ?_⟩
  · intro item hitem
    rcases hcases item hitem with hitem | rfl
    · exact h.names item hitem
    · exact hname
  · intro item hitem
    rcases hcases item hitem with hitem | rfl
    · exact h.recorded item hitem
    · exact ⟨_, rfl, recorded_with_stage hslots hmode⟩

/-- The records after any number of entries were recorded. -/
theorem undo_records_after {istate : index_state} (h : istate.resolve_undo = none) {ces : List cache_entry}
    (hces : ∀ ce ∈ ces, 0 ∉ ce.name ∧ ce.ce_mode ≠ 0) :
    ∀ undo, (ces.foldl record_resolve_undo istate).resolve_undo = some undo → UndoRecords undo := by
  have hrun : ∀ istate : index_state, (∀ undo, istate.resolve_undo = some undo → UndoRecords undo) →
      ∀ undo, (ces.foldl record_resolve_undo istate).resolve_undo = some undo → UndoRecords undo := by
    induction ces with
    | nil => exact fun istate h => h
    | cons ce ces ih =>
      intro istate h
      refine ih (fun e he => hces e (List.mem_cons_of_mem _ he)) (record_resolve_undo istate ce) ?_
      intro undo hundo
      obtain ⟨hname, hmode⟩ := hces ce List.mem_cons_self
      unfold record_resolve_undo at hundo
      split at hundo
      · exact h undo hundo
      · cases hundo
        cases hold : istate.resolve_undo with
        | none => exact undo_records_nil.record_lost hname hmode
        | some old => exact (h old hold).record_lost hname hmode
  exact hrun istate (by rw [h]; simp)

end git
