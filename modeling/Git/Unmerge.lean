-- Undoing the resolution of a conflict (`resolve-undo.c`): the merged entry of a path goes,
-- and the entries of its record come back.
import Git.ResolveUndo

open bsearch

namespace git

/-! ## The code -/

/-- The place of the item in the list. -/
def string_list_lookup {α : Type} (list : List (Bytes × Option α)) (string : Bytes) : Option Nat :=
  match search (fun item => strcmp string item.1) list with
  | .found pos => some pos
  | .absent _ => none

/-- The index, and the last place that was processed. Each call within clears one record, so
`turns` are enough. `none` stands for a place past the array. -/
def unmerge_from : Nat → index_state → Nat → Option (index_state × Nat)
  | 0, _, _ => none
  | turns + 1, istate, pos =>
    match istate.resolve_undo with
    | none => some (istate, pos)
    | some resolve_undo =>
      match istate.cache[pos]? with
      | none => none
      | some ce =>
        if ce_stage ce ≠ 0 then
          -- already unmerged
          some (istate, pos + ((istate.cache.drop pos).takeWhile (·.name == ce.name)).length - 1)
        else
          match string_list_lookup resolve_undo ce.name with
          | none => some (istate, pos)
          | some item =>
            match resolve_undo[item]?.bind (·.2) with
            | none => some (istate, pos)
            | some ru =>
              match unmerge_stages ce.name ru (remove_index_entry_at istate pos).1 with
              | none => none
              | some (istate, false) => some (istate, pos)
              | some (istate, true) =>
                let cleared := istate.resolve_undo.map fun list => list.set item (ce.name, none)
                unmerge_from turns { istate with resolve_undo := cleared } pos

def unmerge_index_entry_at (istate : index_state) (pos : Nat) : Option (index_state × Nat) :=
  unmerge_from ((istate.resolve_undo.getD []).length + 1) istate pos

/-! ## What the addition of a stage meets -/

/-- The key of the path at the stage has no entry yet, and a file is in the way. -/
def Refuses (cache : List cache_entry) (path : Bytes) (stage : Nat) : Prop :=
  ∃ pos, search (fun e => cache_name_compare path (create_ce_flags path.length stage) e.name
      e.ce_flags) cache = .absent pos ∧
    MeetsConflict cache pos (new_entry 0 (Vector.replicate 20 0) path stage)

/-- The array without the path refuses an entry of it at the stage. -/
def Barred (cache : List cache_entry) (path : Bytes) (stage : Nat) : Prop :=
  Refuses (cache.filter fun e => e.name ≠ path) path stage

/-- What a path has at a stage: its mode and its object name. -/
def HasStage (cache : List cache_entry) (path : Bytes) (stage : Nat) (mode : BitVec 32)
    (sha1 : Sha1) : Prop :=
  ∃ e ∈ cache, e.name = path ∧ ce_stage e = stage ∧ e.ce_mode = mode ∧ e.sha1 = sha1

/-- The path has in `s2` what it had in `s`, with canonical modes, and the other entries are
those of `s1`. -/
def Restores (s s1 s2 : index_state) (path : Bytes) : Prop :=
  (∀ stage mode sha1, HasStage s2.cache path stage mode sha1 ↔
      ∃ m, HasStage s.cache path stage m sha1 ∧ create_ce_mode m = mode) ∧
    s2.cache.filter (fun e => e.name ≠ path) = s1.cache.filter fun e => e.name ≠ path

/-- The entries that were removed are restored, or the index is left as it is. -/
def Undoes (s s1 : index_state) (pos : Nat) (path : Bytes) : Prop :=
  match unmerge_index_entry_at s1 pos with
  | none => False
  | some (s2, _) => Restores s s1 s2 path ∨ s2.cache = s1.cache

/-- The record of a path. -/
def listed (undo : Option (List (Bytes × Option resolve_undo_info))) (path : Bytes) :
    Option resolve_undo_info :=
  ((undo.getD []).find? (·.1 == path)).bind (·.2)

/-- Zeroed when there is none. -/
def record_of (undo : Option (List (Bytes × Option resolve_undo_info))) (path : Bytes) :
    resolve_undo_info :=
  (listed undo path).getD no_record

/-- At each stage: the entry that the path has there has a mode, and may come back; and where
the path has none, its earlier record has none either, or it may not come in. -/
def Recoverable (s : index_state) (path : Bytes) : Prop :=
  ∀ i, ∀ hi : i < 3,
    (∀ e ∈ s.cache, e.name = path → ce_stage e = i + 1 →
      e.ce_mode ≠ 0 ∧ ¬ Barred s.cache path (i + 1)) ∧
    ((∀ e ∈ s.cache, e.name = path → ce_stage e ≠ i + 1) →
      (record_of s.resolve_undo path).mode[i] = 0 ∨ Barred s.cache path (i + 1))

end git
