-- When the result of a list of patches is the one of applying them in turn: no path
-- that is deleted for good is written before, and a path is created where none is.
import Git.ApplyPatchList

namespace git.apply

/-! ## Patches in turn -/

/-- What the two places have for a path. -/
abbrev stored_pair := Option blob × Option blob

def stored (s : apply_state) (path : Bytes) : stored_pair :=
  (s.work_tree.lookup path, s.active_cache.lookup path)

/-- A run writes to the work tree unless it is `cached`, and to the index when it checks it. -/
def place (o : apply_opts) (file : Option blob) (before : stored_pair) : stored_pair :=
  (if o.cached then before.1 else file, if o.check_index then file else before.2)

def set_path (paths : path_map) (path : Bytes) : Option blob → path_map
  | some file => paths.insert path file
  | none => paths.erase path

def put (o : apply_opts) (s : apply_state) (path : Bytes) (file : Option blob) : apply_state where
  work_tree := if o.cached then s.work_tree else set_path s.work_tree path file
  active_cache := if o.check_index then set_path s.active_cache path file else s.active_cache

/-- The file that a patch is for. -/
def current (o : apply_opts) (before : stored_pair) : Option blob :=
  if o.check_index then before.2 else before.1

def absent (o : apply_opts) (before : stored_pair) : Bool :=
  (o.cached || before.1.isNone) && (!o.check_index || before.2.isNone)

/-- A creation of a path that is not there. -/
def create_in_turn (o : apply_opts) (s : apply_state) (p : patch) : Option apply_state :=
  if absent o (stored s p.name) then
    (p.apply_fragments []).map fun result => put o s p.name (some (blob_of p.new_mode result))
  else none

/-- One patch, on the result of the patches before it. -/
def apply_in_turn (o : apply_opts) (s : apply_state) (p : patch) : Option apply_state :=
  match p.old_name with
  | none => create_in_turn o s p
  | some _ =>
    match current o (stored s p.name) with
    | none => if p.is_new < 0 then create_in_turn o s p else none
    | some file =>
      (p.apply_fragments file.buf).bind fun result =>
        match p.new_name with
        | none => if result.isEmpty then some (put o s p.name none) else none
        | some _ =>
          let mode := if p.new_mode = 0 then file.mode else p.new_mode
          some (put o s p.name (some (blob_of mode result)))

def apply_all_in_turn (o : apply_opts) : apply_state → List patch → Option apply_state
  | s, [] => some s
  | s, p :: next => (apply_in_turn o s p).bind fun s => apply_all_in_turn o s next

/-! ## The lists in question -/

def patch.deletes (p : patch) : Bool := p.new_name.isNone

/-- A creation, a deletion or a modification, as the headers of a patch give them. -/
def Plain (p : patch) : Prop :=
  (∃ path, p.new_name = some path ∧ p.old_name = none ∧ p.is_new = 1 ∧ p.is_delete = 0) ∨
  (∃ path, p.new_name = none ∧ p.old_name = some path ∧ p.is_new = 0 ∧ p.is_delete = 1) ∨
  (∃ path, p.new_name = some path ∧ p.old_name = some path ∧ p.is_new ≤ 0 ∧ p.is_delete ≤ 0 ∧
    (p.is_delete < 0 → p.old_mode = 0))

/-- The last patch of the list with the property. -/
def last_of (P : patch → Bool) (list : List patch) : Option patch := list.reverse.find? P

def last_on (path : Bytes) (list : List patch) : Option patch :=
  last_of (fun p => p.name = path) list

/-- The last patch of a path is no deletion after a creation or modification of it. -/
def DeletedIsNeverWritten (list : List patch) : Prop :=
  ∀ q ∈ list, ∀ p ∈ last_on q.name list, p.deletes = true → q.deletes = true

/-- The patch comes after `done`: what it creates is not there, or was just deleted. -/
def Fits (o : apply_opts) (s : apply_state) (done : List patch) (p : patch) : Prop :=
  match last_on p.name done with
  | some q => 0 < p.is_new → q.deletes = true
  | none => (0 < p.is_new ∨ p.is_new < 0 ∧ current o (stored s p.name) = none) →
      absent o (stored s p.name) = true

/-- Every patch fits after the ones before it. -/
def CreatedIsAbsent (o : apply_opts) (s : apply_state) : List patch → List patch → Prop
  | _, [] => True
  | done, p :: rest => Fits o s done p ∧ CreatedIsAbsent o s (done ++ [p]) rest

def SameFiles (r s : apply_state) : Prop := ∀ path, stored r path = stored s path

/-! ## Places -/

theorem place_place (o : apply_opts) (a b : Option blob) (x : stored_pair) :
    place o a (place o b x) = place o a x := by
  unfold place
  split_ifs <;> rfl

theorem current_place (o : apply_opts) (a : Option blob) (x : stored_pair) :
    current o (place o a x) = a := by
  unfold current place
  by_cases hindex : o.check_index = true
  · rw [if_pos hindex, if_pos hindex]
  · have hcached : ¬ o.cached = true := fun h => hindex (o.cached_checks h)
    rw [if_neg hindex, if_neg hcached]

theorem absent_place (o : apply_opts) (a : Option blob) (x : stored_pair) :
    absent o (place o a x) = a.isNone := by
  have hchecks := o.cached_checks
  unfold absent place
  cases hcached : o.cached <;> cases hindex : o.check_index <;> simp_all

theorem place_inj {o : apply_opts} {a b : Option blob} {x y : stored_pair}
    (h : place o a x = place o b y) : a = b := by
  rw [← current_place o a x, h, current_place]

theorem lookup_set_path (paths : path_map) (path other : Bytes) (file : Option blob) :
    (set_path paths path file).lookup other = if other = path then file else paths.lookup other := by
  cases file with
  | none =>
    unfold set_path
    split_ifs with h
    · rw [h, AList.lookup_erase]
    · rw [AList.lookup_erase_ne h]
  | some file =>
    unfold set_path
    split_ifs with h
    · rw [h, AList.lookup_insert]
    · rw [AList.lookup_insert_ne h]

theorem stored_put (o : apply_opts) (s : apply_state) (path other : Bytes) (file : Option blob) :
    stored (put o s path file) other =
      if other = path then place o file (stored s other) else stored s other := by
  have hwork : (put o s path file).work_tree.lookup other =
      if o.cached = true then s.work_tree.lookup other
      else if other = path then file else s.work_tree.lookup other := by
    rw [← lookup_set_path, ← apply_ite (AList.lookup other)]
    rfl
  have hindex : (put o s path file).active_cache.lookup other =
      if o.check_index = true then
        if other = path then file else s.active_cache.lookup other
      else s.active_cache.lookup other := by
    rw [← lookup_set_path, ← apply_ite (AList.lookup other)]
    rfl
  unfold stored place
  rw [hwork, hindex]
  split_ifs <;> rfl

theorem blob_of_congr {m n : BitVec 32} {buf : Bytes} (h : create_ce_mode m = create_ce_mode n) :
    blob_of m buf = blob_of n buf := by
  unfold blob_of
  simp only [h]

/-! ## The last patch of a path -/

theorem last_of_append (P : patch → Bool) (list : List patch) (p : patch) :
    last_of P (list ++ [p]) = if P p = true then some p else last_of P list := by
  unfold last_of
  rw [List.reverse_append, List.reverse_singleton, List.singleton_append, List.find?_cons]
  cases P p <;> rfl

theorem last_of_cons (P : patch → Bool) (p : patch) (list : List patch) :
    last_of P (p :: list) = (last_of P list).or (if P p = true then some p else none) := by
  unfold last_of
  rw [List.reverse_cons, List.find?_append, List.find?_singleton]

theorem last_on_append (path : Bytes) (list : List patch) (p : patch) :
    last_on path (list ++ [p]) = if p.name = path then some p else last_on path list := by
  unfold last_on
  rw [last_of_append]
  simp only [decide_eq_true_eq]

theorem last_on_name {path : Bytes} {list : List patch} {p : patch}
    (h : last_on path list = some p) : p.name = path ∧ p ∈ list := by
  constructor
  · simpa using List.find?_some h
  · exact List.mem_reverse.mp (List.mem_of_find?_eq_some h)

theorem last_on_none {path : Bytes} {list : List patch} (h : last_on path list = none) :
    ∀ p ∈ list, p.name ≠ path := by
  intro p hp
  have hfind := List.find?_eq_none.mp h p (List.mem_reverse.mpr hp)
  simpa using hfind

/-! ## Writing the results out -/

/-- A patch as the check leaves it. -/
def Checked (q : patch) : Prop :=
  (∃ path, q.new_name = none ∧ q.old_name = some path ∧ 0 < q.is_delete) ∨
  (∃ path, q.new_name = some path ∧ ¬ 0 < q.is_delete ∧ q.new_mode ≠ 0 ∧
    (0 < q.is_new ∧ q.old_name = none ∨ ¬ 0 < q.is_new ∧ q.old_name = some path))

def written (q : patch) : blob := blob_of q.new_mode q.result

/-- What a checked patch makes of its path. -/
def effect (q : patch) : Option blob := if q.deletes = true then none else some (written q)

def last_write (path : Bytes) (list : List patch) : Option patch :=
  last_of (fun q => q.new_name = some path) list

theorem Checked.new_name {q : patch} (h : Checked q) {path : Bytes}
    (hnew : q.new_name = some path) : q.name = path ∧ q.deletes = false := by
  rcases h with ⟨n, hn, -, -⟩ | ⟨n, hn, -, -, ⟨-, ho⟩ | ⟨-, ho⟩⟩
  · rw [hn] at hnew
    cases hnew
  all_goals
    obtain rfl := Option.some.inj (hn.symm.trans hnew)
    unfold patch.name patch.deletes
    rw [ho, hn]
    exact ⟨rfl, rfl⟩

theorem Checked.deletes {q : patch} (h : Checked q) (hdel : q.deletes = true) :
    q.new_name = none ∧ q.old_name = some q.name := by
  have hnone : q.new_name = none := Option.isNone_iff_eq_none.mp hdel
  rcases h with ⟨n, -, ho, -⟩ | ⟨n, hn, -⟩
  · refine ⟨hnone, ?_⟩
    unfold patch.name
    rw [ho]
    rfl
  · rw [hnone] at hn
    cases hn

theorem Checked.writes {q : patch} (h : Checked q) (hdel : ¬ q.deletes = true) :
    q.new_name = some q.name := by
  obtain ⟨path, hnew⟩ := Option.ne_none_iff_exists'.mp
    (fun hnone => hdel (Option.isNone_iff_eq_none.mpr hnone))
  rw [hnew, (h.new_name hnew).1]

theorem write_out_phase_zero {o : apply_opts} {s : apply_state} {q : patch} (h : Checked q) :
    write_out_one_result o s q 0 = some (remove_file o s q) := by
  unfold write_out_one_result
  rcases h with ⟨n, -, -, hdel⟩ | ⟨n, -, hdel, -, ⟨hnew, ho⟩ | ⟨hnew, -⟩⟩
  · rw [if_pos hdel, if_pos rfl]
  · rw [if_neg hdel, if_pos hnew, if_neg (by decide)]
    unfold remove_file
    rw [ho]
  · rw [if_neg hdel, if_neg hnew, if_pos rfl]

theorem write_out_phase_one {o : apply_opts} {s : apply_state} {q : patch} (h : Checked q) :
    write_out_one_result o s q 1 = create_file o s q := by
  unfold write_out_one_result
  rcases h with ⟨n, hn, -, hdel⟩ | ⟨n, -, hdel, -, ⟨hnew, -⟩ | ⟨hnew, -⟩⟩
  · rw [if_pos hdel, if_neg (by decide)]
    unfold create_file
    rw [hn]
  · rw [if_neg hdel, if_pos hnew, if_pos rfl]
  · rw [if_neg hdel, if_neg hnew, if_neg (by decide), if_pos rfl]

theorem stored_remove_file (o : apply_opts) (s : apply_state) (q : patch) (path : Bytes) :
    stored (remove_file o s q) path =
      if q.old_name = some path then place o none (stored s path) else stored s path := by
  cases ho : q.old_name with
  | none =>
    rw [if_neg (by simp)]
    unfold remove_file
    rw [ho]
  | some n =>
    have hput : remove_file o s q = put o s n none := by
      unfold remove_file
      rw [ho]
      rfl
    rw [hput, stored_put]
    simp only [Option.some.injEq, eq_comm]

theorem create_one_file_eq {o : apply_opts} {s s' : apply_state} {path : Bytes}
    {mode : BitVec 32} {buf : Bytes} (h : create_one_file o s path mode buf = some s') :
    s' = { s with
      work_tree := if o.cached then s.work_tree
        else s.work_tree.insert path (blob_of mode buf) } := by
  unfold create_one_file at h
  split_ifs at h with hcached
  · rw [if_pos hcached]
    exact (Option.some.inj h).symm
  · rw [if_neg hcached]
    obtain ⟨work_tree, hwork, rfl⟩ := Option.map_eq_some_iff.mp h
    unfold try_create_file at hwork
    split_ifs at hwork
    rw [Option.some.inj hwork]

theorem add_index_file_eq {o : apply_opts} {s s' : apply_state} {path : Bytes}
    {mode : BitVec 32} {buf : Bytes} (h : add_index_file o s path mode buf = some s') :
    s' = { s with
      active_cache := if o.check_index then
          s.active_cache.insert path (blob_of mode buf)
        else s.active_cache } := by
  unfold add_index_file at h
  cases hindex : o.check_index with
  | false =>
    rw [hindex] at h
    exact (Option.some.inj h).symm
  | true =>
    rw [hindex, if_neg (by decide)] at h
    split_ifs at h
    exact (Option.some.inj h).symm

theorem create_file_eq {o : apply_opts} {s s' : apply_state} {q : patch} {n : Bytes}
    (hn : q.new_name = some n) (h : create_file o s q = some s') :
    s' = put o s n (some (written q)) := by
  unfold create_file at h
  rw [hn] at h
  obtain ⟨s₁, hwork, hindex⟩ := Option.bind_eq_some_iff.mp h
  rw [add_index_file_eq hindex, create_one_file_eq hwork,
    blob_of_congr (create_ce_mode_default q.new_mode)]
  rfl

theorem stored_create_file {o : apply_opts} {s s' : apply_state} {q : patch}
    (h : create_file o s q = some s') (path : Bytes) :
    stored s' path =
      if q.new_name = some path then place o (some (written q)) (stored s path)
      else stored s path := by
  cases hn : q.new_name with
  | none =>
    unfold create_file at h
    rw [hn] at h
    rw [if_neg (by simp), Option.some.inj h]
  | some n =>
    rw [create_file_eq hn h, stored_put]
    simp only [Option.some.injEq, eq_comm]

theorem removals_stored {o : apply_opts} {list : List patch} :
    ∀ {s s' : apply_state}, (∀ q ∈ list, Checked q) → write_out_phase o 0 s list = some s' →
      ∀ path, stored s' path =
        if ∃ q ∈ list, q.old_name = some path then place o none (stored s path)
        else stored s path := by
  induction list with
  | nil =>
    intro s s' _ h path
    rw [if_neg (by simp), Option.some.inj h]
  | cons q list ih =>
    intro s s' hlist h path
    obtain ⟨hq, hrest⟩ := List.forall_mem_cons.mp hlist
    unfold write_out_phase at h
    rw [write_out_phase_zero hq, Option.bind_some] at h
    rw [ih hrest h path, stored_remove_file]
    have hexists : (∃ l ∈ q :: list, l.old_name = some path) ↔
        q.old_name = some path ∨ ∃ l ∈ list, l.old_name = some path := List.exists_mem_cons_iff ..
    by_cases hhead : q.old_name = some path
    · rw [if_pos hhead, place_place, if_pos (hexists.mpr (Or.inl hhead)), ite_self]
    · rw [if_neg hhead]
      exact if_congr ((or_iff_right hhead).symm.trans hexists.symm) rfl rfl

theorem creations_stored {o : apply_opts} {list : List patch} :
    ∀ {s s' : apply_state}, (∀ q ∈ list, Checked q) → write_out_phase o 1 s list = some s' →
      ∀ path, stored s' path =
        match last_write path list with
        | some q => place o (some (written q)) (stored s path)
        | none => stored s path := by
  induction list with
  | nil =>
    intro s s' _ h path
    rw [Option.some.inj h]
    rfl
  | cons q list ih =>
    intro s s' hlist h path
    obtain ⟨hq, hrest⟩ := List.forall_mem_cons.mp hlist
    unfold write_out_phase at h
    rw [write_out_phase_one hq] at h
    obtain ⟨s₁, hcreate, hphase⟩ := Option.bind_eq_some_iff.mp h
    have hhead := stored_create_file hcreate path
    have hcons : last_write path (q :: list) =
        (last_write path list).or (if q.new_name = some path then some q else none) := by
      unfold last_write
      rw [last_of_cons]
      simp only [decide_eq_true_eq]
    rw [ih hrest hphase path, hcons, hhead]
    cases last_write path list with
    | some w =>
      simp only [Option.some_or]
      split_ifs
      · rw [place_place]
      · rfl
    | none =>
      simp only [Option.none_or]
      split_ifs <;> rfl

/-- All removals come before all creations: the last patch that writes a path decides,
wherever the deletions of it stand. -/
theorem write_out_results_stored {o : apply_opts} {list : List patch} {s s' : apply_state}
    (hlist : ∀ q ∈ list, Checked q) (h : write_out_results o s list = some s') (path : Bytes) :
    stored s' path =
      match last_write path list with
      | some q => place o (some (written q)) (stored s path)
      | none =>
        match last_on path list with
        | some _ => place o none (stored s path)
        | none => stored s path := by
  obtain ⟨s₁, hremove, hcreate⟩ := Option.bind_eq_some_iff.mp h
  rw [creations_stored hlist hcreate path, removals_stored hlist hremove path]
  cases hwrite : last_write path list with
  | some w =>
    simp only
    split_ifs
    · rw [place_place]
    · rfl
  | none =>
    have hnew : ∀ q ∈ list, q.new_name ≠ some path := by
      intro q hq
      have hfind := List.find?_eq_none.mp hwrite q (List.mem_reverse.mpr hq)
      simpa using hfind
    cases hon : last_on path list with
    | some p =>
      -- the path is not written, so its last patch deletes it
      obtain ⟨hname, hmem⟩ := last_on_name hon
      have hp := hlist p hmem
      have hdel : p.deletes = true := by
        by_contra hdel
        exact hnew p hmem (hname ▸ hp.writes hdel)
      exact if_pos ⟨p, hmem, hname ▸ (hp.deletes hdel).2⟩
    | none =>
      apply if_neg
      rintro ⟨q, hq, hold⟩
      apply last_on_none hon q hq
      unfold patch.name
      rw [hold]
      rfl

end git.apply
