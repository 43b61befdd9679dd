-- What the deletion of a reference does to the other names.
import Git.Refs

namespace git.refs

/-! ## Looking a name up -/

theorem names_conflict_below (dir path : Bytes) (h : is_below dir path = true) :
    names_conflict dir path = true ∧ names_conflict path dir = true := by
  unfold is_below at h
  induction dir generalizing path with
  | nil =>
    cases path with
    | nil => cases h
    | cons d path =>
      have hd : SLASH = d := by simpa [List.isPrefixOf] using h
      simp [names_conflict, ← hd]
  | cons c dir ih =>
    cases path with
    | nil => cases h
    | cons d path =>
      have hboth : c = d ∧ (dir ++ [SLASH]).isPrefixOf path = true := by
        simpa [List.isPrefixOf] using h
      obtain ⟨rfl, hrest⟩ := hboth
      rw [names_conflict, names_conflict, if_pos rfl, if_pos rfl]
      exact ih path hrest

def loose_ref (refs : ref_store) (refname : Bytes) : Option ref_file :=
  (refs.loose.find? (·.1 == refname)).map (·.2)

/-- What a name says itself. -/
def lookup (refs : ref_store) (refname : Bytes) : Option ref_file :=
  (loose_ref refs refname).or ((find_ref refs refname).map .object)

/-- A packed reference is not a directory of a file, nor below a file. -/
theorem find_ref_of_conflict {refs : ref_store} {refname : Bytes} {file : Bytes × ref_file}
    (hfile : file ∈ refs.loose) (h : names_conflict file.1 refname = true) :
    find_ref refs refname = none := by
  unfold find_ref
  rw [Option.map_eq_none_iff, List.find?_eq_none]
  intro entry hentry hname
  have hapart := refs.apart file hfile entry hentry
  rw [beq_iff_eq.mp hname, h] at hapart
  cases hapart

/-- The three ways in which a file is not there. -/
theorem lstat_cases (refs : ref_store) (path : Bytes) :
    (∃ f, refs.lstat path = .file f ∧ loose_ref refs path = some f) ∨
    refs.lstat path = .ENOENT ∧ loose_ref refs path = none ∨
    (refs.lstat path = .directory ∨ refs.lstat path = .ENOTDIR) ∧ loose_ref refs path = none ∧
      find_ref refs path = none := by
  unfold ref_store.lstat loose_ref
  cases refs.loose.find? (·.1 == path) with
  | some file => exact Or.inl ⟨file.2, rfl, rfl⟩
  | none =>
    simp only [Option.map_none]
    split_ifs with hdir hnot
    · obtain ⟨file, hfile, hbelow⟩ := List.any_eq_true.mp hdir
      have hnone := find_ref_of_conflict hfile (names_conflict_below path file.1 hbelow).2
      exact Or.inr (Or.inr ⟨Or.inl rfl, trivial, hnone⟩)
    · obtain ⟨file, hfile, hbelow⟩ := List.any_eq_true.mp hnot
      have hnone := find_ref_of_conflict hfile (names_conflict_below file.1 path hbelow).1
      exact Or.inr (Or.inr ⟨Or.inr rfl, trivial, hnone⟩)
    · exact Or.inr (Or.inl ⟨rfl, trivial⟩)

/-! ## Following symbolic references -/

/-- The name at the end, and its object. -/
def follow (refs : ref_store) : Nat → Bytes → Option (Bytes × Sha1)
  | 0, _ => none
  | depth + 1, refname =>
    match lookup refs refname with
    | some (.symref target) =>
      if check_refname_format target true then follow refs depth target else none
    | some (.object sha1) => some (refname, sha1)
    | _ => none

/-- The first name on the way that is no symbolic reference. -/
def chain_end (refs : ref_store) : Nat → Bytes → Bytes
  | 0, refname => refname
  | depth + 1, refname =>
    match lookup refs refname with
    | some (.symref target) => chain_end refs depth target
    | _ => refname

/-- The names on the way. -/
def passed (refs : ref_store) : Nat → Bytes → List Bytes
  | 0, _ => []
  | depth + 1, refname =>
    refname :: match lookup refs refname with
      | some (.symref target) => passed refs depth target
      | _ => []

theorem resolve_loop_reading (refs : ref_store) (depth : Nat) :
    ∀ (refname : Bytes) (flag : ref_flag),
      (resolve_loop refs true depth refname flag).1 = follow refs depth refname := by
  induction depth with
  | zero => exact fun _ _ => rfl
  | succ depth ih =>
    intro refname flag
    unfold resolve_loop follow lookup
    rcases lstat_cases refs refname with ⟨f, hstat, hloose⟩ | ⟨hstat, hloose⟩ |
      ⟨hstat, hloose, hfind⟩
    · rw [hstat, hloose]
      cases f with
      | symref target =>
        simp only [Option.some_or]
        split_ifs
        · exact ih target _
        · rfl
      | object sha1 => rfl
      | broken => rfl
    · rw [hstat, hloose]
      cases find_ref refs refname with
      | some sha1 => rfl
      | none => rfl
    · rw [hloose, hfind]
      rcases hstat with hstat | hstat
      · rw [hstat]
        rfl
      · rw [hstat]
        rfl

theorem read_ref_eq (refs : ref_store) (refname : Bytes) :
    read_ref refs refname =
      if check_refname_format refname true then (follow refs MAXDEPTH refname).map (·.2)
      else none := by
  unfold read_ref resolve_ref_unsafe
  split_ifs
  · rw [resolve_loop_reading]
  · rfl

/-- Only the name `gone` is not in the store any more. -/
structure Without (refs refs' : ref_store) (gone : Bytes) : Prop where
  missing : lookup refs' gone = none
  others : ∀ refname, refname ≠ gone → lookup refs' refname = lookup refs refname

theorem follow_without {refs refs' : ref_store} {gone : Bytes} (h : Without refs refs' gone)
    (depth : Nat) : ∀ refname, gone ∉ passed refs depth refname →
      follow refs' depth refname = follow refs depth refname := by
  induction depth with
  | zero => exact fun _ _ => rfl
  | succ depth ih =>
    intro refname hpassed
    unfold passed at hpassed
    obtain ⟨hne, hrest⟩ := List.ne_and_not_mem_of_not_mem_cons hpassed
    unfold follow
    rw [h.others refname hne.symm]
    split
    · rename_i target hlookup
      rw [hlookup] at hrest
      split_ifs
      · exact ih target hrest
      · rfl
    · rfl
    · rfl

theorem read_ref_gone {refs refs' : ref_store} {gone : Bytes} (h : Without refs refs' gone) :
    read_ref refs' gone = none := by
  rw [read_ref_eq]
  split_ifs
  · unfold MAXDEPTH follow
    rw [h.missing]
    rfl
  · rfl

/-! ## The name that is locked -/

theorem lookup_loose {refs : ref_store} {refname : Bytes} {f : ref_file}
    (h : loose_ref refs refname = some f) : lookup refs refname = some f := by
  unfold lookup
  rw [h]
  rfl

theorem chain_end_here {refs : ref_store} {refname : Bytes} (depth : Nat)
    (h : ∀ target, loose_ref refs refname ≠ some (.symref target)) :
    chain_end refs depth refname = refname := by
  cases depth with
  | zero => rfl
  | succ depth =>
    unfold chain_end lookup
    cases hloose : loose_ref refs refname with
    | none =>
      simp only [Option.none_or]
      cases find_ref refs refname with
      | none => rfl
      | some sha1 => rfl
    | some f =>
      simp only [Option.some_or]
      cases f with
      | symref target => exact absurd hloose (h target)
      | object sha1 => rfl
      | broken => rfl

/-- What the flags say of the name that a loop from `refname` stops at. -/
structure Stopped (refs : ref_store) (depth : Nat) (refname ref_name : Bytes)
    (flag flag' : ref_flag) : Prop where
  name : ref_name = chain_end refs depth refname
  file : ∀ target, loose_ref refs ref_name ≠ some (.symref target)
  symref : flag'.REF_ISSYMREF = true ↔ flag.REF_ISSYMREF = true ∨
    ∃ target, loose_ref refs refname = some (.symref target)
  packed : flag.REF_ISPACKED = false → flag'.REF_ISPACKED = true → loose_ref refs ref_name = none

theorem Stopped.here {refs : ref_store} {refname : Bytes} (depth : Nat) {flag flag' : ref_flag}
    (h : ∀ target, loose_ref refs refname ≠ some (.symref target))
    (hsym : flag'.REF_ISSYMREF = flag.REF_ISSYMREF)
    (hpacked : flag'.REF_ISPACKED = true → flag.REF_ISPACKED = true ∨
      loose_ref refs refname = none) :
    Stopped refs depth refname refname flag flag' := by
  refine ⟨(chain_end_here depth h).symm, h, ?_, fun hno hyes => ?_⟩
  · rw [hsym]
    exact ⟨Or.inl, fun hor => hor.resolve_right fun ⟨target, htarget⟩ => h target htarget⟩
  · refine (hpacked hyes).resolve_left fun hbefore => ?_
    rw [hno] at hbefore
    cases hbefore

theorem resolve_loop_stopped (refs : ref_store) (reading : Bool) (depth : Nat) :
    ∀ (refname : Bytes) (flag flag' : ref_flag) (ref_name : Bytes) (sha1 : Sha1),
      resolve_loop refs reading depth refname flag = (some (ref_name, sha1), flag') →
      Stopped refs depth refname ref_name flag flag' := by
  induction depth with
  | zero =>
    intro refname flag flag' ref_name sha1 h
    cases h
  | succ depth ih =>
    intro refname flag flag' ref_name sha1 h
    unfold resolve_loop at h
    rcases lstat_cases refs refname with ⟨f, hstat, hloose⟩ | ⟨hstat, hloose⟩ |
      ⟨hstat | hstat, hloose, hfind⟩
    · rw [hstat] at h
      cases f with
      | symref target =>
        simp only at h
        split_ifs at h with hformat
        · obtain ⟨hname, hfile, hsym, hpacked⟩ := ih target _ flag' ref_name sha1 h
          refine ⟨?_, hfile, ?_, hpacked⟩
          · rw [chain_end, lookup_loose hloose]
            exact hname
          · exact ⟨fun _ => Or.inr ⟨target, hloose⟩, fun _ => hsym.mpr (Or.inl rfl)⟩
        · cases h
      | object sha1' =>
        simp only [Prod.mk.injEq, Option.some.injEq] at h
        obtain ⟨⟨rfl, rfl⟩, rfl⟩ := h
        exact Stopped.here _ (by rw [hloose]; nofun) rfl Or.inl
      | broken => cases h
    · rw [hstat] at h
      have hfile : ∀ target, loose_ref refs refname ≠ some (.symref target) := by
        rw [hloose]
        nofun
      cases hfind : find_ref refs refname with
      | some sha1' =>
        rw [hfind] at h
        simp only [Prod.mk.injEq, Option.some.injEq] at h
        obtain ⟨⟨rfl, rfl⟩, rfl⟩ := h
        exact Stopped.here _ hfile rfl fun _ => Or.inr hloose
      | none =>
        rw [hfind] at h
        simp only at h
        split_ifs at h with hreading
        · cases h
        simp only [Prod.mk.injEq, Option.some.injEq] at h
        obtain ⟨⟨rfl, rfl⟩, rfl⟩ := h
        exact Stopped.here _ hfile rfl Or.inl
    · rw [hstat] at h
      cases h
    · rw [hstat] at h
      cases h

/-- The name that is locked is the end of the chain. -/
theorem lock_ref_stopped {refs : ref_store} {refname ref_name : Bytes} {old_sha1 : Option Sha1}
    {type : ref_flag} (h : lock_ref_sha1_basic refs refname old_sha1 = (some ref_name, type)) :
    Stopped refs MAXDEPTH refname ref_name ⟨false, false, false⟩ type := by
  unfold lock_ref_sha1_basic at h
  simp only at h
  split at h
  · cases h
  · rename_i name sha1 type' hresolve
    have hstopped : Stopped refs MAXDEPTH refname name ⟨false, false, false⟩ type' := by
      unfold resolve_ref_unsafe at hresolve
      split_ifs at hresolve
      · exact resolve_loop_stopped refs _ MAXDEPTH refname _ _ _ _ hresolve
      · cases hresolve
    split_ifs at h
    · cases h
    cases old_sha1 with
    | none =>
      simp only [Prod.mk.injEq, Option.some.injEq] at h
      obtain ⟨rfl, rfl⟩ := h
      exact hstopped
    | some old =>
      simp only [Prod.mk.injEq] at h
      obtain ⟨hverify, rfl⟩ := h
      unfold verify_lock at hverify
      split at hverify
      · cases hverify
      · split_ifs at hverify
        obtain rfl := Option.some.inj hverify
        exact hstopped

/-! ## The two stores -/

theorem find_dropped {α : Type} (l : List α) (key : α → Bytes) (name : Bytes) :
    (l.filter (key · != name)).find? (key · == name) = none := by
  rw [List.find?_eq_none]
  intro x hx heq
  have hkept := (List.mem_filter.mp hx).2
  rw [bne, heq] at hkept
  cases hkept

theorem find_kept {α : Type} (l : List α) (key : α → Bytes) {name gone : Bytes}
    (h : name ≠ gone) :
    (l.filter (key · != gone)).find? (key · == name) = l.find? (key · == name) := by
  rw [List.find?_filter]
  congr 1
  funext x
  by_cases heq : key x = name
  · simp [heq, h]
  · simp [heq]

theorem unlink_ref_ok {w : surroundings} {refs : ref_store} {path : Bytes}
    (h : (unlink_ref w refs path).1 = 0) :
    loose_ref (unlink_ref w refs path).2 path = none ∧
      (∀ refname, refname ≠ path →
        loose_ref (unlink_ref w refs path).2 refname = loose_ref refs refname) ∧
      (unlink_ref w refs path).2.packed = refs.packed := by
  unfold unlink_ref at h ⊢
  rcases lstat_cases refs path with ⟨f, hstat, -⟩ | ⟨hstat, hloose⟩ | ⟨hstat | hstat, -, -⟩
  · rw [hstat] at h ⊢
    simp only at h ⊢
    split_ifs at h ⊢ with hfails
    · cases h
    refine ⟨?_, fun refname hne => ?_, rfl⟩
    · unfold loose_ref
      rw [find_dropped]
      rfl
    · unfold loose_ref
      rw [find_kept _ _ hne]
  · rw [hstat]
    exact ⟨hloose, fun _ _ => rfl, rfl⟩
  · rw [hstat] at h
    cases h
  · rw [hstat] at h
    cases h

theorem repack_without_ref_ok {w : surroundings} {refs : ref_store} {refname : Bytes}
    (h : (repack_without_ref w refs refname).1 = 0)
    (hobjects : ∀ entry ∈ refs.packed, entry.refname ≠ refname →
      w.has_sha1_file entry.sha1 = true) :
    find_ref (repack_without_ref w refs refname).2 refname = none ∧
      (∀ name, name ≠ refname →
        find_ref (repack_without_ref w refs refname).2 name = find_ref refs name) ∧
      (repack_without_ref w refs refname).2.loose = refs.loose := by
  unfold repack_without_ref at h ⊢
  split_ifs at h ⊢ with hnone hlock hcommit
  · exact ⟨hnone, fun _ _ => rfl, rfl⟩
  · cases h
  · cases h
  · have hsame : refs.packed.filter (fun entry =>
        w.has_sha1_file entry.sha1 && entry.refname != refname) =
        refs.packed.filter (·.refname != refname) := by
      apply List.filter_congr
      intro entry hentry
      by_cases heq : entry.refname = refname
      · rw [bne, beq_iff_eq.mpr heq, Bool.not_true, Bool.and_false]
      · rw [hobjects entry hentry heq, Bool.true_and]
    refine ⟨?_, fun name hne => ?_, rfl⟩
    · unfold find_ref
      simp only
      rw [hsame, find_dropped]
      rfl
    · unfold find_ref
      simp only
      rw [hsame, find_kept _ _ hne]

/-! ## The deletion -/

/-- The reference that a call names: the end of the chain, or the symbolic reference itself. -/
def named_ref (refs : ref_store) (refname : Bytes) (REF_NODEREF : Bool) : Bytes :=
  if REF_NODEREF then refname else chain_end refs MAXDEPTH refname

/-- Both stores lose the name, and nothing else changes. -/
theorem delete_ref_without {w : surroundings} {refs : ref_store} {refname : Bytes}
    {sha1 : Option Sha1} {REF_NODEREF : Bool}
    (h : (delete_ref w refs refname sha1 REF_NODEREF).1 = 0)
    (hobjects : ∀ entry ∈ refs.packed, entry.refname ≠ refname →
      w.has_sha1_file entry.sha1 = true)
    (hunpacked : named_ref refs refname REF_NODEREF = refname ∨
      find_ref refs (named_ref refs refname REF_NODEREF) = none) :
    Without refs (delete_ref w refs refname sha1 REF_NODEREF).2
      (named_ref refs refname REF_NODEREF) := by
  unfold delete_ref at h ⊢
  split at h
  · cases h
  rename_i ref_name flag hlock
  obtain ⟨hname, -, hsym, hpacked⟩ := lock_ref_stopped hlock
  simp only at h ⊢
  have hpath : (if REF_NODEREF then refname else ref_name) =
      named_ref refs refname REF_NODEREF := by
    unfold named_ref
    rw [hname]
  rw [hpath] at h ⊢
  -- the loose file
  generalize hunlink : (if (!flag.REF_ISPACKED || flag.REF_ISSYMREF) = true then
    unlink_ref w refs (named_ref refs refname REF_NODEREF) else (0, refs)) = unlinked at h ⊢
  obtain ⟨hret, hrepacked⟩ := BitVec.or_eq_zero_iff.mp h
  obtain ⟨hgone, hothers, hsame⟩ :
      loose_ref unlinked.2 (named_ref refs refname REF_NODEREF) = none ∧
      (∀ name, name ≠ named_ref refs refname REF_NODEREF →
        loose_ref unlinked.2 name = loose_ref refs name) ∧
      unlinked.2.packed = refs.packed := by
    rw [← hunlink] at hret ⊢
    split_ifs at hret ⊢ with hflag
    · exact unlink_ref_ok hret
    · obtain ⟨hispacked, hnosym⟩ : flag.REF_ISPACKED = true ∧ flag.REF_ISSYMREF = false := by
        simpa using hflag
      have hnone := hpacked rfl hispacked
      have hself : named_ref refs refname REF_NODEREF = ref_name := by
        unfold named_ref
        split_ifs
        · rw [hname]
          refine (chain_end_here _ fun target htarget => ?_).symm
          rw [hsym.mpr (Or.inr ⟨target, htarget⟩)] at hnosym
          cases hnosym
        · exact hname.symm
      rw [hself]
      exact ⟨hnone, fun _ _ => rfl, rfl⟩
  -- packed-refs
  obtain ⟨hdropped, hkept, hfiles⟩ := repack_without_ref_ok hrepacked
    (by rw [hsame]; exact hobjects)
  have hloose_after : ∀ name, loose_ref (repack_without_ref w unlinked.2 refname).2 name =
      loose_ref unlinked.2 name := by
    intro name
    unfold loose_ref
    rw [hfiles]
  have hfind : ∀ name, find_ref unlinked.2 name = find_ref refs name := by
    intro name
    unfold find_ref
    rw [hsame]
  refine ⟨?_, fun name hne => ?_⟩
  · unfold lookup
    rw [hloose_after, hgone, Option.none_or, Option.map_eq_none_iff]
    by_cases hself : named_ref refs refname REF_NODEREF = refname
    · rw [hself]
      exact hdropped
    · rw [hkept _ hself, hfind]
      exact hunpacked.resolve_left hself
  · unfold lookup
    rw [hloose_after, hothers name hne]
    by_cases hother : name = refname
    · -- a symbolic reference: the file hides what is packed under its name
      subst hother
      have hsymref : ∃ target, loose_ref refs name = some (.symref target) := by
        by_contra hno
        apply hne
        unfold named_ref
        split_ifs
        · rfl
        · exact (chain_end_here _ fun target htarget => hno ⟨target, htarget⟩).symm
      obtain ⟨target, htarget⟩ := hsymref
      rw [htarget]
      rfl
    · rw [hkept name hother, hfind]

/-- **A deletion takes one name away.** Where no entry of packed-refs but the deleted one lacks
its object, and a symbolic reference that is followed ends at a name that is not packed, a call
that returns 0 leaves the reference unresolved, and every name that does not lead to it resolves
as before. -/
theorem delete_ref_takes_one (w : surroundings) (refs : ref_store) (refname : Bytes)
    (sha1 : Option Sha1) (REF_NODEREF : Bool)
    (h : (delete_ref w refs refname sha1 REF_NODEREF).1 = 0)
    (hobjects : ∀ entry ∈ refs.packed, entry.refname ≠ refname →
      w.has_sha1_file entry.sha1 = true)
    (hunpacked : named_ref refs refname REF_NODEREF = refname ∨
      find_ref refs (named_ref refs refname REF_NODEREF) = none) :
    read_ref (delete_ref w refs refname sha1 REF_NODEREF).2
        (named_ref refs refname REF_NODEREF) = none ∧
      ∀ name, named_ref refs refname REF_NODEREF ∉ passed refs MAXDEPTH name →
        read_ref (delete_ref w refs refname sha1 REF_NODEREF).2 name = read_ref refs name := by
  have hwithout := delete_ref_without h hobjects hunpacked
  refine ⟨read_ref_gone hwithout, fun name hname => ?_⟩
  rw [read_ref_eq, read_ref_eq, follow_without hwithout MAXDEPTH name hname]

def HEAD : Bytes := [72, 69, 65, 68]

/-- `"refs/heads/a"` -/
def branch_a : Bytes := [114, 101, 102, 115, 47, 104, 101, 97, 100, 115, 47, 97]

/-- A branch that `HEAD` is on, and a packed one. -/
def head_on_a : ref_store where
  loose := [(HEAD, .symref branch_a), (branch_a, .object (Vector.replicate 20 1))]
  packed := [⟨branch_a ++ [98], Vector.replicate 20 2⟩]
  apart := by decide

def all_present : surroundings := ⟨fun _ => true, false, false, false⟩

theorem branch_a_is_taken_away :
    read_ref (delete_ref all_present head_on_a branch_a none false).2
        (named_ref head_on_a branch_a false) = none ∧
      ∀ name, named_ref head_on_a branch_a false ∉ passed head_on_a MAXDEPTH name →
        read_ref (delete_ref all_present head_on_a branch_a none false).2 name =
          read_ref head_on_a name :=
  delete_ref_takes_one all_present head_on_a branch_a none false (by decide) (by decide)
    (Or.inl (by decide))

/-- `HEAD` is another name, and resolved. -/
theorem head_loses_its_branch :
    (delete_ref all_present head_on_a branch_a none false).1 = 0 ∧
      named_ref head_on_a branch_a false = branch_a ∧ HEAD ≠ branch_a ∧
      read_ref head_on_a HEAD = some (Vector.replicate 20 1) ∧
      read_ref (delete_ref all_present head_on_a branch_a none false).2 HEAD = none := by
  decide

end git.refs
