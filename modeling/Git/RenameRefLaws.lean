-- What `rename_ref` leaves behind when it fails: the old reference and its reflog are put back, the
-- new reference is not.
import Git.RenameRef

namespace git.rename

open git.refs (ref_store ref_file packed_ref ref_flag null_sha1 names_conflict resolve_ref_unsafe
  resolve_loop read_ref find_ref loose_ref lookup follow HEAD MAXDEPTH check_refname_format
  lstat_cases read_ref_eq branch_a)
open git.convert (LF)

/-! ## The references that are left -/

/-- References were taken away, and nothing else. -/
structure Shrunk (refs refs' : ref_store) : Prop where
  loose : ∀ name, loose_ref refs' name = loose_ref refs name ∨ loose_ref refs' name = none
  files : ∀ file ∈ refs'.loose, file ∈ refs.loose
  entries : ∀ entry ∈ refs'.packed, entry ∈ refs.packed

theorem Shrunk.refl (refs : ref_store) : Shrunk refs refs :=
  ⟨fun _ => Or.inl rfl, fun _ h => h, fun _ h => h⟩

theorem Shrunk.trans {refs refs' refs'' : ref_store} (h : Shrunk refs refs')
    (h' : Shrunk refs' refs'') : Shrunk refs refs'' where
  loose name := by
    rcases h'.loose name with heq | hnone
    · rw [heq]
      exact h.loose name
    · exact Or.inr hnone
  files file hfile := h.files file (h'.files file hfile)
  entries entry hentry := h.entries entry (h'.entries entry hentry)

theorem loose_filter (refs : ref_store) (path name : Bytes) :
    ((refs.loose.filter (·.1 != path)).find? (·.1 == name)).map (·.2) =
      if name = path then none else loose_ref refs name := by
  split
  · next heq =>
    rw [heq, git.refs.find_dropped]
    rfl
  · next hne =>
    rw [git.refs.find_kept _ _ hne]
    rfl

theorem unlink_ref_shrunk (w : git.refs.surroundings) (refs : ref_store) (path : Bytes) :
    Shrunk refs (git.refs.unlink_ref w refs path).2 ∧
      (∀ name, name ≠ path →
        loose_ref (git.refs.unlink_ref w refs path).2 name = loose_ref refs name) ∧
      (git.refs.unlink_ref w refs path).2.packed = refs.packed := by
  unfold git.refs.unlink_ref
  split
  · split
    · exact ⟨Shrunk.refl refs, fun _ _ => rfl, rfl⟩
    · refine ⟨⟨?_, fun file hfile => List.mem_of_mem_filter hfile, fun _ h => h⟩, ?_, rfl⟩
      · intro name
        rw [loose_ref, loose_filter]
        split
        · exact Or.inr rfl
        · exact Or.inl rfl
      · intro name hne
        rw [loose_ref, loose_filter, if_neg hne]
  · exact ⟨Shrunk.refl refs, fun _ _ => rfl, rfl⟩
  · exact ⟨Shrunk.refl refs, fun _ _ => rfl, rfl⟩
  · exact ⟨Shrunk.refl refs, fun _ _ => rfl, rfl⟩

theorem repack_shrunk (w : git.refs.surroundings) (refs : ref_store) (refname : Bytes) :
    Shrunk refs (git.refs.repack_without_ref w refs refname).2 ∧
      (git.refs.repack_without_ref w refs refname).2.loose = refs.loose := by
  unfold git.refs.repack_without_ref
  split_ifs
  · exact ⟨Shrunk.refl refs, rfl⟩
  · exact ⟨Shrunk.refl refs, rfl⟩
  · exact ⟨Shrunk.refl refs, rfl⟩
  · exact ⟨⟨fun _ => Or.inl rfl, fun _ h => h, fun entry h => List.mem_of_mem_filter h⟩, rfl⟩

/-- Where the other entries have their objects, they stay in packed-refs, done or not. -/
theorem repack_others {w : git.refs.surroundings} {refs : ref_store} {refname : Bytes}
    (hobjects : ∀ entry ∈ refs.packed, entry.refname ≠ refname →
      w.has_sha1_file entry.sha1 = true) {name : Bytes} (hne : name ≠ refname) :
    find_ref (git.refs.repack_without_ref w refs refname).2 name = find_ref refs name := by
  by_cases hok : (git.refs.repack_without_ref w refs refname).1 = 0
  · exact (git.refs.repack_without_ref_ok hok hobjects).2.1 name hne
  · unfold git.refs.repack_without_ref at hok ⊢
    split_ifs at hok ⊢
    · rfl
    · rfl
    · rfl
    · exact absurd rfl hok

theorem delete_ref_shrunk (w : git.refs.surroundings) (refs : ref_store) (refname : Bytes)
    (sha1 : Option Sha1) : Shrunk refs (git.refs.delete_ref w refs refname sha1 true).2 := by
  unfold git.refs.delete_ref
  split
  · exact Shrunk.refl refs
  · next ref_name flag _ =>
    simp only [if_true]
    split_ifs
    · exact (unlink_ref_shrunk w refs refname).1.trans (repack_shrunk w _ refname).1
    · exact (repack_shrunk w refs refname).1

/-- Whether the deletion succeeds or not, the other names say what they said. -/
theorem delete_ref_others {w : git.refs.surroundings} {refs : ref_store} {refname : Bytes}
    (sha1 : Option Sha1)
    (hobjects : ∀ entry ∈ refs.packed, entry.refname ≠ refname →
      w.has_sha1_file entry.sha1 = true) {name : Bytes} (hne : name ≠ refname) :
    lookup (git.refs.delete_ref w refs refname sha1 true).2 name = lookup refs name := by
  have hrepack : ∀ refs' : ref_store, refs'.packed = refs.packed →
      loose_ref refs' name = loose_ref refs name →
      lookup (git.refs.repack_without_ref w refs' refname).2 name = lookup refs name := by
    intro refs' hpacked hloose
    have hfind : find_ref refs' name = find_ref refs name := by rw [find_ref, hpacked]; rfl
    have hsame : loose_ref (git.refs.repack_without_ref w refs' refname).2 name =
        loose_ref refs' name := by rw [loose_ref, (repack_shrunk w refs' refname).2]; rfl
    rw [lookup, lookup, hsame, hloose, repack_others (hpacked ▸ hobjects) hne, hfind]
  unfold git.refs.delete_ref
  split
  · rfl
  · obtain ⟨-, hothers, hpacked⟩ := unlink_ref_shrunk w refs refname
    simp only [if_true]
    split_ifs
    · exact hrepack _ hpacked (hothers name hne)
    · exact hrepack refs rfl rfl

/-! ## Resolving -/

theorem follow_congr {refs refs' : ref_store} (h : ∀ name, lookup refs' name = lookup refs name)
    (depth : Nat) (refname : Bytes) : follow refs' depth refname = follow refs depth refname := by
  induction depth generalizing refname with
  | zero => rfl
  | succ depth ih =>
    rw [follow, follow, h]
    simp only [ih]

theorem read_ref_congr {refs refs' : ref_store}
    (h : ∀ name, lookup refs' name = lookup refs name) (refname : Bytes) :
    read_ref refs' refname = read_ref refs refname := by
  rw [read_ref_eq, read_ref_eq, follow_congr h]

theorem read_ref_of_lookup {refs : ref_store} {refname : Bytes} {sha1 : Sha1}
    (hvalid : check_refname_format refname true = true)
    (h : lookup refs refname = some (.object sha1)) : read_ref refs refname = some sha1 := by
  rw [read_ref_eq, if_pos hvalid, MAXDEPTH, follow, h]
  rfl

/-- A name that resolves and is no symbolic reference says its object itself. -/
theorem lookup_of_resolve {refs : ref_store} {refname name : Bytes} {sha1 : Sha1}
    {flag : ref_flag} (h : resolve_ref_unsafe refs refname true = (some (name, sha1), flag))
    (hsym : flag.REF_ISSYMREF = false) :
    check_refname_format refname true = true ∧ lookup refs refname = some (.object sha1) := by
  unfold resolve_ref_unsafe at h
  split_ifs at h with hvalid
  · refine ⟨hvalid, ?_⟩
    have hread : (resolve_loop refs true MAXDEPTH refname ⟨false, false, false⟩).1 =
        follow refs MAXDEPTH refname := git.refs.resolve_loop_reading refs _ _ _
    rw [h] at hread
    have hstopped := git.refs.resolve_loop_stopped refs true MAXDEPTH refname _ _ _ _ h
    rw [MAXDEPTH, follow] at hread
    split at hread
    · next target htarget =>
      -- The flag says that it is a symbolic reference.
      have hloose : loose_ref refs refname = some (.symref target) := by
        unfold lookup at htarget
        cases hl : loose_ref refs refname with
        | some file => simpa [hl] using htarget
        | none => simp [hl] at htarget
      have := hstopped.symref.mpr (Or.inr ⟨target, hloose⟩)
      rw [hsym] at this
      cases this
    · next sha1' hobject =>
      obtain ⟨rfl, rfl⟩ := Prod.mk.inj (Option.some.inj hread)
      exact hobject
    · cases hread
  · cases h

/-- The names that resolve have the format of references. -/
theorem resolve_loop_valid (refs : ref_store) (reading : Bool) (depth : Nat) {refname : Bytes}
    (hvalid : check_refname_format refname true = true) (flag : ref_flag) {name : Bytes}
    {sha1 : Sha1} (h : (resolve_loop refs reading depth refname flag).1 = some (name, sha1)) :
    check_refname_format name true = true := by
  induction depth generalizing refname flag with
  | zero => cases h
  | succ depth ih =>
    rw [resolve_loop] at h
    split at h
    · split at h
      · obtain ⟨rfl, -⟩ := Prod.mk.inj (Option.some.inj h)
        exact hvalid
      · split_ifs at h
        obtain ⟨rfl, -⟩ := Prod.mk.inj (Option.some.inj h)
        exact hvalid
    · cases h
    · cases h
    · next target _ =>
      split_ifs at h with htarget
      exact ih htarget _ h
    · obtain ⟨rfl, -⟩ := Prod.mk.inj (Option.some.inj h)
      exact hvalid
    · cases h

theorem resolve_valid {refs : ref_store} {refname name : Bytes} {reading : Bool} {sha1 : Sha1}
    (h : ( resolve_ref_unsafe refs refname reading).1 = some (name, sha1)) :
    check_refname_format name true = true := by
  unfold resolve_ref_unsafe at h
  split_ifs at h with hvalid
  exact resolve_loop_valid refs reading MAXDEPTH hvalid _ h

theorem lock_valid {refs : ref_store} {refname ref_name : Bytes} {old_sha1 : Option Sha1}
    (h : (git.refs.lock_ref_sha1_basic refs refname old_sha1).1 = some ref_name) :
    check_refname_format ref_name true = true := by
  unfold git.refs.lock_ref_sha1_basic at h
  simp only at h
  split at h
  · cases h
  · next name sha1 type hresolve =>
    have hname : check_refname_format name true = true :=
      resolve_valid (congrArg Prod.fst hresolve)
    split_ifs at h
    cases old_sha1 with
    | none => exact Option.some.inj h ▸ hname
    | some old_sha1 =>
      simp only [git.refs.verify_lock] at h
      split at h
      · cases h
      · split_ifs at h
        exact Option.some.inj h ▸ hname

theorem ne_tmp_of_valid {name : Bytes} (h : check_refname_format name true = true) :
    name ≠ TMP_RENAMED_LOG := by
  rintro rfl
  exact absurd h (by decide)

/-! ## The logs that are written -/

/-- Only the logs of these names changed, and those only got more lines. -/
structure Appends (names : List Bytes) (logs logs' : Bytes → Option Bytes) : Prop where
  more : ∀ path log, logs path = some log → ∃ more, logs' path = some (log ++ more)
  others : ∀ path, path ∉ names → logs' path = logs path

theorem Appends.refl (names : List Bytes) (logs : Bytes → Option Bytes) :
    Appends names logs logs :=
  ⟨fun _ log h => ⟨[], by rw [h, List.append_nil]⟩, fun _ _ => rfl⟩

theorem Appends.trans {names : List Bytes} {logs logs' logs'' : Bytes → Option Bytes}
    (h : Appends names logs logs') (h' : Appends names logs' logs'') :
    Appends names logs logs'' where
  more path log hlog := by
    obtain ⟨more, hmore⟩ := h.more path log hlog
    obtain ⟨more', hmore'⟩ := h'.more path _ hmore
    exact ⟨more ++ more', by rw [hmore', List.append_assoc]⟩
  others path hpath := (h'.others path hpath).trans (h.others path hpath)

theorem Appends.mono {names names' : List Bytes} {logs logs' : Bytes → Option Bytes}
    (h : Appends names logs logs') (hsub : ∀ name ∈ names, name ∈ names') :
    Appends names' logs logs' :=
  ⟨h.more, fun path hpath => h.others path (fun hmem => hpath (hsub path hmem))⟩

theorem Appends.update {logs : Bytes → Option Bytes} {refname text : Bytes}
    (h : ∀ log, logs refname = some log → log <+: text) :
    Appends [refname] logs (Function.update logs refname (some text)) where
  more path log hlog := by
    by_cases heq : path = refname
    · subst heq
      obtain ⟨more, rfl⟩ := h log hlog
      exact ⟨more, Function.update_self ..⟩
    · exact ⟨[], by rw [Function.update_of_ne heq, hlog, List.append_nil]⟩
  others path hpath := Function.update_of_ne (by simpa using hpath) ..

theorem prefix_log_ref_write (log : Bytes) (old_sha1 new_sha1 : Sha1) (who : git.reflog.ident)
    (msg : Bytes) : log <+: (git.reflog.log_ref_write log old_sha1 new_sha1 who msg).2 := by
  unfold git.reflog.log_ref_write
  dsimp only
  split_ifs
  · exact List.prefix_append _ _
  · exact List.prefix_refl _
  · exact List.prefix_append _ _
  · exact List.prefix_refl _

theorem log_ref_write_appends (w : surroundings) (f : log_failures) (log_all_ref_updates : Bool)
    (logs : Bytes → Option Bytes) (refname : Bytes) (old_sha1 new_sha1 : Sha1) (msg : Bytes) :
    Appends [refname] logs
      (log_ref_write w f log_all_ref_updates logs refname old_sha1 new_sha1 msg).2 := by
  unfold log_ref_write
  split
  · exact Appends.refl _ _
  · split
    · exact Appends.refl _ _
    · next log hlog =>
      -- The text that is appended to: what is there, or nothing.
      have hthere : ∀ log', logs refname = some log' → log' <+: log := by
        intro log' hlog'
        rw [hlog', Option.some_or, Option.some.injEq] at hlog
        exact hlog ▸ List.prefix_refl _
      have htext := prefix_log_ref_write log old_sha1 new_sha1 w.who msg
      split
      · exact Appends.update hthere
      · dsimp only
        split
        · exact Appends.update (fun log' hlog' => (hthere log' hlog').trans htext)
        · refine Appends.update (fun log' hlog' => (hthere log' hlog').trans ?_)
          rw [List.prefix_take_iff]
          exact ⟨htext, Nat.le_add_right _ _⟩

theorem log_head_appends (w : surroundings) (f : log_failures) (log_all_ref_updates : Bool)
    (refs : ref_store) (logs : Bytes → Option Bytes) (lock : ref_lock) (sha1 : Sha1)
    (logmsg : Bytes) :
    Appends [HEAD] logs (log_head w f log_all_ref_updates refs logs lock sha1 logmsg) := by
  unfold log_head
  split
  · exact Appends.refl _ _
  · split
    · split
      · exact log_ref_write_appends ..
      · exact Appends.refl _ _
    · exact Appends.refl _ _

theorem log_names_appends (w : surroundings) (f : write_failures) (log_all_ref_updates : Bool)
    (logs : Bytes → Option Bytes) (lock : ref_lock) (sha1 : Sha1) (logmsg : Bytes) :
    Appends [lock.ref_name, lock.orig_ref_name] logs
      (log_names w f log_all_ref_updates logs lock sha1 logmsg).2 := by
  have hlog := log_ref_write_appends w f.log log_all_ref_updates logs lock.ref_name
    lock.old_sha1 sha1 logmsg
  unfold log_names
  split
  · next logs' heq =>
    rw [heq] at hlog
    exact hlog.mono (by simp)
  · next logs' heq =>
    rw [heq] at hlog
    have horig := log_ref_write_appends w f.orig_log log_all_ref_updates logs' lock.orig_ref_name
      lock.old_sha1 sha1 logmsg
    split
    · exact (hlog.mono (by simp)).trans (horig.mono (by simp))
    · exact hlog.mono (by simp)

/-- A write appends to logs, and one that fails leaves the references. -/
theorem write_ref_sha1_spec (w : surroundings) (f : write_failures) (log_all_ref_updates : Bool)
    (s : store) (lock : ref_lock) (sha1 : Sha1) (logmsg : Bytes) :
    Appends [lock.ref_name, lock.orig_ref_name, HEAD] s.logs
        (write_ref_sha1 w f log_all_ref_updates s lock sha1 logmsg).2.logs ∧
      ((write_ref_sha1 w f log_all_ref_updates s lock sha1 logmsg).1 = false →
        (write_ref_sha1 w f log_all_ref_updates s lock sha1 logmsg).2.refs = s.refs) := by
  have hnames := log_names_appends w f log_all_ref_updates s.logs lock sha1 logmsg
  unfold write_ref_sha1
  split
  · exact ⟨Appends.refl _ _, fun _ => rfl⟩
  · split
    · exact ⟨Appends.refl _ _, fun _ => rfl⟩
    · split
      · exact ⟨Appends.refl _ _, fun _ => rfl⟩
      · split
        · exact ⟨Appends.refl _ _, fun _ => rfl⟩
        · split
          · next logs heq =>
            rw [heq] at hnames
            exact ⟨hnames.mono (by simp), fun _ => rfl⟩
          · next logs heq =>
            rw [heq] at hnames
            have hhead := log_head_appends w f.head_log log_all_ref_updates s.refs logs lock sha1
              logmsg
            have hall : Appends [lock.ref_name, lock.orig_ref_name, HEAD] s.logs _ :=
              (hnames.mono (by simp)).trans (hhead.mono (by simp))
            dsimp only
            split
            · exact ⟨hall, fun _ => rfl⟩
            · exact ⟨hall, fun h => by cases h⟩

/-- A write of which no step fails puts the object there. -/
theorem write_ref_sha1_done {w : surroundings} {f : write_failures} {log_all_ref_updates : Bool}
    {s : store} {lock : ref_lock} {sha1 : Sha1} {logmsg : Bytes} {is_commit : Bool}
    {refs : ref_store} (hforce : lock.force_write = true)
    (hobject : w.parse_object sha1 = some is_commit)
    (hbranch : is_branch lock.ref_name = true → is_commit = true) (hwrite : f.write = false)
    (hlog : (log_names w f log_all_ref_updates s.logs lock sha1 logmsg).1 = true)
    (hcommit : f.commit = false) (hrefs : commit_ref s.refs lock.ref_name sha1 = some refs) :
    (write_ref_sha1 w f log_all_ref_updates s lock sha1 logmsg).2.refs = refs := by
  unfold write_ref_sha1
  rw [if_neg (by simp [hforce]), hobject]
  dsimp only
  have hok : ¬ (!is_commit && is_branch lock.ref_name) = true := by
    intro h
    rw [Bool.and_eq_true, Bool.not_eq_true'] at h
    rw [hbranch h.2] at h
    cases h.1
  rw [if_neg hok, if_neg (by simp [hwrite])]
  split
  · next logs heq =>
    rw [heq] at hlog
    cases hlog
  · rw [if_neg (by simp [hcommit]), hrefs]

/-! ## The roll-back -/

/-- No other name is in the way of this one. -/
structure Apart (refs : ref_store) (name : Bytes) : Prop where
  files : ∀ file ∈ refs.loose, names_conflict name file.1 = false
  entries : ∀ entry ∈ refs.packed, names_conflict name entry.refname = false

/-- The steps that put the old reference back do not fail, and its object can be written. -/
structure Restores (w : surroundings) (f : failures) (s : store) (oldrefname : Bytes) : Prop where
  lock : f.lock_old = false
  object : ∀ sha1, read_ref s.refs oldrefname = some sha1 → ∃ is_commit,
    w.parse_object sha1 = some is_commit ∧ (is_branch oldrefname = true → is_commit = true)
  write : f.write_old.write = false
  setup : f.write_old.log.setup = false
  written : f.write_old.log.written = none
  committer : (git.reflog.git_committer_info w.who).length + 100 < 2 ^ 32
  commit : f.write_old.commit = false
  apart : Apart s.refs oldrefname

theorem lstat_of_apart {refs : ref_store} {name : Bytes} (h : Apart refs name) :
    refs.lstat name ≠ .directory ∧ refs.lstat name ≠ .ENOTDIR := by
  unfold ref_store.lstat
  split
  · simp
  · split_ifs with hdir hnot
    · obtain ⟨file, hfile, hbelow⟩ := List.any_eq_true.mp hdir
      have hconflict := (git.refs.names_conflict_below name file.1 hbelow).1
      rw [h.files file hfile] at hconflict
      cases hconflict
    · obtain ⟨file, hfile, hbelow⟩ := List.any_eq_true.mp hnot
      have hconflict := (git.refs.names_conflict_below file.1 name hbelow).2
      rw [h.files file hfile] at hconflict
      cases hconflict
    · simp

theorem Apart.shrunk {refs refs' : ref_store} {name : Bytes} (h : Apart refs name)
    (hs : Shrunk refs refs') : Apart refs' name :=
  ⟨fun file hfile => h.files file (hs.files file hfile),
    fun entry hentry => h.entries entry (hs.entries entry hentry)⟩

theorem available_of_apart {refs : ref_store} {name : Bytes} (h : Apart refs name) :
    git.refs.is_refname_available refs name = true := by
  unfold git.refs.is_refname_available
  rw [Bool.not_eq_true', List.any_eq_false]
  intro entry hentry
  rw [h.entries entry hentry]
  exact Bool.false_ne_true

/-- The old reference can be locked, be it there or not. -/
theorem lock_old_spec {refs refs' : ref_store} {oldrefname : Bytes} {orig_sha1 : Sha1}
    (hvalid : check_refname_format oldrefname true = true)
    (hlookup : lookup refs oldrefname = some (.object orig_sha1)) (hs : Shrunk refs refs')
    (hapart : Apart refs oldrefname) : ∃ lock,
      lock_ref_sha1_basic false refs' oldrefname = some lock ∧
        lock.ref_name = oldrefname ∧ lock.orig_ref_name = oldrefname := by
  have hapart' := hapart.shrunk hs
  have hresolve : ∃ sha1 flag, resolve_ref_unsafe refs' oldrefname false =
      (some (oldrefname, sha1), flag) := by
    rw [ resolve_ref_unsafe, if_pos hvalid, MAXDEPTH, resolve_loop]
    rcases lstat_cases refs' oldrefname with ⟨file, hstat, hloose⟩ | ⟨hstat, hloose⟩ |
      ⟨hstat | hstat, -, -⟩
    · -- The file is the one that was there before.
      have hfile : file = .object orig_sha1 := by
        rcases hs.loose oldrefname with heq | hnone
        · rw [hloose] at heq
          rw [git.refs.lookup_loose heq.symm] at hlookup
          exact Option.some.inj hlookup
        · rw [hloose] at hnone
          cases hnone
      rw [hstat, hfile]
      exact ⟨_, _, rfl⟩
    · rw [hstat]
      cases find_ref refs' oldrefname with
      | none => exact ⟨_, _, rfl⟩
      | some sha1 => exact ⟨_, _, rfl⟩
    · exact absurd hstat (lstat_of_apart hapart').1
    · exact absurd hstat (lstat_of_apart hapart').2
  obtain ⟨sha1, flag, hresolve⟩ := hresolve
  have hlock : (git.refs.lock_ref_sha1_basic refs' oldrefname none).1 = some oldrefname := by
    unfold git.refs.lock_ref_sha1_basic
    simp [hresolve, available_of_apart hapart']
  refine ⟨⟨oldrefname, oldrefname, sha1, sha1 = null_sha1⟩, ?_, rfl, rfl⟩
  unfold lock_ref_sha1_basic
  rw [hlock, hresolve]
  rfl

theorem lookup_commit {refs refs' : ref_store} {ref_name : Bytes} {sha1 : Sha1}
    (h : commit_ref refs ref_name sha1 = some refs') (name : Bytes) :
    lookup refs' name = if name = ref_name then some (.object sha1) else lookup refs name := by
  unfold commit_ref at h
  split_ifs at h
  obtain rfl := Option.some.inj h
  unfold lookup loose_ref
  by_cases hname : name = ref_name
  · subst hname
    simp
  · have hne : (ref_name == name) = false := beq_false_of_ne (Ne.symm hname)
    simp only [List.find?_cons, hne, if_neg hname]
    rw [git.refs.find_kept _ _ hname]
    rfl

/-- The log that a roll-back does not make. -/
theorem log_names_old {w : surroundings} {f : write_failures} {logs : Bytes → Option Bytes}
    {lock : ref_lock} {sha1 : Sha1} (hsame : lock.ref_name = lock.orig_ref_name)
    (hsetup : f.log.setup = false) (hwritten : f.log.written = none)
    (hcommitter : (git.reflog.git_committer_info w.who).length + 100 < 2 ^ 32) :
    (log_names w f false logs lock sha1 []).1 = true := by
  have hok : (log_ref_write w f.log false logs lock.ref_name lock.old_sha1 sha1 []).1 = true := by
    unfold log_ref_write
    rw [if_neg (by simp [hsetup])]
    split
    · rfl
    · next log _ =>
      split
      · rfl
      · have hfits : git.reflog.log_entry.Fits ⟨lock.old_sha1, sha1, w.who, [], by simp⟩ := by
          simpa [git.reflog.log_entry.Fits] using hcommitter
        simp [hwritten, git.reflog.log_ref_write_line hfits log]
  unfold log_names
  split
  · next heq =>
    rw [heq] at hok
    cases hok
  · rw [if_neg (by simp [hsame])]

theorem lock_names {fails : Bool} {refs : ref_store} {refname : Bytes} {lock : ref_lock}
    (h : lock_ref_sha1_basic fails refs refname = some lock) :
    check_refname_format lock.ref_name true = true ∧ lock.orig_ref_name = refname := by
  unfold lock_ref_sha1_basic at h
  split at h
  · next ref_name sha1 hlock _ =>
    split_ifs at h
    obtain rfl := Option.some.inj h
    exact ⟨lock_valid hlock, rfl⟩
  · cases h

theorem put_back_refs {w : surroundings} {f : failures} {s r : store} {oldrefname : Bytes}
    {orig_sha1 : Sha1} (hvalid : check_refname_format oldrefname true = true)
    (hlookup : lookup s.refs oldrefname = some (.object orig_sha1))
    (hs : Shrunk s.refs r.refs) (hrestores : Restores w f s oldrefname) (name : Bytes) :
    lookup (put_back w f oldrefname orig_sha1 r).refs name =
      if name = oldrefname then some (.object orig_sha1) else lookup r.refs name := by
  obtain ⟨lock, hlock, hname, horig⟩ := lock_old_spec hvalid hlookup hs hrestores.apart
  obtain ⟨is_commit, hobject, hbranch⟩ :=
    hrestores.object orig_sha1 (read_ref_of_lookup hvalid hlookup)
  obtain ⟨refs, hrefs⟩ : ∃ refs, commit_ref r.refs oldrefname orig_sha1 = some refs := by
    rw [commit_ref, dif_pos (hrestores.apart.shrunk hs).entries]
    exact ⟨_, rfl⟩
  have hdone : (write_ref_sha1 w f.write_old false r { lock with force_write := true }
      orig_sha1 []).2.refs = refs :=
    write_ref_sha1_done rfl hobject (hname ▸ hbranch) hrestores.write
      (log_names_old (hname.trans horig.symm) hrestores.setup hrestores.written
        hrestores.committer) hrestores.commit (hname ▸ hrefs)
  rw [put_back, hrestores.lock, hlock]
  dsimp only
  rw [hdone]
  exact lookup_commit hrefs name

theorem put_back_logs (w : surroundings) (f : failures) {oldrefname : Bytes} (orig_sha1 : Sha1)
    (hvalid : check_refname_format oldrefname true = true) (r : store) :
    (∀ path log, r.logs path = some log →
      ∃ more, (put_back w f oldrefname orig_sha1 r).logs path = some (log ++ more)) ∧
    (put_back w f oldrefname orig_sha1 r).logs TMP_RENAMED_LOG = r.logs TMP_RENAMED_LOG := by
  unfold put_back
  split
  · exact ⟨fun _ log h => ⟨[], by rw [h, List.append_nil]⟩, rfl⟩
  · next lock hlock =>
    obtain ⟨hname, horig⟩ := lock_names hlock
    have happends := (write_ref_sha1_spec w f.write_old false r
      { lock with force_write := true } orig_sha1 []).1
    refine ⟨happends.more, happends.others TMP_RENAMED_LOG ?_⟩
    simp only [List.mem_cons, List.not_mem_nil, or_false, not_or]
    refine ⟨(ne_tmp_of_valid hname).symm, ?_, by decide⟩
    rw [horig]
    exact (ne_tmp_of_valid hvalid).symm

theorem put_log_back_refs (f : failures) (oldrefname newrefname : Bytes) (log logmoved : Bool)
    (s : store) : (put_log_back f oldrefname newrefname log logmoved s).refs = s.refs := by
  unfold put_log_back
  split_ifs <;> rfl

/-! ## The steps up to the failure -/

theorem delete_ref_spec (w : surroundings) (f : delete_failures) (s : store) (refname : Bytes)
    (sha1 : Sha1) : Shrunk s.refs (delete_ref w f s refname sha1).2.refs ∧
      (delete_ref w f s refname sha1).2.logs TMP_RENAMED_LOG = s.logs TMP_RENAMED_LOG := by
  unfold delete_ref
  split
  · exact ⟨Shrunk.refl _, rfl⟩
  · next ref_name flag hlock =>
    refine ⟨delete_ref_shrunk _ s.refs refname (some sha1), ?_⟩
    have hvalid : check_refname_format ref_name true = true := lock_valid (congrArg Prod.fst hlock)
    dsimp only
    split
    · rfl
    · exact Function.update_of_ne (ne_tmp_of_valid hvalid).symm ..

theorem delete_ref_lookup {w : surroundings} {f : delete_failures} {s : store} {refname : Bytes}
    (sha1 : Sha1) (hobjects : ∀ entry ∈ s.refs.packed, w.has_sha1_file entry.sha1 = true)
    {name : Bytes} (hne : name ≠ refname) :
    lookup (delete_ref w f s refname sha1).2.refs name = lookup s.refs name := by
  unfold delete_ref
  split
  · rfl
  · exact delete_ref_others (some sha1) (fun entry hentry _ => hobjects entry hentry) hne

/-- Where a step fails: references were only taken away, and the reflog that was moved is at one
of its two places, with lines behind it at the most. -/
structure Failed (s r : store) (newrefname : Bytes) (log logmoved : Bool) : Prop where
  refs : Shrunk s.refs r.refs
  tmp : log = true → logmoved = false → r.logs TMP_RENAMED_LOG = s.logs TMP_RENAMED_LOG
  moved : log = true → logmoved = true → ∀ text, s.logs TMP_RENAMED_LOG = some text →
    ∃ more, r.logs newrefname = some (text ++ more)

/-- The steps of which none failed yet, before the log has its new place. -/
structure Going (s r : store) : Prop where
  refs : Shrunk s.refs r.refs
  tmp : r.logs TMP_RENAMED_LOG = s.logs TMP_RENAMED_LOG

theorem Going.failed {s r : store} (h : Going s r) (newrefname : Bytes) (log : Bool) :
    Failed s r newrefname log false :=
  ⟨h.refs, fun _ _ => h.tmp, fun _ hmoved => by cases hmoved⟩

theorem delete_old_cases (w : surroundings) (f : failures) (oldrefname : Bytes) (orig_sha1 : Sha1)
    (s : store) :
    ((delete_ref w f.delete_old s oldrefname orig_sha1).1 = false ∧
      delete_old w f oldrefname orig_sha1 s =
        .error (false, (delete_ref w f.delete_old s oldrefname orig_sha1).2)) ∨
    ((delete_ref w f.delete_old s oldrefname orig_sha1).1 = true ∧
      delete_old w f oldrefname orig_sha1 s =
        .ok (delete_ref w f.delete_old s oldrefname orig_sha1).2) := by
  unfold delete_old
  obtain ⟨ok, r⟩ := delete_ref w f.delete_old s oldrefname orig_sha1
  cases ok with
  | false => exact Or.inl ⟨rfl, rfl⟩
  | true => exact Or.inr ⟨rfl, rfl⟩

/-- The deletion of the new reference goes on or fails, with what it has taken away. -/
theorem delete_new_cases (w : surroundings) (f : failures) (newrefname : Bytes) (s : store) :
    ∃ r, Going s r ∧
      (delete_new w f newrefname s = .ok r ∨ delete_new w f newrefname s = .error (false, r)) := by
  unfold delete_new
  split
  · exact ⟨s, ⟨Shrunk.refl _, rfl⟩, Or.inl rfl⟩
  · next sha1 _ =>
    obtain ⟨hrefs, htmp⟩ := delete_ref_spec w f.delete_new s newrefname sha1
    refine ⟨_, ⟨hrefs, htmp⟩, ?_⟩
    dsimp only
    split_ifs
    · exact Or.inl rfl
    · exact Or.inl rfl
    · exact Or.inr rfl

/-- The move of the log to its new place, if there is one. -/
theorem log_to_new_cases (f : failures) (newrefname : Bytes) (log : Bool) (s : store) :
    (log = true ∧ (f.log_directories = true ∨ retry f.tmp_to_new = false) ∧
      log_to_new f newrefname log s = .error (false, s)) ∨
    (log = true ∧ f.log_directories = false ∧ retry f.tmp_to_new = true ∧
      log_to_new f newrefname log s =
        .ok { s with logs := rename_log s.logs TMP_RENAMED_LOG newrefname }) ∨
    (log = false ∧ log_to_new f newrefname log s = .ok s) := by
  unfold log_to_new
  cases log with
  | false => exact Or.inr (Or.inr ⟨rfl, rfl⟩)
  | true =>
    cases hdirs : f.log_directories with
    | true => exact Or.inl ⟨rfl, Or.inl rfl, by simp⟩
    | false =>
      cases hretry : retry f.tmp_to_new with
      | true => exact Or.inr (Or.inl ⟨rfl, rfl, rfl, by simp⟩)
      | false => exact Or.inl ⟨rfl, Or.inr rfl, by simp⟩

/-- A lock or a write that fails leaves the references, and no log has lost a line. -/
theorem write_new_failed {w : surroundings} {f : failures} {newrefname logmsg : Bytes}
    {orig_sha1 : Sha1} {log logmoved : Bool} {s r : store}
    (h : write_new w f newrefname orig_sha1 log logmsg s = .error (logmoved, r)) :
    logmoved = log ∧ r.refs = s.refs ∧
      ∀ path text, s.logs path = some text → ∃ more, r.logs path = some (text ++ more) := by
  unfold write_new at h
  split at h
  · obtain ⟨rfl, rfl⟩ := Prod.mk.inj (Except.error.inj h)
    exact ⟨rfl, rfl, fun _ text ht => ⟨[], by rw [ht, List.append_nil]⟩⟩
  · next lock _ =>
    obtain ⟨happends, hfail⟩ := write_ref_sha1_spec w f.write_new w.log_all_ref_updates s
      { lock with force_write := true, old_sha1 := orig_sha1 } orig_sha1 logmsg
    dsimp only at h
    split_ifs at h with hok
    obtain ⟨rfl, rfl⟩ := Prod.mk.inj (Except.error.inj h)
    exact ⟨rfl, hfail (Bool.not_eq_true _ ▸ hok), happends.more⟩

/-- What a failure of `move_ref` leaves. -/
theorem move_ref_failed {w : surroundings} {f : failures} {oldrefname newrefname logmsg : Bytes}
    {orig_sha1 : Sha1} {log logmoved : Bool} {s r : store}
    (h : move_ref w f oldrefname newrefname orig_sha1 log logmsg s = .error (logmoved, r)) :
    ((delete_ref w f.delete_old s oldrefname orig_sha1).1 = false ∧ logmoved = false ∧
      r = (delete_ref w f.delete_old s oldrefname orig_sha1).2) ∨
    ((delete_ref w f.delete_old s oldrefname orig_sha1).1 = true ∧
      Failed s r newrefname log logmoved ∧
      (log = true → f.log_directories = true ∨ retry f.tmp_to_new = false → logmoved = false)) := by
  unfold move_ref at h
  rcases delete_old_cases w f oldrefname orig_sha1 s with ⟨hfail, hdelete⟩ | ⟨hok, hdelete⟩
  · rw [hdelete] at h
    obtain ⟨rfl, rfl⟩ := Prod.mk.inj (Except.error.inj h)
    exact Or.inl ⟨hfail, rfl, rfl⟩
  · right
    refine ⟨hok, ?_⟩
    obtain ⟨hshrunk, htmp⟩ := delete_ref_spec w f.delete_old s oldrefname orig_sha1
    rw [hdelete] at h
    generalize (delete_ref w f.delete_old s oldrefname orig_sha1).2 = s1 at h hshrunk htmp
    obtain ⟨s2, hgoing, hnew | hnew⟩ := delete_new_cases w f newrefname s1
    · have hgoing : Going s s2 := ⟨hshrunk.trans hgoing.refs, hgoing.tmp.trans htmp⟩
      simp only [bind, Except.bind, hnew] at h
      rcases log_to_new_cases f newrefname log s2 with
        ⟨hlog, hfails, heq⟩ | ⟨hlog, hdirs, hretry, heq⟩ | ⟨hlog, heq⟩
      · rw [heq] at h
        obtain ⟨rfl, rfl⟩ := Prod.mk.inj (Except.error.inj h)
        exact ⟨hgoing.failed newrefname log, fun _ _ => rfl⟩
      · rw [heq] at h
        obtain ⟨rfl, hrefs, hmore⟩ := write_new_failed h
        refine ⟨⟨hrefs ▸ hgoing.refs, fun _ hno => ?_, fun _ _ text htext => ?_⟩, ?_⟩
        · rw [hlog] at hno
          cases hno
        · refine hmore newrefname text ?_
          dsimp only [rename_log]
          rw [if_pos rfl, hgoing.tmp, htext]
        · intro _ hor
          rcases hor with hor | hor
          · rw [hdirs] at hor
            cases hor
          · rw [hretry] at hor
            cases hor
      · rw [heq] at h
        obtain ⟨rfl, hrefs, hmore⟩ := write_new_failed h
        refine ⟨⟨hrefs ▸ hgoing.refs, fun hyes => ?_, fun hyes => ?_⟩, fun hyes => ?_⟩
        · rw [hlog] at hyes
          cases hyes
        · rw [hlog] at hyes
          cases hyes
        · rw [hlog] at hyes
          cases hyes
    · have hgoing : Going s s2 := ⟨hshrunk.trans hgoing.refs, hgoing.tmp.trans htmp⟩
      simp only [bind, Except.bind, hnew] at h
      obtain ⟨rfl, rfl⟩ := Prod.mk.inj (Except.error.inj h)
      exact ⟨hgoing.failed newrefname log, fun _ _ => rfl⟩

/-! ## Failing -/

/-- What `rename_ref` looks at before it changes anything, and the first move of the log. -/
def Refused (w : surroundings) (f : failures) (s : store) (oldrefname newrefname : Bytes) : Prop :=
  ((s.logs oldrefname).isSome = true ∧ (w.S_ISLNK oldrefname = true ∨ f.log_to_tmp = true)) ∨
  ( resolve_ref_unsafe s.refs oldrefname true).2.REF_ISSYMREF = true ∨
  ( resolve_ref_unsafe s.refs oldrefname true).1 = none ∨
  is_refname_available newrefname oldrefname (s.refs.packed.map (·.refname)) = false ∨
  is_refname_available newrefname oldrefname
    ((s.refs.loose.map (·.1)).filter (REFS.isPrefixOf ·)) = false

/-- The deletion of the old reference fails. -/
def OldStays (w : surroundings) (f : failures) (s : store) (oldrefname : Bytes) : Prop :=
  ∀ sha1, read_ref s.refs oldrefname = some sha1 →
    (delete_ref w f.delete_old (log_to_tmp oldrefname s) oldrefname sha1).1 = false

/-- A step up to the move of the log to its new place fails. -/
def LogStays (w : surroundings) (f : failures) (s : store) (oldrefname : Bytes) : Prop :=
  OldStays w f s oldrefname ∨ f.log_directories = true ∨ retry f.tmp_to_new = false

/-- It fails before anything changed, or in `move_ref`. -/
theorem rename_ref_cases (w : surroundings) (f : failures) (s : store)
    (oldrefname newrefname logmsg : Bytes) :
    ((rename_ref w f s oldrefname newrefname logmsg).2 = s) ∨
    (¬ Refused w f s oldrefname newrefname ∧ ∃ orig_sha1,
      check_refname_format oldrefname true = true ∧
      lookup s.refs oldrefname = some (.object orig_sha1) ∧
      ((rename_ref w f s oldrefname newrefname logmsg).1 = 0 ∨ ∃ logmoved r,
        move_ref w f oldrefname newrefname orig_sha1 (s.logs oldrefname).isSome logmsg
          (log_to_tmp oldrefname s) = .error (logmoved, r) ∧
        (rename_ref w f s oldrefname newrefname logmsg).2 =
          put_log_back f oldrefname newrefname (s.logs oldrefname).isSome logmoved
            (put_back w f oldrefname orig_sha1 r))) := by
  unfold rename_ref Refused
  dsimp only
  cases hres : resolve_ref_unsafe s.refs oldrefname true with
  | mk symref flag =>
    dsimp only
    by_cases hlink : ((s.logs oldrefname).isSome && w.S_ISLNK oldrefname) = true
    · rw [if_pos hlink]
      exact Or.inl rfl
    rw [if_neg hlink]
    by_cases hsym : flag.REF_ISSYMREF = true
    · rw [if_pos hsym]
      exact Or.inl rfl
    rw [if_neg hsym]
    cases symref with
    | none => exact Or.inl rfl
    | some found =>
      obtain ⟨name, orig_sha1⟩ := found
      dsimp only
      split_ifs with hpacked hloose hlog
      · exact Or.inl rfl
      · exact Or.inl rfl
      · exact Or.inl rfl
      · right
        refine ⟨?_, orig_sha1, ?_⟩
        · rw [Bool.and_eq_true] at hlink hlog
          rw [Bool.not_eq_true', Bool.not_eq_false] at hpacked hloose
          rintro (⟨hsome, hor⟩ | h | h | h | h)
          · rcases hor with hor | hor
            · exact hlink ⟨hsome, hor⟩
            · exact hlog ⟨hsome, hor⟩
          · exact hsym h
          · cases h
          · rw [hpacked] at h
            cases h
          · rw [hloose] at h
            cases h
        · rw [Bool.not_eq_true] at hsym
          obtain ⟨hvalid, hlookup⟩ := lookup_of_resolve hres hsym
          refine ⟨hvalid, hlookup, ?_⟩
          cases hmove : move_ref w f oldrefname newrefname orig_sha1 (s.logs oldrefname).isSome
              logmsg (log_to_tmp oldrefname s) with
          | ok s' => exact Or.inl rfl
          | error rollback => exact Or.inr ⟨rollback.1, rollback.2, rfl, rfl⟩

/-- **What a failed renaming leaves.** A renaming that is refused changes nothing. Where it fails
later, the old reference has the object that it had if the steps of the roll-back do not fail; the
reflog is under the old name again if it can be moved there, with all that it had, and with no
more if it had not yet been moved to the new name; and the new reference is what it was if it is
the deletion of the old one that failed. -/
theorem rename_ref_rolls_back (w : surroundings) (f : failures) (s : store)
    (oldrefname newrefname logmsg : Bytes)
    (h : (rename_ref w f s oldrefname newrefname logmsg).1 ≠ 0) :
    (Refused w f s oldrefname newrefname →
      (rename_ref w f s oldrefname newrefname logmsg).2 = s) ∧
    (Restores w f s oldrefname →
      read_ref (rename_ref w f s oldrefname newrefname logmsg).2.refs oldrefname =
        read_ref s.refs oldrefname) ∧
    (f.log_to_old = false → ∀ log, s.logs oldrefname = some log → ∃ more,
      (rename_ref w f s oldrefname newrefname logmsg).2.logs oldrefname = some (log ++ more) ∧
      (LogStays w f s oldrefname → more = [])) ∧
    (Restores w f s oldrefname → OldStays w f s oldrefname →
      (∀ entry ∈ s.refs.packed, w.has_sha1_file entry.sha1 = true) →
      read_ref (rename_ref w f s oldrefname newrefname logmsg).2.refs newrefname =
        read_ref s.refs newrefname) := by
  rcases rename_ref_cases w f s oldrefname newrefname logmsg with
    hsame | ⟨hgoes, orig_sha1, hvalid, hlookup, hzero | ⟨logmoved, r, hmove, heq⟩⟩
  · rw [hsame]
    exact ⟨fun _ => rfl, fun _ => rfl, fun _ log hlog => ⟨[], by rw [hlog, List.append_nil],
      fun _ => rfl⟩, fun _ _ _ => rfl⟩
  · exact absurd hzero h
  · rw [heq]
    have hread := read_ref_of_lookup hvalid hlookup
    have htmprefs : (log_to_tmp oldrefname s).refs = s.refs := by
      unfold log_to_tmp
      split <;> rfl
    have hdelete := delete_ref_spec w f.delete_old (log_to_tmp oldrefname s) oldrefname orig_sha1
    rw [htmprefs] at hdelete
    have hfailed := move_ref_failed hmove
    have hshrunk : Shrunk s.refs r.refs := by
      rcases hfailed with ⟨-, -, rfl⟩ | ⟨-, hfailed, -⟩
      · exact hdelete.1
      · exact htmprefs ▸ hfailed.refs
    refine ⟨fun hrefused => absurd hrefused hgoes, fun hrestores => ?_, ?_, ?_⟩
    · rw [put_log_back_refs, hread]
      refine read_ref_of_lookup hvalid ?_
      rw [put_back_refs hvalid hlookup hshrunk hrestores, if_pos rfl]
    · intro hback log hlog
      have hsome : (s.logs oldrefname).isSome = true := by rw [hlog]; rfl
      have htmp : (log_to_tmp oldrefname s).logs TMP_RENAMED_LOG = some log := by
        unfold log_to_tmp
        rw [if_pos hsome]
        dsimp only [rename_log]
        rw [if_pos rfl, hlog]
      obtain ⟨hmore, hkept⟩ := put_back_logs w f orig_sha1 hvalid r
      have hend : ∀ logs : Bytes → Option Bytes, ∀ path,
          rename_log logs path oldrefname oldrefname = logs path := by
        intro logs path
        dsimp only [rename_log]
        rw [if_pos rfl]
      cases logmoved with
      | false =>
        have hr : r.logs TMP_RENAMED_LOG = some log := by
          rcases hfailed with ⟨-, -, rfl⟩ | ⟨-, hfailed, -⟩
          · exact hdelete.2.trans htmp
          · exact (hfailed.tmp hsome rfl).trans htmp
        refine ⟨[], ?_, fun _ => rfl⟩
        rw [put_log_back, if_neg (by simp [hback]), if_neg Bool.false_ne_true, if_pos hsome,
          List.append_nil]
        dsimp only
        rw [hend, hkept, hr]
      | true =>
        rcases hfailed with ⟨-, hno, -⟩ | ⟨hok, hfailed, hstays⟩
        · cases hno
        · obtain ⟨more, hr⟩ := hfailed.moved hsome rfl log htmp
          obtain ⟨more', hr'⟩ := hmore newrefname _ hr
          refine ⟨more ++ more', ?_, ?_⟩
          · rw [put_log_back, if_neg (by simp [hback]), if_pos rfl]
            dsimp only
            rw [hend, hr', List.append_assoc]
          · rintro (hold | hlater)
            · rw [hold orig_sha1 hread] at hok
              cases hok
            · cases hstays hsome hlater
    · intro hrestores hold hobjects
      rw [put_log_back_refs]
      refine read_ref_congr (fun name => ?_) newrefname
      rw [put_back_refs hvalid hlookup hshrunk hrestores]
      split
      · next hname => rw [hname, hlookup]
      · next hne =>
        rcases hfailed with ⟨-, -, rfl⟩ | ⟨hok, -, -⟩
        · rw [delete_ref_lookup orig_sha1 (htmprefs ▸ hobjects) hne, htmprefs]
        · rw [hold orig_sha1 hread] at hok
          cases hok

/-! ## A full disk -/

/-- `"refs/heads/b"` -/
def branch_b : Bytes := REFS_HEADS ++ [98]

/-- Two branches, the first one with a reflog. -/
def two_branches : store where
  refs := {
    loose := [(branch_a, .object (Vector.replicate 20 1)),
      (branch_b, .object (Vector.replicate 20 2))]
    packed := []
    apart := by decide }
  logs path := if path = branch_a then some [LF] else none

def commits : surroundings where
  has_sha1_file _ := true
  parse_object _ := some true
  S_ISLNK _ := false
  who := ⟨[97], [97], 0, 0, by simp [LF], by decide, Nat.succ_pos 99⟩
  log_all_ref_updates := true

def no_delete_failures : delete_failures := ⟨false, false, false, false⟩

def no_log_failures : log_failures := ⟨false, false, none⟩

/-- Only the write of the new reference fails. -/
def full_disk : failures where
  log_to_tmp := false
  delete_old := no_delete_failures
  delete_new := no_delete_failures
  delete_new_EISDIR := false
  remove_new_directories := false
  log_directories := false
  tmp_to_new := []
  lock_new := false
  write_new := ⟨true, no_log_failures, no_log_failures, no_log_failures, false⟩
  lock_old := false
  write_old := ⟨false, no_log_failures, no_log_failures, no_log_failures, false⟩
  log_to_old := false

theorem the_old_branch_is_back :
    read_ref (rename_ref commits full_disk two_branches branch_a branch_b []).2.refs branch_a =
        read_ref two_branches.refs branch_a ∧
      ∃ more, (rename_ref commits full_disk two_branches branch_a branch_b []).2.logs branch_a =
        some ([LF] ++ more) := by
  obtain ⟨-, href, hlog, -⟩ := rename_ref_rolls_back commits full_disk two_branches branch_a
    branch_b [] (by decide)
  constructor
  · refine href ⟨rfl, fun _ _ => ⟨true, rfl, fun _ => rfl⟩, rfl, rfl, rfl, by decide, rfl, ?_⟩
    exact ⟨by decide, by decide⟩
  · obtain ⟨more, hmore, -⟩ := hlog rfl [LF] (by decide)
    exact ⟨more, hmore⟩

/-- The branch that the new name had is gone. -/
theorem the_new_branch_is_lost :
    (rename_ref commits full_disk two_branches branch_a branch_b []).1 ≠ 0 ∧
      read_ref two_branches.refs branch_b = some (Vector.replicate 20 2) ∧
      read_ref (rename_ref commits full_disk two_branches branch_a branch_b []).2.refs branch_b =
        none := by
  decide

end git.rename
