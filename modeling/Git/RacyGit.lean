-- Files that are written in the second of the index: work-tree writes and commands in any
-- order, with a clock of whole seconds.
import Git.RacyEntries
import Git.IndexRoundTrip

namespace git.racy

/-! ## The repository -/

/-- The clock, the files, and the index file: its entries as they were written, and when.
Without an index file there are no entries and the time is 0. -/
structure repository where
  now : Int
  lstat : Bytes → Option worktree_file
  index : List cache_entry
  mtime : cache_time

/-- The names of contents and the object store are those of `env`. -/
def repository.wt (r : repository) (env : index_env) : worktree := { env.wt with lstat := r.lstat }

def repository.env (r : repository) (env : index_env) : index_env := { env with wt := r.wt env }

/-- What `read_cache` gives of the file, by `read_index_from_written`. -/
structure ReadCache (r : repository) (istate : index_state) : Prop where
  cache : istate.cache = r.index.map fun ce => add_name_hash istate (loaded ce)
  timestamp : istate.timestamp = r.mtime

/-- What a command does with the index. -/
inductive operation where
  /-- `add_file_to_index` -/
  | add (path : Bytes) (flags : add_flags)
  /-- `refresh_index` -/
  | refresh (flags : refresh_flags) (pathspec : Bytes → Bool)

/-- `none` where git dies. -/
def operation.run (cfg : config) (wt : worktree) (istate : index_state) :
    operation → Option index_state
  | .add path flags =>
    match wt.lstat path with
    | none => none
    | some f => (add_to_index cfg wt istate path f flags).map (·.1)
  | .refresh flags pathspec => (refresh_index cfg wt istate flags pathspec).map (·.1)

/-- The indexes that a command comes to have in core. -/
inductive InCore (env : index_env) (r : repository) : index_state → Prop
  | read {istate : index_state} : ReadCache r istate → InCore env r istate
  | then {istate istate' : index_state} (op : operation) : InCore env r istate →
      op.run env.cfg (r.wt env) istate = some istate' → InCore env r istate'

/-- What stands at a path after a write in the second `now`. -/
structure WrittenAt (now : Int) (f : worktree_file) : Prop where
  mtime : f.st.st_mtime = now
  size : S_ISREG f.st.st_mode → ∃ data, f.data = some data ∧ f.st.st_size = data.length

/-- A step of the run. -/
inductive Step (env : index_env) : repository → repository → Prop
  | tick {r : repository} {now : Int} : r.now ≤ now → Step env r { r with now := now }
  | write {r : repository} {path : Bytes} {file : Option worktree_file} :
      (∀ f, file = some f → WrittenAt r.now f) →
      Step env r { r with lstat := Function.update r.lstat path file }
  | command {r : repository} {istate istate' : index_state} {nsec : BitVec 32} {file : Bytes} :
      InCore env r istate →
      write_index (r.env env) (some ⟨unsigned_time r.now, nsec⟩) istate = some (istate', file) →
      Step env r
        { r with index := istate'.cache.filter live, mtime := ⟨unsigned_time r.now, nsec⟩ }

/-- Before the first command. -/
structure First (r : repository) : Prop where
  index : r.index = []
  mtime : r.mtime = ⟨0, 0⟩
  size : ∀ path f, r.lstat path = some f → S_ISREG f.st.st_mode →
    ∃ data, f.data = some data ∧ f.st.st_size = data.length

/-- The clock is one that an `unsigned int` tells from 0, and where an entry says that a file
is empty, the file does not have a length of `2 ^ 32` or a multiple of it. -/
structure Tellable (env : index_env) (r : repository) : Prop where
  after_epoch : 0 < r.now
  in_range : r.now < 2 ^ 32
  no_wrap : ∀ istate, InCore env r istate → ∀ ce ∈ istate.cache, Watched ce →
    is_empty_blob_sha1 ce.sha1 → ∀ f data, r.lstat ce.name = some f → S_ISREG f.st.st_mode →
    f.data = some data → data.length % 2 ^ 32 = 0 → data = []

/-- The runs through states of `kind`. -/
inductive Run (env : index_env) (kind : repository → Prop) : repository → Prop
  | first {r : repository} : First r → kind r → Run env kind r
  | step {r r' : repository} : Run env kind r → Step env r r' → kind r' → Run env kind r'

/-- `ie_modified` calls a file unchanged only if its content has the name of the entry. -/
def RacySafe (env : index_env) (r : repository) : Prop :=
  ∀ istate, InCore env r istate → ∀ ce ∈ istate.cache,
    ce.has CE_VALID = false → ce_skip_worktree ce = false →
    ∀ f, r.lstat ce.name = some f → S_ISREG f.st.st_mode →
    ∀ options, ie_modified env.cfg (r.wt env) istate ce f options = some 0 →
      ∃ data, f.data = some data ∧ env.wt.hash_blob data = ce.sha1

/-! ## What a match says -/

variable {env : index_env} {cfg : config} {wt : worktree} {istate : index_state}
  {ce : cache_entry} {f : worktree_file}

/-- Of a file that matches, the entry has the time and the size. -/
theorem match_fields (hfile : S_ISGITLINK ce.ce_mode = false)
    (h : ce_match_stat_basic cfg ce f = some 0) :
    ce.ce_mtime.sec = unsigned_time f.st.st_mtime ∧ ce.ce_size = unsigned_int f.st.st_size ∧
      (ce.ce_size = 0 → is_empty_blob_sha1 ce.sha1) := by
  have hall : MODE_CHANGED ||| DATA_CHANGED ||| TYPE_CHANGED ≠ 0 := by decide
  have hmtime : MTIME_CHANGED ≠ 0 := by decide
  have hdata : DATA_CHANGED ≠ 0 := by decide
  have hfields : stat_changed cfg ce f.st = 0 := by
    unfold ce_match_stat_basic at h
    by_cases hrem : ce.has CE_REMOVE
    · rw [if_pos hrem] at h
      exact absurd (Option.some.inj h) hall
    rw [if_neg hrem] at h
    by_cases hr : S_ISREG ce.ce_mode
    · rw [if_pos hr] at h
      exact (BitVec.or_eq_zero_iff.mp (Option.some.inj h)).2
    rw [if_neg hr] at h
    by_cases hl : S_ISLNK ce.ce_mode
    · rw [if_pos hl] at h
      exact (BitVec.or_eq_zero_iff.mp (Option.some.inj h)).2
    rw [if_neg hl, hfile] at h
    cases h
  unfold stat_changed at hfields
  obtain ⟨hfields, he⟩ := BitVec.or_eq_zero_iff.mp hfields
  obtain ⟨hfields, hs⟩ := BitVec.or_eq_zero_iff.mp hfields
  obtain ⟨hfields, -⟩ := BitVec.or_eq_zero_iff.mp hfields
  obtain ⟨hfields, -⟩ := BitVec.or_eq_zero_iff.mp hfields
  obtain ⟨hm, -⟩ := BitVec.or_eq_zero_iff.mp hfields
  refine ⟨?_, ?_, fun h0 => ?_⟩
  · by_contra hne
    exact hmtime (by rwa [if_pos hne] at hm)
  · by_contra hne
    exact hdata (by rwa [if_pos hne] at hs)
  · by_contra hne
    exact hdata (by rwa [if_pos ⟨h0, hne⟩] at he)

/-- A file that matches has the content of the entry. -/
def MatchHonest (cfg : config) (wt : worktree) (ce : cache_entry) : Prop :=
  Watched ce → ∀ f, wt.lstat ce.name = some f → S_ISREG f.st.st_mode →
    ce_match_stat_basic cfg ce f = some 0 → Honest wt ce f

theorem MatchHonest.safe (h : MatchHonest cfg wt ce) (hup : ce_uptodate ce = false) :
    Safe cfg wt istate ce := by
  refine ⟨fun hw f hf hreg hbasic _ => h hw f hf hreg hbasic, fun _ hmark => ?_⟩
  rw [hup] at hmark
  exact absurd hmark Bool.false_ne_true

theorem MatchHonest.reflag {ce' : cache_entry} (h : MatchHonest cfg wt ce)
    (hsame : Reflagged ce ce') (hrem : ce'.has CE_REMOVE = ce.has CE_REMOVE)
    (hwatched : Watched ce' → Watched ce) : MatchHonest cfg wt ce' := by
  intro hw f hf hreg hbasic data hdata
  have hname : ce'.name = ce.name := by rw [hsame]
  have hsha1 : ce'.sha1 = ce.sha1 := by rw [hsame]
  rw [hname] at hf
  rw [match_stat_basic_congr hsame hrem] at hbasic
  rw [hsha1]
  exact h (hwatched hw) f hf hreg hbasic data hdata

/-! ## Writing the index -/

/-- When the index is written, the racily clean entries lose their sizes, and all others that
match are what their files have. -/
theorem as_written_honest (hsafe : Safe env.cfg env.wt istate ce)
    (hempty : env.wt.hash_blob [] = EMPTY_BLOB_SHA1_BIN)
    (hsize : ∀ f, env.wt.lstat ce.name = some f → S_ISREG f.st.st_mode →
      ∃ data, f.data = some data ∧ f.st.st_size = data.length ∧
        (Watched ce → is_empty_blob_sha1 ce.sha1 → data.length % 2 ^ 32 = 0 → data = [])) :
    MatchHonest env.cfg env.wt (as_written env istate ce) := by
  unfold as_written
  by_cases hsmudged : !ce_uptodate ce && is_racy_timestamp istate ce &&
      racily_clean env.cfg env.wt ce
  · -- only a file without content matches a size of 0
    rw [if_pos hsmudged]
    intro hw f hf hreg hbasic data hdata
    obtain ⟨-, hfsize, hblob⟩ := match_fields hw.not_gitlink hbasic
    obtain ⟨data', hdata', hlen, hwrap⟩ := hsize f hf hreg
    rw [hdata] at hdata'
    cases hdata'
    dsimp only at hfsize
    have hzero : data.length % 2 ^ 32 = 0 := by
      have := congrArg BitVec.toNat hfsize
      rw [hlen, unsigned_int, BitVec.toNat_ofNat] at this
      exact this.symm
    have hwatched : Watched ce := ⟨hw.not_valid, hw.not_skipped, hw.not_intent, hw.not_gitlink⟩
    rw [hwrap hwatched (hblob rfl) hzero, hempty]
    exact (beq_iff_eq.mp (hblob rfl)).symm
  · rw [if_neg hsmudged]
    intro hw f hf hreg hbasic
    by_cases hup : ce_uptodate ce
    · exact hsafe.uptodate hw hup f hf hreg
    by_cases hracy : is_racy_timestamp istate ce
    · rw [Bool.not_eq_true] at hup
      rw [hup, hracy, Bool.not_false, Bool.true_and, Bool.true_and, racily_clean, hf] at hsmudged
      dsimp only at hsmudged
      rw [hbasic] at hsmudged
      have hfs : ce_modified_check_fs env.wt ce f = 0 := by simpa using hsmudged
      exact modified_check_fs_honest hreg hfs
    · rw [Bool.not_eq_true] at hracy
      exact hsafe.matched hw f hf hreg hbasic hracy

/-! ## Reading it again -/

theorem loaded_flags (ce : cache_entry) :
    (loaded ce).ce_flags = ce.ce_flags &&& (0xffff ||| CE_EXTENDED_FLAGS) := by
  rw [BitVec.and_or_distrib_left]
  rfl

theorem has_loaded (ce : cache_entry) {keep : BitVec 32}
    (h : (0xffff ||| CE_EXTENDED_FLAGS) &&& keep = keep) : (loaded ce).has keep = ce.has keep := by
  rw [cache_entry.has, loaded_flags, BitVec.and_assoc, h]
  rfl

/-- A flag that is not on disk is gone. -/
theorem not_has_loaded (ce : cache_entry) {flag : BitVec 32}
    (h : (0xffff ||| CE_EXTENDED_FLAGS) &&& flag = 0) : (loaded ce).has flag = false := by
  rw [cache_entry.has, loaded_flags, BitVec.and_assoc, h]
  simp

/-- The flags of an entry as it was read. -/
theorem has_read (s : index_state) (ce : cache_entry) {keep : BitVec 32}
    (h1 : CE_UNHASHED &&& keep = 0) (h2 : CE_HASHED &&& keep = 0)
    (h : (0xffff ||| CE_EXTENDED_FLAGS) &&& keep = keep) :
    (add_name_hash s (loaded ce)).has keep = ce.has keep := by
  rw [has_add_name_hash s _ h1 h2, has_loaded ce h]

theorem not_uptodate_read (s : index_state) (ce : cache_entry) :
    ce_uptodate (add_name_hash s (loaded ce)) = false := by
  rw [ce_uptodate, has_add_name_hash s _ (by decide) (by decide)]
  exact not_has_loaded ce (by decide)

theorem reflagged_read (s : index_state) (ce : cache_entry) :
    Reflagged ce (add_name_hash s (loaded ce)) := by
  unfold Reflagged
  have h := reflagged_add_name_hash s (loaded ce)
  unfold Reflagged at h
  rw [h]
  rfl

theorem MatchHonest.read (s : index_state) (h : MatchHonest cfg wt ce) (hlive : live ce) :
    MatchHonest cfg wt (add_name_hash s (loaded ce)) := by
  refine h.reflag (reflagged_read s ce) ?_ ?_
  · rw [has_add_name_hash s _ (by decide) (by decide), not_has_loaded ce (by decide)]
    simpa [live] using hlive
  · rintro ⟨hvalid, hskip, hintent, hfile⟩
    rw [has_read s ce (by decide) (by decide) (by decide)] at hvalid hintent
    rw [ce_skip_worktree, has_read s ce (by decide) (by decide) (by decide)] at hskip
    rw [reflagged_read s ce] at hfile
    exact ⟨hvalid, hskip, hintent, hfile⟩

theorem watched_reduce : Watched (reduce_extended ce) → Watched ce := by
  rintro ⟨hvalid, hskip, hintent, hfile⟩
  rw [reduce_extended_has ce (by decide)] at hvalid hintent
  rw [ce_skip_worktree, reduce_extended_has ce (by decide)] at hskip
  rw [reduce_extended_eq] at hfile
  exact ⟨hvalid, hskip, hintent, hfile⟩

theorem Safe.reduce (h : Safe cfg wt istate ce) : Safe cfg wt istate (reduce_extended ce) := by
  refine h.reflag (reduce_extended_eq ce) (reduce_extended_has ce (by decide)) watched_reduce ?_
  intro _ hmark
  rw [ce_uptodate, reduce_extended_has ce (by decide)] at hmark
  exact Or.inl hmark

/-! ## A run -/

/-- What holds after every step: the files are as long as `lstat` says, the index is not
younger than the clock, and its entries can be trusted when they are read. -/
structure Settled (env : index_env) (r : repository) : Prop where
  size : ∀ path f, r.lstat path = some f → S_ISREG f.st.st_mode →
    ∃ data, f.data = some data ∧ f.st.st_size = data.length
  stamp : r.index = [] ∨ ∃ t : Int, 0 < t ∧ t < 2 ^ 32 ∧ t ≤ r.now ∧ r.mtime.sec = unsigned_time t
  safe : ∀ istate, ReadCache r istate → AllSafe env.cfg (r.wt env) istate

variable {r r' : repository}

theorem Settled.in_core (h : Settled env r) (hin : InCore env r istate) :
    AllSafe env.cfg (r.wt env) istate ∧ istate.timestamp = r.mtime := by
  induction hin with
  | read hread => exact ⟨h.safe _ hread, hread.timestamp⟩
  | «then» op _ hrun ih =>
    obtain ⟨hall, htime⟩ := ih
    cases op with
    | add path flags =>
      cases hf : (r.wt env).lstat path with
      | none => simp [operation.run, hf] at hrun
      | some f =>
        simp only [operation.run, hf] at hrun
        obtain ⟨⟨istate', ok⟩, hadd, rfl⟩ := Option.map_eq_some_iff.mp hrun
        obtain ⟨hall', htime'⟩ := add_to_index_safe hall hf hadd
        exact ⟨hall', htime'.trans htime⟩
    | refresh flags pathspec =>
      obtain ⟨⟨istate', errors⟩, href, rfl⟩ := Option.map_eq_some_iff.mp hrun
      obtain ⟨hall', htime'⟩ := refresh_index_safe hall href
      exact ⟨hall', htime'.trans htime⟩

theorem settled_first (h : First r) : Settled env r := by
  refine ⟨h.size, Or.inl h.index, fun istate hread ce hce => ?_⟩
  rw [hread.cache, h.index] at hce
  exact absurd hce List.not_mem_nil

theorem settled_tick {now : Int} (h : Settled env r) (hle : r.now ≤ now) :
    Settled env { r with now := now } := by
  refine ⟨h.size, h.stamp.imp_right ?_, fun istate hread => h.safe istate ⟨hread.1, hread.2⟩⟩
  rintro ⟨t, hpos, hlt, hnow, hsec⟩
  exact ⟨t, hpos, hlt, hnow.trans hle, hsec⟩

theorem unsigned_time_toNat {t : Int} (h0 : 0 ≤ t) (h : t < 2 ^ 32) :
    ((unsigned_time t).toNat : Int) = t := by
  rw [unsigned_time, BitVec.toNat_ofInt]
  omega

/-- A file that was written in this second matches no entry that is older than the index. -/
theorem settled_write {path : Bytes} {file : Option worktree_file} (h : Settled env r)
    (hr : Tellable env r) (hfile : ∀ f, file = some f → WrittenAt r.now f) :
    Settled env { r with lstat := Function.update r.lstat path file } := by
  refine ⟨fun p f hf hreg => ?_, h.stamp, fun istate hread ce hce => ?_⟩
  · dsimp only at hf
    by_cases hp : p = path
    · rw [hp, Function.update_self] at hf
      exact (hfile f hf).size hreg
    · rw [Function.update_of_ne hp] at hf
      exact h.size p f hf hreg
  · have hsafe := h.safe istate ⟨hread.1, hread.2⟩ ce hce
    have hup : ce_uptodate ce = false := by
      rw [hread.cache] at hce
      obtain ⟨e, -, rfl⟩ := List.mem_map.mp hce
      exact not_uptodate_read istate e
    refine ⟨fun hw f hf hreg hbasic hracy => ?_, fun _ hmark => ?_⟩
    · change Function.update r.lstat path file ce.name = some f at hf
      by_cases hp : ce.name = path
      · -- a racy entry: the time of the file is not before that of the index
        rw [hp, Function.update_self] at hf
        obtain ⟨hsec, -, -⟩ := match_fields hw.not_gitlink hbasic
        rw [(hfile f hf).mtime] at hsec
        rcases h.stamp with hnil | ⟨t, hpos, hlt, hle, hstamp⟩
        · rw [hread.cache] at hce
          dsimp only at hce
          rw [hnil] at hce
          exact absurd hce List.not_mem_nil
        · have ht := unsigned_time_toNat hpos.le hlt
          have hnow := unsigned_time_toNat hr.after_epoch.le hr.in_range
          rw [is_racy_timestamp, hread.timestamp, hw.not_gitlink, hsec] at hracy
          dsimp only at hracy
          rw [hstamp] at hracy
          have hne : unsigned_time t ≠ 0 := by
            intro h0
            rw [h0] at ht
            have : ((0 : BitVec 32).toNat : Int) = 0 := rfl
            omega
          have hyoung : unsigned_time t ≤ unsigned_time r.now := by
            rw [BitVec.le_def]
            omega
          have hzero : unsigned_time t = 0 := by simpa [hyoung] using hracy
          exact absurd hzero hne
      · rw [Function.update_of_ne hp] at hf
        exact hsafe.matched hw f hf hreg hbasic hracy
    · rw [hup] at hmark
      exact absurd hmark Bool.false_ne_true

theorem settled_command {istate' : index_state} {nsec : BitVec 32} {file : Bytes}
    (hempty : env.wt.hash_blob [] = EMPTY_BLOB_SHA1_BIN) (h : Settled env r) (hr : Tellable env r)
    (hin : InCore env r istate)
    (hwrite : write_index (r.env env) (some ⟨unsigned_time r.now, nsec⟩) istate =
      some (istate', file)) :
    Settled env
      { r with index := istate'.cache.filter live, mtime := ⟨unsigned_time r.now, nsec⟩ } := by
  refine ⟨h.size, Or.inr ⟨r.now, hr.after_epoch, hr.in_range, le_refl _, rfl⟩,
    fun reader hread ce hce => ?_⟩
  obtain ⟨hcache, -, -⟩ := write_index_spec hwrite
  rw [hread.cache] at hce
  obtain ⟨e, he, rfl⟩ := List.mem_map.mp hce
  obtain ⟨he, hlive⟩ := List.mem_filter.mp he
  rw [hcache] at he
  obtain ⟨ce1, hce1, rfl⟩ := List.mem_map.mp he
  obtain ⟨ce0, hce0, rfl⟩ := List.mem_map.mp hce1
  have hsafe := Safe.reduce ((h.in_core hin).1 ce0 hce0)
  have hhonest : MatchHonest (r.env env).cfg (r.env env).wt
      (as_written (r.env env) istate (reduce_extended ce0)) := by
    refine as_written_honest hsafe hempty fun f hf hreg => ?_
    rw [reduce_extended_eq] at hf
    obtain ⟨data, hdata, hlen⟩ := h.size _ f hf hreg
    refine ⟨data, hdata, hlen, fun hw hblob => ?_⟩
    rw [reduce_extended_eq] at hblob
    exact hr.no_wrap istate hin ce0 hce0 (watched_reduce hw) hblob f data hf hreg hdata
  have hleft : left_in_core (r.env env) istate (reduce_extended ce0) =
      as_written (r.env env) istate (reduce_extended ce0) := by
    rw [live_left_in_core, live, Bool.not_eq_true'] at hlive
    rw [left_in_core, hlive, if_neg Bool.false_ne_true]
  rw [hleft] at hlive ⊢
  exact (hhonest.read reader hlive).safe (not_uptodate_read reader _)

theorem settled_step (hempty : env.wt.hash_blob [] = EMPTY_BLOB_SHA1_BIN) (h : Settled env r)
    (hr : Tellable env r) (hstep : Step env r r') : Settled env r' := by
  cases hstep with
  | tick hle => exact settled_tick h hle
  | write hfile => exact settled_write h hr hfile
  | command hin hwrite => exact settled_command hempty h hr hin hwrite

theorem Run.settled (hempty : env.wt.hash_blob [] = EMPTY_BLOB_SHA1_BIN)
    (h : Run env (Tellable env) r) : Tellable env r ∧ Settled env r := by
  induction h with
  | first hfirst hr => exact ⟨hr, settled_first hfirst⟩
  | step _ hstep hr ih => exact ⟨hr, settled_step hempty ih.2 ih.1 hstep⟩

/-! ## What `ie_modified` calls unchanged -/

/-- A change of type or mode is not looked into. -/
theorem modified_of_type {changed : BitVec 32} {options : match_option}
    (h : ie_match_stat cfg wt istate ce f options = some changed)
    (htype : changed &&& (MODE_CHANGED ||| TYPE_CHANGED) ≠ 0) :
    ie_modified cfg wt istate ce f options ≠ some 0 := by
  have hne : changed ≠ 0 := by
    rintro rfl
    exact htype BitVec.zero_and
  unfold ie_modified
  simp only [h]
  rw [if_neg hne, if_pos htype]
  exact fun h0 => hne (Option.some.inj h0)

/-- An entry that is to be added, or that is for a repository, has another file always. -/
theorem watched_of_unmodified {options : match_option} (hvalid : ce.has CE_VALID = false)
    (hskip : ce_skip_worktree ce = false) (hreg : S_ISREG f.st.st_mode)
    (h : ie_modified cfg wt istate ce f options = some 0) : Watched ce := by
  have hnotintent : ce.has CE_INTENT_TO_ADD = false := by
    by_contra hintent
    rw [Bool.not_eq_false] at hintent
    have hmatch : ie_match_stat cfg wt istate ce f options =
        some (DATA_CHANGED ||| TYPE_CHANGED ||| MODE_CHANGED) := by
      rw [ie_match_stat, hskip, hvalid, Bool.and_false, Bool.and_false,
        if_neg Bool.false_ne_true, if_neg Bool.false_ne_true, if_pos hintent]
    exact modified_of_type hmatch (by decide) h
  refine ⟨hvalid, hskip, hnotintent, ?_⟩
  by_contra hlink
  rw [Bool.not_eq_false] at hlink
  have hmode : ce.ce_mode &&& S_IFMT = S_IFGITLINK := by simpa [S_ISGITLINK] using hlink
  have hfmt : f.st.st_mode &&& S_IFMT = S_IFREG := by simpa [S_ISREG] using hreg
  have hbasic : ∃ changed, ce_match_stat_basic cfg ce f = some changed ∧ changed ≠ 0 ∧
      changed &&& (MODE_CHANGED ||| TYPE_CHANGED) ≠ 0 := by
    have hr : S_ISREG ce.ce_mode = false := by
      rw [S_ISREG, hmode]
      decide
    have hl : S_ISLNK ce.ce_mode = false := by
      rw [S_ISLNK, hmode]
      decide
    have hd : S_ISDIR f.st.st_mode = false := by
      rw [S_ISDIR, hfmt]
      decide
    unfold ce_match_stat_basic
    rw [hr, hl, hlink, hd]
    by_cases hrem : ce.has CE_REMOVE
    · rw [if_pos hrem]
      exact ⟨_, rfl, by decide, by decide⟩
    · rw [if_neg hrem]
      exact ⟨TYPE_CHANGED, rfl, by decide, by decide⟩
  obtain ⟨changed, hbasic, hne, htype⟩ := hbasic
  have hmatch : ie_match_stat cfg wt istate ce f options = some changed := by
    unfold ie_match_stat
    simp only [hskip, hvalid, hnotintent, hbasic, hne, Bool.and_false, Bool.false_eq_true,
      false_and, if_false]
  exact modified_of_type hmatch htype h

/-! ## Two files -/

/-- The names of the empty blob and of the blob of `2 ^ 32` zeros. -/
def blob_name (data : Bytes) : Sha1 :=
  if data = [] then EMPTY_BLOB_SHA1_BIN
  else
    #v[0x45, 0x19, 0x71, 0xa3, 0x1e, 0xa5, 0xa2, 0x07, 0xa1, 0x0b,
       0x39, 0x1d, 0xf2, 0xd5, 0x94, 0x99, 0x10, 0x13, 0x35, 0x65]

def blob_env : index_env := { racy_env with wt := ⟨fun _ => none, blob_name, fun _ => none⟩ }

/-- A file that was written in the second 10. -/
def file_at_10 (data : Bytes) : worktree_file where
  st := ⟨0o100644, 10, 0, 10, 0, 0, 0, 0, 0, data.length⟩
  data := some data
  head := none

/-- Two files `f` and `g`, the second of which is empty. -/
def two_files (data : Bytes) (path : Bytes) : Option worktree_file :=
  if path = [102] then some (file_at_10 data)
  else if path = [103] then some (file_at_10 [])
  else none

def before : repository := ⟨10, two_files [], [], ⟨0, 0⟩⟩

/-- The entry for an empty file of the second 10, as it is on disk. -/
def empty_entry (name : UInt8) : cache_entry where
  ce_ctime := ⟨10, 0⟩
  ce_mtime := ⟨10, 0⟩
  ce_dev := 0
  ce_ino := 0
  ce_mode := 0o100644
  ce_uid := 0
  ce_gid := 0
  ce_size := 0
  ce_flags := 1
  sha1 := EMPTY_BLOB_SHA1_BIN
  name := [name]

/-- The files do not matter for what is added. -/
theorem add_to_index_congr (lstat : Bytes → Option worktree_file) (path : Bytes)
    (flags : add_flags) : add_to_index cfg { wt with lstat := lstat } istate path f flags =
      add_to_index cfg wt istate path f flags := rfl

/-- The command that adds an empty file leaves its entry. -/
theorem add_empty (r : repository) (hr : ReadCache r istate) (name : UInt8) {cache : List cache_entry}
    (hf : r.lstat [name] = some (file_at_10 []))
    (hadd : (add_to_index blob_env.cfg blob_env.wt istate [name] (file_at_10 []) ⟨false, false⟩).map
      (fun a => (a.1.cache, a.1.timestamp)) = some (cache, r.mtime))
    (hgood : ∀ ce ∈ cache, Storable ce ∧ KnownMode ce) :
    ∃ istate', InCore blob_env r istate' ∧ istate'.cache = cache ∧ istate'.timestamp = r.mtime ∧
      ∃ istate'' file, write_index (r.env blob_env) (some ⟨unsigned_time r.now, 0⟩) istate' =
        some (istate'', file) := by
  obtain ⟨a, ha, heq⟩ := Option.map_eq_some_iff.mp hadd
  rw [Prod.mk.injEq] at heq
  refine ⟨a.1, .then (.add [name] ⟨false, false⟩) (.read hr) ?_, heq.1, heq.2, ?_⟩
  · simp only [operation.run, repository.wt, hf]
    rw [add_to_index_congr, ha]
    rfl
  · have hgood' : ∀ ce ∈ a.1.cache, Storable ce ∧ KnownMode ce := by
      rw [heq.1]
      exact hgood
    have htakes : ∀ bs, (r.env blob_env).takes bs = true := fun _ => rfl
    obtain ⟨⟨istate'', file⟩, hwrite⟩ := write_index_total htakes ⟨unsigned_time r.now, 0⟩ hgood'
    exact ⟨istate'', file, hwrite⟩

/-- Entries of size 0 are written as they are. -/
theorem written_empty {istate' : index_state} {st : Option cache_time} {file : Bytes}
    (hwrite : write_index env st istate = some (istate', file))
    (hsize : ∀ ce ∈ istate.cache, ce.ce_size = 0) :
    istate'.cache = istate.cache.map reduce_extended := by
  obtain ⟨hcache, -, -⟩ := write_index_spec hwrite
  rw [hcache, List.map_map]
  apply List.map_congr_left
  intro ce hce
  have hzero : (reduce_extended ce).ce_size = 0 := by
    rw [reduce_extended_eq]
    exact hsize ce hce
  rw [Function.comp_apply, left_in_core]
  split_ifs
  · rfl
  · rcases as_written_eq env istate (reduce_extended ce) with h | h
    · exact h
    · rw [h, ← hzero]

/-- The entry of an empty file, just added. -/
def added_empty (name : UInt8) : cache_entry :=
  (empty_entry name).mark (CE_UPTODATE ||| CE_ADDED)

/-- The index after `f` was added. -/
def after : repository := ⟨10, two_files [], [added_empty 102], ⟨10, 0⟩⟩

theorem step_add_f : Step blob_env before after := by
  have hread : ReadCache before index_state.empty := ⟨rfl, rfl⟩
  have hadd : (add_to_index blob_env.cfg blob_env.wt index_state.empty [102] (file_at_10 [])
      ⟨false, false⟩).map (fun a => (a.1.cache, a.1.timestamp)) =
        some ([added_empty 102], before.mtime) := by decide
  obtain ⟨istate, hin, hcache, -, istate', file, hwrite⟩ := add_empty before hread 102 rfl hadd (by
    intro ce hce
    rw [List.mem_singleton.mp hce]
    exact ⟨⟨by decide, by decide, by decide⟩, Or.inl (by decide)⟩)
  have hleft := written_empty hwrite (by
    rw [hcache]
    decide)
  have hstep := Step.command hin hwrite
  rw [hleft, hcache] at hstep
  exact hstep

theorem tellable_of_empty {r : repository} (hfiles : r.lstat = two_files []) (hpos : 0 < r.now)
    (hlt : r.now < 2 ^ 32) : Tellable blob_env r := by
  refine ⟨hpos, hlt, fun istate _ ce _ _ _ f data hf _ hdata _ => ?_⟩
  rw [hfiles, two_files] at hf
  have hempty : f = file_at_10 [] := by
    split_ifs at hf
    · exact (Option.some.inj hf).symm
    · exact (Option.some.inj hf).symm
  rw [hempty] at hdata
  exact (Option.some.inj hdata).symm

theorem first_before : First before := by
  refine ⟨rfl, rfl, fun path f hf _ => ⟨[], ?_⟩⟩
  have hempty : f = file_at_10 [] := by
    change two_files [] path = some f at hf
    unfold two_files at hf
    split_ifs at hf
    · exact (Option.some.inj hf).symm
    · exact (Option.some.inj hf).symm
  rw [hempty]
  exact ⟨rfl, rfl⟩

/-! ## The whole run -/

/-- **Racy git is safe** in every run where the clock stays within an `unsigned int` and no file
that counts as empty is longer. -/
theorem racy_git_is_safe (hempty : env.wt.hash_blob [] = EMPTY_BLOB_SHA1_BIN)
    (h : Run env (Tellable env) r) : RacySafe env r := by
  obtain ⟨-, hsettled⟩ := h.settled hempty
  intro istate hin ce hce hvalid hskip f hf hreg options hsame
  have hsafe := (hsettled.in_core hin).1 ce hce
  have hw := watched_of_unmodified hvalid hskip hreg hsame
  obtain ⟨data, hdata, -⟩ := hsettled.size _ f hf hreg
  exact ⟨data, hdata, modified_honest hsafe hw hf hreg hsame data hdata⟩

theorem an_empty_file_is_safe : RacySafe blob_env after :=
  racy_git_is_safe (by decide)
    (.step (.first first_before (tellable_of_empty rfl (by decide) (by decide))) step_add_f
      (tellable_of_empty rfl (by decide) (by decide)))

/-- After `f` was written again, and `g` was added in the second 11. -/
def rewritten (data : Bytes) : repository :=
  ⟨11, two_files data, [empty_entry 102, added_empty 103], ⟨11, 0⟩⟩

theorem step_write_f (data : Bytes) :
    Step blob_env after { after with lstat := two_files data } := by
  have hstep := @Step.write blob_env after [102] (some (file_at_10 data)) fun f hf => by
    cases hf
    exact ⟨rfl, fun _ => ⟨data, rfl, rfl⟩⟩
  have hfiles : Function.update (two_files []) [102] (some (file_at_10 data)) = two_files data := by
    funext path
    by_cases h : path = [102]
    · rw [h, Function.update_self, two_files, if_pos rfl]
    · rw [Function.update_of_ne h, two_files, two_files, if_neg h, if_neg h]
  change Step blob_env after
    { after with lstat := Function.update (two_files []) [102] (some (file_at_10 data)) } at hstep
  rw [hfiles] at hstep
  exact hstep

/-- What the second command reads. -/
def index_after : index_state :=
  { index_state.empty with cache := [empty_entry 102], timestamp := ⟨10, 0⟩ }

/-- What is read after it. -/
def index_rewritten : index_state :=
  { index_state.empty with cache := [empty_entry 102, empty_entry 103], timestamp := ⟨11, 0⟩ }

theorem step_add_g (data : Bytes) :
    Step blob_env { after with now := 11, lstat := two_files data } (rewritten data) := by
  have hcache : index_after.cache =
      after.index.map fun ce => add_name_hash index_after (loaded ce) := by decide
  have hread : ReadCache { after with now := 11, lstat := two_files data } index_after :=
    ⟨hcache, rfl⟩
  have hadd : (add_to_index blob_env.cfg blob_env.wt index_after [103] (file_at_10 [])
      ⟨false, false⟩).map (fun a => (a.1.cache, a.1.timestamp)) =
        some ([empty_entry 102, added_empty 103], after.mtime) := by decide
  obtain ⟨istate, hin, hcache, -, istate', file, hwrite⟩ :=
    add_empty { after with now := 11, lstat := two_files data } hread 103 rfl hadd (by
        intro ce hce
        rcases List.mem_pair.mp hce with rfl | rfl
        · exact ⟨⟨by decide, by decide, by decide⟩, Or.inl (by decide)⟩
        · exact ⟨⟨by decide, by decide, by decide⟩, Or.inl (by decide)⟩)
  have hleft := written_empty hwrite (by
    rw [hcache]
    decide)
  have hstep := Step.command hin hwrite
  rw [hleft, hcache] at hstep
  exact hstep

/-- A size of `2 ^ 32` is one of 0 in the entry. -/
theorem four_gigabytes_match {data : Bytes} (hlen : data.length = 2 ^ 32) :
    ie_modified blob_env.cfg ((rewritten data).wt blob_env) index_rewritten (empty_entry 102)
      (file_at_10 data) ⟨false, false, false⟩ = some 0 := by
  have hbasic : ce_match_stat_basic blob_env.cfg (empty_entry 102) (file_at_10 data) = some 0 := by
    have hclosed : ce_match_stat_basic blob_env.cfg (empty_entry 102)
        { file_at_10 [] with st := ⟨0o100644, 10, 0, 10, 0, 0, 0, 0, 0, 2 ^ 32⟩ } = some 0 := by
      decide
    rw [file_at_10, hlen]
    exact hclosed
  have hracy : is_racy_timestamp index_rewritten (empty_entry 102) = false := by decide
  have hvalid : (empty_entry 102).has CE_VALID = false := by decide
  have hskip : ce_skip_worktree (empty_entry 102) = false := by decide
  have hintent : (empty_entry 102).has CE_INTENT_TO_ADD = false := by decide
  unfold ie_modified ie_match_stat
  simp [hvalid, hskip, hintent, hbasic, hracy]

/-- A file that was empty when it was added, and has four gigabytes since that second. -/
theorem four_gigabytes_count_as_empty :
    ¬∀ r, Run blob_env (fun _ => True) r → RacySafe blob_env r := by
  intro h
  obtain ⟨data, hlen⟩ : ∃ data : Bytes, data.length = 2 ^ 32 :=
    ⟨List.replicate (2 ^ 32) 0, List.length_replicate⟩
  have hne : data ≠ [] := by
    rintro rfl
    rw [List.length_nil] at hlen
    omega
  have hrun : Run blob_env (fun _ => True) (rewritten data) := by
    refine .step (.step (.step (.step (.first first_before trivial) step_add_f trivial)
      (step_write_f data) trivial) (.tick ?_) trivial) (step_add_g data) trivial
    change (10 : Int) ≤ 11
    omega
  have hread : index_rewritten.cache =
      [empty_entry 102, added_empty 103].map
        fun ce => add_name_hash index_rewritten (loaded ce) := by decide
  have hreg : S_ISREG 0o100644 := by decide
  obtain ⟨data', hdata', hname⟩ := h _ hrun index_rewritten (.read ⟨hread, rfl⟩) (empty_entry 102)
    List.mem_cons_self (by decide) (by decide) (file_at_10 data) rfl hreg _
    (four_gigabytes_match hlen)
  cases hdata'
  change blob_name data = EMPTY_BLOB_SHA1_BIN at hname
  rw [blob_name, if_neg hne] at hname
  exact absurd hname (by decide)

end git.racy
