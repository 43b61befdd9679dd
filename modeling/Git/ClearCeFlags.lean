-- `clear_ce_flags` of `unpack-trees.c`: one sweep over the index that goes down into the
-- directories, with the verdict of a directory handed down to what is in it.
import Git.CoherentUpdate
import Git.Exclude

namespace git.sparse

open git.dir (surroundings exclude dtype cstring excluded_from_list base_length)

/-! ## The sweep -/

/-- What is the same in all calls: the masks, and the exclude list with what is around it. -/
structure sweep where
  w : surroundings
  basebuf : Bytes
  el : List exclude
  select_mask : BitVec 32
  clear_mask : BitVec 32
  ntohl : BitVec 32 → BitVec 32

def ce_to_dtype (s : sweep) (ce : cache_entry) : dtype :=
  let ce_mode := s.ntohl ce.ce_mode
  if S_ISREG ce_mode then .DT_REG
  else if S_ISDIR ce_mode || S_ISGITLINK ce_mode then .DT_DIR
  else if S_ISLNK ce_mode then .DT_LNK
  else .DT_UNKNOWN

/-- `excluded_from_list`: `none` for undecided. -/
def sweep.verdict (s : sweep) (pathname basename : Bytes) (dtype : dtype) : Option Bool :=
  (excluded_from_list s.w s.basebuf pathname basename s.el.reverse dtype).1

/-- The bytes written over a buffer from place `i` on. -/
def put (buf : Bytes) (i : Nat) (bytes : Bytes) : Bytes :=
  buf.take i ++ bytes ++ buf.drop (i + bytes.length)

/-- What a call leaves: the entries and the buffer of the path, the return value, and the
names of the entries that it asked about, one after the other. -/
structure swept where
  cache : List cache_entry
  path : Bytes
  processed : Nat
  asked : List Bytes

/-- One more entry in front. -/
def swept.after (ce : cache_entry) (asked : List Bytes) (r : swept) : swept :=
  ⟨ce :: r.cache, r.path, r.processed + 1, asked ++ r.asked⟩

/-- `next` goes on behind the entries that `r` processed. -/
def swept.join (r next : swept) : swept :=
  ⟨r.cache.take r.processed ++ next.cache, next.path, r.processed + next.processed,
    r.asked ++ next.asked⟩

/-- `select_mask && !(ce->ce_flags & select_mask)`, turned around. -/
def sweep.passes (s : sweep) (ce : cache_entry) : Bool :=
  s.select_mask == 0 || ce.has s.select_mask

/-- `strncmp(ce->name, prefix, prefix_len)` is 0. -/
def starts (name path : Bytes) (path_len : Nat) : Bool := name.take path_len == path.take path_len

mutual

/-- Whole directory matching: `basename` is a place in the buffer. -/
def clear_ce_flags_dir (s : sweep) :
    Nat → List cache_entry → Bytes → Nat → Nat → Bool → Option swept
  | 0, _, _, _, _, _ => none
  | fuel + 1, cache, path, path_len, basename, defval =>
    let ret := s.verdict (path.take path_len) (cstring (path.drop basename)) .DT_DIR
    let path := put path path_len [SLASH]
    let path_len := path_len + 1
    -- If undecided, use matching result of parent dir in defval
    let ret := ret.getD defval
    let run := cache.takeWhile fun ce => starts ce.name path path_len
    (clear_ce_flags_1 s fuel run path path_len ret).map fun r =>
      { r with cache := r.cache ++ cache.drop run.length }

/-- The loop from some entry on. `none`: it does not come back in these turns. -/
def clear_ce_flags_1 (s : sweep) :
    Nat → List cache_entry → Bytes → Nat → Bool → Option swept
  | 0, _, _, _, _ => none
  | _ + 1, [], path, _, _ => some ⟨[], path, 0, []⟩
  | fuel + 1, ce :: rest, path, path_len, defval =>
    if !s.passes ce then
      (clear_ce_flags_1 s fuel rest path path_len defval).map (swept.after ce [])
    else if path_len ≠ 0 ∧ !starts ce.name path path_len then some ⟨ce :: rest, path, 0, []⟩
    else
      match before_slash (ce.name.drop path_len) with
      -- If it's a directory, try whole directory match first
      | some name =>
        match clear_ce_flags_dir s fuel (ce :: rest) (put path path_len (name ++ [0]))
          (path_len + name.length) path_len defval with
        | none => none
        | some r =>
          -- clear_c_f_dir eats a whole dir already?
          if r.processed ≠ 0 then
            (clear_ce_flags_1 s fuel (r.cache.drop r.processed) r.path path_len defval).map r.join
          else
            match clear_ce_flags_1 s fuel r.cache
              (put r.path (path_len + name.length) [SLASH]) (path_len + name.length + 1) defval with
            | none => none
            | some r' =>
              (clear_ce_flags_1 s fuel (r'.cache.drop r'.processed) r'.path path_len defval).map
                r'.join
      -- Non-directory
      | none =>
        let ret := (s.verdict ce.name (ce.name.drop path_len) (ce_to_dtype s ce)).getD defval
        (clear_ce_flags_1 s fuel rest path path_len defval).map
          (swept.after (if ret then ce.clear s.clear_mask else ce) [ce.name])

end

/-- More turns than the loops can take. -/
def turns (cache : List cache_entry) : Nat := cache.length + 2 * name_bound cache + 1

/-- `path` is the buffer, with whatever stands in it. -/
def clear_ce_flags (s : sweep) (cache : List cache_entry) (path : Bytes) : Option swept :=
  clear_ce_flags_1 s (turns cache) cache path 0 false

/-! ## What it is for -/

/-- The name behind the last slash. -/
def last_component (pathname : Bytes) : Bytes := pathname.drop (base_length pathname)

/-- The verdict on the directory that ends at a slash of the name. -/
def sweep.dir_verdict (s : sweep) (name : Bytes) (slash : Nat) : Option Bool :=
  s.verdict (name.take slash) (last_component (name.take slash)) .DT_DIR

/-- The verdict on the nearest decided directory of an entry, of those that end at `n` or
behind. -/
def sweep.inherited (s : sweep) (n : Nat) (name : Bytes) : Option Bool :=
  ((slashes name).filter fun slash => n ≤ slash).findSome? (s.dir_verdict name)

/-- The verdict on the entry itself, on its nearest decided directory, or `defval`. -/
def sweep.decides (s : sweep) (n : Nat) (defval : Bool) (ce : cache_entry) : Bool :=
  (s.verdict ce.name (last_component ce.name) (ce_to_dtype s ce)).getD
    ((s.inherited n ce.name).getD defval)

def sweep.cleared (s : sweep) (n : Nat) (defval : Bool) (ce : cache_entry) : cache_entry :=
  if s.passes ce && s.decides n defval ce then ce.clear s.clear_mask else ce

/-- All entries of `cache` are done, once each. -/
structure Done (s : sweep) (cache : List cache_entry) (n : Nat) (defval : Bool) (r : swept) :
    Prop where
  entries : r.cache = cache.map (s.cleared n defval)
  processed : r.processed = cache.length
  asked : r.asked = (cache.filter s.passes).map (·.name)

/-! ## The buffer -/

theorem take_put_all (path bytes : Bytes) {i : Nat} (hi : i ≤ path.length) :
    (put path i bytes).take (i + bytes.length) = path.take i ++ bytes := by
  have hlen : (path.take i ++ bytes).length = i + bytes.length := by
    rw [List.length_append, List.length_take_of_le hi]
  rw [put, ← hlen, List.take_left]

/-- The string that is terminated in the buffer. -/
theorem cstring_put (path : Bytes) {name : Bytes} {i : Nat} (hi : i ≤ path.length)
    (h0 : (0 : UInt8) ∉ name) : cstring ((put path i (name ++ [0])).drop i) = name := by
  have hlen : (path.take i).length = i := List.length_take_of_le hi
  have hname : ∀ c ∈ name, decide (c ≠ 0) = true := by
    intro c hc
    refine decide_eq_true ?_
    rintro rfl
    exact h0 hc
  have hdrop : (put path i (name ++ [0])).drop i =
      name ++ 0 :: path.drop (i + (name ++ [0]).length) := by
    rw [put, List.append_assoc]
    conv_lhs => rw [← hlen]
    rw [hlen, List.drop_left' hlen]
    simp
  rw [hdrop, cstring, List.takeWhile_append_of_pos hname]
  simp

theorem le_length_of_take {path base : Bytes} (h : path.take base.length = base) :
    base.length ≤ path.length := by
  have hlen := congrArg List.length h
  rw [List.length_take] at hlen
  omega

/-! ## Directories of a name -/

/-- A directory as the sweep has it: none, or with its slash. -/
def IsBase (base : Bytes) : Prop := base = [] ∨ base.getLast? = some SLASH

theorem isBase_subdir (base name : Bytes) : IsBase (subdir base name) := by
  right
  rw [subdir, List.getLast?_append]
  rfl

theorem last_component_append {base name : Bytes} (hb : IsBase base) (hn : SLASH ∉ name) :
    last_component (base ++ name) = name := by
  have hname : ∀ c ∈ name.reverse, decide (c ≠ SLASH) = true := by
    intro c hc
    refine decide_eq_true ?_
    rintro rfl
    exact hn (List.mem_reverse.mp hc)
  have htake : (base ++ name).reverse.takeWhile (fun c => decide (c ≠ SLASH)) = name.reverse := by
    rw [List.reverse_append, List.takeWhile_append_of_pos hname]
    rcases hb with rfl | hb
    · simp
    · obtain ⟨front, rfl⟩ := List.getLast?_eq_some_iff.mp hb
      simp
  have hlen : base_length (base ++ name) = base.length := by
    unfold base_length
    rw [htake, List.length_reverse, List.length_append, Nat.add_sub_cancel]
  rw [last_component, hlen, List.drop_left]

/-- The slashes of a name behind a directory: the one that ends the next component, and
those behind it. -/
theorem slashes_behind {base name rest : Bytes} (hn : SLASH ∉ name) :
    (slashes (base ++ (name ++ SLASH :: rest))).filter (fun i => base.length ≤ i) =
      (slashes (base ++ (name ++ SLASH :: rest))).filter
        (fun i => (subdir base name).length ≤ i) ++ [base.length + name.length] := by
  let full := base ++ (name ++ SLASH :: rest)
  let k := base.length + name.length
  have hk : full[k]? = some SLASH := by
    rw [List.getElem?_append_right (Nat.le_add_right _ _), Nat.add_sub_cancel_left,
      List.getElem?_append_right (le_refl _), Nat.sub_self]
    rfl
  have hplain : ∀ i, base.length ≤ i → i < k → full[i]? ≠ some SLASH := by
    intro i hle hlt h
    rw [List.getElem?_append_right hle, List.getElem?_append_left (by omega)] at h
    exact hn (List.mem_of_getElem? h)
  have hsub : (subdir base name).length = k + 1 := by simp [subdir, k, Nat.add_assoc]
  have hl : ((slashes full).filter fun i => base.length ≤ i).Pairwise (· > ·) :=
    (slashes_descend full).filter _
  have hr : ((slashes full).filter (fun i => (subdir base name).length ≤ i) ++ [k]).Pairwise
      (· > ·) := by
    refine List.pairwise_append.mpr
      ⟨(slashes_descend full).filter _, List.pairwise_singleton _ _, ?_⟩
    intro i hi j hj
    rw [List.mem_filter, decide_eq_true_eq, hsub] at hi
    rw [List.mem_singleton.mp hj]
    exact hi.2
  have hmem : ∀ i, i ∈ (slashes full).filter (fun i => base.length ≤ i) ↔
      i ∈ (slashes full).filter (fun i => (subdir base name).length ≤ i) ++ [k] := by
    intro i
    rw [List.mem_append, List.mem_filter, List.mem_filter, List.mem_singleton, mem_slashes,
      decide_eq_true_eq, decide_eq_true_eq, hsub]
    constructor
    · rintro ⟨hi, hle⟩
      by_cases hik : i < k
      · exact absurd hi (hplain i hle hik)
      · by_cases hek : i = k
        · exact .inr hek
        · exact .inl ⟨hi, by omega⟩
    · rintro (⟨hi, hle⟩ | rfl)
      · exact ⟨hi, by omega⟩
      · exact ⟨hk, Nat.le_add_right _ _⟩
  refine List.Perm.eq_of_pairwise (fun a b _ _ h1 h2 => absurd h1 (lt_asymm h2)) hl hr ?_
  exact (List.perm_ext_iff_of_nodup (hl.imp fun h => (ne_of_gt h)) (hr.imp fun h => ne_of_gt h)).mpr
    hmem

theorem slashes_none {base name : Bytes} (hn : SLASH ∉ name) :
    (slashes (base ++ name)).filter (fun i => base.length ≤ i) = [] := by
  rw [List.filter_eq_nil_iff]
  intro i hi hle
  rw [mem_slashes] at hi
  rw [List.getElem?_append_right (of_decide_eq_true hle)] at hi
  exact hn (List.mem_of_getElem? hi)

variable {s : sweep}

/-- What a directory hands down. -/
theorem decides_subdir {base name : Bytes} {ce : cache_entry} (defval : Bool) (hb : IsBase base)
    (hn : SLASH ∉ name) (hce : subdir base name <+: ce.name) :
    s.decides base.length defval ce =
      s.decides (subdir base name).length
        ((s.verdict (base ++ name) name .DT_DIR).getD defval) ce := by
  obtain ⟨rest, hrest⟩ := hce
  have hname : ce.name = base ++ (name ++ SLASH :: rest) := by
    rw [← hrest, subdir]
    simp
  have htake : ce.name.take (base.length + name.length) = base ++ name := by
    rw [hname, ← List.append_assoc, ← List.length_append, List.take_left]
  have hdir : s.dir_verdict ce.name (base.length + name.length) =
      s.verdict (base ++ name) name .DT_DIR := by
    rw [sweep.dir_verdict, htake, last_component_append hb hn]
  have hinherited : s.inherited base.length ce.name =
      (s.inherited (subdir base name).length ce.name).or
        (s.verdict (base ++ name) name .DT_DIR) := by
    rw [sweep.inherited, sweep.inherited, hname, slashes_behind hn, ← hname,
      List.findSome?_append, List.findSome?_singleton, hdir]
  rw [sweep.decides, sweep.decides, hinherited]
  cases s.inherited (subdir base name).length ce.name <;> rfl

theorem decides_file {base : Bytes} {ce : cache_entry} (defval : Bool) (hb : IsBase base)
    (hce : base <+: ce.name) (hn : SLASH ∉ ce.name.drop base.length) :
    s.decides base.length defval ce =
      (s.verdict ce.name (ce.name.drop base.length) (ce_to_dtype s ce)).getD defval := by
  obtain ⟨name, hname⟩ := hce
  rw [← hname, List.drop_left] at hn
  have hdrop : ce.name.drop base.length = name := by rw [← hname, List.drop_left]
  have hlast : last_component ce.name = name := by rw [← hname, last_component_append hb hn]
  rw [sweep.decides, sweep.inherited, hlast, hdrop, ← hname, slashes_none hn]
  rfl

/-! ## One sweep -/

/-- What a call needs: the buffer starts with the directory, all entries are in it, and the
turns are enough for the entries and for the `depth` bytes behind the directory. -/
structure Ready (cache : List cache_entry) (path base : Bytes) (depth fuel : Nat) : Prop where
  at_base : path.take base.length = base
  is_base : IsBase base
  within : ∀ ce ∈ cache, base <+: ce.name
  nul : ∀ ce ∈ cache, (0 : UInt8) ∉ ce.name
  deep : ∀ ce ∈ cache, ce.name.length ≤ base.length + depth
  enough : cache.length + 2 * depth + 1 ≤ fuel

theorem Ready.rest {cache more : List cache_entry} {path path' base : Bytes} {depth fuel : Nat}
    {ce : cache_entry} (h : Ready (ce :: cache) path base depth (fuel + 1))
    (hp : path'.take base.length = base) (hm : ∀ e ∈ more, e ∈ ce :: cache)
    (hl : more.length ≤ cache.length) : Ready more path' base depth fuel where
  at_base := hp
  is_base := h.is_base
  within := fun e he => h.within e (hm e he)
  nul := fun e he => h.nul e (hm e he)
  deep := fun e he => h.deep e (hm e he)
  enough := by
    have := h.enough
    rw [List.length_cons] at this
    omega

/-- The call for a whole directory: it does the entries in it, and no other. -/
theorem dir_done {ce : cache_entry} {rest : List cache_entry} {path base name : Bytes}
    {depth fuel : Nat} (defval : Bool)
    (ih : ∀ {cache : List cache_entry} {path base : Bytes} {depth : Nat} (defval : Bool),
      Ready cache path base depth fuel → ∃ r,
        clear_ce_flags_1 s fuel cache path base.length defval = some r ∧
          Done s cache base.length defval r ∧ r.path.take base.length = base)
    (h : Ready (ce :: rest) path base depth (fuel + 2))
    (hname : before_slash (ce.name.drop base.length) = some name) :
    ∃ r run after, ce :: rest = run ++ after ∧ run ≠ [] ∧
      clear_ce_flags_dir s (fuel + 1) (ce :: rest) (put path base.length (name ++ [0]))
        (base.length + name.length) base.length defval = some r ∧
      r.cache = run.map (s.cleared base.length defval) ++ after ∧ r.processed = run.length ∧
      r.asked = (run.filter s.passes).map (·.name) ∧ r.path.take base.length = base := by
  obtain ⟨hn, rest', hrest'⟩ := before_slash_some hname
  have hce : ce.name = base ++ (name ++ SLASH :: rest') := by
    obtain ⟨t, ht⟩ := h.within ce List.mem_cons_self
    rw [← ht, List.drop_left] at hrest'
    rw [← ht, hrest']
  have h0 : (0 : UInt8) ∉ name := by
    intro hm
    refine h.nul ce List.mem_cons_self ?_
    rw [hce]
    simp [hm]
  -- the buffer holds the directory, ended by a NUL, and then with its slash
  have hle := le_length_of_take h.at_base
  let path1 := put path base.length (name ++ [0])
  have hpath1 : path1.take (base.length + name.length) = base ++ name := by
    have hall := take_put_all path (name ++ [0]) hle
    rw [h.at_base, List.length_append, ← Nat.add_assoc] at hall
    have hcut := congrArg (List.take (base.length + name.length)) hall
    rw [List.take_take, Nat.min_eq_left (Nat.le_add_right _ _), ← List.append_assoc,
      ← List.length_append, List.take_left] at hcut
    rw [← List.length_append]
    exact hcut
  have hlen1 : base.length + name.length ≤ path1.length := by
    rw [← List.length_append] at hpath1 ⊢
    exact le_length_of_take hpath1
  let path2 := put path1 (base.length + name.length) [SLASH]
  have hsub : (subdir base name).length = base.length + name.length + 1 := by
    simp [subdir, Nat.add_assoc]
  have hpath2 : path2.take (subdir base name).length = subdir base name := by
    have hall := take_put_all path1 [SLASH] hlen1
    rw [hpath1] at hall
    rw [hsub]
    exact hall
  let inside : cache_entry → Bool := fun e => starts e.name path2 (base.length + name.length + 1)
  have hinside : ∀ e, inside e = true ↔ subdir base name <+: e.name := by
    intro e
    rw [List.prefix_iff_eq_take]
    simp only [inside, starts]
    rw [← hsub, hpath2, beq_iff_eq, eq_comm]
  let run := (ce :: rest).takeWhile inside
  let after := (ce :: rest).dropWhile inside
  have hsplit : ce :: rest = run ++ after := (List.takeWhile_append_dropWhile).symm
  have hrun : ∀ e ∈ run, e ∈ ce :: rest ∧ subdir base name <+: e.name := fun e he =>
    ⟨List.takeWhile_subset _ he, (hinside e).mp (List.mem_takeWhile_imp he)⟩
  have hne : run ≠ [] := by
    have hin : inside ce = true := (hinside ce).mpr ⟨rest', by rw [hce, subdir]; simp⟩
    simp only [run]
    rw [List.takeWhile_cons_of_pos hin]
    exact List.cons_ne_nil _ _
  let ret := (s.verdict (base ++ name) name .DT_DIR).getD defval
  have hready : Ready run path2 (subdir base name) (depth - 1) fuel := by
    refine ⟨hpath2, isBase_subdir base name, fun e he => (hrun e he).2,
      fun e he => h.nul e (hrun e he).1, fun e he => ?_, ?_⟩
    · have := h.deep e (hrun e he).1
      omega
    · have hlong := h.deep ce List.mem_cons_self
      have hlen := congrArg List.length hce
      simp only [List.length_append, List.length_cons] at hlen
      have henough := h.enough
      have hshort : run.length ≤ (ce :: rest).length := (List.takeWhile_sublist _).length_le
      omega
  obtain ⟨r, hr, hdone, hpath⟩ := ih ret hready
  refine ⟨{ r with cache := r.cache ++ (ce :: rest).drop run.length }, run, after, hsplit, hne, ?_,
    ?_, hdone.processed, hdone.asked, ?_⟩
  · rw [clear_ce_flags_dir]
    rw [show (put path base.length (name ++ [0])).take (base.length + name.length) = base ++ name
      from hpath1, cstring_put path hle h0]
    rw [hsub] at hr
    rw [show clear_ce_flags_1 s fuel ((ce :: rest).takeWhile fun e => starts e.name
      (put (put path base.length (name ++ [0])) (base.length + name.length) [SLASH])
        (base.length + name.length + 1)) _ _ _ = some r from hr]
    rfl
  · have hdrop : (ce :: rest).drop run.length = after := by
      conv_lhs => rw [hsplit]
      rw [List.drop_left]
    rw [hdrop, hdone.entries]
    refine congrArg (· ++ after) ?_
    refine List.map_congr_left fun e he => ?_
    rw [sweep.cleared, sweep.cleared, decides_subdir defval h.is_base hn (hrun e he).2]
  · have hcut := congrArg (List.take base.length) hpath
    rw [List.take_take, Nat.min_eq_left (by omega)] at hcut
    rw [hcut, subdir, List.append_assoc, List.take_left]

theorem sweep_done (fuel : Nat) {cache : List cache_entry} {path base : Bytes} {depth : Nat}
    (defval : Bool) (h : Ready cache path base depth fuel) :
    ∃ r, clear_ce_flags_1 s fuel cache path base.length defval = some r ∧
      Done s cache base.length defval r ∧ r.path.take base.length = base := by
  induction fuel using Nat.strong_induction_on generalizing cache path base depth defval with
  | _ fuel ih =>
    obtain ⟨fuel, rfl⟩ : ∃ n, fuel = n + 1 :=
      Nat.exists_eq_add_of_le' (le_trans (Nat.le_add_left 1 _) h.enough)
    cases cache with
    | nil =>
      exact ⟨_, by rw [clear_ce_flags_1], ⟨rfl, rfl, rfl⟩, h.at_base⟩
    | cons ce rest =>
      have hmem : ∀ e ∈ rest, e ∈ ce :: rest := fun e he => List.mem_cons_of_mem ce he
      obtain ⟨r, hr, hdone, hpath⟩ := ih fuel (Nat.lt_succ_self _) defval
        (h.rest h.at_base hmem (le_refl _))
      rw [clear_ce_flags_1]
      by_cases hpass : s.passes ce = true
      · have hstarts : starts ce.name path base.length = true := by
          rw [starts, h.at_base, beq_iff_eq]
          exact (List.prefix_iff_eq_take.mp (h.within ce List.mem_cons_self)).symm
        rw [hpass, hstarts]
        simp only [Bool.not_true, Bool.false_eq_true, and_false, if_false]
        cases hname : before_slash (ce.name.drop base.length) with
        | none =>
          -- a file in the directory itself
          rw [before_slash_none] at hname
          have hdec := decides_file (s := s) defval h.is_base (h.within ce List.mem_cons_self) hname
          dsimp only
          rw [hr]
          refine ⟨_, rfl, ⟨?_, ?_, ?_⟩, hpath⟩
          · rw [swept.after, List.map_cons, hdone.entries, sweep.cleared, hpass, Bool.true_and,
              hdec]
          · rw [swept.after, List.length_cons, hdone.processed]
          · rw [swept.after, List.filter_cons_of_pos hpass, List.map_cons, hdone.asked]
            rfl
        | some name =>
          -- a directory: the entries in it, and then those behind
          obtain ⟨hn, rest', hrest'⟩ := before_slash_some hname
          obtain ⟨fuel, rfl⟩ : ∃ n, fuel = n + 1 := by
            refine Nat.exists_eq_add_of_le' ?_
            have henough := h.enough
            have hlong := h.deep ce List.mem_cons_self
            have hlen := congrArg List.length hrest'
            simp only [List.length_drop, List.length_append, List.length_cons] at hlen
            omega
          obtain ⟨r1, run, after, hsplit, hne, hr1, hcache1, hproc1, hasked1, hpath1⟩ :=
            dir_done defval (fun defval h => ih fuel (by omega) defval h) h hname
          have hrun : 0 < run.length := List.length_pos_of_ne_nil hne
          have hlen := congrArg List.length hsplit
          rw [List.length_cons, List.length_append] at hlen
          have hdrop : r1.cache.drop r1.processed = after := by
            rw [hcache1, hproc1, List.drop_left' (by rw [List.length_map])]
          have htake : r1.cache.take r1.processed = run.map (s.cleared base.length defval) := by
            rw [hcache1, hproc1, List.take_left' (by rw [List.length_map])]
          obtain ⟨r2, hr2, hdone2, hpath2⟩ := ih (fuel + 1) (Nat.lt_succ_self _) defval
            (h.rest hpath1 (fun e (he : e ∈ after) => hsplit ▸ List.mem_append_right run he)
              (by omega))
          dsimp only
          rw [hr1]
          dsimp only
          rw [if_pos (by omega), hdrop, hr2]
          refine ⟨_, rfl, ⟨?_, ?_, ?_⟩, hpath2⟩
          · rw [swept.join, htake, hdone2.entries, hsplit, List.map_append]
          · rw [swept.join, hproc1, hdone2.processed, hsplit, List.length_append]
          · rw [swept.join, hasked1, hdone2.asked, hsplit, List.filter_append, List.map_append]
      · rw [Bool.not_eq_true] at hpass
        rw [hpass, hr]
        refine ⟨_, rfl, ⟨?_, ?_, ?_⟩, hpath⟩
        · rw [swept.after, List.map_cons, hdone.entries, sweep.cleared, hpass]
          rfl
        · rw [swept.after, List.length_cons, hdone.processed]
        · rw [swept.after, List.filter_cons_of_neg (by simp [hpass]), hdone.asked]
          rfl

/-! ## The whole index -/

/-- The verdict on the entry itself when it is decided, or else on its nearest directory with
a decided one, or else not excluded. -/
def sweep.excluded (s : sweep) (ce : cache_entry) : Bool :=
  (s.verdict ce.name (last_component ce.name) (ce_to_dtype s ce)).getD
    (((slashes ce.name).findSome? (s.dir_verdict ce.name)).getD false)

theorem decides_all (s : sweep) (ce : cache_entry) : s.decides 0 false ce = s.excluded ce := by
  have hall : (slashes ce.name).filter (fun slash => 0 ≤ slash) = slashes ce.name :=
    List.filter_eq_self.mpr fun _ _ => rfl
  rw [sweep.decides, sweep.excluded, sweep.inherited, hall]

/-- The pattern `a`, and all entries selected. -/
def exclude_a : sweep where
  w := ⟨false, fun _ => .missing, fun _ => none, fun _ => .DT_UNKNOWN⟩
  basebuf := []
  el := dir.add_exclude [97] (.string []) 0 []
  select_mask := 0
  clear_mask := CE_NEW_SKIP_WORKTREE
  ntohl := id

/-- The file `a/b` is in an excluded directory. -/
example : exclude_a.excluded (file_a_b 0) = true := by decide

end git.sparse
