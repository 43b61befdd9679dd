-- What a lookup in the hash of names finds, when its links lead where they should: the names
-- that are the same but for their case have one hash, and so have their directories.
import Git.NameHashLinks

open git.hashes forest threads

namespace git.index_names

/-! ## Case -/

theorem of_all_bytes {P : UInt8 → Prop} (h : ∀ n : Fin 256, P (UInt8.ofNat n)) (c : UInt8) :
    P c := by
  have hc := h ⟨c.toNat, c.toNat_lt⟩
  rwa [UInt8.ofNat_toNat] at hc

set_option maxRecDepth 20000 in
theorem icase_hash_toupper (c : UInt8) : icase_hash (toupper c) = icase_hash c :=
  of_all_bytes (P := fun c => icase_hash (toupper c) = icase_hash c) (by decide) c

set_option maxRecDepth 20000 in
theorem toupper_slash (c : UInt8) : toupper c = SLASH ↔ c = SLASH :=
  of_all_bytes (P := fun c => toupper c = SLASH ↔ c = SLASH) (by decide) c

/-- The name in upper case. -/
def upper (name : Bytes) : Bytes := name.map toupper

theorem hash_name_upper (name : Bytes) : hash_name (upper name) = hash_name name := by
  unfold hash_name upper
  rw [List.foldl_map]
  simp only [icase_hash_toupper]

theorem hash_name_congr {a b : Bytes} (h : upper a = upper b) : hash_name a = hash_name b := by
  rw [← hash_name_upper a, h, hash_name_upper]

theorem ends_in_slash_congr {a b : Bytes} (h : upper a = upper b) :
    ends_in_slash a = ends_in_slash b := by
  have hlast : ∀ name : Bytes, ends_in_slash name = ends_in_slash (upper name) := by
    intro name
    unfold ends_in_slash upper
    rw [List.getLast?_map]
    cases name.getLast? with
    | none => rfl
    | some c => simp [toupper_slash]
  rw [hlast a, h, ← hlast b]

/-! ## The same name -/

def HasName (icase : Bool) (name ce_name : Bytes) : Prop :=
  if icase then upper ce_name = upper name else ce_name = name

/-- `name` has its slash. -/
def Under (name ce_name : Bytes) : Prop := upper name <+: upper ce_name

theorem slow_same_name_iff (a b : Bytes) : slow_same_name a b = true ↔ upper a = upper b := by
  unfold slow_same_name upper
  by_cases hlen : a.length = b.length
  · rw [if_pos hlen]
    induction a generalizing b with
    | nil =>
      rw [List.length_nil, eq_comm, List.length_eq_zero_iff] at hlen
      simp [hlen]
    | cons x a ih =>
      cases b with
      | nil => cases hlen
      | cons y b =>
        have hone : (decide (x = y) || decide (toupper x = toupper y)) = true ↔
            toupper x = toupper y := by
          rw [Bool.or_eq_true, decide_eq_true_iff, decide_eq_true_iff]
          exact or_iff_right_of_imp (congrArg toupper)
        rw [List.zip_cons_cons, List.all_cons, Bool.and_eq_true, hone,
          ih b (Nat.succ.inj hlen), List.map_cons, List.map_cons, List.cons.injEq]
  · rw [if_neg hlen]
    refine iff_of_false Bool.false_ne_true fun heq => hlen ?_
    have := congrArg List.length heq
    rwa [List.length_map, List.length_map] at this

theorem name_flags {n : Nat} (h : n < 0x1000) :
    (BitVec.ofNat 32 n &&& CE_NAMEMASK).toNat = n := by
  unfold CE_NAMEMASK
  rw [BitVec.toNat_and, BitVec.toNat_ofNat, Nat.mod_eq_of_lt (by omega)]
  exact (Nat.and_two_pow_sub_one_eq_mod n 12).trans (Nat.mod_eq_of_lt h)

/-- The exact comparison, of names that `CE_NAMEMASK` has the length of. -/
theorem compare_exactly {name ce_name : Bytes} (hshort : name.length < 0x1000) :
    (ce_name.length = name.length ∧ cache_name_compare name (BitVec.ofNat 32 name.length) ce_name
      (BitVec.ofNat 32 ce_name.length) = .eq) ↔ ce_name = name := by
  constructor
  · rintro ⟨hlen, hcmp⟩
    have hord := cache_name_compare_compares name (BitVec.ofNat 32 name.length) ce_name
      (BitVec.ofNat 32 ce_name.length) (by rw [name_flags hshort])
      (by rw [hlen, name_flags hshort])
    rw [hcmp] at hord
    have hkey : cache_key name (BitVec.ofNat 32 name.length) =
        cache_key ce_name (BitVec.ofNat 32 ce_name.length) := hord
    have htake := congrArg (fun k => (ofLex k).1) hkey
    simp only [cache_key, ofLex_toLex] at htake
    rw [hlen, name_flags hshort, List.take_length, ← hlen, List.take_length] at htake
    exact htake.symm
  · rintro rfl
    refine ⟨rfl, ?_⟩
    have hord := cache_name_compare_compares ce_name (BitVec.ofNat 32 ce_name.length) ce_name
      (BitVec.ofNat 32 ce_name.length) (by rw [name_flags hshort]) (by rw [name_flags hshort])
    revert hord
    cases cache_name_compare ce_name (BitVec.ofNat 32 ce_name.length) ce_name
      (BitVec.ofNat 32 ce_name.length) with
    | lt => exact fun h => absurd h (lt_irrefl _)
    | eq => exact fun _ => rfl
    | gt => exact fun h => absurd h (lt_irrefl _)

theorem under_iff_take (name ce_name : Bytes) :
    Under name ce_name ↔ upper name = upper (ce_name.take (min name.length ce_name.length)) := by
  unfold Under upper
  rw [List.prefix_iff_eq_take, List.length_map, ← List.map_take]
  rcases Nat.le_total name.length ce_name.length with hle | hle
  · rw [Nat.min_eq_left hle]
  · rw [Nat.min_eq_right hle, List.take_length, List.take_of_length_le hle]

/-- What is compared: a directory with the first part of a name, all else with the whole. -/
theorem same_name_iff {name ce_name : Bytes} (hshort : name.length < 0x1000) (icase : Bool) :
    same_name ce_name name icase = true ↔
      if icase && ends_in_slash name then Under name ce_name else HasName icase name ce_name := by
  unfold same_name HasName
  simp only [compare_exactly hshort]
  by_cases hsame : ce_name = name
  · rw [if_pos hsame, hsame]
    refine iff_of_true rfl ?_
    split_ifs
    · exact List.prefix_refl _
    · rfl
    · rfl
  · rw [if_neg hsame]
    cases icase with
    | false => simp [hsame]
    | true =>
      cases hslash : ends_in_slash name with
      | false =>
        simp only [Bool.not_true, Bool.not_false, Bool.false_eq_true, Bool.and_false, if_false,
          if_true]
        rw [slow_same_name_iff, eq_comm]
      | true =>
        simp only [Bool.not_true, Bool.false_eq_true, Bool.and_true, if_false, if_true]
        rw [slow_same_name_iff, under_iff_take]

/-! ## The directories -/

theorem mem_directories {t : Bytes} (hslash : ends_in_slash t = true) :
    ∀ (rest seen : Bytes), t <+: rest → seen ++ t ∈ directories seen rest := by
  intro rest
  induction rest generalizing t with
  | nil =>
    intro seen ht
    rw [List.prefix_nil.mp ht] at hslash
    cases hslash
  | cons c rest ih =>
    intro seen ht
    cases t with
    | nil => cases hslash
    | cons x t =>
      obtain ⟨rfl, htail⟩ := List.cons_prefix_cons.mp ht
      rw [List.append_cons]
      unfold directories
      cases t with
      | nil =>
        have hx : x = SLASH := by simpa [ends_in_slash] using hslash
        rw [if_pos hx, List.append_nil]
        exact List.mem_cons_self
      | cons y t =>
        have hrest : ends_in_slash (y :: t) = true := by
          unfold ends_in_slash at hslash ⊢
          rwa [List.getLast?_cons_cons] at hslash
        have hmem := ih hrest (seen ++ [x]) htail
        split_ifs
        · exact List.mem_cons_of_mem _ hmem
        · exact hmem

/-- An entry that is under a directory has the hash of it. -/
theorem Under.dir_key {entry : address → named_entry} {name : Bytes} {ce : address}
    (h : Under name (entry ce).name) (hslash : ends_in_slash name = true) :
    hash_name name ∈ dir_keys entry true ce := by
  have hsame := (under_iff_take name (entry ce).name).mp h
  unfold dir_keys
  rw [if_pos rfl, hash_name_congr hsame]
  refine List.mem_map_of_mem ?_
  have hmem := mem_directories (t := (entry ce).name.take
    (min name.length (entry ce).name.length)) (by rwa [← ends_in_slash_congr hsame])
    (entry ce).name [] (List.take_prefix _ _)
  rwa [List.nil_append] at hmem

theorem HasName.name_key {entry : address → named_entry} {icase : Bool} {name : Bytes}
    {ce : address} (h : HasName icase name (entry ce).name) :
    hash_name name = name_key entry ce := by
  unfold HasName at h
  unfold index_names.name_key
  split_ifs at h with hicase
  · exact (hash_name_congr h).symm
  · rw [h]

/-! ## The walk -/

section

variable {entry : address → named_entry} {ignore_case : Bool} {istate : index_state}

/-- The walk over a chain finds the first entry that is not removed and has the name. -/
theorem find_entry_spec {name : Bytes} {icase : Bool} (l : List address) :
    ∀ (turns : Nat) (first : Option address), l.length ≤ turns →
      Chain (fun ce => if icase && ends_in_slash name then (istate.links ce).dir_next
        else (istate.links ce).next) first l →
      find_entry entry istate name icase turns first = some (l.find? fun ce =>
        !(istate.links ce).CE_UNHASHED && same_name (entry ce).name name icase) := by
  induction l with
  | nil =>
    intro turns first _ hchain
    have hnone : first = none := hchain
    rw [hnone]
    cases turns <;> rfl
  | cons ce l ih =>
    intro turns first hturns hchain
    obtain ⟨turns, rfl⟩ : ∃ n, turns = n + 1 := ⟨turns - 1, by
      rw [List.length_cons] at hturns
      omega⟩
    rw [hchain.1, List.find?_cons]
    unfold find_entry
    cases (!(istate.links ce).CE_UNHASHED && same_name (entry ce).name name icase) with
    | true => rfl
    | false => exact ih turns _ (Nat.le_of_succ_le_succ hturns) hchain.2

/-- What a walk for `name` looks for. -/
def Wanted (icase : Bool) (name ce_name : Bytes) : Prop :=
  if icase && ends_in_slash name then Under name ce_name else HasName icase name ce_name

/-- The entries of the index are those that are in the hash and not removed. -/
def Live (istate : index_state) : Prop :=
  ∀ ce, ce ∈ istate.cache ↔ ce ∈ hashed istate ∧ (istate.links ce).CE_UNHASHED = false

/-- The chain that is walked has all entries that are wanted. -/
theorem Linked.chain {f : UInt32 → Option address} (h : Linked entry ignore_case istate f)
    {name : Bytes} {icase : Bool}
    (hdir : icase = true → ends_in_slash name = true → ignore_case = true) :
    ∃ l, Chain (fun ce => if icase && ends_in_slash name then (istate.links ce).dir_next
        else (istate.links ce).next) (f (hash_name name)) l ∧
      (∀ ce ∈ l, ce ∈ hashed istate) ∧
      ∀ ce ∈ hashed istate, Wanted icase name (entry ce).name → ce ∈ l := by
  unfold Wanted
  cases hcase : (icase && ends_in_slash name) with
  | true =>
    obtain ⟨hicase, hslash⟩ := Bool.and_eq_true_iff.mp hcase
    obtain ⟨l, hl, hsub, hall⟩ := h.by_dir (hash_name name)
    refine ⟨l, hl, hsub, fun ce hce hunder => hall ce hce ?_⟩
    have hkey := Under.dir_key hunder hslash
    rwa [← hdir hicase hslash] at hkey
  | false =>
    obtain ⟨l, hl, hsub, hall⟩ := h.by_name (hash_name name)
    exact ⟨l, hl, hsub, fun ce hce hname => hall ce hce (HasName.name_key hname)⟩

/-- What `find_entry` comes back with is one of the entries that are wanted, if there is one. -/
theorem Linked.find_entry {f : UInt32 → Option address} (h : Linked entry ignore_case istate f)
    (hlive : Live istate) {name : Bytes} (icase : Bool) (hshort : name.length < 0x1000)
    (hdir : icase = true → ends_in_slash name = true → ignore_case = true) :
    ∃ levels found,
      (∀ turns, levels ≤ turns →
        index_names.find_entry entry istate name icase turns (f (hash_name name)) = some found) ∧
      (∀ ce, found = some ce → ce ∈ istate.cache ∧ Wanted icase name (entry ce).name) ∧
      (found = none → ∀ ce ∈ istate.cache, ¬ Wanted icase name (entry ce).name) := by
  obtain ⟨l, hl, hsub, hall⟩ := h.chain hdir
  refine ⟨l.length, _, fun turns hturns => find_entry_spec l turns _ hturns hl, ?_, ?_⟩
  · intro ce hce
    have hmem := List.mem_of_find?_eq_some hce
    have hfound := List.find?_some hce
    simp only [Bool.and_eq_true, Bool.not_eq_true'] at hfound
    exact ⟨(hlive ce).mpr ⟨hsub ce hmem, hfound.1⟩, (same_name_iff hshort icase).mp hfound.2⟩
  · intro hnone ce hce hwanted
    obtain ⟨hhashed, hclear⟩ := (hlive ce).mp hce
    refine List.find?_eq_none.mp hnone ce (hall ce hhashed hwanted) ?_
    rw [hclear, (same_name_iff hshort icase).mpr hwanted]
    rfl

/-- The name is one that the walks can be made for: of some bytes, which `cache_name_compare`
counts, and a directory only where directories are in the hash; and if it is the name of a
submodule with a slash, the entries of that name are submodules. -/
structure Asked (entry : address → named_entry) (ignore_case : Bool) (cache : List address)
    (name : Bytes) (icase : Bool) : Prop where
  some_byte : name ≠ []
  short : name.length < 0x1000
  directory : icase = true → ends_in_slash name = true → ignore_case = true
  submodule : icase = true → ends_in_slash name = true →
    (∃ ce ∈ cache, Under name (entry ce).name) ∨
      (name.dropLast ≠ [] ∧ ends_in_slash name.dropLast = false ∧
        ∀ ce ∈ cache, ∀ ce' ∈ cache, HasName true name.dropLast (entry ce).name →
          HasName true name.dropLast (entry ce').name →
          S_ISGITLINK (entry ce).ce_mode = true → S_ISGITLINK (entry ce').ce_mode = true)

/-- What is asked for: an entry of that name, or under that directory, or a submodule there. -/
def Answers (entry : address → named_entry) (name : Bytes) (icase : Bool) (ce : address) : Prop :=
  HasName icase name (entry ce).name ∨
    icase = true ∧ ends_in_slash name = true ∧
      (Under name (entry ce).name ∨
        S_ISGITLINK (entry ce).ce_mode = true ∧ HasName icase name.dropLast (entry ce).name)

/-- A name that is not looked for as a directory. -/
theorem Linked.name_exists_plain {f : UInt32 → Option address}
    (h : Linked entry ignore_case istate f) (hlive : Live istate) (name : Bytes) (icase : Bool)
    (namelen : Nat) (hshort : (name.take (namelen + 1)).length < 0x1000)
    (hplain : (icase && ends_in_slash (name.take (namelen + 1))) = false) :
    ∃ levels found,
      (∀ turns, levels ≤ turns →
        index_names.name_exists entry turns istate icase name (namelen + 1) = some found) ∧
      (∀ ce, found = some ce →
        ce ∈ istate.cache ∧ HasName icase (name.take (namelen + 1)) (entry ce).name) ∧
      (found = none →
        ∀ ce ∈ istate.cache, ¬ HasName icase (name.take (namelen + 1)) (entry ce).name) := by
  obtain ⟨levels, found, hrun, hsome, hnone⟩ := h.find_entry hlive icase hshort
    fun hicase hslash => by
      rw [hicase, hslash] at hplain
      cases hplain
  simp only [Wanted, hplain, Bool.false_eq_true, if_false] at hsome hnone
  refine ⟨levels, found, fun turns hturns => ?_, hsome, hnone⟩
  unfold index_names.name_exists
  simp only [h.maps.lookup_hash, hrun turns hturns, Option.bind_eq_bind, Option.bind_some, hplain,
    Bool.false_eq_true, if_false]
  cases found <;> rfl

theorem Asked.name_exists {f : UInt32 → Option address} (h : Linked entry ignore_case istate f)
    (hlive : Live istate) {name : Bytes} {icase : Bool}
    (hasked : Asked entry ignore_case istate.cache name icase) :
    ∃ levels found,
      (∀ turns, levels ≤ turns →
        index_names.name_exists entry turns istate icase name name.length = some found) ∧
      (∀ ce, found = some ce → ce ∈ istate.cache ∧ Answers entry name icase ce) ∧
      (found = none → ∀ ce ∈ istate.cache, ¬ Answers entry name icase ce) := by
  have hshort := hasked.short
  obtain ⟨namelen, hlen⟩ := Nat.exists_eq_succ_of_ne_zero
    (mt List.length_eq_zero_iff.mp hasked.some_byte)
  rw [Nat.succ_eq_add_one] at hlen
  have htake : name.take (namelen + 1) = name := by
    rw [← hlen, List.take_length]
  cases hcase : (icase && ends_in_slash name) with
  | false =>
    obtain ⟨levels, found, hrun, hsome, hnone⟩ := h.name_exists_plain hlive name icase
      namelen (by rwa [htake]) (by rwa [htake])
    rw [htake] at hsome hnone
    refine ⟨levels, found, fun turns hturns => ?_, fun ce hce => ?_, fun hempty ce hce hans => ?_⟩
    · rw [hlen]
      exact hrun turns hturns
    · exact ⟨(hsome ce hce).1, Or.inl (hsome ce hce).2⟩
    · rcases hans with hname | ⟨hicase, hslash, -⟩
      · exact hnone hempty ce hce hname
      · rw [hicase, hslash] at hcase
        cases hcase
  | true =>
    obtain ⟨hicase, hslash⟩ := Bool.and_eq_true_iff.mp hcase
    obtain ⟨levels, found, hrun, hsome, hnone⟩ := h.find_entry hlive icase hshort
      hasked.directory
    simp only [Wanted, hcase, if_true] at hsome hnone
    cases found with
    | some ce =>
      refine ⟨levels, some ce, fun turns hturns => ?_, fun ce' hce' => ?_, fun hempty => ?_⟩
      · rw [hlen]
        unfold index_names.name_exists
        simp only [htake, h.maps.lookup_hash, hrun turns hturns, Option.bind_eq_bind,
          Option.bind_some]
      · exact ⟨(hsome ce' hce').1, Or.inr ⟨hicase, hslash, Or.inl (hsome ce' hce').2⟩⟩
      · cases hempty
    | none =>
      have hnothing := hnone rfl
      obtain ⟨hne, hplain, hmodes⟩ := (hasked.submodule hicase hslash).resolve_left
        fun ⟨ce, hce, hunder⟩ => hnothing ce hce hunder
      obtain ⟨namelen, rfl⟩ : ∃ n, namelen = n + 1 := by
        refine Nat.exists_eq_succ_of_ne_zero fun hzero => hne ?_
        rw [← List.length_eq_zero_iff, List.length_dropLast, hlen, hzero]
      have hdrop : name.take (namelen + 1) = name.dropLast := by
        rw [List.dropLast_eq_take, hlen]
        rfl
      obtain ⟨levels', found, hrun', hsome', hnone'⟩ := h.name_exists_plain hlive name icase
        namelen
        (by
          rw [hdrop, List.length_dropLast]
          omega)
        (by rw [hdrop, hplain, Bool.and_false])
      rw [hdrop] at hsome' hnone'
      refine ⟨max levels levels', found.filter fun ce => S_ISGITLINK (entry ce).ce_mode,
        fun turns hturns => ?_, fun ce hce => ?_, fun hempty ce hce hans => ?_⟩
      · rw [hlen]
        unfold index_names.name_exists
        simp only [htake, h.maps.lookup_hash, hrun turns (le_of_max_le_left hturns),
          hrun' turns (le_of_max_le_right hturns), Option.bind_eq_bind, Option.bind_some, hcase,
          if_true]
      · obtain ⟨hfound, hlink⟩ := Option.filter_eq_some_iff.mp hce
        obtain ⟨hmem, hname⟩ := hsome' ce hfound
        exact ⟨hmem, Or.inr ⟨hicase, hslash, Or.inr ⟨hlink, hname⟩⟩⟩
      · rcases hans with hname | ⟨-, -, hunder | ⟨hlink, hname⟩⟩
        · refine hnothing ce hce ?_
          unfold HasName at hname
          rw [if_pos hicase] at hname
          unfold Under
          rw [hname]
        · exact hnothing ce hce hunder
        · cases found with
          | none => exact hnone' rfl ce hce hname
          | some ce' =>
            obtain ⟨hmem', hname'⟩ := hsome' ce' rfl
            rw [hicase] at hname hname'
            have hlink' := hmodes ce hce ce' hmem' hname hname' hlink
            rw [Option.filter_some, hlink'] at hempty
            cases hempty

end

end git.index_names
