-- The calls of `traverse_trees`: one for each name, in all trees that have it, as long as the
-- mask fits into the `int` that the callback returns.
import Git.TraverseTreesLaws

namespace git.tree_walk

variable {n : Nat}

/-! ## Masks -/

theorem getLsbD_one_bit {i j : Nat} (hj : j < 64) : (1#64 <<< i).getLsbD j = true ↔ i = j := by
  rw [BitVec.getLsbD_shiftLeft, BitVec.getLsbD_one]
  simp only [Bool.and_eq_true, Bool.not_eq_true', decide_eq_true_iff, decide_eq_false_iff_not]
  omega

theorem getLsbD_bits_loop (p : name_entry → Bool) (entry : Fin n → Option name_entry)
    (l : List (Fin n)) (mask : BitVec 64) {j : Nat} (hj : j < 64) :
    (l.foldl (fun (mask : BitVec 64) i =>
        if (entry i).any p then mask ||| 1#64 <<< i.val else mask) mask).getLsbD j = true ↔
      mask.getLsbD j = true ∨ ∃ i ∈ l, i.val = j ∧ (entry i).any p = true := by
  induction l generalizing mask with
  | nil => simp
  | cons i l ih =>
    rw [List.foldl_cons, ih, List.exists_mem_cons_iff, ← or_assoc]
    refine or_congr_left ?_
    split_ifs with hp
    · rw [BitVec.getLsbD_or, Bool.or_eq_true, getLsbD_one_bit hj, and_iff_left hp]
    · simp [hp]

/-- The bit of a tree is set if its entry is there and has `p`. -/
theorem getLsbD_bits (hn : n ≤ 64) (p : name_entry → Bool) (entry : Fin n → Option name_entry)
    (j : Nat) :
    (bits p entry).getLsbD j = true ↔ ∃ h : j < n, ∃ e, entry ⟨j, h⟩ = some e ∧ p e = true := by
  by_cases hj : j < 64
  · unfold bits
    rw [getLsbD_bits_loop p entry _ 0#64 hj, BitVec.getLsbD_zero, or_iff_right Bool.false_ne_true]
    constructor
    · rintro ⟨i, -, rfl, hp⟩
      exact ⟨i.isLt, (Option.any_eq_true p (entry i)).mp hp⟩
    · rintro ⟨h, e, he, hp⟩
      refine ⟨⟨j, h⟩, List.mem_finRange _, rfl, ?_⟩
      rw [he]
      exact hp
  · refine iff_of_false ?_ fun ⟨h, _⟩ => hj (by omega)
    rw [BitVec.getLsbD_of_ge _ _ (by omega)]
    exact Bool.false_ne_true

theorem mask_ne_zero (hn : n ≤ 64) {entry : Fin n → Option name_entry} {i : Fin n}
    {e : name_entry} (h : entry i = some e) : (call.of_entries entry).mask ≠ 0#64 := by
  intro hzero
  have hbit := (getLsbD_bits hn (fun _ => true) entry i).mpr ⟨i.isLt, e, h, rfl⟩
  have hmask : bits (fun _ => true) entry = 0#64 := hzero
  rw [hmask, BitVec.getLsbD_zero] at hbit
  cases hbit

theorem mask_eq_zero (hn : n ≤ 64) {entry : Fin n → Option name_entry}
    (h : ∀ i, entry i = none) : (call.of_entries entry).mask = 0#64 := by
  refine BitVec.eq_of_getLsbD_eq fun j _ => ?_
  rw [BitVec.getLsbD_zero, ← Bool.not_eq_true]
  intro hbit
  obtain ⟨hj, e, he, -⟩ := (getLsbD_bits hn (fun _ => true) entry j).mp hbit
  rw [h] at he
  cases he

/-- A mask that is an `int` comes back as it was. -/
theorem full_mask_int {c : call n} (h : ∀ j, 31 ≤ j → c.mask.getLsbD j = false) :
    (full_mask c).slt 0#32 = false ∧ c.mask &&& (full_mask c).signExtend 64 = c.mask := by
  have hmsb : (full_mask c).msb = false := by
    unfold full_mask
    rw [BitVec.msb_setWidth, h (32 - 1) le_rfl, Bool.and_false]
  constructor
  · rw [BitVec.slt_zero_eq_msb]
    exact hmsb
  · refine BitVec.eq_of_getLsbD_eq fun j hj => ?_
    rw [BitVec.getLsbD_and, BitVec.getLsbD_signExtend, hmsb]
    unfold full_mask
    by_cases hlow : j < 31
    · simp [hj, show j < 32 by omega]
    · rw [h j (by omega), Bool.false_and]

/-- And what comes back otherwise is negative, or has no bit from the 32nd on. -/
theorem full_mask_high {c : call n} (h : (full_mask c).slt 0#32 = false) {j : Nat} (hj : 31 ≤ j) :
    (c.mask &&& (full_mask c).signExtend 64).getLsbD j = false := by
  have hmsb : (full_mask c).msb = false := by
    rw [← BitVec.slt_zero_eq_msb]
    exact h
  rw [BitVec.getLsbD_and, BitVec.getLsbD_signExtend, hmsb]
  by_cases hlow : j < 32
  · obtain rfl : j = 31 := by omega
    have hlast : (full_mask c).getLsbD 31 = false := by
      rwa [BitVec.msb_eq_getLsbD_last] at hmsb
    rw [if_pos hlow, hlast, Bool.and_false, Bool.and_false]
  · rw [if_neg hlow, Bool.and_false, Bool.and_false]

/-! ## One round -/

theorem pick_first_loop (entry : Fin n → Option name_entry) (l : List (Fin n)) :
    ∀ first : Option Bytes,
      (l.foldl (fun first i => pick_first first (entry i)) first = none ↔
        first = none ∧ ∀ i ∈ l, entry i = none) ∧
      ∀ name, l.foldl (fun first i => pick_first first (entry i)) first = some name →
        first = some name ∨ ∃ i ∈ l, ∃ e, entry i = some e ∧ e.name = name := by
  induction l with
  | nil => exact fun first => ⟨by simp, fun name h => Or.inl h⟩
  | cons i l ih =>
    intro first
    obtain ⟨hnone, hsome⟩ := ih (pick_first first (entry i))
    rw [List.foldl_cons]
    refine ⟨?_, fun name h => ?_⟩
    · rw [hnone, List.forall_mem_cons, ← and_assoc]
      refine and_congr_left fun _ => ?_
      unfold pick_first
      cases entry i with
      | none => simp
      | some e =>
        cases first with
        | none => simp
        | some first =>
          simp only
          split_ifs <;> simp
    · rcases hsome name h with hpick | ⟨j, hj, hrest⟩
      · unfold pick_first at hpick
        cases hentry : entry i with
        | none =>
          rw [hentry] at hpick
          exact Or.inl hpick
        | some e =>
          rw [hentry] at hpick
          cases first with
          | none =>
            exact Or.inr ⟨i, List.mem_cons_self, e, hentry, Option.some.inj hpick⟩
          | some first =>
            simp only at hpick
            split_ifs at hpick
            · exact Or.inr ⟨i, List.mem_cons_self, e, hentry, Option.some.inj hpick⟩
            · exact Or.inl hpick
      · exact Or.inr ⟨j, List.mem_cons_of_mem i hj, hrest⟩

/-- Of all trees the entries but those with the names `visited` are left. -/
def AllLeft (t : Fin n → tree_desc) (visited : List Bytes) (tx : Fin n → tree_desc_x) : Prop :=
  ∀ i, Left (t i) visited (tx i)

variable {t : Fin n → tree_desc} {visited : List Bytes} {tx : Fin n → tree_desc_x}

/-- Either everything was visited, or a name is picked that was not, and it is taken from all
trees that have it. -/
theorem extract_all_spec (h : AllLeft t visited tx) (ht : ∀ i, Entries (t i)) :
    ((∀ i, (extract_all tx).2 i = none) ∧ ∀ i, ∀ e ∈ t i, e.name ∈ visited) ∨
    ∃ name, name ∉ visited ∧ (∃ i, ∃ e ∈ t i, e.name = name) ∧
      AllLeft t visited (extract_all tx).1 ∧
      ∀ i e, (extract_all tx).2 i = some e ↔ e ∈ t i ∧ e.name = name := by
  have hskip : AllLeft t visited fun i => (extended_entry_extract (tx i) none).1 := by
    intro i
    simp only
    rw [extract_current]
    exact (h i).skip_returned
  obtain ⟨hnone, hsome⟩ := pick_first_loop (fun i => (extended_entry_extract (tx i) none).2)
    (List.finRange n) none
  unfold extract_all
  simp only
  cases hpick : (List.finRange n).foldl
      (fun first i => pick_first first (extended_entry_extract (tx i) none).2) none with
  | none =>
    have hempty : ∀ i, (extended_entry_extract (tx i) none).2 = none := fun i =>
      (hnone.mp hpick).2 i (List.mem_finRange i)
    refine Or.inl ⟨hempty, fun i => (h i).finished ?_⟩
    have hcurrent := hempty i
    rwa [extract_current] at hcurrent
  | some name =>
    obtain ⟨i, -, e, he, hname⟩ := (hsome name hpick).resolve_left fun heq => nomatch heq
    rw [extract_current] at he
    obtain ⟨hmem, hnew⟩ := (h i).current he
    rw [hname] at hnew
    refine Or.inr ⟨name, hnew, ⟨i, e, hmem, hname⟩, fun i => ?_, fun i e => ?_⟩
    · simp only
      rw [extract_first]
      exact (hskip i).skip_returned
    · rw [Option.filter_eq_some_iff, (hskip i).found (ht i) hnew]
      refine and_iff_left_of_imp fun he => ?_
      rw [he.2, name_compare_self]
      rfl

/-- A call for `name`, with the entries of all trees that have it. -/
structure Visits (t : Fin n → tree_desc) (name : Bytes) (c : call n) : Prop where
  mask : ∀ j, c.mask.getLsbD j = true ↔ ∃ h : j < n, ∃ e ∈ t ⟨j, h⟩, e.name = name
  dirmask : ∀ j, c.dirmask.getLsbD j = true ↔
    ∃ h : j < n, ∃ e ∈ t ⟨j, h⟩, e.name = name ∧ S_ISDIR e.mode = true
  entry : ∀ i e, c.entry i = some e ↔ e ∈ t i ∧ e.name = name

theorem call_visits (hn : n ≤ 64) {entry : Fin n → Option name_entry} {name : Bytes}
    (h : ∀ i e, entry i = some e ↔ e ∈ t i ∧ e.name = name) :
    Visits t name (call.of_entries entry) where
  mask j := by
    refine (getLsbD_bits hn (fun _ => true) entry j).trans (exists_congr fun hj => ?_)
    simp only [h, and_true]
  dirmask j := by
    refine (getLsbD_bits hn (fun e => S_ISDIR e.mode) entry j).trans (exists_congr fun hj => ?_)
    simp only [h, and_assoc]
  entry := h

/-- The trees of the whole mask have one entry less. -/
theorem update_all_left (hn : n ≤ 64) (h : AllLeft t visited tx) (ht : ∀ i, Entries (t i))
    {entry : Fin n → Option name_entry} {name : Bytes} (hnew : name ∉ visited)
    (hentry : ∀ i e, entry i = some e ↔ e ∈ t i ∧ e.name = name) :
    AllLeft t (name :: visited) (update_all (call.of_entries entry).mask tx entry) := by
  intro i
  unfold update_all
  cases hi : entry i with
  | none =>
    refine (h i).other fun e he hname => ?_
    rw [(hentry i e).mpr ⟨he, hname⟩] at hi
    cases hi
  | some e =>
    obtain ⟨he, rfl⟩ := (hentry i e).mp hi
    have hbit : (call.of_entries entry).mask.getLsbD i = true :=
      (getLsbD_bits hn (fun _ => true) entry i).mpr ⟨i.isLt, e, hi, rfl⟩
    simp only
    rw [if_pos hbit]
    exact (h i).update (ht i) he hnew

/-! ## All rounds -/

/-- The names that were not visited yet. -/
def names_left (t : Fin n → tree_desc) (visited : List Bytes) : Finset Bytes :=
  ((List.finRange n).flatMap fun i => (t i).map name_entry.name).toFinset \ visited.toFinset

theorem mem_names_left {name : Bytes} :
    name ∈ names_left t visited ↔ (∃ i, ∃ e ∈ t i, e.name = name) ∧ name ∉ visited := by
  simp [names_left]

theorem names_left_visit {name : Bytes} (hmem : ∃ i, ∃ e ∈ t i, e.name = name)
    (hnew : name ∉ visited) :
    (names_left t (name :: visited)).card < (names_left t visited).card := by
  refine Finset.card_lt_card (Finset.ssubset_iff_subset_ne.mpr ⟨fun x hx => ?_, fun heq => ?_⟩)
  · rw [mem_names_left] at hx ⊢
    exact ⟨hx.1, fun hv => hx.2 (List.mem_cons_of_mem name hv)⟩
  · have hname := mem_names_left.mpr ⟨hmem, hnew⟩
    rw [← heq, mem_names_left] at hname
    exact hname.2 List.mem_cons_self

/-- The names that are visited from here on, each once, and a call for each of them. -/
structure Rest (t : Fin n → tree_desc) (visited : List Bytes) (names : List Bytes)
    (calls : List (call n)) : Prop where
  nodup : names.Nodup
  mem : ∀ name, name ∈ names ↔ name ∉ visited ∧ ∃ i, ∃ e ∈ t i, e.name = name
  calls : List.Forall₂ (Visits t) names calls

theorem Rest.cons {names : List Bytes} {calls : List (call n)} {name : Bytes} {c : call n}
    (h : Rest t (name :: visited) names calls) (hnew : name ∉ visited)
    (hmem : ∃ i, ∃ e ∈ t i, e.name = name) (hc : Visits t name c) :
    Rest t visited (name :: names) (c :: calls) where
  nodup := List.nodup_cons.mpr ⟨fun hin => ((h.mem name).mp hin).1 List.mem_cons_self, h.nodup⟩
  mem x := by
    rw [List.mem_cons, h.mem x, List.mem_cons, not_or]
    by_cases hx : x = name
    · rw [hx]
      exact iff_of_true (Or.inl rfl) ⟨hnew, hmem⟩
    · simp [hx]
  calls := List.Forall₂.cons hc h.calls

theorem traverse_loop_done (hn : n ≤ 64) (fn : call n → BitVec 32) (show_all_errors : Bool)
    (turns : Nat) (error : BitVec 32) (h : ∀ i, (extract_all tx).2 i = none) :
    traverse_loop fn show_all_errors (turns + 1) tx error = some (error, []) := by
  simp only [traverse_loop, mask_eq_zero hn h, if_true]

/-- A round whose callback has no error. -/
theorem traverse_loop_next (fn : call n → BitVec 32) (show_all_errors : Bool) (turns : Nat)
    (error : BitVec 32) {c : call n} (hc : c = call.of_entries (extract_all tx).2)
    (hmask : c.mask ≠ 0#64) (hret : (fn c).slt 0#32 = false) :
    traverse_loop fn show_all_errors (turns + 1) tx error =
      (traverse_loop fn show_all_errors turns
        (update_all (c.mask &&& (fn c).signExtend 64) (extract_all tx).1 (extract_all tx).2)
        error).map fun r => (r.1, c :: r.2) := by
  subst hc
  simp only [traverse_loop, if_neg hmask, hret, Bool.false_and, Bool.false_eq_true, if_false]

/-- While no tree from the 32nd on has entries the loop visits all names that are left. -/
theorem traverse_loop_visits (hn : n ≤ 64) (ht : ∀ i, Entries (t i))
    (hint : ∀ i : Fin n, 31 ≤ i.val → t i = []) (show_all_errors : Bool)
    (h : AllLeft t visited tx) :
    ∃ names calls, Rest t visited names calls ∧ ∀ turns, names.length < turns →
      traverse_loop full_mask show_all_errors turns tx 0#32 = some (0#32, calls) := by
  induction hleft : (names_left t visited).card using Nat.strong_induction_on
    generalizing visited tx with
  | _ left ih =>
    rcases extract_all_spec h ht with ⟨hnone, hall⟩ | ⟨name, hnew, hmem, htx, hentry⟩
    · refine ⟨[], [], ⟨List.nodup_nil, fun x => ?_, List.Forall₂.nil⟩, fun turns hturns => ?_⟩
      · refine iff_of_false List.not_mem_nil fun ⟨hx, i, e, he, hname⟩ => hx (hname ▸ hall i e he)
      · obtain ⟨turns, rfl⟩ := Nat.exists_eq_succ_of_ne_zero (Nat.ne_of_gt hturns)
        exact traverse_loop_done hn full_mask show_all_errors turns 0#32 hnone
    · have hc := call_visits hn hentry
      obtain ⟨hret, hfull⟩ := full_mask_int (c := call.of_entries (extract_all tx).2)
        fun j hj => by
          refine Bool.eq_false_iff.mpr fun hbit => ?_
          obtain ⟨hjn, e, he, -⟩ := (hc.mask j).mp hbit
          rw [hint ⟨j, hjn⟩ hj] at he
          cases he
      obtain ⟨names, calls, hrest, hrun⟩ := ih _ (hleft ▸ names_left_visit hmem hnew)
        (update_all_left hn htx ht hnew hentry) rfl
      refine ⟨name :: names, _ :: calls, hrest.cons hnew hmem hc, fun turns hturns => ?_⟩
      rw [List.length_cons] at hturns
      obtain ⟨turns, rfl⟩ := Nat.exists_eq_succ_of_ne_zero (Nat.ne_zero_of_lt hturns)
      obtain ⟨i, e, he, hname⟩ := hmem
      have hmask := mask_ne_zero hn ((hentry i e).mpr ⟨he, hname⟩)
      rw [Nat.succ_eq_add_one, traverse_loop_next full_mask show_all_errors turns 0#32 rfl hmask
        hret, hfull, hrun turns (Nat.lt_of_succ_lt_succ hturns)]
      rfl

/-! ## Trees from the 32nd on -/

/-- An error stays. -/
theorem traverse_loop_error (fn : call n → BitVec 32) (show_all_errors : Bool) (turns : Nat) :
    ∀ (tx : Fin n → tree_desc_x) (error : BitVec 32) (r : BitVec 32 × List (call n)),
      error.slt 0#32 = true → traverse_loop fn show_all_errors turns tx error = some r →
      r.1.slt 0#32 = true := by
  induction turns with
  | zero => exact fun _ _ _ _ h => nomatch h
  | succ turns ih =>
    intro tx error r herror h
    simp only [traverse_loop] at h
    by_cases hmask : (call.of_entries (extract_all tx).2).mask = 0#64
    · rw [if_pos hmask] at h
      cases h
      exact herror
    · rw [if_neg hmask] at h
      have hkept : (if (fn (call.of_entries (extract_all tx).2)).slt 0#32 then
          fn (call.of_entries (extract_all tx).2) else error).slt 0#32 = true := by
        split_ifs with hret
        · exact hret
        · exact herror
      generalize (if (fn (call.of_entries (extract_all tx).2)).slt 0#32 then
        fn (call.of_entries (extract_all tx).2) else error) = error' at h hkept
      split_ifs at h
      · cases h
        exact hkept
      · obtain ⟨r', hr', rfl⟩ := Option.map_eq_some_iff.mp h
        exact ih _ _ r' hkept hr'

/-- A tree from the 32nd on that was not returned from yet. -/
def Untouched (t : tree_desc) (tx : tree_desc_x) : Prop := tx = ⟨t, []⟩

theorem Untouched.extract {t : tree_desc} {tx : tree_desc_x} (h : Untouched t tx)
    (first : Option Bytes) : (extended_entry_extract tx first).1 = tx := by
  have hskip : skip_returned tx = tx := by
    rw [h]
    unfold skip_returned
    simp
  cases first with
  | none => rw [extract_current, hskip]
  | some first => rw [extract_first, hskip]

theorem Untouched.extract_all {i : Fin n} {l : tree_desc} (h : Untouched l (tx i)) :
    (tree_walk.extract_all tx).1 i = tx i := by
  unfold tree_walk.extract_all
  simp only
  split
  · exact h.extract none
  · simp only [h.extract none]
    exact h.extract _

/-- Where something is left a call is made. -/
theorem Untouched.some_entry {i : Fin n} {a : name_entry} {l : tree_desc}
    (h : Untouched (a :: l) (tx i)) : ∃ j e, (tree_walk.extract_all tx).2 j = some e := by
  have hcurrent : (extended_entry_extract (tx i) none).2 = some a := by
    rw [extract_current, h]
    unfold skip_returned
    simp
  obtain ⟨hnone, hsome⟩ := pick_first_loop (fun i => (extended_entry_extract (tx i) none).2)
    (List.finRange n) none
  unfold tree_walk.extract_all
  simp only
  cases hpick : (List.finRange n).foldl
      (fun first i => pick_first first (extended_entry_extract (tx i) none).2) none with
  | none => exact ⟨i, a, hcurrent⟩
  | some name =>
    obtain ⟨j, -, e, he, hname⟩ := (hsome name hpick).resolve_left fun heq => nomatch heq
    refine ⟨j, e, ?_⟩
    rw [extract_current] at he
    have hd : (skip_returned (tx j)).d = e :: (skip_returned (tx j)).d.tail :=
      (List.cons_head?_tail he).symm
    have htwice : skip_returned (skip_returned (tx j)) = skip_returned (tx j) := by
      unfold skip_returned
      simp only [List.dropWhile_idempotent]
    have hfound : look_ahead name (skip_returned (tx j)).d = some e := by
      rw [hd, look_ahead, check_entry_match_eq.mpr hname.symm]
    simp only [extract_current, extract_first, htwice, hfound, Option.filter_some, hname,
      name_compare_self, decide_true, if_true]

/-- As long as there is such a tree no round is the last one. -/
theorem traverse_loop_never (hn : n ≤ 64) (show_all_errors : Bool) {i : Fin n} (hi : 31 ≤ i.val)
    {a : name_entry} {l : tree_desc} (turns : Nat) :
    ∀ tx : Fin n → tree_desc_x, Untouched (a :: l) (tx i) → ∀ calls,
      traverse_loop full_mask show_all_errors turns tx 0#32 ≠ some (0#32, calls) := by
  induction turns with
  | zero => exact fun _ _ _ h => nomatch h
  | succ turns ih =>
    intro tx h calls hrun
    obtain ⟨j, e, he⟩ := h.some_entry
    have hmask := mask_ne_zero hn he
    cases hret : (full_mask (call.of_entries (extract_all tx).2)).slt 0#32 with
    | false =>
      rw [traverse_loop_next full_mask show_all_errors turns 0#32 rfl hmask hret] at hrun
      obtain ⟨⟨r, calls'⟩, hr', heq⟩ := Option.map_eq_some_iff.mp hrun
      cases heq
      refine ih _ ?_ calls' hr'
      have hbit := full_mask_high hret hi
      have hsame : update_all ((call.of_entries (extract_all tx).2).mask &&&
          (full_mask (call.of_entries (extract_all tx).2)).signExtend 64)
          (extract_all tx).1 (extract_all tx).2 i = tx i := by
        unfold update_all
        rw [hbit, h.extract_all]
        cases (extract_all tx).2 i <;> simp
      rw [hsame]
      exact h
    | true =>
      have hnegative : (0#32 : BitVec 32).slt 0#32 = true := by
        simp only [traverse_loop, if_neg hmask, hret, Bool.true_and, if_true] at hrun
        cases show_all_errors with
        | false =>
          simp only [Bool.not_false, if_true] at hrun
          rw [(Prod.mk.inj (Option.some.inj hrun)).1] at hret
          exact hret
        | true =>
          simp only [Bool.not_true, Bool.false_eq_true, if_false] at hrun
          obtain ⟨r, hr, heq⟩ := Option.map_eq_some_iff.mp hrun
          have herror := traverse_loop_error full_mask true turns _ _ r hret hr
          rwa [(Prod.mk.inj heq).1] at herror
      exact absurd hnegative (by decide)

/-- There is nothing to extract from an empty tree. -/
theorem Untouched.no_entry {i : Fin n} (h : Untouched [] (tx i)) :
    (tree_walk.extract_all tx).2 i = none := by
  have hempty : skip_returned (tx i) = tx i := by
    rw [h]
    rfl
  unfold tree_walk.extract_all
  simp only
  split
  · simp only [extract_current, hempty]
    rw [h]
    rfl
  · simp only [extract_current, extract_first, hempty]
    rw [h]
    rfl

/-- With all entries from the 33rd tree on the callback returns 0, and nothing is ever updated. -/
theorem traverse_loop_endless (hn : n ≤ 64) (show_all_errors : Bool)
    (hlow : ∀ i : Fin n, i.val < 32 → t i = []) {i : Fin n} {a : name_entry} {l : tree_desc}
    (hi : t i = a :: l) (turns : Nat) (htx : ∀ i, Untouched (t i) (tx i)) :
    traverse_loop full_mask show_all_errors turns tx 0#32 = none := by
  have htop : Untouched (a :: l) (tx i) := hi ▸ htx i
  obtain ⟨j, e, he⟩ := htop.some_entry
  have hmask := mask_ne_zero hn he
  have hret : full_mask (call.of_entries (extract_all tx).2) = 0#32 := by
    refine BitVec.eq_of_getLsbD_eq fun k hk => ?_
    unfold full_mask
    rw [BitVec.getLsbD_setWidth, BitVec.getLsbD_zero, decide_eq_true hk, Bool.true_and]
    refine Bool.eq_false_iff.mpr fun hbit => ?_
    obtain ⟨hkn, b, hb, -⟩ := (getLsbD_bits hn (fun _ => true) (extract_all tx).2 k).mp hbit
    have hempty : Untouched [] (tx ⟨k, hkn⟩) := hlow ⟨k, hkn⟩ hk ▸ htx ⟨k, hkn⟩
    rw [hempty.no_entry] at hb
    cases hb
  have hsame : update_all ((call.of_entries (extract_all tx).2).mask &&& (0#32).signExtend 64)
      (extract_all tx).1 (extract_all tx).2 = tx := by
    funext k
    have hzero : ((call.of_entries (extract_all tx).2).mask &&& (0#32).signExtend 64) = 0#64 :=
      BitVec.and_zero
    unfold update_all
    rw [hzero, BitVec.getLsbD_zero, (htx k).extract_all]
    cases (extract_all tx).2 k <;> simp
  induction turns with
  | zero => rfl
  | succ turns ih =>
    rw [traverse_loop_next full_mask show_all_errors turns 0#32 rfl hmask (by rw [hret]; rfl),
      hret, hsame, ih]
    rfl

/-! ## The trees -/

theorem init_tree_desc_names (buffer : Nat) (items : List tree_item) :
    (init_tree_desc buffer items).map name_entry.name = items.map tree_item.name := by
  induction items generalizing buffer with
  | nil => rfl
  | cons x items ih =>
    unfold init_tree_desc
    rw [List.map_cons, List.map_cons, ih]

theorem init_tree_desc_eq_nil {buffer : Nat} {items : List tree_item} :
    init_tree_desc buffer items = [] ↔ items = [] := by
  rw [← List.map_eq_nil_iff, init_tree_desc_names, List.map_eq_nil_iff]

-- for the literals
local instance two : NeZero 2 := ⟨by decide⟩

/-- The blob `t-1` and the tree `t`, which sorts after it; and the blobs `t` and `t-1`. -/
def t_in_both (i : Fin 2) : List tree_item :=
  if i = 0 then
    [⟨0o100644, [116, 45, 49], Vector.replicate 20 0⟩, ⟨S_IFDIR, [116], Vector.replicate 20 1⟩]
  else
    [⟨0o100644, [116], Vector.replicate 20 2⟩, ⟨0o100644, [116, 45, 49], Vector.replicate 20 0⟩]

/-- The blob `a` in the last of 33 trees. -/
def a_in_the_last (i : Fin 33) : List tree_item :=
  if i = 32 then [⟨0o100644, [97], Vector.replicate 20 0⟩] else []

end git.tree_walk
