-- The table of chunks: each chunk is counted in it once, it never fills up, and with
-- `HASHBASE` hashes it grows no further than `2 ^ 17` slots.
import Git.CountChanges

namespace git.count_changes

open git.quote git.header_name git.ws linear_probing

/-! ## Sums over a table -/

def home (lim hashval : Nat) : Nat := hashval &&& (lim - 1)

theorem home_lt (k hashval : Nat) : home (2 ^ k) hashval < 2 ^ k := by
  rw [home, Nat.and_two_pow_sub_one_eq_mod]
  exact Nat.mod_lt _ (Nat.two_pow_pos k)

def sum_cnt (lim : Nat) (data : Nat → spanhash) : Nat := ∑ i ∈ Finset.range lim, (data i).cnt

theorem sum_cnt_update {lim j : Nat} (data : Nat → spanhash) (h : spanhash) (hj : j < lim) :
    sum_cnt lim (Function.update data j h) + (data j).cnt = sum_cnt lim data + h.cnt := by
  have hmem := Finset.mem_range.mpr hj
  have hcomp : (fun i => (Function.update data j h i).cnt) =
      Function.update (fun i => (data i).cnt) j h.cnt := by
    funext i
    exact Function.apply_update (fun _ => spanhash.cnt) data j h i
  unfold sum_cnt
  rw [hcomp, Finset.sum_update_of_mem hmem, Finset.sum_eq_add_sum_sdiff_singleton_of_mem hmem]
  omega

theorem cnt_le_sum {lim j : Nat} (data : Nat → spanhash) (hj : j < lim) :
    (data j).cnt ≤ sum_cnt lim data :=
  Finset.single_le_sum (f := fun i => (data i).cnt) (fun _ _ => Nat.zero_le _)
    (Finset.mem_range.mpr hj)

theorem vacant_false {h : spanhash} : vacant h = false ↔ h.cnt ≠ 0 := by
  rw [vacant, decide_eq_false_iff_not]

/-! ## A table under its hashes -/

/-- A table of `2 ^ k` slots with `n` hashes, for `total` bytes. -/
structure Holds (k : Nat) (data : Nat → spanhash) (n total : Nat) : Prop where
  table : Table (2 ^ k) (home (2 ^ k)) spanhash.hashval vacant data
  base : ∀ i < 2 ^ k, vacant (data i) = false → (data i).hashval < HASHBASE
  card : (taken (2 ^ k) vacant data).card = n
  sum : sum_cnt (2 ^ k) data = total

variable {k n total : Nat} {data : Nat → spanhash}

theorem holds_new (k : Nat) : Holds k (spanhash_new k).data 0 0 := by
  refine ⟨Table.empty fun _ => rfl, fun i _ hi => ?_, ?_, ?_⟩
  · cases hi
  · rw [Finset.card_eq_zero]
    exact Finset.filter_false_of_mem fun i _ hi => by cases hi
  · exact Finset.sum_eq_zero fun _ _ => rfl

/-- A hash that the table does not hold takes a vacant slot on its path. -/
theorem Holds.fill (h : Holds k data n total) {j : Nat} {o : spanhash} (hj : j < 2 ^ k)
    (hvacant : vacant (data j) = true) (ho : o.cnt ≠ 0) (hbase : o.hashval < HASHBASE)
    (hpath : Path (2 ^ k) vacant data (home (2 ^ k) o.hashval) j)
    (hnew : ∀ i < 2 ^ k, vacant (data i) = false → (data i).hashval ≠ o.hashval) :
    Holds k (Function.update data j o) (n + 1) (total + o.cnt) := by
  refine ⟨h.table.fill (vacant_false.mpr ho) hpath hnew, fun i hi htook => ?_, ?_, ?_⟩
  · by_cases hij : i = j
    · rw [hij, Function.update_self]
      exact hbase
    · rw [Function.update_of_ne hij] at htook ⊢
      exact h.base i hi htook
  · rw [taken_fill hj hvacant (vacant_false.mpr ho), h.card]
  · have hsum := sum_cnt_update data o hj
    have hzero : (data j).cnt = 0 := of_decide_eq_true hvacant
    rw [h.sum] at hsum
    omega

/-- A hash that the table holds counts for more. -/
theorem Holds.count (h : Holds k data n total) {j cnt : Nat} (hj : j < 2 ^ k)
    (htaken : vacant (data j) = false) :
    Holds k (Function.update data j ⟨(data j).hashval, (data j).cnt + cnt⟩) n (total + cnt) := by
  have hcnt := vacant_false.mp htaken
  have hfull : vacant ⟨(data j).hashval, (data j).cnt + cnt⟩ = false :=
    vacant_false.mpr (by dsimp only; omega)
  refine ⟨h.table.refill htaken rfl hfull, fun i hi htook => ?_, ?_, ?_⟩
  · by_cases hij : i = j
    · rw [hij, Function.update_self]
      exact h.base j hj htaken
    · rw [Function.update_of_ne hij] at htook ⊢
      exact h.base i hi htook
  · rw [taken_refill htaken hfull, h.card]
  · have hsum := sum_cnt_update data ⟨(data j).hashval, (data j).cnt + cnt⟩ hj
    dsimp only at hsum
    rw [h.sum] at hsum
    omega

theorem Holds.le_base (h : Holds k data n total) : n ≤ HASHBASE :=
  h.card ▸ h.table.taken_le h.base

/-! ## Into a larger table -/

/-- Hashes that are not there yet are put in one after the other. -/
theorem rehash_holds (l : List spanhash) :
    ∀ (new : spanhash_top) (n total : Nat), Holds new.alloc_log2 new.data n total →
      new.free = (INITIAL_FREE new.alloc_log2 : Int) - n →
      (∀ o ∈ l, o.cnt ≠ 0 → o.hashval < HASHBASE ∧ ∀ i < 2 ^ new.alloc_log2,
        vacant (new.data i) = false → (new.data i).hashval ≠ o.hashval) →
      l.Pairwise (fun a b => a.cnt ≠ 0 → b.cnt ≠ 0 → a.hashval ≠ b.hashval) →
      n + l.countP (fun o => !vacant o) < 2 ^ new.alloc_log2 →
      ∃ top, l.foldlM rehash_slot new = some top ∧ top.alloc_log2 = new.alloc_log2 ∧
        Holds top.alloc_log2 top.data (n + l.countP fun o => !vacant o)
          (total + (l.map spanhash.cnt).sum) ∧
        top.free =
          (INITIAL_FREE top.alloc_log2 : Int) - (n + l.countP fun o => !vacant o : Nat) := by
  induction l with
  | nil => exact fun new n total h hfree _ _ _ => ⟨new, rfl, rfl, h, hfree⟩
  | cons o l ih =>
    intro new n total h hfree hnew hpairs hroom
    rw [List.pairwise_cons] at hpairs
    rw [List.countP_cons] at hroom
    by_cases ho : o.cnt = 0
    · have hv : vacant o = true := decide_eq_true ho
      have hslot : rehash_slot new o = some new := if_pos ho
      obtain ⟨top, htop, hk, hholds, hfree'⟩ := ih new n total h hfree
        (fun o' ho' => hnew o' (List.mem_cons_of_mem o ho')) hpairs.2 (by omega)
      refine ⟨top, ?_, hk, ?_, ?_⟩
      · rw [List.foldlM_cons, hslot]
        exact htop
      · rw [List.countP_cons, hv, List.map_cons, List.sum_cons, ho, Nat.zero_add]
        exact hholds
      · rw [List.countP_cons, hv]
        exact hfree'
    · have hv : vacant o = false := vacant_false.mpr ho
      obtain ⟨hbase, habsent⟩ := hnew o List.mem_cons_self ho
      rw [hv] at hroom
      obtain ⟨i, hi, hvacant⟩ := exists_vacant (h.card ▸ (by omega) :
        (taken (2 ^ new.alloc_log2) vacant new.data).card < 2 ^ new.alloc_log2)
      obtain ⟨j, hprobe⟩ := probe_finds (fun i => vacant (new.data i))
        (home_lt new.alloc_log2 o.hashval) hi hvacant
      obtain ⟨hvj, t, hjt, hpath⟩ := probe_some (home_lt new.alloc_log2 o.hashval) hprobe
      have hj : j < 2 ^ new.alloc_log2 := hjt ▸ Nat.mod_lt _ (Nat.two_pow_pos _)
      have hslot : rehash_slot new o = some { new.put j o with free := new.free - 1 } := by
        rw [rehash_slot, if_neg ho]
        exact congrArg (Option.map fun i => { new.put i o with free := new.free - 1 }) hprobe
      have hput := h.fill hj hvj ho hbase ⟨t, hjt, hpath⟩ habsent
      have hrest : ∀ o' ∈ l, o'.cnt ≠ 0 → o'.hashval < HASHBASE ∧ ∀ i < 2 ^ new.alloc_log2,
          vacant (Function.update new.data j o i) = false →
            (Function.update new.data j o i).hashval ≠ o'.hashval := by
        intro o' ho' hcnt
        obtain ⟨hbase', habsent'⟩ := hnew o' (List.mem_cons_of_mem o ho') hcnt
        refine ⟨hbase', fun i hi htook => ?_⟩
        by_cases hij : i = j
        · rw [hij, Function.update_self]
          exact hpairs.1 o' ho' ho hcnt
        · rw [Function.update_of_ne hij] at htook ⊢
          exact habsent' i hi htook
      have hplus : n + l.countP (fun o => !vacant o) + 1 < 2 ^ new.alloc_log2 := by
        simp only [Bool.not_false, if_true] at hroom
        omega
      obtain ⟨top, htop, hk, hholds, hfree'⟩ := ih { new.put j o with free := new.free - 1 }
        (n + 1) (total + o.cnt) hput (by dsimp only [spanhash_top.put]; omega) hrest hpairs.2
        (by dsimp only [spanhash_top.put]; omega)
      refine ⟨top, ?_, hk, ?_, ?_⟩
      · rw [List.foldlM_cons, hslot]
        exact htop
      · rw [List.countP_cons, hv, List.map_cons, List.sum_cons, Bool.not_false, if_pos rfl,
          ← Nat.add_assoc total, Nat.add_comm _ 1, ← Nat.add_assoc n]
        exact hholds
      · rw [List.countP_cons, hv, Bool.not_false, if_pos rfl, Nat.add_comm _ 1, ← Nat.add_assoc n]
        exact hfree'

/-! ## One more chunk -/

/-- The table between two chunks: room is left, for the number of slots that the hashes need at
most. -/
structure Counted (top : spanhash_top) (total : Nat) : Prop where
  low : INITIAL_HASH_SIZE ≤ top.alloc_log2
  high : top.alloc_log2 ≤ 17
  holds : ∃ n ≤ INITIAL_FREE top.alloc_log2, Holds top.alloc_log2 top.data n total ∧
    top.free = (INITIAL_FREE top.alloc_log2 : Int) - n

theorem counted_new : Counted (spanhash_new INITIAL_HASH_SIZE) 0 :=
  ⟨le_refl _, by decide, 0, Nat.zero_le _, holds_new _, (Int.sub_zero _).symm⟩

/-- What the sizes come to, of the tables that are ever used. -/
theorem initial_free_lt {k : Nat} (hlow : INITIAL_HASH_SIZE ≤ k) (hhigh : k ≤ 17) :
    INITIAL_FREE k + 1 < 2 ^ k ∧ INITIAL_FREE k + 1 ≤ INITIAL_FREE (k + 1) := by
  have hlow' : 9 ≤ k := hlow
  interval_cases k <;> decide

theorem hashbase_lt : HASHBASE < INITIAL_FREE 17 := by decide

theorem slots_pairwise (h : Holds k data n total) :
    ((List.range (2 ^ k)).map data).Pairwise
      (fun a b => a.cnt ≠ 0 → b.cnt ≠ 0 → a.hashval ≠ b.hashval) := by
  rw [List.pairwise_map]
  refine List.nodup_range.imp_of_mem ?_
  intro i j hi hj hij ha hb heq
  exact hij (h.table.distinct i (List.mem_range.mp hi) j (List.mem_range.mp hj)
    (vacant_false.mpr ha) (vacant_false.mpr hb) heq)

theorem slots_count (h : Holds k data n total) :
    ((List.range (2 ^ k)).map data).countP (fun o => !vacant o) = n := by
  have hsame : ((fun o => !vacant o) ∘ data) = fun i => decide (vacant (data i) = false) := by
    funext i
    rw [Function.comp_apply]
    cases vacant (data i) <;> rfl
  rw [List.countP_map, hsame, List.countP_eq_length_filter, ← h.card]
  rfl

theorem slots_sum (h : Holds k data n total) :
    (((List.range (2 ^ k)).map data).map spanhash.cnt).sum = total := by
  rw [List.map_map, ← h.sum]
  rfl

/-- A table with one hash too many gets twice the slots; a table of `2 ^ 17` has room for all. -/
theorem spanhash_rehash_counted {top : spanhash_top} (hlow : INITIAL_HASH_SIZE ≤ top.alloc_log2)
    (hhigh : top.alloc_log2 ≤ 17)
    (h : Holds top.alloc_log2 top.data (INITIAL_FREE top.alloc_log2 + 1) total) :
    ∃ new, spanhash_rehash top = some new ∧ Counted new total := by
  have hlt : top.alloc_log2 < 17 := by
    refine Nat.lt_of_le_of_ne hhigh fun heq => ?_
    have hle := h.le_base
    rw [heq] at hle
    exact absurd hle (not_le.mpr (Nat.lt_succ_of_lt hashbase_lt))
  obtain ⟨hfits, hgrows⟩ := initial_free_lt hlow hhigh
  have hdouble : 2 ^ (top.alloc_log2 + 1) = 2 ^ top.alloc_log2 * 2 := Nat.pow_succ _ _
  have hnew : ∀ o ∈ (List.range (2 ^ top.alloc_log2)).map top.data, o.cnt ≠ 0 →
      o.hashval < HASHBASE ∧ ∀ i < 2 ^ (spanhash_new (top.alloc_log2 + 1)).alloc_log2,
        vacant ((spanhash_new (top.alloc_log2 + 1)).data i) = false →
          ((spanhash_new (top.alloc_log2 + 1)).data i).hashval ≠ o.hashval := by
    intro o ho hcnt
    obtain ⟨i, hi, rfl⟩ := List.mem_map.mp ho
    refine ⟨h.base i (List.mem_range.mp hi) (vacant_false.mpr hcnt), fun _ _ htook => ?_⟩
    cases htook
  have hroom : 0 + ((List.range (2 ^ top.alloc_log2)).map top.data).countP (fun o => !vacant o) <
      2 ^ (spanhash_new (top.alloc_log2 + 1)).alloc_log2 := by
    rw [slots_count h]
    show 0 + _ < 2 ^ (top.alloc_log2 + 1)
    omega
  obtain ⟨new, hrehash, hk, hholds, hfree⟩ := rehash_holds _ (spanhash_new (top.alloc_log2 + 1))
    0 0 (holds_new _) (Int.sub_zero _).symm hnew (slots_pairwise h) hroom
  rw [slots_count h, slots_sum h, Nat.zero_add, Nat.zero_add] at hholds
  rw [slots_count h, Nat.zero_add] at hfree
  have hk' : new.alloc_log2 = top.alloc_log2 + 1 := hk
  refine ⟨new, hrehash, ?_, ?_, _, ?_, hholds, hfree⟩
  · omega
  · omega
  · rw [hk']
    exact hgrows

/-- A chunk is counted; none of the sums wraps. -/
theorem add_spanhash_counted {top : spanhash_top} {hashval cnt : Nat} (h : Counted top total)
    (hbase : hashval < HASHBASE) (hcnt : 0 < cnt) (hsum : total + cnt < 2 ^ 32) :
    ∃ top', add_spanhash top hashval cnt = some top' ∧ Counted top' (total + cnt) := by
  obtain ⟨hlow, hhigh, n, hn, hholds, hfree⟩ := h
  obtain ⟨hfits, -⟩ := initial_free_lt hlow hhigh
  obtain ⟨i, hi, hvacant⟩ := exists_vacant (by rw [hholds.card]; omega :
    (taken (2 ^ top.alloc_log2) vacant top.data).card < 2 ^ top.alloc_log2)
  have hhome := home_lt top.alloc_log2 hashval
  obtain ⟨j, hprobe⟩ := probe_finds
    (fun i => vacant (top.data i) || (top.data i).hashval = hashval) hhome hi
    (by rw [hvacant]; rfl)
  obtain ⟨hstop, hpath⟩ := probe_some hhome hprobe
  have hj : j < 2 ^ top.alloc_log2 := by
    obtain ⟨t, rfl, -⟩ := hpath
    exact Nat.mod_lt _ (Nat.two_pow_pos _)
  unfold add_spanhash
  simp only
  rw [← home, hprobe]
  by_cases hvj : vacant (top.data j) = true
  · have hnew := hholds.table.absent
      (fun i => vacant (top.data i) || (top.data i).hashval = hashval)
      (fun i hi => by rw [decide_eq_true hi, Bool.or_true]) hpath hvj
    have hclear : Path (2 ^ top.alloc_log2) vacant top.data
        (home (2 ^ top.alloc_log2) hashval) j := by
      obtain ⟨t, heq, htaken⟩ := hpath
      exact ⟨t, heq, fun u hu => (Bool.or_eq_false_iff.mp (htaken u hu)).1⟩
    have hput := hholds.fill (o := ⟨hashval, cnt⟩) hj hvj (Nat.pos_iff_ne_zero.mp hcnt) hbase
      hclear hnew
    simp only [hvj, if_true]
    by_cases hfull : top.free - 1 < 0
    · rw [if_pos hfull]
      have hn' : n = INITIAL_FREE top.alloc_log2 := by omega
      rw [hn'] at hput
      exact spanhash_rehash_counted hlow hhigh hput
    · rw [if_neg hfull]
      refine ⟨_, rfl, hlow, hhigh, n + 1, ?_, hput, ?_⟩
      · show n + 1 ≤ INITIAL_FREE top.alloc_log2
        omega
      · show top.free - 1 = (INITIAL_FREE top.alloc_log2 : Int) - (n + 1 : Nat)
        omega
  · have hfalse := Bool.eq_false_iff.mpr hvj
    have hle := cnt_le_sum top.data hj
    rw [hholds.sum] at hle
    simp only [hfalse, Bool.false_eq_true, if_false]
    refine ⟨_, rfl, hlow, hhigh, n, hn, ?_, hfree⟩
    rw [Nat.mod_eq_of_lt (by omega)]
    exact hholds.count hj hfalse

end git.count_changes
