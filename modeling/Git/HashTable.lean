-- The hash tables of `hash.c`: a pointer for each hash, with open addressing, in an array that
-- grows when half of it is taken.
import Git.Lib.LinearProbing

open linear_probing

namespace git.hashes

variable {α : Type*}

structure hash_table_entry (α : Type*) where
  hash : UInt32
  ptr : Option α

/-- The slots from `size` on are not there. -/
structure hash_table (α : Type*) where
  size : Nat
  nr : Nat
  array : Nat → hash_table_entry α

def vacant (o : hash_table_entry α) : Bool := o.ptr.isNone

def init_hash : hash_table α := ⟨0, 0, fun _ => ⟨0, none⟩⟩

/-- In `unsigned int`. -/
def alloc_nr (x : Nat) : Nat := (x + 16) * 3 % 2 ^ 32 / 2

/-- `none`: the search does not end. -/
def lookup_hash_entry (hash : UInt32) (table : hash_table α) : Option Nat :=
  probe table.size (fun nr => vacant (table.array nr) || (table.array nr).hash = hash) table.size
    (hash.toNat % table.size)

/-- With the slot of the hash, where it was there already. -/
def insert_hash_entry (hash : UInt32) (ptr : α) (table : hash_table α) :
    Option (hash_table α × Option Nat) :=
  (lookup_hash_entry hash table).map fun entry =>
    if vacant (table.array entry) then
      ({ table with
        array := Function.update table.array entry ⟨hash, some ptr⟩
        nr := table.nr + 1 }, none)
    else (table, some entry)

/-- One slot of the old array. -/
def grow_slot (table : hash_table α) (o : hash_table_entry α) : Option (hash_table α) :=
  match o.ptr with
  | none => some table
  | some ptr => (insert_hash_entry o.hash ptr table).map Prod.fst

def grow_hash_table (table : hash_table α) : Option (hash_table α) :=
  ((List.range table.size).map table.array).foldlM grow_slot
    ⟨alloc_nr table.size, 0, fun _ => ⟨0, none⟩⟩

def lookup_hash (hash : UInt32) (table : hash_table α) : Option (Option α) :=
  if table.size = 0 then some none
  else (lookup_hash_entry hash table).map fun nr => (table.array nr).ptr

def insert_hash (hash : UInt32) (ptr : α) (table : hash_table α) :
    Option (hash_table α × Option Nat) := do
  let table ← if table.size / 2 ≤ table.nr then grow_hash_table table else some table
  insert_hash_entry hash ptr table

/-- `*pos = ptr` -/
def hash_table.put (table : hash_table α) (pos : Nat) (ptr : α) : hash_table α :=
  { table with
    array := Function.update table.array pos { table.array pos with ptr := some ptr } }

/-! ## What a table maps -/

def home (size : Nat) (hash : UInt32) : Nat := hash.toNat % size

/-- `t` has the pointer `f h` for each hash `h`. -/
structure Stores (t : hash_table α) (f : UInt32 → Option α) : Prop where
  table : Table t.size (home t.size) hash_table_entry.hash vacant t.array
  nr : (taken t.size vacant t.array).card = t.nr
  stores : ∀ h p, f h = some p ↔ ∃ i < t.size, (t.array i).ptr = some p ∧ (t.array i).hash = h

/-- And it is a table between two operations. -/
structure Maps (t : hash_table α) (f : UInt32 → Option α) : Prop extends Stores t f where
  room : t.nr ≤ t.size / 2

variable {t : hash_table α} {f : UInt32 → Option α}

theorem vacant_false {o : hash_table_entry α} : vacant o = false ↔ ∃ p, o.ptr = some p := by
  unfold vacant
  rw [Option.isNone_eq_false_iff, Option.isSome_iff_exists]

theorem vacant_true {o : hash_table_entry α} : vacant o = true ↔ o.ptr = none := by
  unfold vacant
  rw [Option.isNone_iff_eq_none]

theorem stores_new (size : Nat) :
    Stores (⟨size, 0, fun _ => ⟨0, none⟩⟩ : hash_table α) (fun _ => none) where
  table := Table.empty fun _ => rfl
  nr := by
    rw [Finset.card_eq_zero]
    exact Finset.filter_false_of_mem fun i _ hi => by cases hi
  stores h p := by simp

theorem init_hash_maps : Maps (init_hash : hash_table α) (fun _ => none) where
  toStores := stores_new 0
  room := Nat.zero_le _

/-- Where the search for a hash ends. -/
theorem Stores.search (h : Stores t f) (hroom : t.nr < t.size) (hash : UInt32) :
    ∃ i < t.size, lookup_hash_entry hash t = some i ∧
      ((∃ p, f hash = some p ∧ (t.array i).ptr = some p ∧ (t.array i).hash = hash) ∨
        (f hash = none ∧ (t.array i).ptr = none ∧
          Path t.size vacant t.array (home t.size hash) i)) := by
  have hsize : 0 < t.size := Nat.zero_lt_of_lt hroom
  have hhome : home t.size hash < t.size := Nat.mod_lt _ hsize
  obtain ⟨v, hv, hvacant⟩ := exists_vacant (h.nr ▸ hroom :
    (taken t.size vacant t.array).card < t.size)
  obtain ⟨i, hi⟩ := probe_finds (fun nr => vacant (t.array nr) || (t.array nr).hash = hash) hhome hv
    (by rw [hvacant]; rfl)
  obtain ⟨hstop, hpath⟩ := probe_some hhome hi
  have hlt : i < t.size := by
    obtain ⟨u, rfl, -⟩ := hpath
    exact Nat.mod_lt _ hsize
  refine ⟨i, hlt, hi, ?_⟩
  by_cases hvi : vacant (t.array i) = true
  · have habsent := h.table.absent
      (fun nr => vacant (t.array nr) || (t.array nr).hash = hash)
      (fun j hj => by rw [decide_eq_true hj, Bool.or_true]) hpath hvi
    obtain ⟨u, hu, htaken⟩ := hpath
    refine Or.inr ⟨?_, vacant_true.mp hvi, u, hu, fun w hw =>
      (Bool.or_eq_false_iff.mp (htaken w hw)).1⟩
    refine Option.eq_none_iff_forall_ne_some.mpr fun p hp => ?_
    obtain ⟨j, hj, hptr, hkey⟩ := (h.stores hash p).mp hp
    exact habsent j hj (vacant_false.mpr ⟨p, hptr⟩) hkey
  · have hfull := Bool.eq_false_iff.mpr hvi
    obtain ⟨p, hp⟩ := vacant_false.mp hfull
    have hkey : (t.array i).hash = hash := by
      rw [hfull, Bool.false_or] at hstop
      exact of_decide_eq_true hstop
    exact Or.inl ⟨p, (h.stores hash p).mpr ⟨i, hlt, hp, hkey⟩, hp, hkey⟩

theorem Maps.lookup_hash (h : Maps t f) (hash : UInt32) :
    hashes.lookup_hash hash t = some (f hash) := by
  unfold hashes.lookup_hash
  have hroom := h.room
  split_ifs with hsize
  · have hnone : f hash = none := by
      refine Option.eq_none_iff_forall_ne_some.mpr fun p hp => ?_
      obtain ⟨i, hi, -⟩ := (h.stores hash p).mp hp
      omega
    rw [hnone]
  · obtain ⟨i, -, hi, hfound⟩ := h.search (by omega) hash
    rw [hi]
    rcases hfound with ⟨p, hp, hptr, -⟩ | ⟨hnone, hptr, -⟩
    · rw [Option.map_some, hptr, hp]
    · rw [Option.map_some, hptr, hnone]

/-! ## One more hash -/

/-- The one slot that is free for a hash, or has it, gets a pointer. -/
theorem Stores.update (h : Stores t f) {hash : UInt32} {ptr : α} {e : hash_table_entry α} {i : Nat}
    (hi : i < t.size) (hptr : e.ptr = some ptr) (hkey : e.hash = hash)
    (hslot : ∀ q, (t.array i).ptr = some q → (t.array i).hash = hash)
    (honly : ∀ j < t.size, ∀ q, (t.array j).ptr = some q → (t.array j).hash = hash → j = i)
    (k : UInt32) (p : α) :
    Function.update f hash (some ptr) k = some p ↔
      ∃ j < t.size, (Function.update t.array i e j).ptr = some p ∧
        (Function.update t.array i e j).hash = k := by
  by_cases hk : k = hash
  · rw [hk, Function.update_self]
    constructor
    · intro heq
      exact ⟨i, hi, by rw [Function.update_self]; exact ⟨hptr.trans heq, hkey⟩⟩
    · rintro ⟨j, hj, hptr', hkey'⟩
      by_cases hij : j = i
      · rw [hij, Function.update_self, hptr] at hptr'
        exact hptr'
      · rw [Function.update_of_ne hij] at hptr' hkey'
        exact absurd (honly j hj p hptr' hkey') hij
  · rw [Function.update_of_ne hk, h.stores k p]
    constructor
    · rintro ⟨j, hj, hptr', hkey'⟩
      have hij : j ≠ i := by
        rintro rfl
        exact hk (hkey'.symm.trans (hslot p hptr'))
      exact ⟨j, hj, by rw [Function.update_of_ne hij]; exact ⟨hptr', hkey'⟩⟩
    · rintro ⟨j, hj, hptr', hkey'⟩
      by_cases hij : j = i
      · rw [hij, Function.update_self, hkey] at hkey'
        exact absurd hkey'.symm hk
      · rw [Function.update_of_ne hij] at hptr' hkey'
        exact ⟨j, hj, hptr', hkey'⟩

/-- A hash that is not there takes a vacant slot on its path. -/
theorem Stores.fill (h : Stores t f) {hash : UInt32} (ptr : α) {i : Nat} (hi : i < t.size)
    (hnone : f hash = none) (hvacant : (t.array i).ptr = none)
    (hpath : Path t.size vacant t.array (home t.size hash) i) :
    Stores { t with
      array := Function.update t.array i ⟨hash, some ptr⟩
      nr := t.nr + 1 } (Function.update f hash (some ptr)) := by
  have habsent : ∀ j < t.size, ∀ q, (t.array j).ptr = some q → (t.array j).hash ≠ hash := by
    intro j hj q hptr hkey
    have hsome := (h.stores hash q).mpr ⟨j, hj, hptr, hkey⟩
    rw [hnone] at hsome
    cases hsome
  refine ⟨?_, ?_, ?_⟩
  · refine h.table.fill rfl hpath fun j hj htook => ?_
    obtain ⟨q, hq⟩ := vacant_false.mp htook
    exact habsent j hj q hq
  · simp only
    rw [taken_fill hi (vacant_true.mpr hvacant) rfl, h.nr]
  · refine h.update hi rfl rfl (fun q hq => ?_) fun j hj q hptr hkey =>
      absurd hkey (habsent j hj q hptr)
    rw [hvacant] at hq
    cases hq

/-- A slot gets another pointer for its hash. -/
theorem Stores.put (h : Stores t f) {hash : UInt32} (ptr : α) {q : α} {i : Nat} (hi : i < t.size)
    (hptr : (t.array i).ptr = some q) (hkey : (t.array i).hash = hash) :
    Stores (t.put i ptr) (Function.update f hash (some ptr)) := by
  have hfull := vacant_false.mpr ⟨q, hptr⟩
  refine ⟨h.table.refill hfull rfl rfl, ?_, ?_⟩
  · unfold hash_table.put
    rw [taken_refill hfull rfl, h.nr]
  · exact h.update hi rfl hkey (fun _ _ => hkey) fun j hj q' hptr' hkey' =>
      h.table.distinct j hj i hi (vacant_false.mpr ⟨q', hptr'⟩) hfull (hkey'.trans hkey.symm)

/-- What `insert_hash_entry` does with a hash that is not there, and with one that is. -/
theorem Stores.insert_new (h : Stores t f) (hroom : t.nr < t.size) {hash : UInt32} (ptr : α)
    (hnone : f hash = none) :
    ∃ t', insert_hash_entry hash ptr t = some (t', none) ∧ t'.size = t.size ∧
      t'.nr = t.nr + 1 ∧ Stores t' (Function.update f hash (some ptr)) := by
  obtain ⟨i, hlt, hi, ⟨p, hp, -⟩ | ⟨-, hptr, hpath⟩⟩ := h.search hroom hash
  · rw [hnone] at hp
    cases hp
  · have hfill := h.fill ptr hlt hnone hptr hpath
    refine ⟨_, ?_, ?_, ?_, hfill⟩
    · unfold insert_hash_entry
      rw [hi, Option.map_some, if_pos (vacant_true.mpr hptr)]
    · rfl
    · rfl

theorem Stores.insert_old (h : Stores t f) (hroom : t.nr < t.size) {hash : UInt32} (ptr : α)
    {q : α} (hsome : f hash = some q) :
    ∃ i < t.size, insert_hash_entry hash ptr t = some (t, some i) ∧ (t.array i).ptr = some q ∧
      (t.array i).hash = hash := by
  obtain ⟨i, hlt, hi, ⟨p, hp, hptr, hkey⟩ | ⟨hnone, -⟩⟩ := h.search hroom hash
  · rw [hsome] at hp
    cases hp
    refine ⟨i, hlt, ?_, hptr, hkey⟩
    unfold insert_hash_entry
    rw [hi, Option.map_some, if_neg (Bool.eq_false_iff.mp (vacant_false.mpr ⟨_, hptr⟩))]
  · rw [hsome] at hnone
    cases hnone

/-! ## Growing -/

/-- The pointers of the slots `l`, put over those of `f`. -/
def filled (f : UInt32 → Option α) (l : List (hash_table_entry α)) : UInt32 → Option α :=
  l.foldl (fun f o => match o.ptr with
    | none => f
    | some ptr => Function.update f o.hash (some ptr)) f

/-- Slots of different hashes, which are not in `f`. -/
structure Fresh (f : UInt32 → Option α) (l : List (hash_table_entry α)) : Prop where
  pairs : l.Pairwise fun a b => vacant a = false → vacant b = false → a.hash ≠ b.hash
  new : ∀ o ∈ l, vacant o = false → f o.hash = none

theorem Fresh.tail {o : hash_table_entry α} {l : List (hash_table_entry α)}
    (h : Fresh f (o :: l)) : Fresh f l :=
  ⟨(List.pairwise_cons.mp h.pairs).2, fun o' ho' => h.new o' (List.mem_cons_of_mem o ho')⟩

theorem Fresh.filled {o : hash_table_entry α} {l : List (hash_table_entry α)} {ptr : α}
    (h : Fresh f (o :: l)) (ho : o.ptr = some ptr) :
    Fresh (Function.update f o.hash (some ptr)) l := by
  obtain ⟨hfirst, hpairs⟩ := List.pairwise_cons.mp h.pairs
  refine ⟨hpairs, fun o' ho' htook => ?_⟩
  rw [Function.update_of_ne (hfirst o' ho' (vacant_false.mpr ⟨ptr, ho⟩) htook).symm]
  exact h.new o' (List.mem_cons_of_mem o ho') htook

theorem filled_eq_some (l : List (hash_table_entry α)) :
    ∀ f : UInt32 → Option α, Fresh f l → ∀ k p,
      (filled f l k = some p ↔ f k = some p ∨ ∃ o ∈ l, o.ptr = some p ∧ o.hash = k) := by
  induction l with
  | nil => simp [filled]
  | cons o l ih =>
    intro f h k p
    rw [List.exists_mem_cons_iff]
    cases ho : o.ptr with
    | none =>
      have hstep : filled f (o :: l) = filled f l := by
        unfold filled
        rw [List.foldl_cons, ho]
      rw [hstep, ih f h.tail k p]
      simp
    | some ptr =>
      have hstep : filled f (o :: l) = filled (Function.update f o.hash (some ptr)) l := by
        unfold filled
        rw [List.foldl_cons, ho]
      have hnone := h.new o List.mem_cons_self (vacant_false.mpr ⟨ptr, ho⟩)
      rw [hstep, ih _ (h.filled ho) k p, ← or_assoc]
      refine or_congr_left ?_
      by_cases hk : k = o.hash
      · rw [hk, Function.update_self, hnone]
        simp
      · rw [Function.update_of_ne hk]
        exact ⟨Or.inl, fun hor => hor.resolve_right fun hand => hk hand.2.symm⟩

theorem foldlM_grow_slot (l : List (hash_table_entry α)) :
    ∀ (t : hash_table α) (f : UInt32 → Option α), Stores t f → Fresh f l →
      t.nr + l.countP (fun o => !vacant o) < t.size →
      ∃ t', l.foldlM grow_slot t = some t' ∧ t'.size = t.size ∧
        t'.nr = t.nr + l.countP (fun o => !vacant o) ∧ Stores t' (filled f l) := by
  induction l with
  | nil => exact fun t f h _ _ => ⟨t, rfl, rfl, rfl, h⟩
  | cons o l ih =>
    intro t f h hfresh hroom
    rw [List.countP_cons] at hroom ⊢
    cases ho : o.ptr with
    | none =>
      have hv : vacant o = true := vacant_true.mpr ho
      rw [hv] at hroom ⊢
      obtain ⟨t', ht', hsize, hnr, hstores⟩ := ih t f h hfresh.tail (by omega)
      refine ⟨t', ?_, hsize, hnr, ?_⟩
      · rw [List.foldlM_cons, grow_slot, ho]
        exact ht'
      · unfold filled
        rw [List.foldl_cons, ho]
        exact hstores
    | some ptr =>
      have hv : vacant o = false := vacant_false.mpr ⟨ptr, ho⟩
      rw [hv, Bool.not_false, if_pos rfl] at hroom ⊢
      obtain ⟨t₁, ht₁, hsize₁, hnr₁, hstores₁⟩ := h.insert_new (by omega) ptr
        (hfresh.new o List.mem_cons_self hv)
      obtain ⟨t', ht', hsize, hnr, hstores⟩ := ih t₁ _ hstores₁ (hfresh.filled ho) (by omega)
      refine ⟨t', ?_, hsize.trans hsize₁, by omega, ?_⟩
      · have hslot : grow_slot t o = some t₁ := by
          unfold grow_slot
          simp only [ho, ht₁, Option.map_some]
        rw [List.foldlM_cons, hslot]
        exact ht'
      · unfold filled
        rw [List.foldl_cons, ho]
        exact hstores

/-- The hashes that there can be before the size of the array wraps around. -/
def most_hashes : Nat := 715827875

theorem Stores.slots_fresh (h : Stores t f) :
    Fresh (fun _ => none) ((List.range t.size).map t.array) := by
  refine ⟨?_, fun _ _ _ => rfl⟩
  rw [List.pairwise_map]
  refine List.nodup_range.imp_of_mem ?_
  intro i j hi hj hij ha hb heq
  exact hij (h.table.distinct i (List.mem_range.mp hi) j (List.mem_range.mp hj) ha hb heq)

theorem Stores.slots_count (h : Stores t f) :
    ((List.range t.size).map t.array).countP (fun o => !vacant o) = t.nr := by
  have hsame : ((fun o => !vacant o) ∘ t.array) = fun i => decide (vacant (t.array i) = false) := by
    funext i
    rw [Function.comp_apply]
    cases vacant (t.array i) <;> rfl
  rw [List.countP_map, hsame, List.countP_eq_length_filter, ← h.nr]
  rfl

theorem Stores.slots_filled (h : Stores t f) :
    filled (fun _ => none) ((List.range t.size).map t.array) = f := by
  funext k
  refine Option.ext fun p => ?_
  rw [filled_eq_some _ _ h.slots_fresh, h.stores k p]
  simp

/-- Twice the room for the same pointers. -/
theorem Maps.grow (h : Maps t f) (hfull : t.size / 2 ≤ t.nr) (hmost : t.nr < most_hashes) :
    ∃ t', grow_hash_table t = some t' ∧ t'.nr = t.nr ∧ t'.nr < t'.size / 2 ∧ Stores t' f := by
  have hroom := h.room
  have hsize : alloc_nr t.size = (t.size + 16) * 3 / 2 := by
    unfold alloc_nr
    rw [Nat.mod_eq_of_lt]
    unfold most_hashes at hmost
    omega
  obtain ⟨t', ht', hsize', hnr, hstores⟩ := foldlM_grow_slot ((List.range t.size).map t.array)
    ⟨alloc_nr t.size, 0, fun _ => ⟨0, none⟩⟩ _ (stores_new _) h.slots_fresh (by
      rw [h.slots_count]
      simp only
      omega)
  rw [h.slots_count] at hnr
  rw [h.slots_filled] at hstores
  simp only at hsize' hnr
  exact ⟨t', ht', by omega, by omega, hstores⟩

/-- One more hash, or one more pointer for a hash: `pos` is where the last one is. -/
theorem Maps.insert_hash (h : Maps t f) (hmost : t.nr < most_hashes) (hash : UInt32) (ptr : α) :
    (f hash = none ∧ ∃ t', hashes.insert_hash hash ptr t = some (t', none) ∧
      t'.nr = t.nr + 1 ∧ Maps t' (Function.update f hash (some ptr))) ∨
    ∃ q t' pos, f hash = some q ∧ hashes.insert_hash hash ptr t = some (t', some pos) ∧
      (t'.array pos).ptr = some q ∧ (t'.put pos ptr).nr = t.nr ∧
      Maps (t'.put pos ptr) (Function.update f hash (some ptr)) := by
  obtain ⟨t₁, ht₁, hnr₁, hroom₁, hstores₁⟩ : ∃ t₁,
      hashes.insert_hash hash ptr t = insert_hash_entry hash ptr t₁ ∧ t₁.nr = t.nr ∧
        t₁.nr < t₁.size / 2 ∧ Stores t₁ f := by
    unfold hashes.insert_hash
    by_cases hfull : t.size / 2 ≤ t.nr
    · obtain ⟨t₁, hgrow, hrest⟩ := h.grow hfull hmost
      refine ⟨t₁, ?_, hrest⟩
      rw [if_pos hfull, hgrow]
      rfl
    · refine ⟨t, ?_, rfl, by omega, h.toStores⟩
      rw [if_neg hfull]
      rfl
  have hlt : t₁.nr < t₁.size := by omega
  cases hf : f hash with
  | none =>
    obtain ⟨t', ht', hsize', hnr', hstores'⟩ := hstores₁.insert_new hlt ptr hf
    refine Or.inl ⟨rfl, t', ht₁.trans ht', by omega, hstores', ?_⟩
    rw [hnr', hsize']
    omega
  | some q =>
    obtain ⟨i, hi, hinsert, hptr, hkey⟩ := hstores₁.insert_old hlt ptr hf
    refine Or.inr ⟨q, t₁, i, rfl, ht₁.trans hinsert, hptr, hnr₁, hstores₁.put ptr hi hptr hkey, ?_⟩
    unfold hash_table.put
    simp only
    omega

end git.hashes
