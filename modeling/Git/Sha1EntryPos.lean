-- The search in a pack index that guesses where a name is from two of its
-- bytes (`sha1_entry_pos` of `sha1-lookup.c`), beside the plain binary search
-- of `find_pack_entry_one`.
import Git.Sha1Pos

namespace git.sha1_lookup

open pack_idx (hashcmp hashcmp_compares hashcmp_eq_iff first_byte)

/-! ## The code -/

/-- `key[i]` -/
def byte (key : Sha1) (i : Nat) : Nat := (key.toList[i]?.getD 0).toNat

/-- The byte at `ofs_0` and, but at the last byte, the next one. -/
def value_from (key : Sha1) (ofs_0 : Nat) : Nat :=
  if ofs_0 < 19 then (byte key ofs_0 <<< 8) ||| byte key (ofs_0 + 1) else byte key ofs_0

/-- `for (ofs = ofs_0; ofs < 20; ofs++) if (lo_key[ofs] != hi_key[ofs]) break;` -/
def first_difference (lo_key hi_key : Sha1) : Nat → Nat → Nat
  | 0, ofs => ofs
  | turns + 1, ofs =>
    if byte lo_key ofs ≠ byte hi_key ofs then ofs
    else first_difference lo_key hi_key turns (ofs + 1)

/-- Hedge our bets to pick `mi` less aggressively. The product is of 32 bits. -/
def guess (lo hi lov hiv kyv : Nat) : Nat :=
  let range := hi - lo
  let kyv := (kyv * 6 + lov + hiv) / 8
  let kyv :=
    if lov < hiv - 1 then
      if kyv = lov then kyv + 1 else if kyv = hiv then kyv - 1 else kyv
    else kyv
  (range - 1) * (kyv - lov) % 2 ^ 32 / (hiv - lov) + lo

inductive entry_outcome where
  | returns (i : Int)
  /-- `assert(lov < hiv)` -/
  | assertion_fails
  /-- `die("assertion failure lo %u mi %u hi %u %s")` -/
  | dies (lo mi hi : Nat)
  deriving DecidableEq, Repr

/-- What is returned for 32 bits without a sign. -/
def as_int (bits : Nat) : Int := (BitVec.ofNat 32 bits).toInt

/-- `-1 - place` -/
def absent_at (place : Nat) : Int := as_int (2 ^ 32 - 1 - place)

/-- The loop. `table i` is the key of entry `i`, and `hi_key` is none for the
end of the table. Each turn makes `hi - lo` smaller. -/
def entry_from (table : Nat → Sha1) (key : Sha1) :
    Nat → Nat → Nat → Sha1 → Option Sha1 → Nat → entry_outcome
  | 0, lo, _, _, _, _ => .returns (absent_at lo)
  | turns + 1, lo, hi, lo_key, hi_key, ofs_0 =>
    if lo < hi then
      let ofs_0 :=
        match hi_key with
        | some hi_key => first_difference lo_key hi_key (20 - ofs_0) ofs_0
        | none => ofs_0
      let hiv :=
        match hi_key with
        | some hi_key => value_from hi_key ofs_0
        | none => if ofs_0 < 19 then 256 <<< 8 else 256
      let lov := value_from lo_key ofs_0
      let kyv := value_from key ofs_0
      if ¬lov < hiv then .assertion_fails
      else if kyv < lov then .returns (absent_at lo)
      else if hiv < kyv then .returns (absent_at hi)
      else
        let mi := guess lo hi lov hiv kyv
        if ¬(lo ≤ mi ∧ mi < hi) then .dies lo mi hi
        else
          match memcmp ((table mi).toList.drop ofs_0) (key.toList.drop ofs_0) (20 - ofs_0) with
          | .eq => .returns (as_int mi)
          | .gt => entry_from table key turns lo mi lo_key (some (table mi)) ofs_0
          | .lt => entry_from table key turns (mi + 1) hi (table (mi + 1)) hi_key ofs_0
    else .returns (absent_at lo)

def sha1_entry_pos (table : Nat → Sha1) (lo hi nr : Nat) (key : Sha1) : entry_outcome :=
  if nr = 0 ∨ hi ≤ lo then .returns (-1)
  else
    entry_from table key (hi - lo) lo hi (table lo) (if nr = hi then none else some (table hi)) 0

/-- The loop of `find_pack_entry_one`, which has its test at the end. The sum
is of 32 bits. -/
def plain_from (table : Nat → Sha1) (key : Sha1) : Nat → Nat → Nat → Option Nat
  | 0, _, _ => none
  | turns + 1, lo, hi =>
    let mi := (lo + hi) % 2 ^ 32 / 2
    match hashcmp (table mi) key with
    | .eq => some mi
    | .gt => if lo < mi then plain_from table key turns lo mi else none
    | .lt => if mi + 1 < hi then plain_from table key turns (mi + 1) hi else none

/-! ## What is asked of it -/

/-- The keys of the entries strictly ascend. -/
def Ascending (table : Nat → Sha1) (nr : Nat) : Prop :=
  ∀ i j, i < j → j < nr → (table i).toList < (table j).toList

/-- How many entries have a smaller first byte than `key`. -/
def fan_lo (table : Nat → Sha1) (nr : Nat) (key : Sha1) : Nat :=
  (List.range nr).countP fun i => first_byte (table i) < first_byte key

/-- How many entries have a first byte that is not larger. -/
def fan_hi (table : Nat → Sha1) (nr : Nat) (key : Sha1) : Nat :=
  (List.range nr).countP fun i => first_byte (table i) ≤ first_byte key

/-- The place of the entry with the key, or a negative number where there is none. -/
def EntryRight (table : Nat → Sha1) (nr : Nat) (key : Sha1) (o : entry_outcome) : Prop :=
  (∀ i < nr, table i = key → o = .returns i) ∧
    ((∀ i < nr, table i ≠ key) → ∃ i : Int, i < 0 ∧ o = .returns i)

/-! ## The way of the search -/

/-- Where the keys at the two ends of a window differ first. -/
def window_ofs (table : Nat → Sha1) (nr lo hi : Nat) : Nat :=
  if hi < nr then first_difference (table lo) (table hi) 20 0 else 0

/-- The two bytes there, of the key at the upper end. -/
def window_hiv (table : Nat → Sha1) (nr lo hi : Nat) : Nat :=
  if hi < nr then value_from (table hi) (window_ofs table nr lo hi) else 256 <<< 8

/-- The entry that is guessed for a window. -/
def window_mi (table : Nat → Sha1) (nr : Nat) (key : Sha1) (lo hi : Nat) : Nat :=
  guess lo hi (value_from (table lo) (window_ofs table nr lo hi)) (window_hiv table nr lo hi)
    (value_from key (window_ofs table nr lo hi))

/-- What a window leads to, from the bytes at the first difference on. -/
inductive turn where
  | misses (place : Nat)
  | hits (mi : Nat)
  | down (mi : Nat)
  | up (mi : Nat)
  deriving DecidableEq, Repr

def window_turn (table : Nat → Sha1) (nr : Nat) (key : Sha1) (lo hi : Nat) : turn :=
  let ofs := window_ofs table nr lo hi
  if value_from key ofs < value_from (table lo) ofs then .misses lo
  else if window_hiv table nr lo hi < value_from key ofs then .misses hi
  else
    let mi := window_mi table nr key lo hi
    match memcmp ((table mi).toList.drop ofs) (key.toList.drop ofs) (20 - ofs) with
    | .eq => .hits mi
    | .gt => .down mi
    | .lt => .up mi

/-- The windows on the way from the bucket of the key. -/
inductive Way (table : Nat → Sha1) (nr : Nat) (key : Sha1) : Nat → Nat → Prop
  | bucket : Way table nr key (fan_lo table nr key) (fan_hi table nr key)
  | down {lo hi mi : Nat} (h : Way table nr key lo hi) (hlt : lo < hi)
      (hturn : window_turn table nr key lo hi = .down mi) : Way table nr key lo mi
  | up {lo hi mi : Nat} (h : Way table nr key lo hi) (hlt : lo < hi)
      (hturn : window_turn table nr key lo hi = .up mi) : Way table nr key (mi + 1) hi

/-- On the way, an entry that agrees with the key in the bytes that are compared
is the entry with the key, and the places are `int`s. -/
structure WayRight (table : Nat → Sha1) (nr : Nat) (key : Sha1) : Prop where
  hits : ∀ lo hi mi, Way table nr key lo hi → lo < hi →
    window_turn table nr key lo hi = .hits mi → (table mi = key ↔ mi < 2 ^ 31)
  misses : ∀ lo hi place, Way table nr key lo hi → lo < hi →
    window_turn table nr key lo hi = .misses place → place < 2 ^ 31
  empty : ∀ lo, Way table nr key lo lo → fan_lo table nr key < fan_hi table nr key → lo < 2 ^ 31

/-! ## Bytes that keys share -/

theorem byte_lt (key : Sha1) (i : Nat) : byte key i < 256 := UInt8.toNat_lt _

/-- The first `n` bytes are the same. -/
def Agree (a b : Sha1) (n : Nat) : Prop := a.toList.take n = b.toList.take n

theorem Agree.symm {a b : Sha1} {n : Nat} (h : Agree a b n) : Agree b a n := Eq.symm h

theorem Agree.trans {a b c : Sha1} {n : Nat} (h : Agree a b n) (h' : Agree b c n) :
    Agree a c n := Eq.trans h h'

theorem getElem_byte (key : Sha1) {i : Nat} (hi : i < key.toList.length) :
    (key.toList[i]).toNat = byte key i := by
  unfold byte
  rw [List.getElem?_eq_getElem hi, Option.getD_some]

theorem agree_iff {a b : Sha1} {n : Nat} (hn : n ≤ 20) :
    Agree a b n ↔ ∀ i < n, byte a i = byte b i := by
  have hlen : ∀ s : Sha1, s.toList.length = 20 := fun s => by simp
  unfold Agree
  constructor
  · intro h i hi
    have := congrArg (fun l => l[i]?) h
    simp only [List.getElem?_take_of_lt hi] at this
    unfold byte
    rw [this]
  · intro h
    apply List.ext_getElem
    · rw [List.length_take, List.length_take, hlen, hlen]
    · intro i h1 h2
      rw [List.length_take, hlen] at h1
      rw [List.getElem_take, List.getElem_take, ← UInt8.toNat_inj, getElem_byte, getElem_byte]
      exact h i (by omega)

theorem eq_of_agree {a b : Sha1} (h : Agree a b 20) : a = b := by
  unfold Agree at h
  rw [List.take_of_length_le (by simp), List.take_of_length_le (by simp)] at h
  exact Vector.toList_inj.mp h

theorem lt_of_byte_lt {a b : Sha1} {n : Nat} (hn : n < 20) (h : Agree a b n)
    (hlt : byte a n < byte b n) : a.toList < b.toList := by
  have hsplit : ∀ s : Sha1, ∃ x rest, s.toList = s.toList.take n ++ x :: rest ∧
      x.toNat = byte s n := by
    intro s
    have hs : n < s.toList.length := by simpa using hn
    refine ⟨s.toList[n], s.toList.drop (n + 1), ?_, getElem_byte s hs⟩
    rw [← List.drop_eq_getElem_cons hs, List.take_append_drop]
  obtain ⟨x, rest, ha, hx⟩ := hsplit a
  obtain ⟨y, rest', hb, hy⟩ := hsplit b
  rw [ha, hb, h, list_order.append_lt_append_iff, List.cons_lt_cons_iff]
  exact Or.inl (show x.toNat < y.toNat by omega)

/-! ## The bytes that are compared -/

theorem value_from_two {key : Sha1} {ofs : Nat} (h : ofs < 19) :
    value_from key ofs = byte key ofs * 256 + byte key (ofs + 1) := by
  unfold value_from
  have hb : byte key (ofs + 1) < 2 ^ 8 := byte_lt _ _
  have hor := Nat.shiftLeft_add_eq_or_of_lt hb (byte key ofs)
  rw [if_pos h, ← hor, Nat.shiftLeft_eq]

theorem value_from_last {key : Sha1} {ofs : Nat} (h : ¬ofs < 19) :
    value_from key ofs = byte key ofs := by
  unfold value_from
  rw [if_neg h]

theorem value_from_lt_of_byte_lt {a b : Sha1} {ofs : Nat} (h : byte a ofs < byte b ofs) :
    value_from a ofs < value_from b ofs := by
  by_cases hofs : ofs < 19
  · rw [value_from_two hofs, value_from_two hofs]
    have := byte_lt a (ofs + 1)
    omega
  · rwa [value_from_last hofs, value_from_last hofs]

/-- Behind bytes that are shared, the values tell the order of the keys. -/
theorem lt_of_value_from_lt {a b : Sha1} {ofs : Nat} (hofs : ofs < 20) (h : Agree a b ofs)
    (hlt : value_from a ofs < value_from b ofs) : a.toList < b.toList := by
  by_cases h19 : ofs < 19
  · rw [value_from_two h19, value_from_two h19] at hlt
    have ha := byte_lt a (ofs + 1)
    have hb := byte_lt b (ofs + 1)
    rcases Nat.lt_trichotomy (byte a ofs) (byte b ofs) with hc | hc | hc
    · exact lt_of_byte_lt hofs h hc
    · refine lt_of_byte_lt (n := ofs + 1) (by omega) ?_ (by omega)
      rw [agree_iff (by omega)]
      intro i hi
      rcases Nat.eq_or_lt_of_le (Nat.le_of_lt_succ hi) with rfl | hlt'
      · exact hc
      · exact (agree_iff (by omega)).mp h i hlt'
    · omega
  · rw [value_from_last h19, value_from_last h19] at hlt
    exact lt_of_byte_lt hofs h hlt

theorem value_from_le {a b : Sha1} {ofs : Nat} (hofs : ofs < 20) (h : Agree a b ofs)
    (hle : a.toList ≤ b.toList) : value_from a ofs ≤ value_from b ofs := by
  by_contra hlt
  exact absurd (lt_of_value_from_lt hofs h.symm (Nat.not_le.mp hlt)) (not_lt_of_ge hle)

theorem value_from_zero_lt (key : Sha1) : value_from key 0 < 256 <<< 8 := by
  rw [value_from_two (by omega)]
  have h0 := byte_lt key 0
  have h1 := byte_lt key (0 + 1)
  have : 256 <<< 8 = 65536 := rfl
  omega

/-- What is between two keys shares the bytes that they share. -/
theorem agree_between {a b c : Sha1} {n : Nat} (h : Agree a c n) (hab : a.toList ≤ b.toList)
    (hbc : b.toList ≤ c.toList) : Agree a b n := by
  have hpre := list_order.prefix_of_between
    ((list_order.le_of_prefix (List.take_prefix n a.toList)).trans hab) hbc
    (h ▸ List.take_prefix n c.toList)
  have htake := List.prefix_iff_eq_take.mp hpre
  have hlen : (a.toList.take n).length = (b.toList.take n).length := by
    rw [List.length_take, List.length_take, Vector.length_toList, Vector.length_toList]
  unfold Agree
  rw [htake, hlen, List.length_take, Vector.length_toList, List.take_eq_take_iff,
    Vector.length_toList]
  omega

/-- The first difference of two keys. -/
theorem first_difference_spec (a b : Sha1) (turns ofs : Nat) (ht : ofs + turns = 20)
    (h : Agree a b ofs) :
    first_difference a b turns ofs ≤ 20 ∧ Agree a b (first_difference a b turns ofs) ∧
      (first_difference a b turns ofs < 20 →
        byte a (first_difference a b turns ofs) ≠ byte b (first_difference a b turns ofs)) := by
  induction turns generalizing ofs with
  | zero => exact ⟨by unfold first_difference; omega, h, fun hlt => by
      unfold first_difference at hlt
      omega⟩
  | succ turns ih =>
    unfold first_difference
    by_cases hne : byte a ofs ≠ byte b ofs
    · rw [if_pos hne]
      exact ⟨by omega, h, fun _ => hne⟩
    · rw [if_neg hne]
      refine ih (ofs + 1) (by omega) ?_
      rw [agree_iff (by omega)]
      intro i hi
      rcases Nat.eq_or_lt_of_le (Nat.le_of_lt_succ hi) with rfl | hlt
      · exact not_not.mp hne
      · exact (agree_iff (by omega)).mp h i hlt

theorem difference_unique {a b : Sha1} {d d' : Nat} (hd : d ≤ 20) (hd' : d' ≤ 20)
    (h : Agree a b d) (h' : Agree a b d') (hne : d < 20 → byte a d ≠ byte b d)
    (hne' : d' < 20 → byte a d' ≠ byte b d') : d = d' := by
  rcases Nat.lt_trichotomy d d' with hlt | heq | hlt
  · exact absurd ((agree_iff hd').mp h' d hlt) (hne (by omega))
  · exact heq
  · exact absurd ((agree_iff hd).mp h d' hlt) (hne' (by omega))

/-- The search for the difference may start behind bytes that are shared. -/
theorem first_difference_from {a b : Sha1} {ofs : Nat} (hofs : ofs ≤ 20) (h : Agree a b ofs) :
    first_difference a b (20 - ofs) ofs = first_difference a b 20 0 := by
  obtain ⟨h1, h2, h3⟩ := first_difference_spec a b (20 - ofs) ofs (by omega) h
  obtain ⟨h1', h2', h3'⟩ := first_difference_spec a b 20 0 (by omega) rfl
  exact difference_unique h1 h1' h2 h2' h3 h3'

/-! ## Windows -/

theorem guess_between {lo hi lov hiv kyv : Nat} (hlt : lo < hi) (hv : lov < hiv) (h1 : lov ≤ kyv)
    (h2 : kyv ≤ hiv) : lo ≤ guess lo hi lov hiv kyv ∧ guess lo hi lov hiv kyv < hi := by
  unfold guess
  dsimp only
  -- The hedged value stays between the two.
  have hk : ∃ k, lov ≤ k ∧ k ≤ hiv ∧
      (if lov < hiv - 1 then
        if (kyv * 6 + lov + hiv) / 8 = lov then (kyv * 6 + lov + hiv) / 8 + 1
        else if (kyv * 6 + lov + hiv) / 8 = hiv then (kyv * 6 + lov + hiv) / 8 - 1
        else (kyv * 6 + lov + hiv) / 8
      else (kyv * 6 + lov + hiv) / 8) = k := by
    refine ⟨_, ?_, ?_, rfl⟩ <;> split_ifs <;> omega
  obtain ⟨k, hk1, hk2, hk⟩ := hk
  rw [hk]
  have hle : (hi - lo - 1) * (k - lov) % 2 ^ 32 ≤ (hiv - lov) * (hi - lo - 1) := by
    refine (Nat.mod_le _ _).trans ?_
    rw [Nat.mul_comm]
    exact Nat.mul_le_mul_right _ (by omega)
  have hdiv := Nat.div_le_of_le_mul hle
  generalize (hi - lo - 1) * (k - lov) % 2 ^ 32 / (hiv - lov) = q at hdiv ⊢
  omega

section Windows
variable {table : Nat → Sha1} {nr : Nat} {key : Sha1}

theorem Ascending.le (h : Ascending table nr) {i j : Nat} (hij : i ≤ j) (hj : j < nr) :
    (table i).toList ≤ (table j).toList := by
  rcases Nat.eq_or_lt_of_le hij with rfl | hlt
  · exact le_refl _
  · exact (h i j hlt hj).le

theorem Ascending.inj (h : Ascending table nr) {i j : Nat} (hi : i < nr) (hj : j < nr)
    (heq : table i = table j) : i = j := by
  rcases Nat.lt_trichotomy i j with hlt | rfl | hlt
  · exact absurd (h i j hlt hj) (by rw [heq]; exact lt_irrefl _)
  · rfl
  · exact absurd (h j i hlt hi) (by rw [heq]; exact lt_irrefl _)

/-- What the bytes at the ends of a window tell. -/
theorem window_spec (h : Ascending table nr) {lo hi : Nat} (hlt : lo < hi) :
    window_ofs table nr lo hi < 20 ∧
      (hi < nr → Agree (table lo) (table hi) (window_ofs table nr lo hi)) ∧
      value_from (table lo) (window_ofs table nr lo hi) < window_hiv table nr lo hi := by
  unfold window_hiv window_ofs
  by_cases hn : hi < nr
  · simp only [if_pos hn]
    obtain ⟨h20, hagree, hne⟩ := first_difference_spec (table lo) (table hi) 20 0 rfl rfl
    have hlt' := h lo hi hlt hn
    have hofs : first_difference (table lo) (table hi) 20 0 < 20 := by
      by_contra hge
      have h20' : first_difference (table lo) (table hi) 20 0 = 20 := by omega
      rw [h20'] at hagree
      rw [eq_of_agree hagree] at hlt'
      exact absurd hlt' (lt_irrefl _)
    refine ⟨hofs, fun _ => hagree, value_from_lt_of_byte_lt ?_⟩
    rcases Nat.lt_or_gt_of_ne (hne hofs) with hb | hb
    · exact hb
    · exact absurd (lt_of_byte_lt hofs hagree.symm hb) (not_lt_of_gt hlt')
  · simp only [if_neg hn]
    exact ⟨by omega, fun h => absurd h hn, value_from_zero_lt _⟩

/-- All keys of a window share the bytes before the first difference of its ends. -/
theorem window_agree (h : Ascending table nr) {lo hi i : Nat} (hlt : lo < hi) (hlo : lo ≤ i)
    (hi' : i ≤ hi) (hn : i < nr) :
    Agree (table lo) (table i) (window_ofs table nr lo hi) := by
  by_cases hend : hi < nr
  · exact agree_between ((window_spec h hlt).2.1 hend) (h.le hlo hn) (h.le hi' hend)
  · unfold window_ofs
    rw [if_neg hend]
    rfl

/-- A key that belongs in the window shares them too, and lies between the values. -/
theorem window_key (h : Ascending table nr) {lo hi : Nat} (hlt : lo < hi)
    (hlo : (table lo).toList ≤ key.toList) (hkey : hi < nr → key.toList < (table hi).toList) :
    Agree (table lo) key (window_ofs table nr lo hi) ∧
      value_from (table lo) (window_ofs table nr lo hi) ≤
        value_from key (window_ofs table nr lo hi) ∧
      value_from key (window_ofs table nr lo hi) ≤ window_hiv table nr lo hi := by
  obtain ⟨hofs, hagree, -⟩ := window_spec h hlt
  by_cases hn : hi < nr
  · have hlk := agree_between (hagree hn) hlo (hkey hn).le
    refine ⟨hlk, value_from_le hofs hlk hlo, ?_⟩
    unfold window_hiv
    rw [if_pos hn]
    exact value_from_le hofs (hlk.symm.trans (hagree hn)) (hkey hn).le
  · have h0 : window_ofs table nr lo hi = 0 := by
      unfold window_ofs
      rw [if_neg hn]
    have hlk : Agree (table lo) key 0 := rfl
    unfold window_hiv
    rw [h0, if_neg hn]
    exact ⟨hlk, value_from_le (by omega) hlk hlo, (value_from_zero_lt key).le⟩

/-- The order of what is compared. -/
theorem memcmp_tail_compares (a b : Sha1) (n : Nat) :
    (memcmp (a.toList.drop n) (b.toList.drop n) (20 - n)).Compares (a.toList.drop n)
      (b.toList.drop n) := by
  have h := memcmp_compares (a.toList.drop n) (b.toList.drop n)
  have hlen : ∀ s : Sha1, (s.toList.drop n).length = 20 - n := fun s => by simp
  rw [hlen, hlen, Nat.min_self] at h
  revert h
  split_ifs with hne h20
  · exact fun h => h
  · exact absurd h20 (lt_irrefl _)
  · rw [not_not.mp hne]
    exact fun h => h

theorem tail_lt_iff {a b : Sha1} {n : Nat} (h : Agree a b n) :
    a.toList.drop n < b.toList.drop n ↔ a.toList < b.toList := by
  conv_rhs => rw [← List.take_append_drop n a.toList, ← List.take_append_drop n b.toList]
  unfold Agree at h
  rw [h, list_order.append_lt_append_iff]

/-- The turns that a window can take. -/
theorem window_turn_cases (h : Ascending table nr) (key : Sha1) {lo hi : Nat} (hlt : lo < hi) :
    (∃ place ≤ hi, window_turn table nr key lo hi = .misses place ∧
        ¬(value_from (table lo) (window_ofs table nr lo hi) ≤
            value_from key (window_ofs table nr lo hi) ∧
          value_from key (window_ofs table nr lo hi) ≤ window_hiv table nr lo hi)) ∨
      ∃ mi, lo ≤ mi ∧ mi < hi ∧ mi = window_mi table nr key lo hi ∧
        ((window_turn table nr key lo hi = .hits mi ∧
            (table mi).toList.drop (window_ofs table nr lo hi) =
              key.toList.drop (window_ofs table nr lo hi)) ∨
          (window_turn table nr key lo hi = .down mi ∧
            key.toList.drop (window_ofs table nr lo hi) <
              (table mi).toList.drop (window_ofs table nr lo hi)) ∨
          (window_turn table nr key lo hi = .up mi ∧
            (table mi).toList.drop (window_ofs table nr lo hi) <
              key.toList.drop (window_ofs table nr lo hi))) := by
  obtain ⟨hofs, -, hv⟩ := window_spec h hlt
  unfold window_turn
  dsimp only
  by_cases h1 : value_from key (window_ofs table nr lo hi) <
      value_from (table lo) (window_ofs table nr lo hi)
  · rw [if_pos h1]
    exact Or.inl ⟨lo, hlt.le, rfl, fun hv => absurd h1 (Nat.not_lt.mpr hv.1)⟩
  rw [if_neg h1]
  by_cases h2 : window_hiv table nr lo hi < value_from key (window_ofs table nr lo hi)
  · rw [if_pos h2]
    exact Or.inl ⟨hi, le_refl _, rfl, fun hv => absurd h2 (Nat.not_lt.mpr hv.2)⟩
  rw [if_neg h2]
  obtain ⟨hg1, hg2⟩ := guess_between hlt hv (Nat.not_lt.mp h1) (Nat.not_lt.mp h2)
  refine Or.inr ⟨window_mi table nr key lo hi, hg1, hg2, rfl, ?_⟩
  have hcmp := memcmp_tail_compares (table (window_mi table nr key lo hi)) key
    (window_ofs table nr lo hi)
  cases hc : memcmp ((table (window_mi table nr key lo hi)).toList.drop
      (window_ofs table nr lo hi)) (key.toList.drop (window_ofs table nr lo hi))
      (20 - window_ofs table nr lo hi) with
  | eq => exact Or.inl ⟨rfl, hcmp.eq_eq.mp hc⟩
  | gt => exact Or.inr (Or.inl ⟨rfl, hcmp.eq_gt.mp hc⟩)
  | lt => exact Or.inr (Or.inr ⟨rfl, hcmp.eq_lt.mp hc⟩)

/-! ## The loop goes through the windows -/

/-- The windows one after another, to the end. -/
def walk (table : Nat → Sha1) (nr : Nat) (key : Sha1) : Nat → Nat → Nat → entry_outcome
  | 0, lo, _ => .returns (absent_at lo)
  | turns + 1, lo, hi =>
    if lo < hi then
      match window_turn table nr key lo hi with
      | .misses place => .returns (absent_at place)
      | .hits mi => .returns (as_int mi)
      | .down mi => walk table nr key turns lo mi
      | .up mi => walk table nr key turns (mi + 1) hi
    else .returns (absent_at lo)

/-- What the loop knows of the two ends. -/
structure Ends (table : Nat → Sha1) (nr lo hi : Nat) (hi_key : Option Sha1) (ofs_0 : Nat) :
    Prop where
  hi_key : hi_key = if nr = hi then none else some (table hi)
  inside : hi < nr → ofs_0 ≤ 20 ∧ Agree (table lo) (table hi) ofs_0
  at_end : hi = nr → ofs_0 = 0

theorem entry_from_walk (h : Ascending table nr) (turns lo hi : Nat) (hhi : hi ≤ nr)
    (hi_key : Option Sha1) (ofs_0 : Nat) (hends : lo < hi → Ends table nr lo hi hi_key ofs_0) :
    entry_from table key turns lo hi (table lo) hi_key ofs_0 = walk table nr key turns lo hi := by
  induction turns generalizing lo hi hi_key ofs_0 with
  | zero => rfl
  | succ turns ih =>
    unfold entry_from walk
    by_cases hlt : lo < hi
    · rw [if_pos hlt, if_pos hlt]
      obtain ⟨hkey, hinside, hatend⟩ := hends hlt
      clear hends
      subst hkey
      obtain ⟨hofs, hagree, hv⟩ := window_spec h hlt
      -- The difference and the value at the upper end are those of the window.
      have hofs_eq : (match (if nr = hi then none else some (table hi) : Option Sha1) with
          | some hi_key => first_difference (table lo) hi_key (20 - ofs_0) ofs_0
          | none => ofs_0) = window_ofs table nr lo hi := by
        unfold window_ofs
        by_cases hn : hi < nr
        · rw [if_neg (by omega), if_pos hn]
          exact first_difference_from (hinside hn).1 (hinside hn).2
        · rw [if_pos (by omega), if_neg hn]
          exact hatend (by omega)
      have hhiv_eq : (match (if nr = hi then none else some (table hi) : Option Sha1) with
          | some hi_key => value_from hi_key (window_ofs table nr lo hi)
          | none => if window_ofs table nr lo hi < 19 then 256 <<< 8 else 256) =
            window_hiv table nr lo hi := by
        unfold window_hiv
        by_cases hn : hi < nr
        · rw [if_neg (by omega), if_pos hn]
        · have h0 : window_ofs table nr lo hi = 0 := by
            unfold window_ofs
            rw [if_neg hn]
          rw [if_pos (by omega), if_neg hn, h0]
          rfl
      dsimp only
      rw [hofs_eq, hhiv_eq, if_neg (not_not.mpr hv)]
      unfold window_turn
      dsimp only
      by_cases h1 : value_from key (window_ofs table nr lo hi) <
          value_from (table lo) (window_ofs table nr lo hi)
      · rw [if_pos h1, if_pos h1]
      rw [if_neg h1, if_neg h1]
      by_cases h2 : window_hiv table nr lo hi < value_from key (window_ofs table nr lo hi)
      · rw [if_pos h2, if_pos h2]
      rw [if_neg h2, if_neg h2]
      obtain ⟨hg1, hg2⟩ := guess_between hlt hv (Nat.not_lt.mp h1) (Nat.not_lt.mp h2)
      change lo ≤ window_mi table nr key lo hi at hg1
      change window_mi table nr key lo hi < hi at hg2
      rw [if_neg (not_not.mpr ⟨hg1, hg2⟩)]
      -- Both go on in the same way, with the ends that the loop keeps.
      have hmi : Agree (table lo) (table (window_mi table nr key lo hi))
          (window_ofs table nr lo hi) :=
        window_agree h hlt hg1 hg2.le (by omega)
      change (match memcmp ((table (window_mi table nr key lo hi)).toList.drop
          (window_ofs table nr lo hi)) _ _ with
        | .eq => _
        | .gt => _
        | .lt => _) = _
      cases memcmp ((table (window_mi table nr key lo hi)).toList.drop
          (window_ofs table nr lo hi)) (key.toList.drop (window_ofs table nr lo hi))
          (20 - window_ofs table nr lo hi) with
      | eq => rfl
      | gt =>
        refine ih lo (window_mi table nr key lo hi) (by omega) _ _ fun _ => ⟨?_, ?_, ?_⟩
        · rw [if_neg (by omega)]
          rfl
        · exact fun _ => ⟨hofs.le, hmi⟩
        · intro hend
          exact absurd hend (hg2.trans_le hhi).ne
      | lt =>
        refine ih (window_mi table nr key lo hi + 1) hi hhi _ _ fun hlt' => ⟨rfl, ?_, ?_⟩
        · intro hn
          have hmi' := window_agree h hlt (i := window_mi table nr key lo hi + 1)
            (by omega) (by omega) (by omega)
          exact ⟨hofs.le, hmi'.symm.trans (hagree hn)⟩
        · intro hend
          unfold window_ofs
          rw [if_neg (by omega)]
    · rw [if_neg hlt, if_neg hlt]

theorem walk_of_not_lt {turns lo hi : Nat} (h : ¬lo < hi) :
    walk table nr key turns lo hi = .returns (absent_at lo) := by
  cases turns with
  | zero => rfl
  | succ turns =>
    unfold walk
    rw [if_neg h]

/-- Turns that the window is too short for change nothing. -/
theorem walk_turns (h : Ascending table nr) {turns turns' lo hi : Nat} (ht : hi - lo ≤ turns)
    (ht' : hi - lo ≤ turns') :
    walk table nr key turns lo hi = walk table nr key turns' lo hi := by
  induction turns generalizing turns' lo hi with
  | zero => rw [walk_of_not_lt (by omega), walk_of_not_lt (by omega)]
  | succ turns ih =>
    by_cases hlt : lo < hi
    · obtain ⟨turns', rfl⟩ : ∃ k, turns' = k + 1 := ⟨turns' - 1, by omega⟩
      unfold walk
      rw [if_pos hlt, if_pos hlt]
      rcases window_turn_cases h key hlt with
        ⟨place, -, hturn, -⟩ | ⟨mi, h1, h2, -, ⟨hturn, -⟩ | ⟨hturn, -⟩ | ⟨hturn, -⟩⟩
      · rw [hturn]
      · rw [hturn]
      · simp only [hturn]
        exact ih (by omega) (by omega)
      · simp only [hturn]
        exact ih (by omega) (by omega)
    · rw [walk_of_not_lt hlt, walk_of_not_lt hlt]

/-! ## The bucket -/

/-- The places of a first byte that is smaller, or that is not larger. -/
theorem lt_fan_lo_iff (h : Ascending table nr) (key : Sha1) {i : Nat} (hi : i < nr) :
    i < fan_lo table nr key ↔ first_byte (table i) < first_byte key := by
  have hpair : (List.range nr).Pairwise fun a b =>
      first_byte (table b) < first_byte key → first_byte (table a) < first_byte key := by
    refine List.pairwise_lt_range.imp_of_mem ?_
    intro a b _ hb hab
    exact (pack_idx.first_byte_le_of_lt (h a b hab (List.mem_range.mp hb))).trans_lt
  have hiff := bsearch.getElem_iff_lt_countP hpair (i := i) (by rwa [List.length_range])
  rw [List.getElem_range] at hiff
  exact hiff.symm

theorem lt_fan_hi_iff (h : Ascending table nr) (key : Sha1) {i : Nat} (hi : i < nr) :
    i < fan_hi table nr key ↔ first_byte (table i) ≤ first_byte key := by
  have hpair : (List.range nr).Pairwise fun a b =>
      first_byte (table b) ≤ first_byte key → first_byte (table a) ≤ first_byte key := by
    refine List.pairwise_lt_range.imp_of_mem ?_
    intro a b _ hb hab
    exact (pack_idx.first_byte_le_of_lt (h a b hab (List.mem_range.mp hb))).trans
  have hiff := bsearch.getElem_iff_lt_countP hpair (i := i) (by rwa [List.length_range])
  rw [List.getElem_range] at hiff
  exact hiff.symm

theorem fan_lo_le (table : Nat → Sha1) (nr : Nat) (key : Sha1) :
    fan_lo table nr key ≤ fan_hi table nr key := by
  apply List.countP_mono_left
  intro i _ hi
  simp only [decide_eq_true_eq] at hi ⊢
  exact hi.le

theorem fan_hi_le (table : Nat → Sha1) (nr : Nat) (key : Sha1) : fan_hi table nr key ≤ nr := by
  have := List.countP_le_length (p := fun i => decide (first_byte (table i) ≤ first_byte key))
    (l := List.range nr)
  rwa [List.length_range] at this

/-- The entry with the key stands in the bucket. -/
theorem in_bucket (h : Ascending table nr) {i : Nat} (hi : i < nr) (heq : table i = key) :
    fan_lo table nr key ≤ i ∧ i < fan_hi table nr key := by
  refine ⟨Nat.not_lt.mp fun hlt => ?_, ?_⟩
  · have := (lt_fan_lo_iff h key hi).mp hlt
    rw [heq] at this
    omega
  · rw [lt_fan_hi_iff h key hi, heq]

/-! ## The windows on the way -/

theorem down_spec (h : Ascending table nr) {lo hi mi : Nat} (hlt : lo < hi)
    (hturn : window_turn table nr key lo hi = .down mi) :
    lo ≤ mi ∧ mi < hi ∧ key.toList.drop (window_ofs table nr lo hi) <
      (table mi).toList.drop (window_ofs table nr lo hi) := by
  rcases window_turn_cases h key hlt with
    ⟨place, -, hc, -⟩ | ⟨mi', h1, h2, -, ⟨hc, -⟩ | ⟨hc, hlt'⟩ | ⟨hc, -⟩⟩ <;>
    rw [hturn] at hc <;> cases hc
  exact ⟨h1, h2, hlt'⟩

theorem up_spec (h : Ascending table nr) {lo hi mi : Nat} (hlt : lo < hi)
    (hturn : window_turn table nr key lo hi = .up mi) :
    lo ≤ mi ∧ mi < hi ∧ (table mi).toList.drop (window_ofs table nr lo hi) <
      key.toList.drop (window_ofs table nr lo hi) := by
  rcases window_turn_cases h key hlt with
    ⟨place, -, hc, -⟩ | ⟨mi', h1, h2, -, ⟨hc, -⟩ | ⟨hc, -⟩ | ⟨hc, hlt'⟩⟩ <;>
    rw [hturn] at hc <;> cases hc
  exact ⟨h1, h2, hlt'⟩

theorem hits_spec (h : Ascending table nr) {lo hi mi : Nat} (hlt : lo < hi)
    (hturn : window_turn table nr key lo hi = .hits mi) :
    lo ≤ mi ∧ mi < hi ∧ (table mi).toList.drop (window_ofs table nr lo hi) =
      key.toList.drop (window_ofs table nr lo hi) := by
  rcases window_turn_cases h key hlt with
    ⟨place, -, hc, -⟩ | ⟨mi', h1, h2, -, ⟨hc, heq⟩ | ⟨hc, -⟩ | ⟨hc, -⟩⟩ <;>
    rw [hturn] at hc <;> cases hc
  exact ⟨h1, h2, heq⟩

theorem misses_spec (h : Ascending table nr) {lo hi place : Nat} (hlt : lo < hi)
    (hturn : window_turn table nr key lo hi = .misses place) :
    place ≤ hi ∧ ¬(value_from (table lo) (window_ofs table nr lo hi) ≤
          value_from key (window_ofs table nr lo hi) ∧
        value_from key (window_ofs table nr lo hi) ≤ window_hiv table nr lo hi) := by
  rcases window_turn_cases h key hlt with
    ⟨place', hle, hc, hout⟩ | ⟨mi', h1, h2, -, ⟨hc, -⟩ | ⟨hc, -⟩ | ⟨hc, -⟩⟩ <;>
    rw [hturn] at hc <;> cases hc
  exact ⟨hle, hout⟩

theorem Way.inside (h : Ascending table nr) {lo hi : Nat} (hway : Way table nr key lo hi) :
    fan_lo table nr key ≤ lo ∧ lo ≤ hi ∧ hi ≤ fan_hi table nr key := by
  induction hway with
  | bucket => exact ⟨le_refl _, fan_lo_le table nr key, le_refl _⟩
  | down _ hlt hturn ih =>
    obtain ⟨h1, h2, -⟩ := down_spec h hlt hturn
    exact ⟨ih.1, h1, h2.le.trans ih.2.2⟩
  | up _ hlt hturn ih =>
    obtain ⟨h1, h2, -⟩ := up_spec h hlt hturn
    exact ⟨by omega, h2, ih.2.2⟩

/-- The rest of the way from each of its windows is the rest of the search. -/
theorem Way.walk_eq (h : Ascending table nr) {lo hi : Nat} (hway : Way table nr key lo hi) :
    walk table nr key (fan_hi table nr key - fan_lo table nr key) (fan_lo table nr key)
      (fan_hi table nr key) = walk table nr key (hi - lo) lo hi := by
  induction hway with
  | bucket => rfl
  | @down lo hi mi hway hlt hturn ih =>
    obtain ⟨h1, h2, -⟩ := down_spec h hlt hturn
    obtain ⟨turns, hturns⟩ : ∃ k, hi - lo = k + 1 := ⟨hi - lo - 1, by omega⟩
    rw [ih, hturns, walk, if_pos hlt]
    simp only [hturn]
    exact walk_turns h (by omega) (by omega)
  | @up lo hi mi hway hlt hturn ih =>
    obtain ⟨h1, h2, -⟩ := up_spec h hlt hturn
    obtain ⟨turns, hturns⟩ : ∃ k, hi - lo = k + 1 := ⟨hi - lo - 1, by omega⟩
    rw [ih, hturns, walk, if_pos hlt]
    simp only [hturn]
    exact walk_turns h (by omega) (by omega)

/-- What is returned at an end of the way. -/
inductive Stop (table : Nat → Sha1) (nr : Nat) (key : Sha1) : Int → Prop
  | hits {lo hi mi : Nat} (hway : Way table nr key lo hi) (hlt : lo < hi)
      (hturn : window_turn table nr key lo hi = .hits mi) : Stop table nr key (as_int mi)
  | misses {lo hi place : Nat} (hway : Way table nr key lo hi) (hlt : lo < hi)
      (hturn : window_turn table nr key lo hi = .misses place) :
      Stop table nr key (absent_at place)
  | empty {lo : Nat} (hway : Way table nr key lo lo) : Stop table nr key (absent_at lo)

theorem Way.stops (h : Ascending table nr) {turns lo hi : Nat} (hway : Way table nr key lo hi)
    (ht : hi - lo ≤ turns) :
    ∃ r, Stop table nr key r ∧ walk table nr key turns lo hi = .returns r := by
  induction turns generalizing lo hi with
  | zero =>
    have hle := (hway.inside h).2.1
    obtain rfl : lo = hi := by omega
    exact ⟨_, .empty hway, rfl⟩
  | succ turns ih =>
    by_cases hlt : lo < hi
    · unfold walk
      rw [if_pos hlt]
      cases hturn : window_turn table nr key lo hi with
      | misses place => exact ⟨_, .misses hway hlt hturn, rfl⟩
      | hits mi => exact ⟨_, .hits hway hlt hturn, rfl⟩
      | down mi =>
        obtain ⟨h1, h2, -⟩ := down_spec h hlt hturn
        exact ih (hway.down hlt hturn) (by omega)
      | up mi =>
        obtain ⟨h1, h2, -⟩ := up_spec h hlt hturn
        exact ih (hway.up hlt hturn) (by omega)
    · have hle := (hway.inside h).2.1
      obtain rfl : lo = hi := by omega
      exact ⟨_, .empty hway, walk_of_not_lt hlt⟩

theorem Stop.walk_eq (h : Ascending table nr) {r : Int} (hstop : Stop table nr key r) :
    walk table nr key (fan_hi table nr key - fan_lo table nr key) (fan_lo table nr key)
      (fan_hi table nr key) = .returns r := by
  cases hstop with
  | @hits lo hi mi hway hlt hturn =>
    obtain ⟨turns, hturns⟩ : ∃ k, hi - lo = k + 1 := ⟨hi - lo - 1, by omega⟩
    rw [hway.walk_eq h, hturns, walk, if_pos hlt, hturn]
  | @misses lo hi place hway hlt hturn =>
    obtain ⟨turns, hturns⟩ : ∃ k, hi - lo = k + 1 := ⟨hi - lo - 1, by omega⟩
    rw [hway.walk_eq h, hturns, walk, if_pos hlt, hturn]
  | empty hway => rw [hway.walk_eq h, walk_of_not_lt (lt_irrefl _)]

/-- The search of a bucket that is not empty. -/
theorem sha1_entry_pos_eq (h : Ascending table nr)
    (hbucket : fan_lo table nr key < fan_hi table nr key) :
    sha1_entry_pos table (fan_lo table nr key) (fan_hi table nr key) nr key =
      walk table nr key (fan_hi table nr key - fan_lo table nr key) (fan_lo table nr key)
        (fan_hi table nr key) := by
  have hle := fan_hi_le table nr key
  unfold sha1_entry_pos
  rw [if_neg (by omega)]
  exact entry_from_walk h _ _ _ hle _ _ fun _ => ⟨rfl, fun _ => ⟨by omega, rfl⟩, fun _ => rfl⟩

/-! ## The key is listed -/

/-- No window on the way loses the entry with the key. -/
theorem Way.holds (h : Ascending table nr) {i : Nat} (hi : i < nr) (heq : table i = key)
    {lo hi' : Nat} (hway : Way table nr key lo hi') : lo ≤ i ∧ i < hi' := by
  induction hway with
  | bucket => exact in_bucket h hi heq
  | @down lo hi' mi hway hlt hturn ih =>
    obtain ⟨h1, h2, hcmp⟩ := down_spec h hlt hturn
    have hend := (hway.inside h).2.2.trans (fan_hi_le table nr key)
    have hmi := window_agree h hlt h1 h2.le (by omega)
    have hkey := window_agree h hlt ih.1 ih.2.le hi
    rw [heq] at hkey
    rw [tail_lt_iff (hkey.symm.trans hmi), ← heq] at hcmp
    refine ⟨ih.1, Nat.not_le.mp fun hle => ?_⟩
    exact absurd (h.le hle hi) (not_le_of_gt hcmp)
  | @up lo hi' mi hway hlt hturn ih =>
    obtain ⟨h1, h2, hcmp⟩ := up_spec h hlt hturn
    have hend := (hway.inside h).2.2.trans (fan_hi_le table nr key)
    have hmi := window_agree h hlt h1 h2.le (by omega)
    have hkey := window_agree h hlt ih.1 ih.2.le hi
    rw [heq] at hkey
    rw [tail_lt_iff (hmi.symm.trans hkey), ← heq] at hcmp
    refine ⟨Nat.lt_of_not_le fun hle => ?_, ih.2⟩
    exact absurd (h.le hle (by omega)) (not_le_of_gt hcmp)

/-- So what is found is that entry, -/
theorem hits_of_listed (h : Ascending table nr) {i : Nat} (hi : i < nr) (heq : table i = key)
    {lo hi' mi : Nat} (hway : Way table nr key lo hi') (hlt : lo < hi')
    (hturn : window_turn table nr key lo hi' = .hits mi) : mi = i := by
  obtain ⟨h1, h2, htail⟩ := hits_spec h hlt hturn
  obtain ⟨hlo, hhi⟩ := hway.holds h hi heq
  have hend := (hway.inside h).2.2.trans (fan_hi_le table nr key)
  have hmi := window_agree h hlt h1 h2.le (by omega)
  have hkey := window_agree h hlt hlo hhi.le hi
  have hhead : Agree (table mi) (table i) (window_ofs table nr lo hi') := hmi.symm.trans hkey
  rw [← heq] at htail
  apply h.inj (by omega) hi
  rw [← Vector.toList_inj, ← List.take_append_drop (window_ofs table nr lo hi') (table mi).toList,
    htail, hhead, List.take_append_drop]

/-- and no window says that the key is outside. -/
theorem not_misses_of_listed (h : Ascending table nr) {i : Nat} (hi : i < nr)
    (heq : table i = key) {lo hi' place : Nat} (hway : Way table nr key lo hi') (hlt : lo < hi') :
    window_turn table nr key lo hi' ≠ .misses place := by
  intro hturn
  obtain ⟨-, hout⟩ := misses_spec h hlt hturn
  obtain ⟨hlo, hhi⟩ := hway.holds h hi heq
  refine hout (window_key h hlt ?_ ?_).2
  · rw [← heq]
    exact h.le hlo hi
  · intro hn
    rw [← heq]
    exact h i hi' hhi hn

/-! ## What is returned -/

theorem as_int_eq {mi : Nat} (h : mi < 2 ^ 31) : as_int mi = mi := by
  unfold as_int
  rw [BitVec.toInt_eq_toNat_of_lt (by rw [BitVec.toNat_ofNat]; omega), BitVec.toNat_ofNat,
    Nat.mod_eq_of_lt (by omega)]

theorem as_int_neg_iff (mi : Nat) (h : mi < 2 ^ 32) : as_int mi < 0 ↔ 2 ^ 31 ≤ mi := by
  unfold as_int
  rw [BitVec.toInt_eq_toNat_cond, BitVec.toNat_ofNat, Nat.mod_eq_of_lt h]
  split_ifs <;> omega

theorem absent_at_neg_iff {place : Nat} (h : place < 2 ^ 32) :
    absent_at place < 0 ↔ place < 2 ^ 31 := by
  unfold absent_at
  rw [as_int_neg_iff _ (by omega)]
  omega

/-! ## The search is right where the way is -/

/-- The bytes of the keys are always told apart, and the guess is in the window. -/
theorem sha1_entry_pos_returns (h : Ascending table nr) (key : Sha1) :
    ∃ r : Int, sha1_entry_pos table (fan_lo table nr key) (fan_hi table nr key) nr key =
      .returns r := by
  by_cases hbucket : fan_lo table nr key < fan_hi table nr key
  · obtain ⟨r, -, hr⟩ := Way.stops h (.bucket : Way table nr key _ _) (le_refl _)
    exact ⟨r, by rw [sha1_entry_pos_eq h hbucket, hr]⟩
  · refine ⟨-1, ?_⟩
    unfold sha1_entry_pos
    rw [if_pos (Or.inr (Nat.not_lt.mp hbucket))]

theorem entry_right_of_listed (h : Ascending table nr) (hnr : nr < 2 ^ 32) {i : Nat} (hi : i < nr)
    (heq : table i = key) :
    EntryRight table nr key
        (sha1_entry_pos table (fan_lo table nr key) (fan_hi table nr key) nr key) ↔
      WayRight table nr key := by
  obtain ⟨hlo, hhi⟩ := in_bucket h hi heq
  rw [sha1_entry_pos_eq h (by omega)]
  -- The way ends at the entry.
  obtain ⟨r, hstop, hr⟩ := Way.stops h (.bucket : Way table nr key _ _) (le_refl _)
  have hri : r = as_int i ∧
      ∃ lo hi', Way table nr key lo hi' ∧ lo < hi' ∧ window_turn table nr key lo hi' = .hits i := by
    cases hstop with
    | hits hway hlt hturn =>
      obtain rfl := hits_of_listed h hi heq hway hlt hturn
      exact ⟨rfl, _, _, hway, hlt, hturn⟩
    | misses hway hlt hturn => exact absurd hturn (not_misses_of_listed h hi heq hway hlt)
    | empty hway =>
      have := hway.holds h hi heq
      omega
  obtain ⟨rfl, lo, hi', hway, hlt, hturn⟩ := hri
  rw [hr]
  constructor
  · intro hright
    have hret := hright.1 i hi heq
    have hsmall : i < 2 ^ 31 := by
      by_contra hge
      have hneg := (as_int_neg_iff i (by omega)).mpr (by omega)
      rw [entry_outcome.returns.injEq] at hret
      omega
    refine ⟨?_, ?_, ?_⟩
    · intro lo hi' mi hway hlt hturn
      obtain rfl := hits_of_listed h hi heq hway hlt hturn
      exact iff_of_true heq hsmall
    · intro lo hi' place hway hlt hturn
      exact absurd hturn (not_misses_of_listed h hi heq hway hlt)
    · intro lo hway
      have := hway.holds h hi heq
      omega
  · intro hright
    have hsmall := (hright.hits lo hi' i hway hlt hturn).mp heq
    refine ⟨?_, fun hnone => absurd heq (hnone i hi)⟩
    intro j hj hjeq
    obtain rfl := h.inj hi hj (heq.trans hjeq.symm)
    rw [as_int_eq hsmall]

theorem entry_right_of_not_listed (h : Ascending table nr) (hnr : nr < 2 ^ 32)
    (hnone : ∀ i < nr, table i ≠ key) :
    EntryRight table nr key
        (sha1_entry_pos table (fan_lo table nr key) (fan_hi table nr key) nr key) ↔
      WayRight table nr key := by
  have hend := fan_hi_le table nr key
  by_cases hbucket : fan_lo table nr key < fan_hi table nr key
  · rw [sha1_entry_pos_eq h hbucket]
    constructor
    · rintro ⟨-, hneg⟩
      obtain ⟨i, hi, hret⟩ := hneg hnone
      -- Whatever the way ends with is what is returned.
      have hall : ∀ r, Stop table nr key r → r < 0 := by
        intro r hstop
        rw [hstop.walk_eq h, entry_outcome.returns.injEq] at hret
        omega
      refine ⟨?_, ?_, ?_⟩
      · intro lo hi' mi hway hlt hturn
        have hin := hway.inside h
        obtain ⟨-, hmi, -⟩ := hits_spec h hlt hturn
        have := (as_int_neg_iff _ (by omega)).mp (hall _ (.hits hway hlt hturn))
        exact iff_of_false (hnone mi (by omega)) (by omega)
      · intro lo hi' place hway hlt hturn
        have hin := hway.inside h
        have hplace := (misses_spec h hlt hturn).1
        exact (absent_at_neg_iff (by omega)).mp (hall _ (.misses hway hlt hturn))
      · intro lo hway _
        have hin := hway.inside h
        exact (absent_at_neg_iff (by omega)).mp (hall _ (.empty hway))
    · intro hright
      refine ⟨fun i hi heq => absurd heq (hnone i hi), fun _ => ?_⟩
      obtain ⟨r, hstop, hr⟩ := Way.stops h (.bucket : Way table nr key _ _) (le_refl _)
      refine ⟨r, ?_, hr⟩
      cases hstop with
      | @hits lo hi' mi hway hlt hturn =>
        have hin := hway.inside h
        obtain ⟨-, hmi, -⟩ := hits_spec h hlt hturn
        have hbig := mt (hright.hits lo hi' mi hway hlt hturn).mpr (hnone mi (by omega))
        exact (as_int_neg_iff _ (by omega)).mpr (Nat.not_lt.mp hbig)
      | @misses lo hi' place hway hlt hturn =>
        have hsmall := hright.misses lo hi' place hway hlt hturn
        exact (absent_at_neg_iff (by omega)).mpr hsmall
      | @empty lo hway =>
        have hsmall := hright.empty lo hway hbucket
        exact (absent_at_neg_iff (by omega)).mpr hsmall
  · -- Nothing has the first byte, and there is no window.
    have hempty : ∀ {lo hi}, Way table nr key lo hi → ¬lo < hi := by
      intro lo hi hway
      have hin := hway.inside h
      omega
    have hret : sha1_entry_pos table (fan_lo table nr key) (fan_hi table nr key) nr key =
        .returns (-1) := by
      unfold sha1_entry_pos
      rw [if_pos (Or.inr (Nat.not_lt.mp hbucket))]
    rw [hret]
    refine iff_of_true ⟨fun i hi heq => absurd heq (hnone i hi), fun _ => ⟨-1, by omega, rfl⟩⟩
      ⟨?_, ?_, fun lo _ hlt => absurd hlt hbucket⟩
    · intro lo hi mi hway hlt
      exact absurd hlt (hempty hway)
    · intro lo hi place hway hlt
      exact absurd hlt (hempty hway)

/-- The key is listed, or its last byte is not that of an entry of the bucket: then the
way is right in a table whose places are `int`s. -/
theorem way_right_of_last_byte (h : Ascending table nr) (hnr : nr < 2 ^ 31)
    (hkey : (∃ i < nr, table i = key) ∨
      ∀ i < nr, first_byte (table i) = first_byte key → byte (table i) 19 ≠ byte key 19) :
    WayRight table nr key := by
  have hend := fan_hi_le table nr key
  refine ⟨?_, ?_, ?_⟩
  · intro lo hi mi hway hlt hturn
    have hin := hway.inside h
    obtain ⟨hlo, hmi, htail⟩ := hits_spec h hlt hturn
    refine iff_of_true ?_ (by omega)
    rcases hkey with ⟨i, hi', heq⟩ | hlast
    · rw [hits_of_listed h hi' heq hway hlt hturn]
      exact heq
    · exfalso
      have hn : mi < nr := by omega
      have hfirst : first_byte (table mi) = first_byte key := by
        have h1 := (lt_fan_hi_iff h key hn).mp (by omega)
        have h2 := mt (lt_fan_lo_iff h key hn).mpr (by omega)
        omega
      apply hlast mi hn hfirst
      have hofs := (window_spec h hlt).1
      have hget := congrArg (fun l => l[19 - window_ofs table nr lo hi]?) htail
      simp only [List.getElem?_drop] at hget
      rw [show window_ofs table nr lo hi + (19 - window_ofs table nr lo hi) = 19 by omega] at hget
      unfold byte
      rw [hget]
  · intro lo hi place hway hlt hturn
    have hin := hway.inside h
    have hplace := (misses_spec h hlt hturn).1
    omega
  · intro lo hway _
    have hin := hway.inside h
    omega

/-- The plain search finds the entry with the key, where the sums stay below 32 bits. -/
theorem plain_from_iff (h : Ascending table nr) (hnr : nr ≤ 2 ^ 31) {turns lo hi : Nat}
    (hlo : lo < nr) (hhi : hi ≤ nr) (hle : lo ≤ hi) (hone : 1 ≤ turns) (ht : hi - lo ≤ turns)
    (hwin : ∀ i < nr, table i = key → lo ≤ i ∧ i < hi) (i : Nat) :
    plain_from table key turns lo hi = some i ↔ i < nr ∧ table i = key := by
  induction turns generalizing lo hi with
  | zero => omega
  | succ turns ih =>
    have hmod : (lo + hi) % 2 ^ 32 / 2 = (lo + hi) / 2 := by
      by_cases hlt : lo < hi
      · rw [Nat.mod_eq_of_lt (by omega)]
      · rw [Nat.mod_eq_of_lt (by omega)]
    unfold plain_from
    dsimp only
    rw [hmod]
    have hmi : (lo + hi) / 2 < nr := by omega
    have hcmp := hashcmp_compares (table ((lo + hi) / 2)) key
    cases hc : hashcmp (table ((lo + hi) / 2)) key with
    | eq =>
      have heq := (hashcmp_eq_iff _ _).mp hc
      rw [Option.some.injEq]
      constructor
      · rintro rfl
        exact ⟨hmi, heq⟩
      · rintro ⟨hi', heq'⟩
        exact h.inj hmi hi' (heq.trans heq'.symm)
    | gt =>
      rw [hc] at hcmp
      have hgt : key.toList < (table ((lo + hi) / 2)).toList := hcmp
      have hbelow : ∀ i < nr, table i = key → i < (lo + hi) / 2 := by
        intro i hi' heq
        by_contra hge
        have := h.le (Nat.not_lt.mp hge) hi'
        rw [heq] at this
        exact absurd hgt (not_lt_of_ge this)
      dsimp only
      split_ifs with hgo
      · exact ih hlo (by omega) (by omega) (by omega) (by omega)
          fun i hi' heq => ⟨(hwin i hi' heq).1, hbelow i hi' heq⟩
      · refine iff_of_false (by simp) ?_
        rintro ⟨hi', heq⟩
        have h1 := (hwin i hi' heq).1
        have h2 := hbelow i hi' heq
        omega
    | lt =>
      rw [hc] at hcmp
      have hlt : (table ((lo + hi) / 2)).toList < key.toList := hcmp
      have habove : ∀ i < nr, table i = key → (lo + hi) / 2 + 1 ≤ i := by
        intro i hi' heq
        by_contra hge
        have := h.le (show i ≤ (lo + hi) / 2 by omega) hmi
        rw [heq] at this
        exact absurd hlt (not_lt_of_ge this)
      dsimp only
      split_ifs with hgo
      · exact ih (by omega) hhi (by omega) (by omega) (by omega)
          fun i hi' heq => ⟨habove i hi' heq, (hwin i hi' heq).2⟩
      · refine iff_of_false (by simp) ?_
        rintro ⟨hi', heq⟩
        have h1 := (hwin i hi' heq).2
        have h2 := habove i hi' heq
        omega

end Windows

/-! ## Keys that agree in their last bytes -/

/-- The key with these bytes at the ends, and zeros between. -/
def key_of (first second last : UInt8) : Sha1 :=
  #v[first, second, 0, 0, 0, 0, 0, 0, 0, 0, 0, 0, 0, 0, 0, 0, 0, 0, 0, last]

/-- The table of the keys of a list. -/
def table_of (l : List Sha1) (i : Nat) : Sha1 := l[i]?.getD (key_of 255 255 255)

theorem table_of_ascending {l : List Sha1} (h : l.Pairwise (fun a b => a.toList < b.toList)) :
    Ascending (table_of l) l.length := by
  intro i j hij hj
  unfold table_of
  rw [List.getElem?_eq_getElem hj, List.getElem?_eq_getElem (hij.trans hj)]
  exact List.pairwise_iff_getElem.mp h i j _ hj hij

/-- Three keys of one bucket, of which the second is sought. -/
def three_keys : List Sha1 := [key_of 7 1 0, key_of 7 1 1, key_of 7 2 0]

/-- No key here has 109 as its second byte. The guesses narrow the window to keys that
all have 230 there, and from then on only the bytes behind it are compared. -/
def crowded_keys : List Sha1 :=
  [key_of 0 0 0, key_of 0 230 0, key_of 0 230 1, key_of 0 230 2, key_of 0 251 0, key_of 0 252 0,
    key_of 0 253 0, key_of 0 254 0, key_of 1 0 0]

end git.sha1_lookup
