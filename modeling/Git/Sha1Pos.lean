-- The search in a sorted table of object names that starts where the first
-- two bytes point (`sha1_pos` of `sha1-lookup.c`), and the arrays of names
-- that are looked up with it (`sha1-array.c`).
import Git.PackIdxTables

open bsearch

namespace git.sha1_lookup

open pack_idx (hashcmp hashcmp_compares hashcmp_eq_iff)

/-! ## The search -/

/-- Two bytes, the high one first. -/
def take2 : Bytes → Nat
  | a :: b :: _ => (a.toNat <<< 8) ||| b.toNat
  | _ => 0

inductive outcome where
  | returns (i : Int)
  | dies (message : String)
  /-- A name past the end of the table is read. -/
  | outside
  deriving DecidableEq, Repr

/-- Where the search starts: a place, or an end of the search. -/
inductive start where
  | from_place (mi : Nat)
  | ends (o : outcome)

/-- The loop over `ofs`. -/
def seed (sha1 first last : Sha1) (nr : Nat) : List Nat → start
  | [] => .ends (.dies "cannot happen -- lo and hi are identical")
  | ofs :: more =>
    let lov := take2 (first.toList.drop ofs)
    let hiv := take2 (last.toList.drop ofs)
    let miv := take2 (sha1.toList.drop ofs)
    if miv < lov then .ends (.returns (-1))
    else if hiv < miv then .ends (.returns (-1 - nr))
    else if lov ≠ hiv then
      -- At this point miv could be equal to hiv (but sha1 could still be higher).
      let mi := (nr - 1) * (miv - lov) / (hiv - lov)
      if mi < nr then .from_place mi
      else .ends (.dies "BUG: assertion failed in binary search")
    else seed sha1 first last nr more

/-- The loop of the search. Each turn makes `hi - lo` smaller. -/
def pos_from (sha1 : Sha1) (table : List Sha1) : Nat → Nat → Nat → Nat → outcome
  | 0, lo, _, _ => .returns (-lo - 1)
  | turns + 1, lo, hi, mi =>
    match table[mi]? with
    | none => .outside
    | some name =>
      match hashcmp name sha1 with
      | .eq => .returns mi
      | .gt =>
        if lo < mi then pos_from sha1 table turns lo mi ((mi + lo) / 2) else .returns (-lo - 1)
      | .lt =>
        if mi + 1 < hi then pos_from sha1 table turns (mi + 1) hi ((hi + (mi + 1)) / 2)
        else .returns (-(mi + 1 : Nat) - 1)

def sha1_pos (sha1 : Sha1) (table : List Sha1) : outcome :=
  match table with
  | [] => .returns (-1)
  | [_] => pos_from sha1 table 1 0 1 0
  | first :: rest =>
    match seed sha1 first (rest.getLastD first) table.length [0, 2, 4, 6, 8, 10, 12, 14, 16] with
    | .from_place mi => pos_from sha1 table table.length 0 table.length mi
    | .ends o => o

/-! ## The arrays -/

structure sha1_array where
  sha1 : List Sha1
  sorted : Bool

def SHA1_ARRAY_INIT : sha1_array := ⟨[], false⟩

/-- What `qsort` does with the names. -/
abbrev qsort := Sorter hashcmp

/-- `none`: the number of names would be no `int`. -/
def sha1_array_append (array : sha1_array) (sha1 : Sha1) : Option sha1_array :=
  if array.sha1.length + 1 < 2 ^ 31 then some ⟨array.sha1 ++ [sha1], false⟩ else none

def sha1_array_sort (q : qsort) (array : sha1_array) : sha1_array := ⟨q.sort array.sha1, true⟩

/-- `if (!array->sorted) sha1_array_sort(array);` -/
def in_order (q : qsort) (array : sha1_array) : sha1_array :=
  if array.sorted then array else sha1_array_sort q array

/-- What is returned, and the array after it. -/
def sha1_array_lookup (q : qsort) (array : sha1_array) (sha1 : Sha1) : outcome × sha1_array :=
  (sha1_pos sha1 (in_order q array).sha1, in_order q array)

/-- The calls for the names after `previous`. -/
def unique_after (previous : Sha1) : List Sha1 → List Sha1
  | [] => []
  | name :: names =>
    if hashcmp name previous = .eq then unique_after name names
    else name :: unique_after name names

/-- The names that the callback is called with, in turn. -/
def sha1_array_for_each_unique (q : qsort) (array : sha1_array) : List Sha1 :=
  match (in_order q array).sha1 with
  | [] => []
  | name :: names => name :: unique_after name names

/-- The array after one call of `sha1_array_append` for each name. -/
def append_all (names : List Sha1) : Option sha1_array :=
  names.foldlM sha1_array_append SHA1_ARRAY_INIT

/-! ## Two bytes -/

/-- Two bytes are there, after `n` others. -/
theorem drop_two {u : Bytes} {n : Nat} (h : n + 2 ≤ u.length) :
    ∃ a b, u = u.take n ++ a :: b :: u.drop (n + 2) ∧
      take2 (u.drop n) = a.toNat * 256 + b.toNat := by
  have h1 := List.drop_eq_getElem_cons (show n < u.length by omega)
  have h2 := List.drop_eq_getElem_cons (show n + 1 < u.length by omega)
  refine ⟨u[n], u[n + 1], ?_, ?_⟩
  · rw [← h2, ← h1, List.take_append_drop]
  · rw [h1, h2, take2]
    have hb : (u[n + 1]).toNat < 2 ^ 8 := UInt8.toNat_lt _
    have hor := Nat.shiftLeft_add_eq_or_of_lt hb (u[n]).toNat
    rw [← hor, Nat.shiftLeft_eq]

theorem lt_of_take2_lt {u v : Bytes} {n : Nat} (h : u.take n = v.take n) (hu : n + 2 ≤ u.length)
    (hv : n + 2 ≤ v.length) (hlt : take2 (u.drop n) < take2 (v.drop n)) : u < v := by
  obtain ⟨a, b, hu', hu2⟩ := drop_two hu
  obtain ⟨c, d, hv', hv2⟩ := drop_two hv
  rw [hu2, hv2] at hlt
  have hb : b.toNat < 256 := UInt8.toNat_lt _
  have hd : d.toNat < 256 := UInt8.toNat_lt _
  rw [hu', hv', h, list_order.append_lt_append_iff, List.cons_lt_cons_iff, List.cons_lt_cons_iff]
  rcases Nat.lt_trichotomy a.toNat c.toNat with hac | hac | hac
  · exact Or.inl hac
  · exact Or.inr ⟨UInt8.toNat_inj.mp hac, Or.inl (show b.toNat < d.toNat by omega)⟩
  · omega

theorem take_two_more {u v : Bytes} {n : Nat} (h : u.take n = v.take n) (hu : n + 2 ≤ u.length)
    (hv : n + 2 ≤ v.length) :
    u.take (n + 2) = v.take (n + 2) ↔ take2 (u.drop n) = take2 (v.drop n) := by
  obtain ⟨a, b, hu', hu2⟩ := drop_two hu
  obtain ⟨c, d, hv', hv2⟩ := drop_two hv
  have hb : b.toNat < 256 := UInt8.toNat_lt _
  have hd : d.toNat < 256 := UInt8.toNat_lt _
  have htake : ∀ {w : Bytes} {x y : UInt8}, n + 2 ≤ w.length →
      w = w.take n ++ x :: y :: w.drop (n + 2) → w.take (n + 2) = w.take n ++ [x, y] := by
    intro w x y hw heq
    have hlen : (w.take n).length = n := by
      rw [List.length_take]
      omega
    conv_lhs => rw [heq]
    rw [List.take_append, hlen, List.take_of_length_le (by omega), Nat.add_sub_cancel_left]
    rfl
  rw [htake hu hu', htake hv hv', h, hu2, hv2, List.append_cancel_left_eq]
  simp only [List.cons.injEq, and_true, ← UInt8.toNat_inj]
  omega

/-! ## Where the search starts -/

/-- Both ends of the table share their first 18 bytes with the name. -/
def Alike (sha1 first last : Sha1) : Prop :=
  first.toList.take 18 = last.toList.take 18 ∧ sha1.toList.take 18 = first.toList.take 18

/-- The name is before the first one or after the last one, or the search
starts inside the table; it dies just when the names are alike. -/
theorem seed_spec (sha1 first last : Sha1) {nr : Nat} (hnr : 1 < nr) (k ofs : Nat)
    (hofs : ofs + 2 * k = 18) (hfl : first.toList.take ofs = last.toList.take ofs)
    (hs : sha1.toList.take ofs = first.toList.take ofs) :
    (∃ mi < nr, seed sha1 first last nr (List.range' ofs k 2) = .from_place mi ∧
        ¬Alike sha1 first last) ∨
      (seed sha1 first last nr (List.range' ofs k 2) = .ends (.returns (-1)) ∧
        sha1.toList < first.toList ∧ ¬Alike sha1 first last) ∨
      (seed sha1 first last nr (List.range' ofs k 2) = .ends (.returns (-1 - nr)) ∧
        last.toList < sha1.toList ∧ ¬Alike sha1 first last) ∨
      (∃ message, seed sha1 first last nr (List.range' ofs k 2) = .ends (.dies message) ∧
        Alike sha1 first last) := by
  have hlen : ∀ s : Sha1, s.toList.length = 20 := fun s => by simp
  induction k generalizing ofs with
  | zero =>
    obtain rfl : ofs = 18 := by omega
    exact Or.inr (Or.inr (Or.inr ⟨_, rfl, hfl, hs⟩))
  | succ k ih =>
    have hof : ∀ s : Sha1, ofs + 2 ≤ s.toList.length := fun s => by rw [hlen]; omega
    have hmore : ∀ {u v : Sha1}, u.toList.take 18 = v.toList.take 18 →
        u.toList.take ofs = v.toList.take ofs →
        take2 (u.toList.drop ofs) = take2 (v.toList.drop ofs) := by
      intro u v h18 h0
      refine (take_two_more h0 (hof u) (hof v)).mp ?_
      have := congrArg (List.take (ofs + 2)) h18
      rwa [List.take_take, List.take_take, Nat.min_eq_left (by omega)] at this
    rw [List.range'_succ]
    unfold seed
    dsimp only
    by_cases hlt : take2 (sha1.toList.drop ofs) < take2 (first.toList.drop ofs)
    · rw [if_pos hlt]
      refine Or.inr (Or.inl ⟨rfl, lt_of_take2_lt hs (hof _) (hof _) hlt, fun h => ?_⟩)
      exact absurd (hmore h.2 hs) hlt.ne
    rw [if_neg hlt]
    by_cases hgt : take2 (last.toList.drop ofs) < take2 (sha1.toList.drop ofs)
    · rw [if_pos hgt]
      refine Or.inr (Or.inr (Or.inl ⟨rfl, ?_, fun h => ?_⟩))
      · exact lt_of_take2_lt (hfl.symm.trans hs.symm) (hof _) (hof _) hgt
      · exact absurd ((hmore h.1 hfl).symm.trans (hmore h.2 hs).symm) hgt.ne
    rw [if_neg hgt]
    by_cases hne : take2 (first.toList.drop ofs) = take2 (last.toList.drop ofs)
    · rw [if_neg (not_not.mpr hne)]
      have hsame : take2 (sha1.toList.drop ofs) = take2 (first.toList.drop ofs) := by omega
      exact ih (ofs + 2) (by omega) ((take_two_more hfl (hof _) (hof _)).mpr hne)
        ((take_two_more hs (hof _) (hof _)).mpr hsame)
    · -- A place is seeded, and it is inside the table.
      have hmi : (nr - 1) * (take2 (sha1.toList.drop ofs) - take2 (first.toList.drop ofs)) /
          (take2 (last.toList.drop ofs) - take2 (first.toList.drop ofs)) < nr := by
        have hle : (nr - 1) * (take2 (sha1.toList.drop ofs) - take2 (first.toList.drop ofs)) ≤
            (nr - 1) * (take2 (last.toList.drop ofs) - take2 (first.toList.drop ofs)) :=
          Nat.mul_le_mul_left _ (by omega)
        have := Nat.div_le_of_le_mul (hle.trans_eq (Nat.mul_comm _ _))
        omega
      rw [if_pos hne, if_pos hmi]
      exact Or.inl ⟨_, hmi, rfl, fun h => hne (hmore h.1 hfl)⟩

/-! ## The search in a sorted table -/

/-- The table is sorted; names may repeat. -/
def InOrder (table : List Sha1) : Prop := table.Pairwise (fun a b => a.toList ≤ b.toList)

/-- The place of the name, or a negative number if the table does not have it. -/
def Answers (sha1 : Sha1) (table : List Sha1) (o : outcome) : Prop :=
  (sha1 ∈ table → ∃ i : Nat, o = .returns i ∧ table[i]? = some sha1) ∧
    (sha1 ∉ table → ∃ i : Int, i < 0 ∧ o = .returns i)

theorem InOrder.le {table : List Sha1} (h : InOrder table) {i j : Nat} (hij : i ≤ j)
    (hj : j < table.length) :
    (table.get ⟨i, hij.trans_lt hj⟩).toList ≤ table[j].toList := by
  rcases Nat.eq_or_lt_of_le hij with heq | hlt
  · simp only [heq]
    exact le_refl _
  · exact List.pairwise_iff_getElem.mp h i j (by omega) hj hlt

/-- A name below `lo` is lower, and one from `hi` on is higher. -/
structure Between (sha1 : Sha1) (table : List Sha1) (lo hi : Nat) : Prop where
  low : ∀ i (h : i < table.length), i < lo → table[i].toList < sha1.toList
  high : ∀ i (h : i < table.length), hi ≤ i → sha1.toList < table[i].toList

theorem Between.not_mem {sha1 : Sha1} {table : List Sha1} {lo : Nat}
    (h : Between sha1 table lo lo) : sha1 ∉ table := by
  intro hmem
  obtain ⟨i, hi, rfl⟩ := List.getElem_of_mem hmem
  rcases Nat.lt_or_ge i lo with hlt | hge
  · exact absurd (h.low i hi hlt) (lt_irrefl _)
  · exact absurd (h.high i hi hge) (lt_irrefl _)

theorem answers_absent {sha1 : Sha1} {table : List Sha1} {lo : Nat}
    (h : Between sha1 table lo lo) : Answers sha1 table (.returns (-lo - 1)) :=
  ⟨fun hmem => absurd hmem h.not_mem, fun _ => ⟨_, by omega, rfl⟩⟩

/-- From any place between the two ends, the search answers. -/
theorem pos_from_answers {sha1 : Sha1} {table : List Sha1} (h : InOrder table)
    (turns lo hi mi : Nat) (ht : hi - lo ≤ turns) (hlo : lo ≤ mi) (hhi : mi < hi)
    (hn : hi ≤ table.length) (hb : Between sha1 table lo hi) :
    Answers sha1 table (pos_from sha1 table turns lo hi mi) := by
  induction turns generalizing lo hi mi with
  | zero => omega
  | succ turns ih =>
    unfold pos_from
    have hmi : mi < table.length := by omega
    rw [List.getElem?_eq_getElem hmi]
    have hcmp := hashcmp_compares table[mi] sha1
    cases hc : hashcmp table[mi] sha1 with
    | eq =>
      simp only [hc]
      have heq : table[mi] = sha1 := (hashcmp_eq_iff _ _).mp hc
      exact ⟨fun _ => ⟨mi, rfl, by rw [List.getElem?_eq_getElem hmi, heq]⟩,
        fun hno => absurd (heq ▸ List.getElem_mem hmi) hno⟩
    | gt =>
      simp only [hc]
      have hhigh : sha1.toList < table[mi].toList := hcmp.eq_gt.mp hc
      have hb' : Between sha1 table lo mi :=
        ⟨hb.low, fun i hi' hge => hhigh.trans_le (h.le hge hi')⟩
      by_cases hgo : lo < mi
      · rw [if_pos hgo]
        exact ih lo mi ((mi + lo) / 2) (by omega) (by omega) (by omega) (by omega) hb'
      · rw [if_neg hgo]
        obtain rfl : lo = mi := by omega
        exact answers_absent hb'
    | lt =>
      simp only [hc]
      have hlow : table[mi].toList < sha1.toList := hcmp.eq_lt.mp hc
      have hb' : Between sha1 table (mi + 1) hi :=
        ⟨fun i hi' hlt => (h.le (by omega) hmi).trans_lt hlow, hb.high⟩
      by_cases hgo : mi + 1 < hi
      · rw [if_pos hgo]
        exact ih (mi + 1) hi ((hi + (mi + 1)) / 2) (by omega) (by omega) (by omega) hn hb'
      · rw [if_neg hgo]
        obtain rfl : mi + 1 = hi := by omega
        exact answers_absent hb'

theorem between_ends (sha1 : Sha1) (table : List Sha1) : Between sha1 table 0 table.length :=
  ⟨fun _ _ hlt => absurd hlt (Nat.not_lt_zero _), fun _ h hge => absurd h (Nat.not_lt.mpr hge)⟩

/-- All names of the table share their first 18 bytes with `sha1`. -/
def AllAlike (sha1 : Sha1) (table : List Sha1) : Prop :=
  ∀ s ∈ table, s.toList.take 18 = sha1.toList.take 18

/-- The ends of a sorted table are alike just when all of it is. -/
theorem alike_iff (sha1 : Sha1) {first last : Sha1} {table : List Sha1} (h : InOrder table)
    (hfirst : table.head? = some first) (hlast : table.getLast? = some last) :
    Alike sha1 first last ↔ AllAlike sha1 table := by
  obtain ⟨rest, rfl⟩ := List.head?_eq_some_iff.mp hfirst
  have hmem := List.mem_of_getLast? hlast
  constructor
  · rintro ⟨hfl, hs⟩ s hmems
    have hlo : first.toList ≤ s.toList := by
      rcases List.mem_cons.mp hmems with rfl | hr
      · exact le_refl _
      · exact (List.pairwise_cons.mp h).1 s hr
    have hhi : s.toList ≤ last.toList := by
      obtain ⟨init, hinit⟩ := List.getLast?_eq_some_iff.mp hlast
      unfold InOrder at h
      rw [hinit] at h hmems
      rcases List.mem_append.mp hmems with hr | hr
      · exact (List.pairwise_append.mp h).2.2 s hr last List.mem_cons_self
      · rw [List.mem_singleton.mp hr]
    -- What lies between the two shares what they share.
    have hpre := list_order.prefix_of_between
      ((list_order.le_of_prefix (List.take_prefix 18 first.toList)).trans hlo) hhi
      (hfl ▸ List.take_prefix 18 last.toList)
    have htake := List.prefix_iff_eq_take.mp hpre
    rw [List.length_take, Vector.length_toList] at htake
    exact htake.symm.trans hs.symm
  · intro hall
    have h1 := hall first List.mem_cons_self
    exact ⟨h1.trans (hall last hmem).symm, h1.symm⟩

/-- `sha1_pos` answers, but where it dies: for two names or more that are all alike. -/
theorem sha1_pos_answers_iff (sha1 : Sha1) {table : List Sha1} (h : InOrder table) :
    Answers sha1 table (sha1_pos sha1 table) ↔
      ¬(2 ≤ table.length ∧ AllAlike sha1 table) := by
  cases table with
  | nil =>
    refine iff_of_true ⟨fun hmem => absurd hmem List.not_mem_nil, fun _ => ⟨-1, by decide, rfl⟩⟩ ?_
    exact fun hc => absurd hc.1 (by simp)
  | cons first rest =>
    cases rest with
    | nil =>
      refine iff_of_true ?_ fun hc => absurd hc.1 (by simp)
      exact pos_from_answers h 1 0 1 0 (by omega) (by omega) (by omega) (by simp)
        (between_ends sha1 [first])
    | cons second rest =>
      have hlen : 2 ≤ (first :: second :: rest).length := by simp
      have hlast : (first :: second :: rest).getLast? =
          some ((second :: rest).getLastD first) := by
        rw [List.getLast?_cons]
        rfl
      have hlike := alike_iff sha1 h rfl hlast
      have hends := between_ends sha1 (first :: second :: rest)
      rw [and_iff_right hlen, ← hlike]
      unfold sha1_pos
      dsimp only
      have hofs : [0, 2, 4, 6, 8, 10, 12, 14, 16] = List.range' 0 9 2 := rfl
      rw [hofs]
      rcases @seed_spec sha1 first ((second :: rest).getLastD first)
        (first :: second :: rest).length (by omega) 9 0 (by omega) (by simp) (by simp)
        with ⟨mi, hmi, hseed, hno⟩ | ⟨hseed, hlt, hno⟩ | ⟨hseed, hlt, hno⟩ | ⟨message, hseed, hyes⟩
      · rw [hseed]
        exact iff_of_true (pos_from_answers h _ _ _ _ (by simp) (Nat.zero_le _) hmi
          (Nat.le_refl _) hends) hno
      · rw [hseed]
        have hb : Between sha1 (first :: second :: rest) 0 0 :=
          ⟨hends.low, fun i hi _ => hlt.trans_le (h.le (Nat.zero_le i) hi)⟩
        exact iff_of_true ⟨fun hm => absurd hm hb.not_mem, fun _ => ⟨-1, by decide, rfl⟩⟩ hno
      · rw [hseed]
        have hb : Between sha1 (first :: second :: rest) (first :: second :: rest).length
            (first :: second :: rest).length := by
          refine ⟨fun i hi _ => lt_of_le_of_lt ?_ hlt, hends.high⟩
          rw [List.getLast?_eq_getElem?, List.getElem?_eq_getElem (by simp),
            Option.some.injEq] at hlast
          rw [← hlast]
          exact h.le (by omega) (by simp)
        exact iff_of_true ⟨fun hm => absurd hm hb.not_mem, fun _ => ⟨_, by omega, rfl⟩⟩ hno
      · rw [hseed]
        refine iff_of_false (fun hans => ?_) fun hno => hno hyes
        by_cases hm : sha1 ∈ first :: second :: rest
        · obtain ⟨_, heq, -⟩ := hans.1 hm
          cases heq
        · obtain ⟨_, -, heq⟩ := hans.2 hm
          cases heq

/-! ## The arrays -/

theorem append_all_eq (names : List Sha1) :
    append_all names = if names.length < 2 ^ 31 then some ⟨names, false⟩ else none := by
  unfold append_all
  induction names using List.reverseRecOn with
  | nil => rfl
  | append_singleton names name ih =>
    rw [List.foldlM_append, ih, List.length_append, List.length_singleton]
    by_cases hlen : names.length < 2 ^ 31
    · rw [if_pos hlen, Option.bind_eq_bind, Option.bind_some, List.foldlM_cons]
      unfold sha1_array_append
      dsimp only
      by_cases hmore : names.length + 1 < 2 ^ 31
      · rw [if_pos hmore]
        rfl
      · rw [if_neg hmore]
        rfl
    · rw [if_neg hlen, if_neg (by omega)]
      rfl

theorem sort_inOrder (q : qsort) (names : List Sha1) : InOrder (q.sort names) := by
  refine (q.sorted names).imp fun {a b} hab => ?_
  exact (hashcmp_compares a b).ne_gt.mp hab

/-- After a name, the callback is called with each later name that is not the
same, once and in order. -/
theorem unique_after_spec (previous : Sha1) (names : List Sha1)
    (h : InOrder (previous :: names)) :
    (unique_after previous names).Pairwise (fun a b => a.toList < b.toList) ∧
      ∀ x, x ∈ unique_after previous names ↔ x ∈ names ∧ x ≠ previous := by
  induction names generalizing previous with
  | nil => simp [unique_after]
  | cons name names ih =>
    obtain ⟨hpre, hrest⟩ := List.pairwise_cons.mp h
    unfold unique_after
    by_cases heq : hashcmp name previous = .eq
    · obtain rfl := (hashcmp_eq_iff _ _).mp heq
      rw [if_pos heq]
      obtain ⟨hp, hm⟩ := ih name hrest
      refine ⟨hp, fun x => ?_⟩
      rw [hm, List.mem_cons]
      exact ⟨fun hx => ⟨Or.inr hx.1, hx.2⟩, fun hx => ⟨hx.1.resolve_left hx.2, hx.2⟩⟩
    · have hne : name ≠ previous := fun hc => heq ((hashcmp_eq_iff _ _).mpr hc)
      rw [if_neg heq]
      obtain ⟨hp, hm⟩ := ih name hrest
      have hlt : previous.toList < name.toList :=
        lt_of_le_of_ne (hpre name List.mem_cons_self) fun hc => hne (Vector.toList_inj.mp hc).symm
      have hafter : ∀ x ∈ names, name.toList ≤ x.toList := (List.pairwise_cons.mp hrest).1
      constructor
      · refine List.pairwise_cons.mpr ⟨fun x hx => ?_, hp⟩
        obtain ⟨hx, hxne⟩ := (hm x).mp hx
        exact lt_of_le_of_ne (hafter x hx) fun hc => hxne (Vector.toList_inj.mp hc).symm
      · intro x
        rw [List.mem_cons, hm, List.mem_cons]
        constructor
        · rintro (rfl | ⟨hx, -⟩)
          · exact ⟨Or.inl rfl, hne⟩
          · refine ⟨Or.inr hx, ?_⟩
            rintro rfl
            exact absurd (hlt.trans_le (hafter _ hx)) (lt_irrefl _)
        · rintro ⟨rfl | hx, hxne⟩
          · exact Or.inl rfl
          · by_cases hxn : x = name
            · exact Or.inl hxn
            · exact Or.inr ⟨hx, hxn⟩

/-- Each name that was appended, once and in order. -/
def EachOnce (names calls : List Sha1) : Prop :=
  calls.Pairwise (fun a b => a.toList < b.toList) ∧ ∀ x, x ∈ calls ↔ x ∈ names

theorem for_each_unique_once (q : qsort) (names : List Sha1) :
    EachOnce names (sha1_array_for_each_unique q ⟨names, false⟩) := by
  have hperm := q.perm names
  have hsorted := sort_inOrder q names
  unfold sha1_array_for_each_unique in_order sha1_array_sort
  simp only [Bool.false_eq_true, if_false]
  cases hq : q.sort names with
  | nil =>
    rw [hq] at hperm
    exact ⟨List.Pairwise.nil, fun x => hperm.mem_iff⟩
  | cons first rest =>
    rw [hq] at hperm hsorted
    obtain ⟨hp, hm⟩ := unique_after_spec first rest hsorted
    have hfirst := (List.pairwise_cons.mp hsorted).1
    constructor
    · refine List.pairwise_cons.mpr ⟨fun x hx => ?_, hp⟩
      obtain ⟨hx, hxne⟩ := (hm x).mp hx
      exact lt_of_le_of_ne (hfirst x hx) fun hc => hxne (Vector.toList_inj.mp hc).symm
    · intro x
      rw [List.mem_cons, hm, ← hperm.mem_iff, List.mem_cons]
      constructor
      · rintro (rfl | ⟨hx, -⟩)
        · exact Or.inl rfl
        · exact Or.inr hx
      · rintro (rfl | hx)
        · exact Or.inl rfl
        · by_cases hxf : x = first
          · exact Or.inl hxf
          · exact Or.inr ⟨hx, hxf⟩

/-- The appends go through; a lookup answers for the sorted array that it
leaves; and each name that was appended is called back once, in order. -/
def ArrayRight (q : qsort) (names : List Sha1) (sha1 : Sha1) : Prop :=
  ∃ array, append_all names = some array ∧
    ((sha1 ∈ names → ∃ i : Nat, (sha1_array_lookup q array sha1).1 = .returns i ∧
        (sha1_array_lookup q array sha1).2.sha1[i]? = some sha1) ∧
      (sha1 ∉ names → ∃ i : Int, i < 0 ∧ (sha1_array_lookup q array sha1).1 = .returns i)) ∧
    EachOnce names (sha1_array_for_each_unique q array) ∧
    EachOnce names (sha1_array_for_each_unique q (sha1_array_lookup q array sha1).2)

/-- All is right with an array just when its length is an `int`, and it does
not have two names or more that all share their first 18 bytes with the one
looked up. -/
theorem sha1_array_right_iff (q : qsort) (names : List Sha1) (sha1 : Sha1) :
    ArrayRight q names sha1 ↔
      names.length < 2 ^ 31 ∧ ¬(2 ≤ names.length ∧ AllAlike sha1 names) := by
  have hlookup := sha1_pos_answers_iff sha1 (sort_inOrder q names)
  have hlen : (q.sort names).length = names.length := (q.perm names).length_eq
  have halike : AllAlike sha1 (q.sort names) ↔ AllAlike sha1 names :=
    forall_congr' fun s => imp_congr_left (q.perm names).mem_iff
  rw [hlen, halike] at hlookup
  unfold ArrayRight
  rw [append_all_eq]
  by_cases hint : names.length < 2 ^ 31
  · have hmem : ∀ {s : Sha1}, s ∈ q.sort names ↔ s ∈ names := (q.perm names).mem_iff
    have honce := for_each_unique_once q names
    rw [if_pos hint, and_iff_right hint, ← hlookup]
    constructor
    · rintro ⟨array, happ, hans, -⟩
      obtain rfl := Option.some.inj happ
      exact ⟨fun hm => hans.1 (hmem.mp hm), fun hno => hans.2 fun hm => hno (hmem.mpr hm)⟩
    · intro hans
      exact ⟨_, rfl, ⟨fun hm => hans.1 (hmem.mpr hm), fun hno => hans.2 fun hm => hno (hmem.mp hm)⟩,
        honce, honce⟩
  · rw [if_neg hint]
    refine iff_of_false ?_ fun h => hint h.1
    rintro ⟨array, happ, -⟩
    cases happ

/-- A merge sort of the names. -/
def merge_by_hash : qsort where
  sort l := l.mergeSort (fun a b => hashcmp a b != .gt)
  perm l := List.mergeSort_perm l _
  sorted l := by
    have hcmp : ∀ a b : Sha1, (hashcmp a b != .gt) = true ↔ a.toList ≤ b.toList := by
      intro a b
      rw [bne_iff_ne, (hashcmp_compares a b).ne_gt]
    refine (List.pairwise_mergeSort ?_ ?_ l).imp fun hab => by simpa using hab
    · intro a b c hab hbc
      rw [hcmp] at *
      exact hab.trans hbc
    · intro a b
      rw [Bool.or_eq_true, hcmp, hcmp]
      exact le_total _ _

/-- A name that was appended twice is not found: the search dies. -/
theorem sha1_array_twice_dies :
    ¬∀ (q : qsort) (names : List Sha1) (sha1 : Sha1), ArrayRight q names sha1 := by
  intro h
  obtain ⟨array, happ, hlookup, -⟩ :=
    h merge_by_hash [Vector.replicate 20 7, Vector.replicate 20 7] (Vector.replicate 20 7)
  rw [append_all_eq, if_pos (by decide), Option.some.injEq] at happ
  subst happ
  have hsort := merge_by_hash.perm [Vector.replicate 20 7, Vector.replicate 20 7]
  refine (sha1_pos_answers_iff (Vector.replicate 20 7) (sort_inOrder merge_by_hash
    [Vector.replicate 20 7, Vector.replicate 20 7])).mp ?_ ⟨hsort.length_eq.ge, fun s hs => ?_⟩
  · exact ⟨fun hmem => hlookup.1 (hsort.mem_iff.mp hmem),
      fun hno => hlookup.2 fun hmem => hno (hsort.mem_iff.mpr hmem)⟩
  · have := hsort.mem_iff.mp hs
    simp only [List.mem_cons, List.not_mem_nil, or_false, or_self] at this
    rw [this]

end git.sha1_lookup
