-- The scores of a pair: what the counts add up to keeps every difference and quotient within
-- bounds, but for the quotient by the size of an empty source.
import Git.Similarity
import Git.CountChangesLaws

namespace git.similarity

open git.quote git.header_name git.count_changes binary64

/-! ## Scores -/

/-- `a * MAX_SCORE / b`, in doubles. -/
def score (a b : Nat) : ℚ := rnd (rnd (a * MAX_SCORE) / b)

theorem MAX_SCORE_nat : MAX_SCORE = (60000 : Nat) := rfl

theorem div_score {a b : Nat} (ha : a < 2 ^ 53) (hb : b < 2 ^ 53) :
    div (mul (of_nat a) MAX_SCORE) (of_nat b) = if b = 0 then none else some (score a b) := by
  rw [of_nat_exact ha, of_nat_exact hb, div, mul]
  by_cases hzero : b = 0
  · rw [if_pos hzero, if_pos (by rw [hzero, Nat.cast_zero])]
  · rw [if_neg hzero, if_neg (Nat.cast_ne_zero.mpr hzero)]
    rfl

theorem rnd_le {x : ℚ} (h : 0 ≤ x) : rnd x ≤ x * (1 + 1 / 2 ^ 53) := by
  have hnear := (abs_le.mp (rnd_near h)).2
  have hsplit : x * (1 + 1 / 2 ^ 53) = x + x / 2 ^ 53 := by ring
  linarith

theorem product_nonneg (a : Nat) : 0 ≤ (a : ℚ) * MAX_SCORE :=
  mul_nonneg (Nat.cast_nonneg a) (by norm_num [MAX_SCORE])

theorem score_nonneg (a b : Nat) : 0 ≤ score a b :=
  rnd_nonneg (div_nonneg (rnd_nonneg (product_nonneg a)) (Nat.cast_nonneg b))

/-- A part of a whole scores no more than the maximum, and the fraction over. -/
theorem score_lt {a b : Nat} (hab : a ≤ b) : score a b < 60001 := by
  have hprod := rnd_le (product_nonneg a)
  have hnonneg := rnd_nonneg (product_nonneg a)
  rcases Nat.eq_zero_or_pos b with rfl | hb
  · simp [score, rnd]
  have hb' : (0 : ℚ) < b := Nat.cast_pos.mpr hb
  have hab' : (a : ℚ) ≤ b := Nat.cast_le.mpr hab
  have hquot : rnd (a * MAX_SCORE) / b ≤ 60000 * (1 + 1 / 2 ^ 53) := by
    rw [div_le_iff₀ hb']
    refine hprod.trans ?_
    rw [MAX_SCORE]
    nlinarith
  have hround := rnd_le (div_nonneg hnonneg hb'.le)
  calc score a b ≤ rnd (a * MAX_SCORE) / b * (1 + 1 / 2 ^ 53) := hround
    _ ≤ 60000 * (1 + 1 / 2 ^ 53) * (1 + 1 / 2 ^ 53) := by gcongr
    _ < 60001 := by norm_num

theorem to_int_score {a b : Nat} (hab : a ≤ b) :
    ∃ m, to_int (score a b) = some m ∧ 0 ≤ m ∧ m ≤ 60000 := by
  have hlt := score_lt hab
  have hnonneg := score_nonneg a b
  refine ⟨⌊score a b⌋, if_pos (hlt.trans (by norm_num)), Int.floor_nonneg.mpr hnonneg, ?_⟩
  have hfloor : ⌊score a b⌋ < 60001 := Int.floor_lt.mpr (by exact_mod_cast hlt)
  omega

/-- The maximum is for the whole only. -/
theorem to_int_score_max {a b : Nat} (hab : a ≤ b) (ha : a < 2 ^ 32) (hb : 0 < b)
    (hsize : b < 2 ^ 47) : to_int (score a b) = some 60000 ↔ a = b := by
  have hb' : (0 : ℚ) < b := Nat.cast_pos.mpr hb
  have hexact : rnd ((a : ℚ) * MAX_SCORE) = a * MAX_SCORE := by
    rw [MAX_SCORE_nat, ← Nat.cast_mul]
    exact rnd_nat (by omega)
  have hlt := score_lt hab
  rw [to_int, if_pos (hlt.trans (by norm_num)), Option.some.injEq]
  constructor
  · intro hfloor
    by_contra hne
    have hless : a + 1 ≤ b := Nat.lt_of_le_of_ne hab hne
    have hless' : (a : ℚ) + 1 ≤ b := by exact_mod_cast hless
    have hsize' : (b : ℚ) < 2 ^ 47 := by exact_mod_cast hsize
    have hround := rnd_le (div_nonneg (product_nonneg a) hb'.le)
    have hbelow : (a : ℚ) * MAX_SCORE / b * (1 + 1 / 2 ^ 53) < 60000 := by
      rw [div_mul_eq_mul_div, div_lt_iff₀ hb', MAX_SCORE]
      nlinarith
    have hsmall : score a b < 60000 := by
      rw [score, hexact]
      exact hround.trans_lt hbelow
    have : ⌊score a b⌋ < 60000 := Int.floor_lt.mpr (by exact_mod_cast hsmall)
    omega
  · rintro rfl
    rw [score, hexact, mul_comm, mul_div_assoc, div_self hb'.ne', mul_one, MAX_SCORE_nat,
      rnd_nat (by norm_num)]
    rfl

/-! ## The break -/

theorem sane_counts_eq {src_size dst_size sc la : Nat} (hsrc : sc ≤ src_size)
    (hdst : sc + la ≤ dst_size) (hsize : dst_size < 2 ^ 64) :
    sane_counts src_size dst_size (sc, la) = some (sc, la) := by
  unfold sane_counts
  simp only [if_neg (not_lt.mpr hsrc), add64, Option.bind_eq_bind]
  rw [if_pos (by omega), Option.bind_some, if_neg (by omega)]
  rfl

theorem break_scores_safe {src_size max_size break_score sc la : Nat} (hsrc : sc ≤ src_size)
    (hpos : 0 < src_size) (hsize : src_size < 2 ^ 47) (hla : la < 2 ^ 47) (hmax : 0 < max_size)
    (hmax' : max_size < 2 ^ 47) (hbreak : break_score ≤ 60000) :
    ∃ m r, break_scores src_size max_size break_score sc la = some (m, r) ∧ 0 ≤ m ∧ m ≤ 60000 := by
  obtain ⟨m, hm, hm0, hm1⟩ := to_int_score (Nat.sub_le src_size sc)
  have hquot := div_score (a := src_size - sc) (b := src_size) (by omega) (by omega)
  have hextent := div_score (a := src_size - sc + la) (b := max_size) (by omega) (by omega)
  rw [if_neg (by omega)] at hquot hextent
  have hleast : src_size * break_score < 2 ^ 64 :=
    (Nat.mul_le_mul hsize.le hbreak).trans_lt (by norm_num)
  have hsub : sub64 src_size sc = some (src_size - sc) := if_pos hsrc
  have hadd : add64 (src_size - sc) la = some (src_size - sc + la) := if_pos (by omega)
  have hmul : mul64 src_size break_score = some (src_size * break_score) := if_pos hleast
  have hmul' : mul64 la 20 = some (la * 20) := if_pos (by omega)
  unfold break_scores
  simp only [Option.bind_eq_bind]
  rw [hsub, Option.bind_some, hquot, Option.bind_some, hm, Option.bind_some]
  by_cases hhigh : (break_score : Int) < m
  · exact ⟨m, true, if_pos hhigh, hm0, hm1⟩
  rw [if_neg hhigh]
  rw [hadd, Option.bind_some, hextent, Option.bind_some]
  by_cases hlow : score (src_size - sc + la) max_size < break_score
  · exact ⟨m, false, if_pos hlow, hm0, hm1⟩
  rw [if_neg hlow]
  rw [hmul, Option.bind_some, hmul', Option.bind_some]
  exact ⟨m, _, rfl, hm0, hm1⟩

theorem break_scores_empty (max_size break_score la : Nat) :
    break_scores 0 max_size break_score 0 la = none := by
  have hquot := div_score (a := 0) (b := 0) (by norm_num) (by norm_num)
  rw [if_pos rfl] at hquot
  unfold break_scores
  simp only [sub64, if_pos (le_refl 0), Nat.sub_zero, Option.bind_eq_bind, Option.bind_some, hquot,
    Option.bind_none]

/-- The pair is of one type, not known to be the same, and can be read. -/
def Compared (src dst : filespec) : Prop :=
  src.S_ISREG = dst.S_ISREG ∧ (src.sha1_valid && dst.sha1_valid && src.sha1 = dst.sha1) = false ∧
    src.populate false = false ∧ dst.populate false = false

theorem should_break_compared {src dst : filespec} (break_score : Nat) (h : Compared src dst)
    (hdst : dst.size < 2 ^ 47) :
    ∃ sc la, sc ≤ src.size ∧ sc + la ≤ dst.size ∧
      should_break src dst break_score =
        if (if dst.size < src.size then src.size else dst.size) < MINIMUM_BREAK_SIZE then
          some (0, false)
        else break_scores src.size (if dst.size < src.size then src.size else dst.size)
          break_score sc la := by
  obtain ⟨htype, hsha1, hsrc, hdst'⟩ := h
  obtain ⟨sc, la, hcount, hsum, hle⟩ := count_changes_sum src.one dst.one
  have hle1 : sc ≤ src.size := hle.trans (counted_le src.one)
  have hle2 : sc + la ≤ dst.size := hsum ▸ counted_le dst.one
  refine ⟨sc, la, hle1, hle2, ?_⟩
  unfold should_break
  rw [if_neg (not_not.mpr htype), hsha1, hsrc, hdst', hcount]
  simp only [Bool.false_eq_true, if_false, Bool.or_self, Option.bind_eq_bind, Option.bind_some,
    sane_counts_eq hle1 hle2 (by omega)]

theorem should_break_other {src dst : filespec} (break_score : Nat) (h : ¬ Compared src dst) :
    ∃ m r, should_break src dst break_score = some (m, r) ∧ 0 ≤ m ∧ m ≤ 60000 := by
  unfold should_break
  by_cases htype : src.S_ISREG = dst.S_ISREG
  · rw [if_neg (not_not.mpr htype)]
    by_cases hsha1 : (src.sha1_valid && dst.sha1_valid && src.sha1 = dst.sha1) = true
    · rw [if_pos hsha1]
      exact ⟨0, false, rfl, by norm_num, by norm_num⟩
    rw [if_neg hsha1, if_pos]
    · exact ⟨0, false, rfl, by norm_num, by norm_num⟩
    · by_contra hread
      rw [Bool.or_eq_true, not_or, Bool.not_eq_true, Bool.not_eq_true] at hread
      exact h ⟨htype, Bool.eq_false_iff.mpr hsha1, hread⟩
  · rw [if_pos htype]
    refine ⟨60000, true, ?_, by norm_num, by norm_num⟩
    rw [to_int, if_pos (by norm_num [MAX_SCORE]), MAX_SCORE_nat]
    rfl

/-- The break is defined unless an empty source is compared with a file that is not small. -/
theorem should_break_safe {src dst : filespec} {break_score : Nat} (hsrc : src.size < 2 ^ 47)
    (hdst : dst.size < 2 ^ 47) (hbreak : break_score ≤ 60000) :
    (∃ m r, should_break src dst break_score = some (m, r) ∧ 0 ≤ m ∧ m ≤ 60000) ↔
      ¬ (Compared src dst ∧ src.size = 0 ∧ MINIMUM_BREAK_SIZE ≤ dst.size) := by
  by_cases hcompared : Compared src dst
  · obtain ⟨sc, la, hsc, hsum, heq⟩ :=
      should_break_compared break_score hcompared hdst
    rw [heq]
    generalize hmax : (if dst.size < src.size then src.size else dst.size) = max_size
    have hbound : max_size < 2 ^ 47 := by
      rw [← hmax]
      split_ifs <;> assumption
    by_cases hsmall : max_size < MINIMUM_BREAK_SIZE
    · rw [if_pos hsmall]
      refine ⟨fun _ hbad => ?_, fun _ => ⟨0, false, rfl, by norm_num, by norm_num⟩⟩
      obtain ⟨-, hzero, hlarge⟩ := hbad
      rw [hzero, if_neg (Nat.not_lt_zero _)] at hmax
      omega
    rw [if_neg hsmall]
    have hpos : 0 < max_size := Nat.lt_of_lt_of_le (by decide) (not_lt.mp hsmall)
    rcases Nat.eq_zero_or_pos src.size with hzero | hsrcpos
    · have hsc0 : sc = 0 := by omega
      rw [hzero, hsc0, break_scores_empty]
      constructor
      · rintro ⟨m, r, hnone, -⟩
        cases hnone
      · intro hbad
        rw [hzero, if_neg (Nat.not_lt_zero _)] at hmax
        exact absurd ⟨hcompared, rfl, hmax ▸ not_lt.mp hsmall⟩ hbad
    · refine ⟨fun _ hbad => by omega, fun _ => ?_⟩
      exact break_scores_safe hsc hsrcpos hsrc (by omega) hpos hbound hbreak
  · exact ⟨fun _ hbad => hcompared hbad.1, fun _ => should_break_other break_score hcompared⟩

/-! ## The similarity -/

theorem limit_fits {base_size minimum_score : Nat} (hbase : base_size < 2 ^ 47)
    (hmin : minimum_score ≤ 60000) :
    ∃ limit delta_limit,
      div (mul (of_nat base_size) (rnd (MAX_SCORE - minimum_score))) MAX_SCORE = some limit ∧
        to_ulong limit = some delta_limit := by
  have hslack : rnd (MAX_SCORE - minimum_score) = ((60000 - minimum_score : Nat) : ℚ) := by
    rw [MAX_SCORE_nat, ← Nat.cast_sub hmin]
    exact rnd_nat (by omega)
  have hprod : 0 ≤ (base_size : ℚ) * ((60000 - minimum_score : Nat) : ℚ) := by positivity
  have hround := rnd_le hprod
  have hnonneg := rnd_nonneg hprod
  have hbase' : (base_size : ℚ) ≤ 2 ^ 47 := by exact_mod_cast hbase.le
  have hscore : ((60000 - minimum_score : Nat) : ℚ) ≤ 60000 := by
    exact_mod_cast Nat.sub_le 60000 minimum_score
  have hlarge : (base_size : ℚ) * ((60000 - minimum_score : Nat) : ℚ) ≤ 2 ^ 47 * 60000 := by
    gcongr
  have hquot : 0 ≤ rnd ((base_size : ℚ) * ((60000 - minimum_score : Nat) : ℚ)) / MAX_SCORE :=
    div_nonneg hnonneg (by norm_num [MAX_SCORE])
  have hround' := rnd_le hquot
  have hlt : rnd (rnd ((base_size : ℚ) * ((60000 - minimum_score : Nat) : ℚ)) / MAX_SCORE) <
      2 ^ 64 := by
    have hmid : rnd ((base_size : ℚ) * ((60000 - minimum_score : Nat) : ℚ)) / MAX_SCORE ≤
        2 ^ 48 := by
      rw [MAX_SCORE, div_le_iff₀ (by norm_num)]
      refine hround.trans ?_
      refine (mul_le_mul_of_nonneg_right hlarge (by norm_num)).trans (by norm_num)
    refine hround'.trans_lt ?_
    exact (mul_le_mul_of_nonneg_right hmid (by norm_num)).trans_lt (by norm_num)
  refine ⟨_, _, ?_, if_pos hlt⟩
  rw [hslack, of_nat_exact (by omega), div, mul, if_neg (by norm_num [MAX_SCORE])]

theorem estimate_safe {src dst : filespec} {minimum_score : Nat} (hsrc : src.size < 2 ^ 47)
    (hdst : dst.size < 2 ^ 47) (hmin : minimum_score ≤ 60000) :
    ∃ s, estimate_similarity src dst minimum_score = some s ∧ 0 ≤ s ∧ s ≤ 60000 := by
  have hzero : ∃ s, some (0 : Int) = some s ∧ 0 ≤ s ∧ s ≤ 60000 :=
    ⟨0, rfl, by norm_num, by norm_num⟩
  unfold estimate_similarity
  by_cases hreg : (!src.S_ISREG || !dst.S_ISREG) = true
  · rw [if_pos hreg]
    exact hzero
  rw [if_neg hreg]
  by_cases hpop : (src.populate true || dst.populate true) = true
  · rw [if_pos hpop]
    exact hzero
  rw [if_neg hpop]
  generalize hmax : (if dst.size < src.size then src.size else dst.size) = max_size
  generalize hbase : (if src.size < dst.size then src.size else dst.size) = base_size
  have hbound : src.size ≤ max_size ∧ dst.size ≤ max_size ∧ base_size ≤ max_size ∧
      max_size < 2 ^ 47 := by
    rw [← hmax, ← hbase]
    split_ifs <;> omega
  obtain ⟨hsm, hdm, hbm, hm47⟩ := hbound
  have hsub : sub64 max_size base_size = some (max_size - base_size) := if_pos hbm
  simp only [Option.bind_eq_bind]
  rw [hsub, Option.bind_some]
  by_cases hfar : mul (of_nat max_size) (rnd (MAX_SCORE - minimum_score)) <
      mul (of_nat (max_size - base_size)) MAX_SCORE
  · rw [if_pos hfar]
    exact hzero
  rw [if_neg hfar]
  by_cases hread : (src.populate false || dst.populate false) = true
  · rw [if_pos hread]
    exact hzero
  rw [if_neg hread]
  obtain ⟨limit, delta_limit, hlimit, hulong⟩ := limit_fits (hbm.trans_lt hm47) hmin
  obtain ⟨sc, la, hcount, -, hle⟩ := count_changes_sum src.one dst.one
  rw [hlimit, Option.bind_some, hulong, Option.bind_some, hcount, Option.bind_some]
  by_cases hempty : dst.size = 0
  · rw [if_pos hempty]
    exact hzero
  have hsc : sc ≤ max_size := (hle.trans (counted_le src.one)).trans hsm
  have hquot := div_score (a := sc) (b := max_size) (by omega) (by omega)
  rw [if_neg (by omega)] at hquot
  rw [if_neg hempty, hquot, Option.bind_some]
  exact to_int_score hsc

/-- A regular file that can be read. -/
def Readable (f : filespec) : Prop := f.S_ISREG = true ∧ ∀ size_only, f.populate size_only = false

theorem estimate_self {f : filespec} {minimum_score : Nat} (hf : Readable f) (hpos : 0 < f.size)
    (hsize : f.size < 2 ^ 47) (hmin : minimum_score ≤ 60000) :
    estimate_similarity f f minimum_score = some 60000 ↔ counted f.one = f.size := by
  obtain ⟨hreg, hpop⟩ := hf
  obtain ⟨limit, delta_limit, hlimit, hulong⟩ := limit_fits hsize hmin
  have hslack : (0 : ℚ) ≤ (MAX_SCORE - minimum_score) := by
    rw [MAX_SCORE_nat, ← Nat.cast_sub hmin]
    exact Nat.cast_nonneg _
  have hfar : ¬ mul (of_nat f.size) (rnd (MAX_SCORE - minimum_score)) <
      mul (of_nat 0) MAX_SCORE := by
    have hzero : mul (of_nat 0) MAX_SCORE = 0 := by
      rw [of_nat_exact (by norm_num), Nat.cast_zero, mul, zero_mul]
      exact rnd_nat (by norm_num)
    rw [hzero, not_lt, of_nat_exact (by omega)]
    exact rnd_nonneg (mul_nonneg (Nat.cast_nonneg _) (rnd_nonneg hslack))
  have hcount := count_changes_self (rfl : hash_chars f.one = hash_chars f.one)
  have hquot := div_score (a := counted f.one) (b := f.size)
    ((counted_le f.one).trans_lt (hsize.trans (by norm_num))) (by omega)
  rw [if_neg hpos.ne'] at hquot
  have hless : counted f.one < 2 ^ 32 := by
    have hle := hashed_le (!f.one.is_binary) (f.one.data.take (f.one.size % 2 ^ 32)) 0
    rw [← counted, List.length_take] at hle
    have := Nat.mod_lt f.one.size (by decide : 0 < 2 ^ 32)
    omega
  have hvalue : estimate_similarity f f minimum_score = to_int (score (counted f.one) f.size) := by
    have hsub : sub64 f.size f.size = some 0 := by rw [sub64, if_pos (le_refl _), Nat.sub_self]
    unfold estimate_similarity
    simp only [hreg, hpop, Bool.not_true, Bool.or_self, Bool.false_eq_true, if_false, lt_irrefl,
      Option.bind_eq_bind]
    rw [hsub, Option.bind_some, if_neg hfar, hlimit, Option.bind_some, hulong, Option.bind_some,
      hcount, Option.bind_some, if_neg hpos.ne', hquot, Option.bind_some]
  rw [hvalue]
  exact to_int_score_max (counted_le f.one) hless hpos hsize

/-! ## All of it -/

/-- What the scores of a pair, and of its source with itself, should be. -/
structure Safe (src dst : filespec) (minimum_score break_score : Nat) : Prop where
  broken : ∃ m r, should_break src dst break_score = some (m, r) ∧ 0 ≤ m ∧ m ≤ 60000
  similar : ∃ s, estimate_similarity src dst minimum_score = some s ∧ 0 ≤ s ∧ s ≤ 60000
  itself : Readable src → 0 < src.size → estimate_similarity src src minimum_score = some 60000

/-- The scores are as they should be exactly where no empty source is compared with a file of
400 bytes, and the source, where it is not empty, is counted as a whole. -/
theorem scores_are_safe (src dst : filespec) (minimum_score break_score : Nat)
    (hsrc : src.size < 2 ^ 47) (hdst : dst.size < 2 ^ 47) (hmin : minimum_score ≤ 60000)
    (hbreak : 1 ≤ break_score ∧ break_score ≤ 60000) :
    Safe src dst minimum_score break_score ↔
      ¬ (Compared src dst ∧ src.size = 0 ∧ MINIMUM_BREAK_SIZE ≤ dst.size) ∧
      (Readable src → 0 < src.size → src.size < 2 ^ 32 ∧
        (src.one.is_binary = false → NoCrlf src.one.data) ∧
          (last_line src.one.data).length % 64 = 0) := by
  have hbroken := should_break_safe hsrc hdst hbreak.2
  constructor
  · rintro ⟨hb, -, hself⟩
    refine ⟨hbroken.mp hb, fun hread hpos => ?_⟩
    exact (counted_all src.one).mp ((estimate_self hread hpos hsrc hmin).mp (hself hread hpos))
  · rintro ⟨hb, hself⟩
    refine ⟨hbroken.mpr hb, estimate_safe hsrc hdst hmin, fun hread hpos => ?_⟩
    exact (estimate_self hread hpos hsrc hmin).mpr ((counted_all src.one).mpr (hself hread hpos))

/-- A regular file with the line `a`. -/
def a_line : filespec := ⟨⟨[97, LF], false⟩, true, false, [], fun _ => false⟩

theorem a_line_is_safe :
    Safe a_line a_line 30000 30000 ↔
      ¬ (Compared a_line a_line ∧ a_line.size = 0 ∧ MINIMUM_BREAK_SIZE ≤ a_line.size) ∧
      (Readable a_line → 0 < a_line.size → a_line.size < 2 ^ 32 ∧
        (a_line.one.is_binary = false → NoCrlf a_line.one.data) ∧
          (last_line a_line.one.data).length % 64 = 0) :=
  scores_are_safe a_line a_line 30000 30000 (by decide) (by decide) (by decide) (by decide)

/-- An empty regular file, and one of 400 bytes. -/
def empty_file : filespec := ⟨⟨[], false⟩, true, false, [], fun _ => false⟩

def long_file : filespec := ⟨⟨List.replicate 400 LF, false⟩, true, false, [], fun _ => false⟩

/-- The score of what is removed of an empty source is a quotient by zero. -/
theorem an_empty_source_divides_by_zero : should_break empty_file long_file 30000 = none := by
  have hcompared : Compared empty_file long_file := ⟨rfl, rfl, rfl, rfl⟩
  have hsize : long_file.size = 400 := List.length_replicate
  obtain ⟨sc, la, hsc, -, heq⟩ := should_break_compared 30000 hcompared (by rw [hsize]; norm_num)
  have hempty : empty_file.size = 0 := rfl
  have hsc0 : sc = 0 := by omega
  rw [heq, hempty, hsize, hsc0]
  exact break_scores_empty 400 30000 la

end git.similarity
