-- The SHA-1 of `block-sha1/sha1.c`, and that it is the SHA-1 of FIPS 180 for
-- a message that comes in pieces.
import Git.CacheEntry
import Git.Lib.Fips180

open big_endian

namespace git

/-! ## Rounds -/

def SHA_ROT (X : BitVec 32) (l r : Nat) : BitVec 32 := X <<< l ||| X >>> r

def SHA_ROL (X : BitVec 32) (n : Nat) : BitVec 32 := SHA_ROT X n (32 - n)

def SHA_ROR (X : BitVec 32) (n : Nat) : BitVec 32 := SHA_ROT X (32 - n) n

def get_be32 (p : Bytes) : BitVec 32 := BitVec.ofNat 32 (value (p.take 4))

def put_be32 (v : BitVec 32) : Bytes := put 4 v.toNat

/-- The 512-bit array and the five registers A to E. -/
structure block_state where
  array : Vector (BitVec 32) 16
  reg : Vector (BitVec 32) 5

/-- `W(x)`: this "rolls" over the 512-bit array. -/
def block_state.W (s : block_state) (x : Nat) : BitVec 32 :=
  s.array.get ⟨x % 16, Nat.mod_lt x (by omega)⟩

/-- The register that round `t` passes for the parameter `k` of its macro:
A, B, C, D, E, then E, A, B, C, D, and so on. -/
def role (t k : Nat) : Fin 5 := ⟨(k + 4 * t) % 5, Nat.mod_lt _ (by omega)⟩

/-- The register in the role of the parameter `k`. -/
def block_state.param (s : block_state) (t k : Nat) : BitVec 32 := s.reg.get (role t k)

def SHA_SRC (data : Bytes) (t : Nat) : BitVec 32 := get_be32 (data.drop (4 * t))

def SHA_MIX (s : block_state) (t : Nat) : BitVec 32 :=
  SHA_ROL (s.W (t + 13) ^^^ s.W (t + 8) ^^^ s.W (t + 2) ^^^ s.W t) 1

def SHA_ROUND (s : block_state) (t : Nat) (input : BitVec 32)
    (fn : BitVec 32 → BitVec 32 → BitVec 32 → BitVec 32) (constant : BitVec 32) : block_state :=
  let A := s.param t 0
  let B := s.param t 1
  let C := s.param t 2
  let D := s.param t 3
  let E := s.param t 4 + (input + SHA_ROL A 5 + fn B C D + constant)
  { array := s.array.set (t % 16) input (Nat.mod_lt t (by omega))
    reg := (s.reg.set (role t 4) E (role t 4).isLt).set (role t 1) (SHA_ROR B 2) (role t 1).isLt }

def T_0_15 (data : Bytes) (s : block_state) (t : Nat) : block_state :=
  SHA_ROUND s t (SHA_SRC data t) (fun B C D => ((C ^^^ D) &&& B) ^^^ D) 0x5a827999

def T_16_19 (s : block_state) (t : Nat) : block_state :=
  SHA_ROUND s t (SHA_MIX s t) (fun B C D => ((C ^^^ D) &&& B) ^^^ D) 0x5a827999

def T_20_39 (s : block_state) (t : Nat) : block_state :=
  SHA_ROUND s t (SHA_MIX s t) (fun B C D => B ^^^ C ^^^ D) 0x6ed9eba1

def T_40_59 (s : block_state) (t : Nat) : block_state :=
  SHA_ROUND s t (SHA_MIX s t) (fun B C D => (B &&& C) + (D &&& (B ^^^ C))) 0x8f1bbcdc

def T_60_79 (s : block_state) (t : Nat) : block_state :=
  SHA_ROUND s t (SHA_MIX s t) (fun B C D => B ^^^ C ^^^ D) 0xca62c1d6

/-- Line `t` of the 80 lines of `blk_SHA1_Block`. -/
def block_line (data : Bytes) (s : block_state) (t : Nat) : block_state :=
  if t < 16 then T_0_15 data s t
  else if t < 20 then T_16_19 s t
  else if t < 40 then T_20_39 s t
  else if t < 60 then T_40_59 s t
  else T_60_79 s t

/-- The state after the first lines. -/
def block_lines (data : Bytes) (s : block_state) : Nat → block_state
  | 0 => s
  | t + 1 => block_line data (block_lines data s t) t

/-! ## Context -/

/-- The bytes taken so far, the hash value, and the 64 bytes of the buffer. -/
structure blk_SHA_CTX where
  size : BitVec 64
  H : Vector (BitVec 32) 5
  W : Vector UInt8 64

/-- `array` starts uninitialised. -/
def blk_SHA1_Block (ctx : blk_SHA_CTX) (data : Bytes) : blk_SHA_CTX :=
  let s := block_lines data ⟨Vector.replicate 16 0, ctx.H⟩ 80
  { ctx with H := Vector.zipWith (· + ·) ctx.H s.reg }

def blk_SHA1_Init (ctx : blk_SHA_CTX) : blk_SHA_CTX :=
  { ctx with size := 0, H := #v[0x67452301, 0xefcdab89, 0x98badcfe, 0x10325476, 0xc3d2e1f0] }

/-- `memcpy(off + (char *)W, data, data.length)` -/
def copy_into (W : Vector UInt8 64) (off : Nat) (data : Bytes) : Vector UInt8 64 :=
  Vector.ofFn (fun i => if off ≤ i.val then data[i.val - off]?.getD (W.get i) else W.get i)

/-- `while (len >= 64)`: the context, and the bytes that are left. -/
def update_blocks : Nat → blk_SHA_CTX → Bytes → blk_SHA_CTX × Bytes
  | 0, ctx, data => (ctx, data)
  | turns + 1, ctx, data =>
    if 64 ≤ data.length then update_blocks turns (blk_SHA1_Block ctx (data.take 64)) (data.drop 64)
    else (ctx, data)

/-- The part of `blk_SHA1_Update` after the buffer is used up. -/
def update_rest (ctx : blk_SHA_CTX) (data : Bytes) : blk_SHA_CTX :=
  let (ctx, data) := update_blocks (data.length / 64) ctx data
  { ctx with W := copy_into ctx.W 0 data }

def blk_SHA1_Update (ctx : blk_SHA_CTX) (data : Bytes) : blk_SHA_CTX :=
  let lenW := (ctx.size &&& 63).toNat
  let ctx := { ctx with size := ctx.size + BitVec.ofNat 64 data.length }
  if lenW ≠ 0 then
    let left := min data.length (64 - lenW)
    let ctx := { ctx with W := copy_into ctx.W lenW (data.take left) }
    if (lenW + left) % 64 ≠ 0 then ctx
    else update_rest (blk_SHA1_Block ctx ctx.W.toList) (data.drop left)
  else update_rest ctx data

/-- `static const unsigned char pad[64] = { 0x80 }` -/
def sha1_pad : Bytes := 0x80 :: List.replicate 63 0

/-- The 20 bytes of `hashout`. -/
def blk_SHA1_Final (ctx : blk_SHA_CTX) : Bytes :=
  let padlen := put_be32 ((ctx.size >>> 29).setWidth 32) ++ put_be32 ((ctx.size <<< 3).setWidth 32)
  let i := (ctx.size &&& 63).toNat
  let ctx := blk_SHA1_Update ctx (sha1_pad.take (1 + ((55 - (i : Int)) % 64).toNat))
  let ctx := blk_SHA1_Update ctx padlen
  put_be32 (ctx.H.get 0) ++ (put_be32 (ctx.H.get 1) ++ (put_be32 (ctx.H.get 2) ++
    (put_be32 (ctx.H.get 3) ++ put_be32 (ctx.H.get 4))))

/-! ## The rounds are those of FIPS 180 -/

theorem choose_eq (B C D : BitVec 32) : ((C ^^^ D) &&& B) ^^^ D = fips_180.Ch B C D := by
  unfold fips_180.Ch
  apply BitVec.eq_of_getLsbD_eq
  intro i hi
  simp only [BitVec.getLsbD_xor, BitVec.getLsbD_and, BitVec.getLsbD_not, hi, decide_true,
    Bool.true_and]
  cases B.getLsbD i <;> cases C.getLsbD i <;> cases D.getLsbD i <;> rfl

/-- The sum has no carries: its terms have no bit in common. -/
theorem majority_eq (B C D : BitVec 32) :
    (B &&& C) + (D &&& (B ^^^ C)) = fips_180.Maj B C D := by
  have happart : (B &&& C) &&& (D &&& (B ^^^ C)) = 0#32 := by
    apply BitVec.eq_of_getLsbD_eq
    intro i hi
    simp only [BitVec.getLsbD_xor, BitVec.getLsbD_and, BitVec.getLsbD_zero]
    cases B.getLsbD i <;> cases C.getLsbD i <;> cases D.getLsbD i <;> rfl
  rw [BitVec.add_eq_or_of_and_eq_zero _ _ happart]
  unfold fips_180.Maj
  apply BitVec.eq_of_getLsbD_eq
  intro i hi
  simp only [BitVec.getLsbD_xor, BitVec.getLsbD_and, BitVec.getLsbD_or]
  cases B.getLsbD i <;> cases C.getLsbD i <;> cases D.getLsbD i <;> rfl

/-- The registers have the working variables in their roles before round `t`,
and the array has the last words of the schedule. -/
structure AtRound (M : Nat → BitVec 32) (t : Nat) (s : block_state) (v : fips_180.Hash) : Prop where
  a : s.param t 0 = v.a
  b : s.param t 1 = v.b
  c : s.param t 2 = v.c
  d : s.param t 3 = v.d
  e : s.param t 4 = v.e
  words : ∀ i < t, t ≤ i + 16 → s.W i = fips_180.schedule M i

theorem get_set {n : Nat} (v : Vector (BitVec 32) n) (i j : Fin n) (x : BitVec 32) :
    (v.set i.val x i.isLt).get j = if i = j then x else v.get j := by
  rw [Vector.get_eq_getElem, Vector.get_eq_getElem, Vector.getElem_set]
  simp only [Fin.ext_iff]

theorem param_five (s : block_state) (t k : Nat) : s.param t (k + 5) = s.param t k := by
  have : role t (k + 5) = role t k := by
    unfold role
    congr 1
    omega
  rw [block_state.param, this, block_state.param]

/-- After the round each register has its role in the next one. -/
theorem param_round (s : block_state) (t k : Nat) (input : BitVec 32)
    (fn : BitVec 32 → BitVec 32 → BitVec 32 → BitVec 32) (constant : BitVec 32) :
    (SHA_ROUND s t input fn constant).param (t + 1) k =
      if k % 5 = 0 then
        s.param t 4 + (input + SHA_ROL (s.param t 0) 5 +
          fn (s.param t 1) (s.param t 2) (s.param t 3) + constant)
      else if k % 5 = 2 then SHA_ROR (s.param t 1) 2
      else s.param t (k + 4) := by
  have hrole : role (t + 1) k = role t (k + 4) := by
    unfold role
    congr 1
    omega
  have h4 : role t 4 = role t (k + 4) ↔ k % 5 = 0 := by
    unfold role
    rw [Fin.mk.injEq]
    omega
  have h1 : role t 1 = role t (k + 4) ↔ k % 5 = 2 := by
    unfold role
    rw [Fin.mk.injEq]
    omega
  unfold block_state.param
  rw [hrole, SHA_ROUND]
  simp only
  rw [get_set, get_set]
  simp only [h4, h1]
  unfold block_state.param
  by_cases h2 : k % 5 = 2
  · have h0 : ¬ k % 5 = 0 := by omega
    rw [if_pos h2, if_neg h0, if_pos h2]
  · simp only [h2, if_false]

theorem word_round (s : block_state) (t i : Nat) (input : BitVec 32)
    (fn : BitVec 32 → BitVec 32 → BitVec 32 → BitVec 32) (constant : BitVec 32) :
    (SHA_ROUND s t input fn constant).W i = if t % 16 = i % 16 then input else s.W i := by
  unfold block_state.W
  rw [SHA_ROUND]
  simp only
  rw [show s.array.set (t % 16) input (Nat.mod_lt t (by omega)) =
    s.array.set (⟨t % 16, Nat.mod_lt t (by omega)⟩ : Fin 16).val input (Fin.isLt _) from rfl, get_set]
  simp only [Fin.mk.injEq]

/-- A line with the word of the schedule and the function and constant of
its round is that round. -/
theorem SHA_ROUND_spec {M : Nat → BitVec 32} {t : Nat} {s : block_state} {v : fips_180.Hash}
    (h : AtRound M t s v) {fn : BitVec 32 → BitVec 32 → BitVec 32 → BitVec 32}
    (hfn : ∀ B C D, fn B C D = fips_180.f t B C D) :
    AtRound M (t + 1) (SHA_ROUND s t (fips_180.schedule M t) fn (fips_180.K t))
      (fips_180.round M t v) := by
  refine ⟨?_, ?_, ?_, ?_, ?_, ?_⟩
  · rw [param_round, if_pos (by omega), h.a, h.b, h.c, h.d, h.e, hfn]
    simp only [fips_180.round, SHA_ROL, SHA_ROT, fips_180.rotl]
    ac_rfl
  · rw [param_round, if_neg (by omega), if_neg (by omega), param_five s t 0, h.a]
    rfl
  · rw [param_round, if_neg (by omega), if_pos (by omega), h.b]
    rfl
  · rw [param_round, if_neg (by omega), if_neg (by omega), param_five s t 2, h.c]
    rfl
  · rw [param_round, if_neg (by omega), if_neg (by omega), param_five s t 3, h.d]
    rfl
  · intro i hi ht
    rw [word_round]
    by_cases heq : i = t
    · rw [heq, if_pos rfl]
    · rw [if_neg (by omega)]
      exact h.words i (by omega) (by omega)

theorem W_add (s : block_state) {i j : Nat} (h : i % 16 = j % 16) : s.W i = s.W j := by
  unfold block_state.W
  congr 1
  rw [Fin.mk.injEq]
  exact h

/-- The mixing takes its words from 3, 8, 14 and 16 rounds ago. -/
theorem SHA_MIX_spec {M : Nat → BitVec 32} {t : Nat} {s : block_state} {v : fips_180.Hash}
    (h : AtRound M t s v) (ht : 16 ≤ t) : SHA_MIX s t = fips_180.schedule M t := by
  have h3 : s.W (t + 13) = fips_180.schedule M (t - 3) := by
    rw [W_add s (show (t + 13) % 16 = (t - 3) % 16 by omega)]
    exact h.words _ (by omega) (by omega)
  have h8 : s.W (t + 8) = fips_180.schedule M (t - 8) := by
    rw [W_add s (show (t + 8) % 16 = (t - 8) % 16 by omega)]
    exact h.words _ (by omega) (by omega)
  have h14 : s.W (t + 2) = fips_180.schedule M (t - 14) := by
    rw [W_add s (show (t + 2) % 16 = (t - 14) % 16 by omega)]
    exact h.words _ (by omega) (by omega)
  have h16 : s.W t = fips_180.schedule M (t - 16) := by
    rw [W_add s (show t % 16 = (t - 16) % 16 by omega)]
    exact h.words _ (by omega) (by omega)
  rw [SHA_MIX, h3, h8, h14, h16, fips_180.schedule_ge M ht]
  rfl

/-- Each of the 80 lines is its round. -/
theorem block_line_spec {data : Bytes} {t : Nat} {s : block_state} {v : fips_180.Hash}
    (h : AtRound (fips_180.block_word data) t s v) (ht : t < 80) :
    AtRound (fips_180.block_word data) (t + 1) (block_line data s t)
      (fips_180.round (fips_180.block_word data) t v) := by
  unfold block_line
  by_cases h16 : t < 16
  · rw [if_pos h16, T_0_15]
    have hsrc : SHA_SRC data t = fips_180.schedule (fips_180.block_word data) t := by
      rw [fips_180.schedule_lt _ h16]
      rfl
    have hK : (0x5a827999 : BitVec 32) = fips_180.K t := by
      rw [fips_180.K, if_pos (by omega)]
    rw [hsrc, hK]
    apply SHA_ROUND_spec h
    intro B C D
    rw [choose_eq, fips_180.f, if_pos (by omega)]
  · have hmix := SHA_MIX_spec h (by omega)
    rw [if_neg h16]
    by_cases h20 : t < 20
    · have hK : (0x5a827999 : BitVec 32) = fips_180.K t := by rw [fips_180.K, if_pos h20]
      rw [if_pos h20, T_16_19, hmix, hK]
      apply SHA_ROUND_spec h
      intro B C D
      rw [choose_eq, fips_180.f, if_pos h20]
    · rw [if_neg h20]
      by_cases h40 : t < 40
      · have hK : (0x6ed9eba1 : BitVec 32) = fips_180.K t := by
          rw [fips_180.K, if_neg h20, if_pos h40]
        rw [if_pos h40, T_20_39, hmix, hK]
        apply SHA_ROUND_spec h
        intro B C D
        rw [fips_180.f, if_neg h20, if_pos h40, fips_180.Parity]
      · rw [if_neg h40]
        by_cases h60 : t < 60
        · have hK : (0x8f1bbcdc : BitVec 32) = fips_180.K t := by
            rw [fips_180.K, if_neg h20, if_neg h40, if_pos h60]
          rw [if_pos h60, T_40_59, hmix, hK]
          apply SHA_ROUND_spec h
          intro B C D
          rw [majority_eq, fips_180.f, if_neg h20, if_neg h40, if_pos h60]
        · have hK : (0xca62c1d6 : BitVec 32) = fips_180.K t := by
            rw [fips_180.K, if_neg h20, if_neg h40, if_neg h60]
          rw [if_neg h60, T_60_79, hmix, hK]
          apply SHA_ROUND_spec h
          intro B C D
          rw [fips_180.f, if_neg h20, if_neg h40, if_neg h60, fips_180.Parity]

theorem block_lines_spec {data : Bytes} {s : block_state} {v : fips_180.Hash}
    (h : AtRound (fips_180.block_word data) 0 s v) {t : Nat} (ht : t ≤ 80) :
    AtRound (fips_180.block_word data) t (block_lines data s t)
      (fips_180.rounds (fips_180.block_word data) t v) := by
  induction t with
  | zero => exact h
  | succ t ih => exact block_line_spec (ih (by omega)) (by omega)

/-- The five words of a context as a hash value. -/
def hash_value (H : Vector (BitVec 32) 5) : fips_180.Hash :=
  ⟨H.get 0, H.get 1, H.get 2, H.get 3, H.get 4⟩

/-- `blk_SHA1_Block` is the hash computation of one block. -/
theorem blk_SHA1_Block_spec (ctx : blk_SHA_CTX) (data : Bytes) :
    hash_value (blk_SHA1_Block ctx data).H = fips_180.compress (hash_value ctx.H) data := by
  have h0 : AtRound (fips_180.block_word data) 0 ⟨Vector.replicate 16 0, ctx.H⟩
      (hash_value ctx.H) :=
    ⟨rfl, rfl, rfl, rfl, rfl, fun i hi => absurd hi (by omega)⟩
  have h := block_lines_spec h0 (le_refl 80)
  have hget : ∀ (s : Vector (BitVec 32) 5) (k : Fin 5),
      (Vector.zipWith (· + ·) ctx.H s).get k = ctx.H.get k + s.get k := by
    intro s k
    simp only [Vector.get_eq_getElem, Vector.getElem_zipWith]
  unfold blk_SHA1_Block fips_180.compress hash_value
  simp only [hget, fips_180.Hash.mk.injEq]
  exact ⟨congrArg _ h.a, congrArg _ h.b, congrArg _ h.c, congrArg _ h.d, congrArg _ h.e⟩

/-! ## Messages in pieces -/

/-- The hash value counts the whole blocks of `m`, and the buffer starts with
the bytes after them. -/
structure Taken (ctx : blk_SHA_CTX) (m : Bytes) : Prop where
  hash : hash_value ctx.H =
    fips_180.compress_blocks (m.length / 64) fips_180.initial_hash m
  tail : ctx.W.toList.take (m.length % 64) = m.drop (64 * (m.length / 64))

theorem take_copy_into {W : Vector UInt8 64} {off : Nat} {data : Bytes}
    (h : off + data.length ≤ 64) :
    (copy_into W off data).toList.take (off + data.length) = W.toList.take off ++ data := by
  apply List.ext_getElem
  · simp only [List.length_take, Vector.length_toList, List.length_append]
    omega
  · intro i h1 h2
    simp only [List.length_take, Vector.length_toList] at h1
    rw [List.getElem_take, Vector.getElem_toList, List.getElem_append]
    simp only [copy_into, Vector.getElem_ofFn, List.length_take, Vector.length_toList]
    by_cases hi : i < off
    · have hnot : ¬ off ≤ i := by omega
      have hlt : i < min off 64 := by omega
      simp only [hnot, if_false, hlt, dite_true, List.getElem_take, Vector.getElem_toList,
        Vector.get_eq_getElem]
    · have hle : off ≤ i := by omega
      have hmin : min off 64 = off := by omega
      have hdata : i - off < data.length := by omega
      simp only [hle, if_true, hmin, hi, dite_false, List.getElem?_eq_getElem hdata,
        Option.getD_some]

theorem update_blocks_spec (n : Nat) (ctx : blk_SHA_CTX) (data : Bytes) (h : 64 * n ≤ data.length) :
    hash_value (update_blocks n ctx data).1.H =
        fips_180.compress_blocks n (hash_value ctx.H) data ∧
      (update_blocks n ctx data).1.W = ctx.W ∧ (update_blocks n ctx data).1.size = ctx.size ∧
      (update_blocks n ctx data).2 = data.drop (64 * n) := by
  induction n generalizing ctx data with
  | zero => exact ⟨rfl, rfl, rfl, by simp [update_blocks]⟩
  | succ n ih =>
    have hrest : 64 * n ≤ (data.drop 64).length := by
      rw [List.length_drop]
      omega
    obtain ⟨hhash, hW, hsize, hleft⟩ := ih (blk_SHA1_Block ctx (data.take 64)) (data.drop 64) hrest
    rw [update_blocks, if_pos (by omega)]
    refine ⟨?_, hW, hsize, ?_⟩
    · rw [hhash, blk_SHA1_Block_spec, fips_180.compress_blocks]
    · rw [hleft, List.drop_drop]
      congr 1
      omega

/-- With the buffer used up, the rest of the data is taken in blocks. -/
theorem update_rest_taken {ctx : blk_SHA_CTX} {m : Bytes} (data : Bytes) (h64 : m.length % 64 = 0)
    (hhash : hash_value ctx.H =
      fips_180.compress_blocks (m.length / 64) fips_180.initial_hash m) :
    Taken (update_rest ctx data) (m ++ data) ∧ (update_rest ctx data).size = ctx.size := by
  obtain ⟨h1, hW, hsize, hleft⟩ := update_blocks_spec (data.length / 64) ctx data (by omega)
  have hlen : (m ++ data).length / 64 = m.length / 64 + data.length / 64 := by
    rw [List.length_append]
    omega
  have hmod : (m ++ data).length % 64 = 0 + (data.drop (64 * (data.length / 64))).length := by
    rw [List.length_append, List.length_drop]
    omega
  have hfit : 0 + (data.drop (64 * (data.length / 64))).length ≤ 64 := by
    rw [List.length_drop]
    omega
  unfold update_rest
  simp only
  refine ⟨⟨?_, ?_⟩, hsize⟩
  · rw [h1, hhash, hlen, fips_180.compress_blocks_add,
      fips_180.compress_blocks_append _ _ m data (by omega)]
    congr 1
    rw [show 64 * (m.length / 64) = m.length by omega, List.drop_append_of_le_length (le_refl _)]
    simp
  · simp only [hW, hleft]
    rw [hmod, take_copy_into hfit, hlen]
    rw [show 64 * (m.length / 64 + data.length / 64) = m.length + 64 * (data.length / 64) by omega,
      ← List.drop_drop, List.drop_append_of_le_length (le_refl _)]
    simp

/-- The context took the message `m`. -/
structure Absorbed (ctx : blk_SHA_CTX) (m : Bytes) : Prop where
  size : ctx.size = BitVec.ofNat 64 m.length
  taken : Taken ctx m

theorem size_and_63 {ctx : blk_SHA_CTX} {m : Bytes} (h : Absorbed ctx m) :
    (ctx.size &&& 63).toNat = m.length % 64 := by
  have h63 : (63 : BitVec 64).toNat = 2 ^ 6 - 1 := rfl
  rw [h.size, BitVec.toNat_and, h63, Nat.and_two_pow_sub_one_eq_mod, BitVec.toNat_ofNat]
  omega

/-- A piece that does not fill the buffer. -/
theorem taken_short {ctx : blk_SHA_CTX} {m data : Bytes} (h : Taken ctx m)
    (hshort : m.length % 64 + data.length < 64) :
    Taken { ctx with W := copy_into ctx.W (m.length % 64) data } (m ++ data) := by
  have hlen : (m ++ data).length / 64 = m.length / 64 := by
    rw [List.length_append]
    omega
  have hmod : (m ++ data).length % 64 = m.length % 64 + data.length := by
    rw [List.length_append]
    omega
  refine ⟨?_, ?_⟩
  · rw [hlen, fips_180.compress_blocks_append _ _ m data (by omega)]
    exact h.hash
  · rw [hmod, take_copy_into (by omega), h.tail, hlen, List.drop_append_of_le_length (by omega)]

/-- A piece that fills the buffer makes it the next block. -/
theorem taken_full {ctx full : blk_SHA_CTX} {m data : Bytes} (h : Taken ctx m)
    (hfull : m.length % 64 + data.length = 64) (hH : full.H = ctx.H) :
    hash_value (blk_SHA1_Block full (copy_into ctx.W (m.length % 64) data).toList).H =
      fips_180.compress_blocks ((m ++ data).length / 64) fips_180.initial_hash (m ++ data) := by
  have hlen : (m ++ data).length / 64 = m.length / 64 + 1 := by
    rw [List.length_append]
    omega
  have hbuffer : (copy_into ctx.W (m.length % 64) data).toList =
      (m ++ data).drop (64 * (m.length / 64)) := by
    have htake := @take_copy_into ctx.W (m.length % 64) data (by omega)
    rw [List.take_of_length_le (by rw [Vector.length_toList]; omega)] at htake
    rw [htake, h.tail, List.drop_append_of_le_length (by omega)]
  have hblock : ((m ++ data).drop (64 * (m.length / 64))).take 64 =
      (m ++ data).drop (64 * (m.length / 64)) := by
    apply List.take_of_length_le
    rw [List.length_drop, List.length_append]
    omega
  rw [blk_SHA1_Block_spec, hH, h.hash, hbuffer, hlen, fips_180.compress_blocks_add,
    fips_180.compress_blocks_append _ _ m data (by omega), fips_180.compress_blocks, hblock]
  rfl

/-- A piece of the message, of any length. -/
theorem blk_SHA1_Update_absorbed {ctx : blk_SHA_CTX} {m : Bytes} (h : Absorbed ctx m)
    (data : Bytes) : Absorbed (blk_SHA1_Update ctx data) (m ++ data) := by
  have hsize : ctx.size + BitVec.ofNat 64 data.length = BitVec.ofNat 64 (m ++ data).length := by
    rw [h.size, List.length_append, ← BitVec.ofNat_add]
  unfold blk_SHA1_Update
  simp only [size_and_63 h, hsize]
  by_cases hW : m.length % 64 = 0
  · rw [if_neg (by omega)]
    have htaken := @update_rest_taken { ctx with size := BitVec.ofNat 64 (m ++ data).length } m data
      hW h.taken.hash
    exact ⟨htaken.2, htaken.1⟩
  · rw [if_pos hW]
    by_cases hshort : m.length % 64 + data.length < 64
    · have hleft : min data.length (64 - m.length % 64) = data.length := by omega
      rw [hleft, if_pos (by omega), List.take_length]
      have htaken := @taken_short { ctx with size := BitVec.ofNat 64 (m ++ data).length } m data
        ⟨h.taken.hash, h.taken.tail⟩ hshort
      exact ⟨rfl, htaken⟩
    · have hleft : min data.length (64 - m.length % 64) = 64 - m.length % 64 := by omega
      rw [hleft, if_neg (by omega)]
      generalize hk : 64 - m.length % 64 = left
      have hpiece : m.length % 64 + (data.take left).length = 64 := by
        rw [List.length_take]
        omega
      have hsplit : m ++ data = (m ++ data.take left) ++ data.drop left := by
        rw [List.append_assoc, List.take_append_drop]
      have h64 : (m ++ data.take left).length % 64 = 0 := by
        rw [List.length_append]
        omega
      generalize hfull : blk_SHA_CTX.mk (BitVec.ofNat 64 (m ++ data).length) ctx.H
        (copy_into ctx.W (m.length % 64) (data.take left)) = full
      have hH : full.H = ctx.H := by rw [← hfull]
      have htaken := update_rest_taken (data.drop left) h64 (taken_full h.taken hpiece hH)
      rw [← hsplit] at htaken
      refine ⟨htaken.2.trans ?_, htaken.1⟩
      rw [← hfull]
      rfl

theorem blk_SHA1_Init_absorbed (ctx : blk_SHA_CTX) : Absorbed (blk_SHA1_Init ctx) [] :=
  ⟨rfl, rfl, by simp⟩

theorem updates_absorbed {ctx : blk_SHA_CTX} {m : Bytes} (h : Absorbed ctx m)
    (pieces : List Bytes) :
    Absorbed (pieces.foldl blk_SHA1_Update ctx) (m ++ pieces.flatten) := by
  induction pieces generalizing ctx m with
  | nil => simpa using h
  | cons data pieces ih =>
    have := ih (blk_SHA1_Update_absorbed h data)
    simpa using this

/-! ## The digest -/

/-- The two words of the length are the length in bits. -/
theorem padlen_eq {len : Nat} (h : len < 2 ^ 64) :
    put_be32 ((BitVec.ofNat 64 len >>> 29).setWidth 32) ++
      put_be32 ((BitVec.ofNat 64 len <<< 3).setWidth 32) = put 8 (8 * len) := by
  have hhigh : ((BitVec.ofNat 64 len >>> 29).setWidth 32).toNat =
      8 * len / 256 ^ 4 % 256 ^ 4 := by
    rw [BitVec.toNat_setWidth, BitVec.toNat_ushiftRight, BitVec.toNat_ofNat,
      Nat.shiftRight_eq_div_pow]
    omega
  have hlow : ((BitVec.ofNat 64 len <<< 3).setWidth 32).toNat = 8 * len % 256 ^ 4 := by
    rw [BitVec.toNat_setWidth, BitVec.toNat_shiftLeft, BitVec.toNat_ofNat, Nat.shiftLeft_eq]
    omega
  rw [put_be32, put_be32, hhigh, hlow, put_mod, put_mod, ← put_add]

/-- The padding of `blk_SHA1_Final` is that of FIPS 180. -/
theorem sha1_pad_take (len : Nat) :
    sha1_pad.take (1 + ((55 - ((len % 64 : Nat) : Int)) % 64).toNat) =
      0x80 :: List.replicate (fips_180.zeros len) 0 := by
  have hi : ((55 - ((len % 64 : Nat) : Int)) % 64).toNat = fips_180.zeros len := by
    unfold fips_180.zeros
    omega
  have hz := (fips_180.zeros_spec len).2
  rw [hi, Nat.add_comm, sha1_pad, List.take_succ_cons, List.take_replicate]
  congr 2
  omega

theorem blk_SHA1_Final_spec {ctx : blk_SHA_CTX} {m : Bytes} (h : Absorbed ctx m)
    (hlen : m.length < 2 ^ 64) : blk_SHA1_Final ctx = fips_180.sha1 m := by
  have hpad := blk_SHA1_Update_absorbed (blk_SHA1_Update_absorbed h
    (0x80 :: List.replicate (fips_180.zeros m.length) 0)) (put 8 (8 * m.length))
  have hmessage : m ++ (0x80 :: List.replicate (fips_180.zeros m.length) 0) ++
      put 8 (8 * m.length) = fips_180.pad m := by
    simp [fips_180.pad]
  rw [hmessage] at hpad
  have hand := size_and_63 h
  rw [h.size] at hand
  unfold blk_SHA1_Final
  simp only [h.size, hand]
  rw [padlen_eq hlen, sha1_pad_take, fips_180.sha1, ← hpad.taken.hash]
  rfl

/-- **`block-sha1` is the SHA-1 of FIPS 180**, however the message is cut
into pieces, from a context of any content. -/
theorem a_digest_is_that_of_the_whole_message (ctx : blk_SHA_CTX) (pieces : List Bytes)
    (hlen : pieces.flatten.length < 2 ^ 61) :
    blk_SHA1_Final (pieces.foldl blk_SHA1_Update (blk_SHA1_Init ctx)) =
      fips_180.sha1 pieces.flatten :=
  blk_SHA1_Final_spec (updates_absorbed (blk_SHA1_Init_absorbed ctx) pieces) (by omega)

/-- The digest of "abc" in two pieces, from a zeroed context. -/
theorem the_digest_of_abc :
    blk_SHA1_Final ([[97], [], [98, 99]].foldl blk_SHA1_Update (blk_SHA1_Init
      ⟨0, Vector.replicate 5 0, Vector.replicate 64 0⟩)) = fips_180.sha1 [97, 98, 99] :=
  a_digest_is_that_of_the_whole_message _ [[97], [], [98, 99]] (by decide)

example : blk_SHA1_Final ([[97], [], [98, 99]].foldl blk_SHA1_Update (blk_SHA1_Init
    ⟨0, Vector.replicate 5 0, Vector.replicate 64 0⟩)) =
      [0xa9, 0x99, 0x3e, 0x36, 0x47, 0x06, 0x81, 0x6a, 0xba, 0x3e,
       0x25, 0x71, 0x78, 0x50, 0xc2, 0x6c, 0x9c, 0xd0, 0xd8, 0x9d] := by
  decide +kernel

end git
