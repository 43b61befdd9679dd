-- SHA-1 as FIPS 180 defines it, for messages of whole bytes.
import Git.Lib.BigEndian

open big_endian

namespace fips_180

abbrev Word := BitVec 32

/-! ## Functions and constants -/

def rotl (n : Nat) (x : Word) : Word := x <<< n ||| x >>> (32 - n)

def Ch (x y z : Word) : Word := (x &&& y) ^^^ (~~~x &&& z)

def Parity (x y z : Word) : Word := x ^^^ y ^^^ z

def Maj (x y z : Word) : Word := (x &&& y) ^^^ (x &&& z) ^^^ (y &&& z)

/-- The function of round `t`. -/
def f (t : Nat) (x y z : Word) : Word :=
  if t < 20 then Ch x y z else if t < 40 then Parity x y z
  else if t < 60 then Maj x y z else Parity x y z

/-- The constant of round `t`. -/
def K (t : Nat) : Word :=
  if t < 20 then 0x5a827999 else if t < 40 then 0x6ed9eba1
  else if t < 60 then 0x8f1bbcdc else 0xca62c1d6

/-- The message schedule of a block. -/
def schedule (M : Nat → Word) (t : Nat) : Word :=
  if _h : t < 16 then M t
  else
    rotl 1 (schedule M (t - 3) ^^^ schedule M (t - 8) ^^^ schedule M (t - 14) ^^^
      schedule M (t - 16))

/-! ## The hash of a block -/

/-- Five words: the working variables, or a hash value. -/
structure Hash where
  a : Word
  b : Word
  c : Word
  d : Word
  e : Word
  deriving DecidableEq

def round (M : Nat → Word) (t : Nat) (v : Hash) : Hash where
  a := rotl 5 v.a + f t v.b v.c v.d + v.e + K t + schedule M t
  b := v.a
  c := rotl 30 v.b
  d := v.c
  e := v.d

/-- The working variables before round `t`. -/
def rounds (M : Nat → Word) : Nat → Hash → Hash
  | 0, v => v
  | t + 1, v => round M t (rounds M t v)

/-- Word `t` of a block. -/
def block_word (block : List UInt8) (t : Nat) : Word :=
  BitVec.ofNat 32 (value ((block.drop (4 * t)).take 4))

def compress (h : Hash) (block : List UInt8) : Hash :=
  let v := rounds (block_word block) 80 h
  ⟨h.a + v.a, h.b + v.b, h.c + v.c, h.d + v.d, h.e + v.e⟩

/-- The hash value after the first blocks of `bs`. -/
def compress_blocks : Nat → Hash → List UInt8 → Hash
  | 0, h, _ => h
  | n + 1, h, bs => compress_blocks n (compress h (bs.take 64)) (bs.drop 64)

/-! ## The digest of a message -/

def initial_hash : Hash :=
  ⟨0x67452301, 0xefcdab89, 0x98badcfe, 0x10325476, 0xc3d2e1f0⟩

/-- The bytes of zeros that the padding needs. -/
def zeros (len : Nat) : Nat := (119 - len % 64) % 64

/-- A bit of 1, zeros, and the length in bits. -/
def pad (m : List UInt8) : List UInt8 :=
  m ++ (0x80 :: (List.replicate (zeros m.length) 0 ++ put 8 (8 * m.length)))

def Hash.bytes (h : Hash) : List UInt8 :=
  put 4 h.a.toNat ++ (put 4 h.b.toNat ++ (put 4 h.c.toNat ++ (put 4 h.d.toNat ++ put 4 h.e.toNat)))

def sha1 (m : List UInt8) : List UInt8 :=
  (compress_blocks ((pad m).length / 64) initial_hash (pad m)).bytes

/-! ## Laws -/

/-- The padding is the shortest that fills whole blocks. -/
theorem zeros_spec (len : Nat) : (len + 1 + zeros len) % 64 = 56 ∧ zeros len < 64 := by
  unfold zeros
  omega

theorem compress_blocks_add (n k : Nat) (h : Hash) (bs : List UInt8) :
    compress_blocks (n + k) h bs = compress_blocks k (compress_blocks n h bs) (bs.drop (64 * n)) := by
  induction n generalizing h bs with
  | zero => simp [compress_blocks]
  | succ n ih =>
    have hn : n + 1 + k = n + k + 1 := by omega
    rw [hn, compress_blocks, ih, compress_blocks, List.drop_drop]
    congr 2
    omega

/-- Only the bytes of the blocks count. -/
theorem compress_blocks_append (n : Nat) (h : Hash) (bs rest : List UInt8)
    (hlen : 64 * n ≤ bs.length) : compress_blocks n h (bs ++ rest) = compress_blocks n h bs := by
  induction n generalizing h bs with
  | zero => rfl
  | succ n ih =>
    rw [compress_blocks, compress_blocks, List.take_append_of_le_length (by omega),
      List.drop_append_of_le_length (by omega), ih]
    rw [List.length_drop]
    omega

theorem schedule_lt (M : Nat → Word) {t : Nat} (h : t < 16) : schedule M t = M t := by
  rw [schedule, dif_pos h]

theorem schedule_ge (M : Nat → Word) {t : Nat} (h : 16 ≤ t) :
    schedule M t = rotl 1 (schedule M (t - 3) ^^^ schedule M (t - 8) ^^^ schedule M (t - 14) ^^^
      schedule M (t - 16)) := by
  rw [schedule, dif_neg (by omega)]

end fips_180
