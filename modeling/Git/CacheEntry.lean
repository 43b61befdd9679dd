-- The entries of the index, as `cache.h` declares them, and the order of
-- the cache array that `cache_name_compare` decides.
import Git.Lib.ListOrder

namespace git

/-- The unsigned bytes that `memcmp` compares. -/
instance byte_order : LinearOrder UInt8 where
  le_refl := UInt8.le_refl
  le_trans _ _ _ := UInt8.le_trans
  le_antisymm _ _ := UInt8.le_antisymm
  le_total := UInt8.le_total
  lt_iff_le_not_ge a b := by
    rw [UInt8.not_le]
    exact ⟨fun h => ⟨UInt8.le_of_lt h, h⟩, fun h => h.2⟩
  toDecidableLE := inferInstance

/-- A buffer, or a C string without its NUL. -/
abbrev Bytes := List UInt8

/-- The 20 bytes of an object name. -/
abbrev Sha1 := Vector UInt8 20

/-- The byte `'/'`. -/
abbrev SLASH : UInt8 := 47

/-! ## Modes -/

def S_IFMT : BitVec 32 := 0o170000
def S_IFREG : BitVec 32 := 0o100000
def S_IFLNK : BitVec 32 := 0o120000
def S_IFDIR : BitVec 32 := 0o040000
/-- A link to another git directory. -/
def S_IFGITLINK : BitVec 32 := 0o160000

def S_ISREG (m : BitVec 32) : Bool := m &&& S_IFMT == S_IFREG
def S_ISLNK (m : BitVec 32) : Bool := m &&& S_IFMT == S_IFLNK
def S_ISDIR (m : BitVec 32) : Bool := m &&& S_IFMT == S_IFDIR
def S_ISGITLINK (m : BitVec 32) : Bool := m &&& S_IFMT == S_IFGITLINK

def ce_permissions (mode : BitVec 32) : BitVec 32 :=
  if mode &&& 0o100 ≠ 0 then 0o755 else 0o644

def create_ce_mode (mode : BitVec 32) : BitVec 32 :=
  if S_ISLNK mode then S_IFLNK
  else if S_ISDIR mode || S_ISGITLINK mode then S_IFGITLINK
  else S_IFREG ||| ce_permissions mode

/-! ## Entries -/

structure cache_time where
  sec : BitVec 32
  nsec : BitVec 32
  deriving DecidableEq, Repr

structure cache_entry where
  ce_ctime : cache_time
  ce_mtime : cache_time
  ce_dev : BitVec 32
  ce_ino : BitVec 32
  ce_mode : BitVec 32
  ce_uid : BitVec 32
  ce_gid : BitVec 32
  ce_size : BitVec 32
  ce_flags : BitVec 32
  sha1 : Sha1
  name : Bytes
  deriving DecidableEq, Repr

def CE_NAMEMASK : BitVec 32 := 0x0fff
def CE_STAGEMASK : BitVec 32 := 0x3000
def CE_EXTENDED : BitVec 32 := 0x4000
def CE_VALID : BitVec 32 := 0x8000
def CE_STAGESHIFT : Nat := 12

-- In-memory only flags.
def CE_UPDATE : BitVec 32 := 1 <<< 16
def CE_REMOVE : BitVec 32 := 1 <<< 17
def CE_UPTODATE : BitVec 32 := 1 <<< 18
def CE_ADDED : BitVec 32 := 1 <<< 19
def CE_HASHED : BitVec 32 := 1 <<< 20
def CE_UNHASHED : BitVec 32 := 1 <<< 21
def CE_WT_REMOVE : BitVec 32 := 1 <<< 22
def CE_CONFLICTED : BitVec 32 := 1 <<< 23
def CE_UNPACKED : BitVec 32 := 1 <<< 24
def CE_NEW_SKIP_WORKTREE : BitVec 32 := 1 <<< 25

-- Extended on-disk flags.
def CE_INTENT_TO_ADD : BitVec 32 := 1 <<< 29
def CE_SKIP_WORKTREE : BitVec 32 := 1 <<< 30
def CE_EXTENDED_FLAGS : BitVec 32 := CE_INTENT_TO_ADD ||| CE_SKIP_WORKTREE

def CE_STATE_MASK : BitVec 32 := CE_HASHED ||| CE_UNHASHED

/-- One of the bits of `mask` is set in the flags of `ce`. -/
def cache_entry.has (ce : cache_entry) (mask : BitVec 32) : Bool := ce.ce_flags &&& mask != 0

/-- `ce->ce_flags |= mask` -/
def cache_entry.mark (ce : cache_entry) (mask : BitVec 32) : cache_entry :=
  { ce with ce_flags := ce.ce_flags ||| mask }

/-- `ce->ce_flags &= ~mask` -/
def cache_entry.clear (ce : cache_entry) (mask : BitVec 32) : cache_entry :=
  { ce with ce_flags := ce.ce_flags &&& ~~~mask }

def create_ce_flags (len : Nat) (stage : Nat) : BitVec 32 :=
  (if 0x0fff ≤ len then CE_NAMEMASK else BitVec.ofNat 32 len) |||
    BitVec.ofNat 32 stage <<< CE_STAGESHIFT

def ce_namelen (ce : cache_entry) : Nat :=
  let len := (ce.ce_flags &&& CE_NAMEMASK).toNat
  if len < 0x0fff then len else (ce.name.drop 0x0fff).length + 0x0fff

def ce_stage (ce : cache_entry) : Nat := ((CE_STAGEMASK &&& ce.ce_flags) >>> CE_STAGESHIFT).toNat

def ce_uptodate (ce : cache_entry) : Bool := ce.has CE_UPTODATE
def ce_skip_worktree (ce : cache_entry) : Bool := ce.has CE_SKIP_WORKTREE
def ce_mark_uptodate (ce : cache_entry) : cache_entry := ce.mark CE_UPTODATE

/-- All of `src` but its name and its hash state. -/
def copy_cache_entry (dst src : cache_entry) : cache_entry :=
  { src with
    name := dst.name
    ce_flags := (src.ce_flags &&& ~~~CE_STATE_MASK) ||| (dst.ce_flags &&& CE_STATE_MASK) }

/-- The low bits of the flags tell the length of the name, as
`create_ce_flags` writes it. -/
def Named (ce : cache_entry) : Prop :=
  (ce.ce_flags &&& CE_NAMEMASK).toNat = min ce.name.length 0x0fff

instance (ce : cache_entry) : Decidable (Named ce) := by unfold Named; infer_instance

theorem Named.namelen {ce : cache_entry} (h : Named ce) : ce_namelen ce = ce.name.length := by
  unfold Named at h
  unfold ce_namelen
  rw [h, List.length_drop]
  simp only
  split <;> omega

theorem stage_lt (ce : cache_entry) : ce_stage ce < 4 := by
  unfold ce_stage CE_STAGEMASK CE_STAGESHIFT
  rw [BitVec.toNat_ushiftRight, BitVec.toNat_and, Nat.shiftRight_eq_div_pow]
  have : (12288 : BitVec 32).toNat &&& ce.ce_flags.toNat ≤ 12288 := Nat.and_le_left
  omega

/-- The stage bits are the stage, 12 bits up. -/
theorem stagemask_eq (ce : cache_entry) :
    (ce.ce_flags &&& CE_STAGEMASK).toNat = ce_stage ce * 4096 := by
  unfold ce_stage CE_STAGEMASK CE_STAGESHIFT
  rw [BitVec.and_comm, BitVec.toNat_ushiftRight, BitVec.toNat_and, Nat.shiftRight_eq_div_pow]
  have : ((12288 : BitVec 32).toNat &&& ce.ce_flags.toNat) % 2 ^ 12 = 0 := by
    rw [Nat.and_mod_two_pow]
    simp
  omega

/-! ## Flags that a mark leaves alone -/

theorem or_and_apart {f mask keep : BitVec 32} (h : mask &&& keep = 0) :
    (f ||| mask) &&& keep = f &&& keep := by
  rw [BitVec.and_or_distrib_right, h]
  simp

theorem andNot_and_apart {f mask keep : BitVec 32} (h : mask &&& keep = 0) :
    (f &&& ~~~mask) &&& keep = f &&& keep := by
  ext i hi
  have hb := congrArg (fun x => x.getLsbD i) h
  simp at hb ⊢
  grind

theorem has_mark (ce : cache_entry) {mask : BitVec 32} (h : mask ≠ 0) :
    (ce.mark mask).has mask = true := by
  unfold cache_entry.has cache_entry.mark
  rw [BitVec.and_or_distrib_right, BitVec.and_self, bne_iff_ne]
  intro h0
  exact h (BitVec.or_eq_zero_iff.mp h0).2

theorem has_clear (ce : cache_entry) (mask : BitVec 32) : (ce.clear mask).has mask = false := by
  unfold cache_entry.has cache_entry.clear
  rw [BitVec.and_assoc, BitVec.and_comm (~~~mask)]
  simp

/-- Two entries with one name, whose flags agree on the length and on the stage. -/
def SameKey (a b : cache_entry) : Prop :=
  a.name = b.name ∧ a.ce_flags &&& CE_NAMEMASK = b.ce_flags &&& CE_NAMEMASK ∧
    a.ce_flags &&& CE_STAGEMASK = b.ce_flags &&& CE_STAGEMASK

theorem sameKey_mark (ce : cache_entry) {mask : BitVec 32} (h1 : mask &&& CE_NAMEMASK = 0)
    (h2 : mask &&& CE_STAGEMASK = 0) : SameKey (ce.mark mask) ce :=
  ⟨rfl, or_and_apart h1, or_and_apart h2⟩

theorem sameKey_clear (ce : cache_entry) {mask : BitVec 32} (h1 : mask &&& CE_NAMEMASK = 0)
    (h2 : mask &&& CE_STAGEMASK = 0) : SameKey (ce.clear mask) ce :=
  ⟨rfl, andNot_and_apart h1, andNot_and_apart h2⟩

theorem SameKey.stage {a b : cache_entry} (h : SameKey a b) : ce_stage a = ce_stage b := by
  unfold ce_stage
  rw [BitVec.and_comm, h.2.2, BitVec.and_comm]

theorem SameKey.named {a b : cache_entry} (h : SameKey a b) : Named a ↔ Named b := by
  unfold Named
  rw [h.1, h.2.1]

/-! ## The order of the cache array -/

/-- The first difference of the first `n` bytes decides. -/
def memcmp : Bytes → Bytes → Nat → Ordering
  | a :: as, b :: bs, n + 1 =>
    if a < b then .lt else if b < a then .gt else memcmp as bs n
  | _, _, _ => .eq

def cache_name_compare (name1 : Bytes) (flags1 : BitVec 32) (name2 : Bytes)
    (flags2 : BitVec 32) : Ordering :=
  let len1 := (flags1 &&& CE_NAMEMASK).toNat
  let len2 := (flags2 &&& CE_NAMEMASK).toNat
  let cmp := memcmp name1 name2 (min len1 len2)
  if cmp ≠ .eq then cmp
  else if len1 < len2 then .lt
  else if len2 < len1 then .gt
  -- Compare stages
  else if (flags1 &&& CE_STAGEMASK) < (flags2 &&& CE_STAGEMASK) then .lt
  else if (flags2 &&& CE_STAGEMASK) < (flags1 &&& CE_STAGEMASK) then .gt
  else .eq

/-- What `cache_name_compare` reads of a name and its flags: the name up to
the length in the flags, and the stage bits. -/
def cache_key (name : Bytes) (flags : BitVec 32) : Bytes ×ₗ Nat :=
  toLex (name.take (flags &&& CE_NAMEMASK).toNat, (flags &&& CE_STAGEMASK).toNat)

def cache_entry.key (ce : cache_entry) : Bytes ×ₗ Nat := cache_key ce.name ce.ce_flags

theorem SameKey.key {a b : cache_entry} (h : SameKey a b) : a.key = b.key := by
  unfold cache_entry.key cache_key
  rw [h.1, h.2.1, h.2.2]

/-- `memcmp` and the lengths give the lexicographic order. -/
theorem memcmp_compares (a b : Bytes) :
    Ordering.Compares
      (if memcmp a b (min a.length b.length) ≠ .eq then memcmp a b (min a.length b.length)
        else if a.length < b.length then .lt else if b.length < a.length then .gt else .eq)
      a b := by
  induction a generalizing b with
  | nil =>
    cases b with
    | nil => exact rfl
    | cons y b => exact List.nil_lt_cons y b
  | cons x a ih =>
    cases b with
    | nil => exact List.nil_lt_cons x a
    | cons y b =>
      simp only [List.length_cons, Nat.succ_min_succ, memcmp, Nat.add_lt_add_iff_right]
      rcases lt_trichotomy x y with h | rfl | h
      · simp only [h, if_true, ne_eq, reduceCtorEq, not_false_eq_true]
        exact List.cons_lt_cons_iff.mpr (Or.inl h)
      · simp only [lt_irrefl, if_false]
        have := ih b
        revert this
        split_ifs with h1 h2 h3
        · cases hm : memcmp a b (min a.length b.length) with
          | lt => exact fun h => List.cons_lt_cons_iff.mpr (Or.inr ⟨rfl, h⟩)
          | eq => exact absurd hm h1
          | gt => exact fun h => List.cons_lt_cons_iff.mpr (Or.inr ⟨rfl, h⟩)
        · exact fun h => List.cons_lt_cons_iff.mpr (Or.inr ⟨rfl, h⟩)
        · exact fun h => List.cons_lt_cons_iff.mpr (Or.inr ⟨rfl, h⟩)
        · exact fun h => congrArg (x :: ·) h
      · simp only [h, not_lt_of_gt h, if_true, if_false, ne_eq, reduceCtorEq, not_false_eq_true]
        exact List.cons_lt_cons_iff.mpr (Or.inl h)

theorem memcmp_take (a b : Bytes) (n m1 m2 : Nat) (h1 : n ≤ m1) (h2 : n ≤ m2) :
    memcmp (a.take m1) (b.take m2) n = memcmp a b n := by
  induction n generalizing a b m1 m2 with
  | zero => simp [memcmp]
  | succ n ih =>
    obtain ⟨m1, rfl⟩ : ∃ k, m1 = k + 1 := ⟨m1 - 1, by omega⟩
    obtain ⟨m2, rfl⟩ : ∃ k, m2 = k + 1 := ⟨m2 - 1, by omega⟩
    cases a with
    | nil => simp [memcmp]
    | cons x a =>
      cases b with
      | nil => simp [memcmp]
      | cons y b =>
        simp only [List.take_succ_cons, memcmp]
        rw [ih a b m1 m2 (by omega) (by omega)]

/-- `cache_name_compare` is the order of the keys. -/
theorem cache_name_compare_compares (name1 : Bytes) (flags1 : BitVec 32) (name2 : Bytes)
    (flags2 : BitVec 32) (h1 : (flags1 &&& CE_NAMEMASK).toNat ≤ name1.length)
    (h2 : (flags2 &&& CE_NAMEMASK).toNat ≤ name2.length) :
    (cache_name_compare name1 flags1 name2 flags2).Compares
      (cache_key name1 flags1) (cache_key name2 flags2) := by
  unfold cache_name_compare cache_key
  generalize (flags1 &&& CE_NAMEMASK).toNat = len1 at *
  generalize (flags2 &&& CE_NAMEMASK).toNat = len2 at *
  have hc := memcmp_compares (name1.take len1) (name2.take len2)
  simp only [List.length_take, Nat.min_eq_left h1, Nat.min_eq_left h2] at hc
  rw [memcmp_take _ _ _ _ _ (Nat.min_le_left _ _) (Nat.min_le_right _ _)] at hc
  simp only [BitVec.lt_def]
  generalize (flags1 &&& CE_STAGEMASK).toNat = s1
  generalize (flags2 &&& CE_STAGEMASK).toNat = s2
  revert hc
  split_ifs with hm hlt hgt hs1 hs2
  · cases hmc : memcmp name1 name2 (min len1 len2) with
    | lt => exact fun h => Prod.Lex.toLex_lt_toLex.mpr (Or.inl h)
    | eq => exact absurd hmc hm
    | gt => exact fun h => Prod.Lex.toLex_lt_toLex.mpr (Or.inl h)
  · exact fun h => Prod.Lex.toLex_lt_toLex.mpr (Or.inl h)
  · exact fun h => Prod.Lex.toLex_lt_toLex.mpr (Or.inl h)
  · exact fun h => Prod.Lex.toLex_lt_toLex.mpr (Or.inr ⟨h, hs1⟩)
  · exact fun h => Prod.Lex.toLex_lt_toLex.mpr (Or.inr ⟨h.symm, hs2⟩)
  · intro h
    have hs : s1 = s2 := by omega
    have hn : name1.take len1 = name2.take len2 := h
    rw [hn, hs]
    exact rfl

end git
