-- The svndiff0 format: what the bytes of a delta stand for, and which text the windows make of
-- a preimage.
import Git.Quote

namespace git.svndiff

open git.quote

/-! ## Integers -/

/-- Digits of seven bits behind the value `rv`: high digits, and a low one at the end. -/
inductive Digits : Nat → Bytes → Nat → Prop
  | low {rv : Nat} {c : UInt8} : c.toNat < 128 → Digits rv [c] (rv * 128 + c.toNat)
  | high {rv n : Nat} {c : UInt8} {ds : Bytes} : 128 ≤ c.toNat →
      Digits (rv * 128 + c.toNat % 128) ds n → Digits rv (c :: ds) n

theorem Digits.le {rv n : Nat} {ds : Bytes} (h : Digits rv ds n) : rv ≤ n := by
  induction h with
  | low _ => omega
  | high _ _ ih => omega

theorem Digits.ne_nil {rv n : Nat} {ds : Bytes} (h : Digits rv ds n) : ds ≠ [] := by
  cases h with
  | low _ => exact List.cons_ne_nil _ _
  | high _ _ => exact List.cons_ne_nil _ _

/-- An integer below 2^63. -/
def Int63 (ds : Bytes) (n : Nat) : Prop := Digits 0 ds n ∧ n < 2 ^ 63

/-! ## Instructions -/

inductive instruction where
  | copyfrom_source (offset nbytes : Nat)
  | copyfrom_target (offset nbytes : Nat)
  | copyfrom_data (nbytes : Nat)

/-- The selector with its operand, packed or behind it. -/
inductive Operand : Nat → Bytes → Nat → Prop
  | packed {c : UInt8} : c.toNat % 64 ≠ 0 → Operand (c.toNat / 64) [c] (c.toNat % 64)
  | int {c : UInt8} {ds : Bytes} {n : Nat} : c.toNat % 64 = 0 → Int63 ds n →
      Operand (c.toNat / 64) (c :: ds) n

/-- What a selector and its operand ask for, with the offset behind them. -/
inductive Operation : Nat → Nat → Bytes → instruction → Prop
  | source {ds : Bytes} {nbytes offset : Nat} : Int63 ds offset →
      Operation 0 nbytes ds (.copyfrom_source offset nbytes)
  | target {ds : Bytes} {nbytes offset : Nat} : Int63 ds offset →
      Operation 1 nbytes ds (.copyfrom_target offset nbytes)
  | data {nbytes : Nat} : Operation 2 nbytes [] (.copyfrom_data nbytes)

inductive Instruction : Bytes → instruction → Prop
  | mk {selector nbytes : Nat} {bs ds : Bytes} {i : instruction} : Operand selector bs nbytes →
      Operation selector nbytes ds i → Instruction (bs ++ ds) i

inductive Instructions : Bytes → List instruction → Prop
  | nil : Instructions [] []
  | cons {bs rest : Bytes} {i : instruction} {is : List instruction} : Instruction bs i →
      Instructions rest is → Instructions (bs ++ rest) (i :: is)

/-! ## What instructions make -/

/-- The text from `offset` on, begun again and again. -/
def repeated (out : Bytes) (offset nbytes : Nat) : Bytes :=
  (List.range nbytes).map fun i => out.getD (offset + i % (out.length - offset)) 0

/-- One instruction, from the inline data used so far and the target so far. -/
inductive Step (view data : Bytes) : Nat × Bytes → instruction → Nat × Bytes → Prop
  | source {used offset nbytes : Nat} {out : Bytes} : offset + nbytes ≤ view.length →
      Step view data (used, out) (.copyfrom_source offset nbytes)
        (used, out ++ (view.drop offset).take nbytes)
  | target {used offset nbytes : Nat} {out : Bytes} : offset < out.length →
      Step view data (used, out) (.copyfrom_target offset nbytes)
        (used, out ++ repeated out offset nbytes)
  | data {used nbytes : Nat} {out : Bytes} : used + nbytes ≤ data.length →
      Step view data (used, out) (.copyfrom_data nbytes)
        (used + nbytes, out ++ (data.drop used).take nbytes)

inductive Run (view data : Bytes) : Nat × Bytes → List instruction → Nat × Bytes → Prop
  | nil {s : Nat × Bytes} : Run view data s [] s
  | cons {s t u : Nat × Bytes} {i : instruction} {is : List instruction} :
      Step view data s i t → Run view data t is u → Run view data s (i :: is) u

/-- The instructions of a section make `out` of the source view and all of the inline data. -/
def Makes (view instructions data out : Bytes) : Prop :=
  ∃ is, Instructions instructions is ∧ Run view data (0, []) is (data.length, out)

/-! ## Windows -/

structure window where
  off : Nat
  len : Nat
  out_len : Nat
  instructions : Bytes
  data : Bytes

/-- What follows the source view. -/
inductive Sections : Bytes → window → Prop
  | mk {out_ds insns_ds data_ds : Bytes} {w : window} : Int63 out_ds w.out_len →
      Int63 insns_ds w.instructions.length → Int63 data_ds w.data.length →
      Sections (out_ds ++ insns_ds ++ data_ds ++ w.instructions ++ w.data) w

inductive Window : Bytes → window → Prop
  | mk {off_ds len_ds bs : Bytes} {w : window} : Int63 off_ds w.off → Int63 len_ds w.len →
      Sections bs w → Window (off_ds ++ len_ds ++ bs) w

inductive Windows : Bytes → List window → Prop
  | nil : Windows [] []
  | cons {bs rest : Bytes} {w : window} {ws : List window} : Window bs w → Windows rest ws →
      Windows (bs ++ rest) (w :: ws)

/-- The target of a window whose source view lies in the preimage. -/
structure Target (preimage : Bytes) (w : window) (out : Bytes) : Prop where
  inside : w.off + w.len ≤ preimage.length
  makes : Makes ((preimage.drop w.off).take w.len) w.instructions w.data out
  length : out.length = w.out_len

/-- The targets of windows one after the other, none of whose views slides left. -/
inductive Targets (preimage : Bytes) : Nat → Nat → List window → Bytes → Prop
  | nil {off stop : Nat} : Targets preimage off stop [] []
  | cons {off stop : Nat} {w : window} {ws : List window} {out rest : Bytes} : off ≤ w.off →
      stop ≤ w.off + w.len → Target preimage w out →
      Targets preimage w.off (w.off + w.len) ws rest →
      Targets preimage off stop (w :: ws) (out ++ rest)

/-- The delta makes `out` of the preimage. -/
def Applies (preimage delta out : Bytes) : Prop :=
  ∃ bs ws, delta = [83, 86, 78, 0] ++ bs ∧ Windows bs ws ∧ Targets preimage 0 0 ws out

end git.svndiff
