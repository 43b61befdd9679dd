-- `normalize_path_copy` of `path.c`, which writes a path without the components that say nothing,
-- over itself or elsewhere, and what the path is by its components.
import Git.CacheEntry
import Git.Lib.Fields
import Git.Lib.ByteMemory

namespace git.normalize_path

open byte_memory

/-! ## The function

Without drive letters. Each loop has `turns`. -/

/-- `while (is_dir_sep(*src)) src++`. -/
def eat_slashes (mem : memory) : Nat → Nat → Nat
  | 0, src => src
  | turns + 1, src => if mem src = SLASH then eat_slashes mem turns (src + 1) else src

/-- `while ((c = *src++) != '\0' && !is_dir_sep(c)) *dst++ = c`: the memory, `dst`, `src` and `c`
behind it. -/
def copy_component : Nat → memory → Nat → Nat → memory × Nat × Nat × UInt8
  | 0, mem, dst, src => (mem, dst, src, 0)
  | turns + 1, mem, dst, src =>
    let c := mem src
    if c ≠ 0 ∧ c ≠ SLASH then copy_component turns (write mem dst c) (dst + 1) (src + 1)
    else (mem, dst, src + 1, c)

/-- `while (dst0 < dst && dst[-1] != '/') dst--`. -/
def strip_component (mem : memory) (dst0 : Nat) : Nat → Nat
  | 0 => 0
  | dst + 1 =>
    if dst0 < dst + 1 ∧ mem dst ≠ SLASH then strip_component mem dst0 dst else dst + 1

/-- The loop over the components: the value that is returned, and the memory. -/
def component_loop (dst0 : Nat) : Nat → memory → Nat → Nat → Int × memory
  | 0, mem, _, _ => (0, mem)
  | turns + 1, mem, dst, src =>
    -- (2) "./"
    if mem src = 46 ∧ mem (src + 1) = SLASH then
      component_loop dst0 turns mem dst (eat_slashes mem turns (src + 2))
    -- (3) ".." and ends, (4) "../"
    else if mem src = 46 ∧ mem (src + 1) = 46 ∧ (mem (src + 2) = 0 ∨ mem (src + 2) = SLASH) then
      let src := if mem (src + 2) = 0 then src + 2 else eat_slashes mem turns (src + 3)
      let dst := dst - 1
      if dst ≤ dst0 then (-1, mem)
      else component_loop dst0 turns mem (strip_component mem dst0 dst) src
    else
      -- (1) "." and ends
      let src := if mem src = 46 ∧ mem (src + 1) = 0 then src + 1 else src
      let (mem, dst, src, c) := copy_component (turns + 1) mem dst src
      if c = SLASH then
        let mem := write mem dst SLASH
        component_loop dst0 turns mem (dst + 1) (eat_slashes mem turns src)
      else (0, write mem dst 0)

def normalize_path_copy (turns : Nat) (mem : memory) (dst src : Nat) : Int × memory :=
  if mem src = SLASH then
    let mem := write mem dst SLASH
    component_loop dst turns mem (dst + 1) (eat_slashes mem turns src)
  else component_loop dst turns mem dst src

/-! ## The path by its components -/

def components (path : Bytes) : List Bytes := path.splitOn SLASH

def DOT : Bytes := [46]
def DOT_DOT : Bytes := [46, 46]

/-- The components that are left, the last one first. Nothing where `..` has none to take. -/
def fold_components : List Bytes → List Bytes → Option (List Bytes)
  | stack, [] => some stack
  | stack, c :: path =>
    if c = [] ∨ c = DOT then fold_components stack path
    else if c = DOT_DOT then
      match stack with
      | [] => none
      | _ :: stack => fold_components stack path
    else fold_components (c :: stack) path

/-- The path ends in a slash or in a component that is dropped. -/
def ends_open (path : Bytes) : Bool :=
  (components path).getLast?.any fun c => c = [] ∨ c = DOT ∨ c = DOT_DOT

/-- The components that are left with single slashes between them, with the slash in front and,
if the end is open, one behind them. -/
def normal (path : Bytes) : Option Bytes :=
  (fold_components [] (components path)).map fun stack =>
    (if path.head? = some SLASH then [SLASH] else []) ++ [SLASH].intercalate stack.reverse ++
      if stack ≠ [] ∧ ends_open path then [SLASH] else []

example : normal [47, 97, 47, 46, 47, 98, 47, 46, 46] = some [47, 97, 47] := by decide

end git.normalize_path
