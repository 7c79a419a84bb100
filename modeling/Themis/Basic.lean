/-
Constants and C conversions shared by every part of the model
(nova_def.h, nova.h).

Unsigned quantities are `Nat`; where the code converts between widths
or signs and something can be lost, the conversion is explicit
(`intOfUlong`, `ulongOfInt`). Error returns are the negated kernel
errno values.
-/
import Mathlib.Algebra.Ring.Int.Defs
import Mathlib.Algebra.Ring.Nat
import Mathlib.Data.Int.Basic

namespace Themis

-- === errno

/-- Error numbers, as the kernel has them. -/
def EIO : Int := 5
/-- Out of memory. -/
def ENOMEM : Int := 12
/-- Permission denied. -/
def EACCES : Int := 13
/-- Bad address. -/
def EFAULT : Int := 14
/-- The name exists. -/
def EEXIST : Int := 17
/-- Invalid argument. -/
def EINVAL : Int := 22
/-- No space left. -/
def ENOSPC : Int := 28
/-- Too many links. -/
def EMLINK : Int := 31
/-- Name too long. -/
def ENAMETOOLONG : Int := 36
/-- Directory not empty. -/
def ENOTEMPTY : Int := 39

-- === geometry

/-- `PAGE_SIZE`, also `NOVA_DEF_BLOCK_SIZE_4K`. -/
def PAGE_SIZE : Nat := 4096

/-- `NOVA_LINK_MAX`: the most links an inode may have. -/
def NOVA_LINK_MAX : Nat := 32000

/-- `RESERVED_BLOCKS`: super block and reserved inodes, journal
pointers, inode table pointers. -/
def RESERVED_BLOCKS : Nat := 3

/-- `SHARED_CPU`, the index that selects the shared free list. -/
def SHARED_CPU : Nat := 65536

/-- `NOVA_BLOCK_TYPE_*`. -/
inductive BlockType where
  | blk4K | blk2M | blk1G
  deriving Repr, DecidableEq

/-- `nova_get_numblocks`: the 4K blocks of one block of a type. -/
def novaGetNumblocks : BlockType → Nat
  | .blk4K => 1
  | .blk2M => 512
  | .blk1G => 0x40000

/-- `enum alloc_type`. -/
inductive AllocType where
  | log | data
  deriving Repr, DecidableEq

-- === conversions

/-- Conversion of an `unsigned long` to `int` (two's complement). -/
def intOfUlong (x : Nat) : Int := (x : Int).bmod (2 ^ 32)

/-- Conversion of a negative or positive `int`/`long` to
`unsigned long`. -/
def ulongOfInt (x : Int) : Nat := (x % 2 ^ 64).toNat

/-- Conversion of an `int` to `unsigned int`. -/
def uintOfInt (x : Int) : Nat := (x % 2 ^ 32).toNat

/-- A sum as `loff_t`. -/
def loffT (x : Int) : Int := x.bmod (2 ^ 64)

/-- `x - 1` on `unsigned long`. -/
def ulongPred (x : Nat) : Nat := if x = 0 then 2 ^ 64 - 1 else x - 1

/-- `x + 1` on `unsigned long`. -/
def ulongSucc (x : Nat) : Nat := if x = 2 ^ 64 - 1 then 0 else x + 1

/-- One less, where there is one less. -/
theorem ulongPred_of_pos {x : Nat} (h : 0 < x) : ulongPred x = x - 1 :=
  if_neg (Nat.ne_of_gt h)

/-- Up again after a step down, also from 0. -/
theorem ulongSucc_ulongPred {x : Nat} (h : x < 2 ^ 64) : ulongSucc (ulongPred x) = x := by
  unfold ulongSucc ulongPred
  by_cases h0 : x = 0
  · rw [if_pos h0, if_pos rfl, h0]
  · rw [if_neg h0, if_neg (by omega)]
    omega

/-- The largest `int`. -/
def INT_MAX : Nat := 2147483647

/-- What fits an `int` is not changed. -/
theorem intOfUlong_of_le {x : Nat} (h : x ≤ INT_MAX) : intOfUlong x = x := by
  unfold intOfUlong
  unfold INT_MAX at h
  rw [Int.bmod_def]
  omega

end Themis
