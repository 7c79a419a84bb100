/-
`nova_fsync` (file.c): flushing what was written through a mapping.

The calls of `nova_flush_buffer` are collected. `start` and `end` are
`loff_t`; rounding `end` up to a cache line can leave its range. The length
is counted in an `unsigned long` and handed over as `uint32_t`.

The loop need not end, so the number of rounds is a parameter: `none` is
a loop that has not come to its end.
-/
import Themis.File

namespace Themis.Fsync

open Lib Log File

variable {al : BlockAllocator}

/-- `ENODATA`. -/
def ENODATA : Int := 61

/-- `CACHELINE_SIZE`. -/
def CACHELINE_SIZE : Nat := 64

/-- A call of `nova_flush_buffer`: the address and the length, and the
position in the file it is made for. -/
structure FlushCall where
  pos : Nat
  addr : Nat
  len : Nat
  deriving Repr, DecidableEq

/-- `start & CACHELINE_MASK`. -/
def cachelineDown (start : Nat) : Nat := start / CACHELINE_SIZE * CACHELINE_SIZE

/-- The end of the range rounded up. -/
def cachelineUp (end_ : Nat) : Nat :=
  (end_ + CACHELINE_SIZE - 1) / CACHELINE_SIZE * CACHELINE_SIZE

/-- `CACHELINE_ALIGN(end)`. -/
def cachelineAlign (end_ : Nat) : Int := loffT (cachelineUp end_)

/-- The entry for `start`, with `start` behind the hole if there is one;
`none` is `goto persist`. -/
def jumpHole (st : State al) (ino : Nat) (end_ : Int) (start : Nat) : Option (Nat × Nat) :=
  match novaGetWriteEntry st ino (start / PAGE_SIZE) with
  | some a => some (a, start)
  | none =>
    match (st.info ino).tree.gangLookup (start / PAGE_SIZE) with
    | none => none
    | some a =>
      let start := (entryAt st.nv a).pgoff * PAGE_SIZE
      if (start : Int) ≥ end_ then none else some (a, start)

/-- `avail_bytes`. -/
def availBytes (nv : Nvmm) (a start : Nat) : Nat :=
  let e := entryAt nv a
  if nv.invalid a = 0 then
    (e.numPages - (start / PAGE_SIZE - e.pgoff)) * PAGE_SIZE - start % PAGE_SIZE
  else PAGE_SIZE - start % PAGE_SIZE

/-- `nr_flush_bytes`. -/
def nrFlushBytes (nv : Nvmm) (end_ : Int) (a start : Nat) : Nat :=
  min (ulongOfInt (end_ - start)) (availBytes nv a start)

/-- The call for `nr` bytes at `start`, none for 0. -/
def flushAt (nv : Nvmm) (a start nr : Nat) : List FlushCall :=
  if nr = 0 then []
  else [⟨start, getNvmm nv a (start / PAGE_SIZE) * PAGE_SIZE + start % PAGE_SIZE, nr % 2 ^ 32⟩]

/-- The page is none of the entry. -/
def outside (nv : Nvmm) (a pgoff : Nat) : Bool :=
  pgoff < (entryAt nv a).pgoff || pgoff - (entryAt nv a).pgoff ≥ (entryAt nv a).numPages

/-- The loop of `nova_fsync`: what it returns and the calls made. -/
def fsyncLoop (st : State al) (ino : Nat) (end_ : Int) :
    Nat → Nat → List FlushCall → Option (Int × List FlushCall)
  | 0, _, _ => none
  | rounds + 1, start, calls =>
    match jumpHole st ino end_ start with
    | none => some (0, calls)
    | some (a, start) =>
      if outside st.nv a (start / PAGE_SIZE) then some (-EINVAL, calls)
      else
        let nr := nrFlushBytes st.nv end_ a start
        let calls := calls ++ flushAt st.nv a start nr
        if ((start + nr : Nat) : Int) < end_ then
          fsyncLoop st ino end_ rounds (start + nr) calls
        else some (0, calls)

/-- `nova_fsync` from `start` to `end`, inclusive; `mapped` is
`mapping_mapped`. -/
def novaFsync (st : State al) (ino : Nat) (mapped : Bool) (start end_ rounds : Nat) :
    Option (Int × List FlushCall) :=
  if !mapped then some (0, [])
  else
    let isize := (st.info ino).iSize
    let stop := if end_ + 1 > isize then isize else end_ + 1
    if isize = 0 ∨ start ≥ stop then some (-ENODATA, [])
    else fsyncLoop st ino (cachelineAlign stop) rounds (cachelineDown start) []

end Themis.Fsync
