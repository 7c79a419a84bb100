/-
`SEEK_DATA` and `SEEK_HOLE`: `nova_lookup_hole_in_range` and
`nova_find_region` (inode.c).

The blocks between the offset and what is searched are counted in an
`unsigned long`, but the count is returned as an `int`. Files have blocks
of 4 KiB (`data_bits` is 12). `i_blocks` of the VFS inode is a parameter;
the offset comes in as a position and goes out as a `loff_t`.
-/
import Themis.File

namespace Themis.Seek

open Lib Log File

variable {al : BlockAllocator}

/-- `ENXIO`. -/
def ENXIO : Int := 6

/-- The variables of the loop in `nova_lookup_hole_in_range`. -/
structure Scan where
  pgoff : Nat
  blocks : Nat
  dataFound : Bool
  holeFound : Bool
  deriving Repr, DecidableEq

/-- Where the loop goes on from a page that is not mapped. -/
def pastHole (st : State al) (ino last pgoff : Nat) : Nat :=
  match (st.info ino).tree.gangLookup pgoff with
  | none => pgoff + 1
  | some a =>
    let next := max (pgoff + 1) (entryAt st.nv a).pgoff
    if next > last then last + 1 else next

/-- One round of the loop ends at `pgoff`. -/
def Scan.moveTo (s : Scan) (pgoff : Nat) (hole : Bool) : Scan :=
  { s with
    pgoff := pgoff
    blocks := if !s.holeFound || !hole then s.blocks + (pgoff - s.pgoff) else s.blocks }

/-- The loop of `nova_lookup_hole_in_range`. -/
def lookupLoop (st : State al) (ino last : Nat) (hole : Bool) : Nat → Scan → Scan
  | 0, s => s
  | rounds + 1, s =>
    if s.pgoff ≤ last then
      match (st.info ino).tree.get s.pgoff with
      | some _ =>
        let s := { s with dataFound := true }
        if !hole then s
        else lookupLoop st ino last hole rounds (s.moveTo (s.pgoff + 1) hole)
      | none =>
        let s := { s with holeFound := true }
        lookupLoop st ino last hole rounds
          (s.moveTo (pastHole st ino last s.pgoff) hole)
    else s

/-- `nova_lookup_hole_in_range`: the value returned and the two flags.
Every round moves `pgoff` on, so there are at most as many rounds as
pages. -/
def novaLookupHoleInRange (st : State al) (ino first last : Nat) (hole : Bool) :
    Int × Bool × Bool :=
  let s := lookupLoop st ino last hole (last + 1 - first) ⟨first, 0, false, false⟩
  (intOfUlong s.blocks, s.dataFound, s.holeFound)

/-- The new offset at the end of `nova_find_region`. -/
def moveOffset (offset blocks : Nat) : Int :=
  let offsetInBlock := offset % PAGE_SIZE
  if offsetInBlock ≠ 0 then
    loffT (offset + (ulongPred blocks * PAGE_SIZE % 2 ^ 64 + (PAGE_SIZE - offsetInBlock) : Nat))
  else loffT (offset + (blocks * PAGE_SIZE % 2 ^ 64 : Nat))

/-- The cases of `nova_find_region` behind the scan. -/
def regionFrom (iSize offset : Nat) (hole : Bool) (count : Int) (dataFound holeFound : Bool) :
    Int × Int :=
  let blocks := ulongOfInt count
  if !hole && !dataFound && holeFound then (- ENXIO, offset)
  else if dataFound && !holeFound then (0, if hole then iSize else offset)
  else if hole && holeFound && blocks = 0 then (0, if !dataFound then iSize else offset)
  else (0, moveOffset offset blocks)

/-- `nova_find_region`: what it returns, and the offset. -/
def novaFindRegion (st : State al) (ino iBlocks offset : Nat) (hole : Bool) : Int × Int :=
  let i := st.info ino
  if offset ≥ i.iSize then (- ENXIO, offset)
  else if iBlocks = 0 ∨ i.sihSize = 0 then
    (if hole then i.iSize else - ENXIO, offset)
  else
    let r := novaLookupHoleInRange st ino (offset / PAGE_SIZE) (i.iSize / PAGE_SIZE) hole
    regionFrom i.iSize offset hole r.1 r.2.1 r.2.2

end Themis.Seek
