/-
The free lists rebuilt at recovery (bbuild.c).

The scan of the logs leaves one bitmap of used blocks for each CPU.
`nova_build_blocknode_map` puts the bits of the 2M and 1G maps into the
4K maps, merges these into one, sets the reserved blocks and turns the
runs of zero bits into nodes of the free lists, list by list.

# Outside a bitmap

A bitmap has `bitmap_size` bytes. A store outside them is `none`; a read
outside them gives whatever the memory behind the bitmap holds, which is
part of the argument (`bitmap` is defined on all numbers).

# What `none` means

A store outside a bitmap, or a loop that has not ended after the given
number of rounds. Range nodes are assumed to be allocated, as in
`nova_init_blockmap`.
-/
import Themis.Balloc
import Themis.Lib.BitRuns

namespace Themis.BlockMap

open Lib Balloc

-- === the bitmaps

/-- `struct single_scan_bm`. -/
structure SingleScanBm where
  bitmapSize : Nat
  bitmap : Nat → Bool

/-- `struct scan_bitmap`. -/
structure ScanBitmap where
  scanBm4K : SingleScanBm
  scanBm2M : SingleScanBm
  scanBm1G : SingleScanBm

/-- Logarithm of a 4 KB block. -/
def PAGE_SHIFT : Nat := 12
/-- Logarithm of a 2 MB block. -/
def PAGE_SHIFT_2M : Nat := 21
/-- Logarithm of a 1 GB block. -/
def PAGE_SHIFT_1G : Nat := 30

/-- The bytes of a bitmap with one bit for `2 ^ shift` bytes of the
device. -/
def bitmapBytes (initsize shift : Nat) : Nat := initsize >>> (shift + 3)

/-- A bitmap as `kzalloc` leaves it, with the memory behind it. -/
def zeroBitmap (bytes : Nat) (behind : Nat → Bool) : SingleScanBm :=
  { bitmapSize := bytes
    bitmap := fun b => if b < bytes * 8 then false else behind b }

/-- The bitmaps `alloc_bm` allocates for a CPU. -/
def allocBm (initsize : Nat) (behind : Nat → Bool) : ScanBitmap :=
  { scanBm4K := zeroBitmap (bitmapBytes initsize PAGE_SHIFT) behind
    scanBm2M := zeroBitmap (bitmapBytes initsize PAGE_SHIFT_2M) behind
    scanBm1G := zeroBitmap (bitmapBytes initsize PAGE_SHIFT_1G) behind }

/-- `set_scan_bm`. -/
def setScanBm (bit : Nat) (bm : SingleScanBm) : Option SingleScanBm :=
  if bit < bm.bitmapSize * 8 then
    some { bm with bitmap := Function.update bm.bitmap bit true }
  else none

/-- `find_next_bit`. -/
def findNextBit (bitmap : Nat → Bool) (size offset : Nat) : Nat :=
  findNext bitmap true size offset

/-- `find_next_zero_bit`. -/
def findNextZeroBit (bitmap : Nat → Bool) (size offset : Nat) : Nat :=
  findNext bitmap false size offset

/-- The bits from `low` up to `high` set one after the other. -/
def setRange (low high : Nat) (bm : SingleScanBm) : Option SingleScanBm :=
  (List.range' low (high - low)).foldlM (fun bm i => setScanBm i bm) bm

/-- The loop of `nova_update_4K_map`. -/
def update4KLoop (bitmap : Nat → Bool) (bsize scale : Nat) :
    Nat → Nat → SingleScanBm → Option SingleScanBm
  | 0, _, _ => none
  | rounds + 1, next, bm =>
    let low := findNextBit bitmap bsize next
    if low = bsize then some bm
    else
      let next := findNextZeroBit bitmap bsize low
      match setRange (low <<< scale) (next <<< scale) bm with
      | none => none
      | some bm =>
        if next = bsize then some bm
        else update4KLoop bitmap bsize scale rounds next bm

/-- `nova_update_4K_map`. -/
def novaUpdate4KMap (bm from_ : SingleScanBm) (scale rounds : Nat) : Option SingleScanBm :=
  update4KLoop from_.bitmap (from_.bitmapSize * 8) scale rounds 0 bm

-- === the free lists

/-- `nova_insert_blocknode_map`. -/
def novaInsertBlocknodeMap (rb : RbLib RangeNode.addr) (s : NovaSbInfo)
    (cpuid low high : Nat) (oom : Bool) : Int × NovaSbInfo :=
  let numBlocks := high - low + 1
  match novaAllocBlocknode s oom with
  | (none, s) => (-ENOMEM, s)
  | (some blknode, s) =>
    let fl := novaGetFreeList s cpuid
    match novaInsertBlocktree rb fl.blockFreeTree
        { addr := blknode, rangeLow := low, rangeHigh := high } with
    | none => (-EINVAL, s)
    | some tree =>
      (0, setFreeList s cpuid
        { fl with
          blockFreeTree := tree
          firstNode := if fl.firstNode = none then some blknode else fl.firstNode
          numBlocknode := fl.numBlocknode + 1
          numFreeBlocks := fl.numFreeBlocks + numBlocks })

/-- The list behind the one just scanned. -/
def nextCpuid (s : NovaSbInfo) (cpuid : Nat) : Nat :=
  if cpuid = s.cpus - 1 then SHARED_CPU else cpuid + 1

/-- The end of a list's block interval, as the scan computes it. -/
def listEnd (fl : FreeList) : Nat := ulongSucc fl.blockEnd

/-- The loop of `__nova_build_blocknode_map`. -/
def buildLoop (rb : RbLib RangeNode.addr) (bitmap : Nat → Bool) (bsize scale : Nat) :
    Nat → NovaSbInfo → (cpuid start stop : Nat) → Option NovaSbInfo
  | 0, _, _, _, _ => none
  | rounds + 1, s, cpuid, start, stop =>
    let low := findNextZeroBit bitmap stop start
    if low = bsize then some s
    else if low = stop then
      let cpuid := nextCpuid s cpuid
      let fl := novaGetFreeList s cpuid
      buildLoop rb bitmap bsize scale rounds s cpuid fl.blockStart (listEnd fl)
    else
      let next := findNextBit bitmap stop low
      -- an insertion that fails is reported and passed over
      let s := (novaInsertBlocknodeMap rb s cpuid (low <<< scale)
        ((next <<< scale) - 1) false).2
      if next = bsize then some s
      else if next = stop then
        let cpuid := nextCpuid s cpuid
        let fl := novaGetFreeList s cpuid
        buildLoop rb bitmap bsize scale rounds s cpuid fl.blockStart (listEnd fl)
      else buildLoop rb bitmap bsize scale rounds s cpuid next stop

/-- `__nova_build_blocknode_map`. -/
def buildBlocknodeMap (rb : RbLib RangeNode.addr) (s : NovaSbInfo)
    (bitmap : Nat → Bool) (bsize scale rounds : Nat) : Option NovaSbInfo :=
  let fl := novaGetFreeList s 0
  buildLoop rb bitmap bsize scale rounds s 0 fl.blockStart (listEnd fl)

/-- The maps of one CPU put into its 4K map. -/
def update4K (rounds : Nat) (bm : ScanBitmap) : Option SingleScanBm := do
  let bm4K ← novaUpdate4KMap bm.scanBm4K bm.scanBm2M (PAGE_SHIFT_2M - 12) rounds
  novaUpdate4KMap bm4K bm.scanBm1G (PAGE_SHIFT_1G - 12) rounds

/-- `nova_build_blocknode_map`, with the bitmaps the scan left. -/
def novaBuildBlocknodeMap (rb : RbLib RangeNode.addr) (s : NovaSbInfo)
    (initsize : Nat) (globalBm : List ScanBitmap) (behind : Nat → Bool) (rounds : Nat) :
    Option NovaSbInfo := do
  let bms ← globalBm.mapM (update4K rounds)
  let finalBm := zeroBitmap (bitmapBytes initsize PAGE_SHIFT) behind
  -- merge per-CPU bms to the final single bm
  let finalBm := { finalBm with
    bitmap := fun b => finalBm.bitmap b || bms.any fun bm => bm.bitmap b }
  -- set initial used pages
  let finalBm ← setRange 0 s.reservedBlocks finalBm
  buildBlocknodeMap rb s finalBm.bitmap (finalBm.bitmapSize * 8) (PAGE_SHIFT - 12) rounds

end Themis.BlockMap
