/-
The scan of a file at recovery (bbuild.c): which blocks a regular file
uses, read off its log without building the tree.

`nova_traverse_file_inode_log` goes over the log once for every window of
`MAX_PGOFF` pages. A ring array holds the block of each page of the
window; at the end of a pass its blocks are marked in a bitmap and the
array is cleared for the next window or the next inode. The pages of the
log are marked in the first pass.

# What `none` means

As in the other readers of a log, `none` is a `BUG`, an access through
NULL, or a loop that does not end.
-/
import Themis.File

namespace Themis.Traverse

open Log File

variable {al : BlockAllocator}

/-- Pages of the file in one window. -/
def MAX_PGOFF : Nat := 262144

/-- `set_bm` for blocks of 4 KiB. -/
def setBm (bm : Nat → Bool) (bit : Nat) : Nat → Bool := Function.update bm bit true

/-- What a pass works on: the ring array, the bitmap and `sih->i_size`. -/
structure Vars where
  ring : Nat → Nat
  bm : Nat → Bool
  iSize : Nat

-- === the ring array

/-- `nova_set_ring_array`. -/
def novaSetRingArray (ring : Nat → Nat) (e : FileWriteEntry) (base : Nat) :
    Nat → Nat :=
  let start := if e.pgoff < base then base else e.pgoff
  let stop :=
    if e.pgoff + e.numPages > base + MAX_PGOFF then base + MAX_PGOFF
    else e.pgoff + e.numPages
  (List.range' start (stop - start)).foldl
    (fun ring pgoff =>
      Function.update ring (pgoff - base) (e.block + pgoff - e.pgoff)) ring

/-- The pages that `nova_ring_setattr_entry` cuts off. -/
def ringCut (ring : Nat → Nat) (base first last : Nat) : Nat → Nat :=
  let first := if first < base then base else first
  let last :=
    if last > base + MAX_PGOFF - 1 then base + MAX_PGOFF - 1 else last
  (List.range' first (last + 1 - first)).foldl
    (fun ring pgoff => Function.update ring (pgoff - base) 0) ring

/-- `nova_ring_setattr_entry`. -/
def novaRingSetattrEntry (v : Vars) (e : SetattrEntry) (base : Nat) : Vars :=
  let first := pagesFor e.size
  let last := if v.iSize > 0 then (v.iSize - 1) / PAGE_SIZE else 0
  { v with
    ring :=
      if v.iSize > e.size then
        if first > last then v.ring else ringCut v.ring base first last
      else v.ring
    iSize := e.size }

/-- One page of `nova_set_file_bm`. -/
def markPage (v : (Nat → Nat) × (Nat → Bool)) (pgoff : Nat) :
    (Nat → Nat) × (Nat → Bool) :=
  let nvmm := v.1 pgoff
  if nvmm ≠ 0 then (Function.update v.1 pgoff 0, setBm v.2 nvmm) else v

/-- `nova_set_file_bm`. -/
def novaSetFileBm (ring : Nat → Nat) (bm : Nat → Bool) (base lastBlocknr : Nat) :
    (Nat → Nat) × (Nat → Bool) :=
  let last :=
    if lastBlocknr ≥ base + MAX_PGOFF then MAX_PGOFF - 1 else lastBlocknr - base
  (List.range (last + 1)).foldl markPage (ring, bm)

-- === one pass

/-- The entry at `a`, with the step to the next one. An entry of unknown
type is reported and then taken for a write entry. -/
def traverseEntry (nv : Nvmm) (base a : Nat) (v : Vars) : Vars × Nat :=
  match nv.slot a with
  | .setAttr e => (novaRingSetattrEntry v e base, 32)
  | .linkChange _ => (v, 32)
  | _ =>
    let e := entryAt nv a
    ({ v with
      ring :=
        if e.numPages ≠ nv.invalid a ∧ e.pgoff < base + MAX_PGOFF ∧
            e.pgoff + e.numPages > base then
          novaSetRingArray v.ring e base
        else v.ring
      iSize := e.size }, 40)

/-- The loop over the entries. Pages of the log are marked as the loop
gets to them, in the first pass only. -/
def traverseLoop (nv : Nvmm) (tail base : Nat) : Nat → Nat → Vars → Option Vars
  | 0, _, _ => none
  | rounds + 1, curr, v =>
    if curr = tail then some v
    else if curr = 0 then none
    else
      let mark : Bool := gotoNextPage nv curr && base == 0
      let curr := if gotoNextPage nv curr then nextLogPage nv curr else curr
      -- the page is not aligned
      if mark ∧ curr % PAGE_SIZE ≠ 0 then none
      else
        let v := if mark then { v with bm := setBm v.bm (curr / PAGE_SIZE) } else v
        if curr = 0 then none
        else
          let r := traverseEntry nv base curr v
          traverseLoop nv tail base rounds (curr + r.2) r.1

/-- The pages behind the tail page. -/
def markRest (nv : Nvmm) : Nat → Nat → (Nat → Bool) → Option (Nat → Bool)
  | 0, _, _ => none
  | rounds + 1, curr, bm =>
    let next := nv.next curr
    if next = 0 then some bm
    else if next % PAGE_SIZE ≠ 0 then none
    else markRest nv rounds next (setBm bm (next / PAGE_SIZE))

/-- One pass over the log up to the blocks of the window. -/
def traversePass (st : State al) (ino base : Nat) (ring : Nat → Nat)
    (bm : Nat → Bool) : Option Vars :=
  let head := st.nv.logHead ino
  let tail := st.nv.logTail ino
  if base = 0 then
    if head % PAGE_SIZE ≠ 0 then none
    else do
      let v ← traverseLoop st.nv tail base (walkLimit al) head
        ⟨ring, setBm bm (head / PAGE_SIZE), 0⟩
      let bm ← markRest st.nv (pageLimit al) (blockOff tail) v.bm
      return { v with bm := bm }
  else traverseLoop st.nv tail base (walkLimit al) head ⟨ring, bm, 0⟩

-- === the windows

/-- The passes from the window at `base` on, `again` in the source. -/
def traverseWindows (st : State al) (ino : Nat) : Nat → Nat → (Nat → Nat) →
    (Nat → Bool) → Option ((Nat → Nat) × (Nat → Bool))
  | 0, _, _, _ => none
  | rounds + 1, base, ring, bm =>
    if st.nv.logHead ino = 0 ∧ st.nv.logTail ino = 0 then some (ring, bm)
    else
      match traversePass st ino base ring bm with
      | none => none
      | some v =>
        if v.iSize = 0 then some (v.ring, v.bm)
        else
          let lastBlocknr := (v.iSize - 1) / PAGE_SIZE
          let r := novaSetFileBm v.ring v.bm base lastBlocknr
          if lastBlocknr ≥ base + MAX_PGOFF then
            traverseWindows st ino rounds (base + MAX_PGOFF) r.1 r.2
          else some r

/-- `nova_traverse_file_inode_log`, with a bound on its passes: the ring
array and the bitmap it leaves. -/
def novaTraverseFileInodeLog (st : State al) (ino rounds : Nat) (ring : Nat → Nat)
    (bm : Nat → Bool) : Option ((Nat → Nat) × (Nat → Bool)) :=
  traverseWindows st ino rounds 0 ring bm

end Themis.Traverse
