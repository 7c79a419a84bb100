/-
The range lists that an unmount leaves for the next mount (bbuild.c).

The free ranges of the block lists and the ranges of inode numbers in
use are saved as logs of sixteen-byte entries, 254 to a page. The CPU of
an inode range is packed into the top byte of its low end. At the next
mount `nova_can_skip_full_scan` loads both logs into empty trees and
gives their pages back; if it cannot, a full scan follows.

# The device

Of the device only the log pages matter: the entry at an address, and
the `next_page` in the tail of a page. Entries start at multiples of
sixteen and end before the tail, so they never share a byte with another
entry or with a tail.

# What `none` means

An access through a NULL pointer or in front of an array, a division by
zero, or a loop that has not ended after the given number of rounds. Range
nodes are assumed to be allocated.
-/
import Themis.InodeList
import Themis.Log

namespace Themis.RangeLog

open Lib Balloc InodeList
open Log (isLastEntry blockOff entryLoc LAST_ENTRY)

-- === the log pages

/-- `sizeof(struct nova_range_node_lowhigh)`. -/
def ENTRY_SIZE : Nat := 16

/-- `RANGENODE_PER_PAGE`. -/
def RANGENODE_PER_PAGE : Nat := 254

/-- `CPUID_MASK`. -/
def CPUID_MASK : Nat := 0xff00000000000000

/-- The log pages: `range_low` and `range_high` of the entry at an
address, and the next page of a page. -/
structure RangeMem where
  entry : Nat → Nat × Nat
  nextPage : Nat → Nat

/-- `next_log_page`. -/
def nextLogPage (m : RangeMem) (p : Nat) : Nat := m.nextPage (blockOff p)

-- === saving

/-- `range_low` as it is stored. -/
def packLow (low cpuid : Nat) : Nat :=
  if cpuid ≠ 0 then low ||| (cpuid <<< 56) % 2 ^ 64 else low

/-- The log has no room for another entry: "inode log reaches end?". -/
def logReachesEnd (m : RangeMem) (tail : Nat) : Bool :=
  tail == 0 || (isLastEntry tail ENTRY_SIZE && nextLogPage m tail == 0)

/-- `nova_append_range_node_entry`: where the entry went. -/
def novaAppendRangeNodeEntry (m : RangeMem) (curr : RangeNode) (tail cpuid : Nat) :
    Nat × RangeMem :=
  if logReachesEnd m tail then (tail, m)
  else
    let currP := if isLastEntry tail ENTRY_SIZE then nextLogPage m tail else tail
    (currP, { m with
      entry := Function.update m.entry currP (packLow curr.rangeLow cpuid, curr.rangeHigh) })

/-- Ranges appended one after the other, each with its CPU: the new tail
and the pages. -/
def appendAll : List (RangeNode × Nat) → RangeMem → Nat → Nat × RangeMem
  | [], m, tail => (tail, m)
  | (curr, cpuid) :: rest, m, tail =>
    let r := novaAppendRangeNodeEntry m curr tail cpuid
    appendAll rest r.2 (r.1 + ENTRY_SIZE)

/-- `nova_save_range_nodes_to_log`: the nodes in increasing order. They
are erased on the way, and the tree is empty afterwards. -/
def novaSaveRangeNodesToLog (m : RangeMem) (tree : RbTree RangeNode)
    (tempTail cpuid : Nat) : Nat × RangeMem :=
  appendAll (tree.toList.map fun n => (n, cpuid)) m tempTail

/-- The trees of the CPUs saved one after the other, as
`nova_save_inode_list_to_log` does behind a new log head. -/
def saveTrees (trees : Nat → RbTree RangeNode) (cpus : Nat) (m : RangeMem) (head : Nat) :
    Nat × RangeMem :=
  (List.range cpus).foldl
    (fun r i => novaSaveRangeNodesToLog r.2 (trees i) r.1 i) (head, m)

-- === loading

/-- How a loop over the entries is left: at the tail, at a page that is
not there, or by an error exit. -/
inductive LoopExit where
  | tail | null | failed
  deriving Repr, DecidableEq

/-- The loop that both loaders run over a log. The body gives the state
to go on with, or the state at its error exit, or it faults. -/
def rangeLoop {σ : Type} (m : RangeMem) (tail : Nat) (body : σ → Nat × Nat → ExceptT σ Option σ) :
    Nat → Nat → σ → Option (LoopExit × σ)
  | 0, _, _ => none
  | rounds + 1, curr, s =>
    if curr = tail then some (.tail, s)
    else
      let currP := if isLastEntry curr ENTRY_SIZE then nextLogPage m curr else curr
      if currP = 0 then some (.null, s)
      else
        match (body s (m.entry currP)).run with
        | none => none
        | some (.error s) => some (.failed, s)
        | some (.ok s) => rangeLoop m tail body rounds (currP + ENTRY_SIZE) s

/-- The blocks of a range, on `unsigned long`. -/
def rangeLen (low high : Nat) : Nat := (high + 2 ^ 64 - low + 1) % 2 ^ 64

/-- `get_cpuid`; the quotient is narrowed to an `int`. -/
def getCpuid (s : NovaSbInfo) (blocknr : Nat) : Option Int :=
  if s.perListBlocks = 0 then none
  else
    let cpuid := intOfUlong (blocknr / s.perListBlocks)
    some (if cpuid ≥ s.cpus then SHARED_CPU else cpuid)

/-- One entry of the block list. A negative index is below `cpus`, and
selects a list in front of the array. -/
def loadBlockEntry (rb : RbLib RangeNode.addr) (s : NovaSbInfo) (e : Nat × Nat) :
    ExceptT NovaSbInfo Option NovaSbInfo := do
  let blknode := s.nextNode
  let s := { s with nextNode := s.nextNode + 1 }
  let cpuid ← getCpuid s e.1
  let cpuid ← cpuid.toNat?
  let fl := novaGetFreeList s cpuid
  match novaInsertBlocktree rb fl.blockFreeTree ⟨blknode, e.1, e.2⟩ with
  | none => throw s
  | some tree =>
    return setFreeList s cpuid
      { fl with
        blockFreeTree := tree
        numBlocknode := fl.numBlocknode + 1
        firstNode := if fl.numBlocknode + 1 = 1 then some blknode else fl.firstNode
        numFreeBlocks := fl.numFreeBlocks + rangeLen e.1 e.2 }

/-- One entry of the inode list; the second part of the state is `ret`,
which a CPU number out of range leaves as it was. -/
def loadInodeEntry (rb : RbLib RangeNode.addr) (v : SbInfo × Int) (e : Nat × Nat) :
    ExceptT (SbInfo × Int) Option (SbInfo × Int) :=
  let node := v.1.nextNode
  let s := { v.1 with nextNode := v.1.nextNode + 1 }
  let cpuid := (e.1 &&& CPUID_MASK) >>> 56
  if cpuid ≥ s.cpus then throw (s, v.2)
  else
    let low := e.1 &&& (2 ^ 64 - 1 - CPUID_MASK)
    let im := s.inodeMaps cpuid
    match novaInsertInodetree rb im.inodeInuseTree ⟨node, low, e.2⟩ with
    | none => throw (s, -EINVAL)
    | some tree =>
      pure (SbInfo.setMap
        { s with inodesUsedCount := s.inodesUsedCount + rangeLen low e.2 } cpuid
        { im with
          inodeInuseTree := tree
          numRangeNodeInode := im.numRangeNodeInode + 1
          firstInodeRange :=
            if im.firstInodeRange = none then some node else im.firstInodeRange }, 0)

-- === giving pages back

/-- The fields of `struct nova_inode` that matter for a saved list. -/
structure Pi where
  novaIno : Nat
  logHead : Nat
  logTail : Nat
  deriving Repr, DecidableEq

/-- `nova_free_inode_log` while mounting. It takes the lock of the inode's
page, from an array that is NULL until a format sets it up, and looks the
record up once more, since the numbers of both lists are above 1, through
mapping tables that are NULL as well. -/
def novaFreeInodeLog (pi : Pi) : Option Pi :=
  if pi.logHead = 0 ∨ pi.logTail = 0 then some pi else none

-- === the fast mount

/-- What the fast path works on. -/
structure FastMount where
  log : RangeMem
  blocknode : Pi
  inodelist : Pi
  sbi : NovaSbInfo
  inodes : SbInfo

/-- `nova_destroy_blocknode_tree`. -/
def novaDestroyBlocknodeTree (s : NovaSbInfo) (cpu : Nat) : NovaSbInfo :=
  setFreeList s cpu { novaGetFreeList s cpu with blockFreeTree := .nil }

/-- `nova_destroy_blocknode_trees`. -/
def novaDestroyBlocknodeTrees (s : NovaSbInfo) : NovaSbInfo :=
  novaDestroyBlocknodeTree ((List.range s.cpus).foldl novaDestroyBlocknodeTree s) SHARED_CPU

/-- `nova_destroy_inode_trees`. -/
def novaDestroyInodeTrees (s : SbInfo) : SbInfo :=
  (List.range s.cpus).foldl
    (fun s i => s.setMap i { s.inodeMaps i with inodeInuseTree := .nil }) s

/-- `nova_init_blockmap_from_inode`. -/
def novaInitBlockmapFromInode (rb : RbLib RangeNode.addr) (rounds : Nat) (fm : FastMount) :
    Option (Int × FastMount) :=
  if fm.blocknode.logHead = 0 then some (-EINVAL, fm)
  else
    match rangeLoop fm.log fm.blocknode.logTail (loadBlockEntry rb) rounds
        fm.blocknode.logHead fm.sbi with
    | none => none
    | some (exit, s) =>
      let s := if exit = .failed then novaDestroyBlocknodeTrees s else s
      (novaFreeInodeLog fm.blocknode).map fun pi =>
        (if exit = .tail then 0 else -EINVAL, { fm with sbi := s, blocknode := pi })

/-- `nova_init_inode_list_from_inode`. `garbage` is what `ret` holds
before anything is assigned to it. -/
def novaInitInodeListFromInode (rb : RbLib RangeNode.addr) (rounds : Nat) (garbage : Int)
    (fm : FastMount) : Option (Int × FastMount) :=
  let inodes := { fm.inodes with inodesUsedCount := 0 }
  if fm.inodelist.logHead = 0 then some (-EINVAL, { fm with inodes := inodes })
  else
    match rangeLoop fm.log fm.inodelist.logTail (loadInodeEntry rb) rounds
        fm.inodelist.logHead (inodes, garbage) with
    | none => none
    -- a missing page is reported, and its first entry is read all the same
    | some (.null, _) => none
    | some (exit, v) =>
      let inodes := if exit = .failed then novaDestroyInodeTrees v.1 else v.1
      (novaFreeInodeLog fm.inodelist).map fun pi =>
        (v.2, { fm with inodelist := pi, inodes := inodes })

/-- `nova_can_skip_full_scan`. -/
def novaCanSkipFullScan (rb : RbLib RangeNode.addr) (rounds : Nat) (garbage : Int)
    (fm : FastMount) : Option (Bool × FastMount) :=
  if fm.blocknode.logHead = 0 ∨ fm.blocknode.logTail = 0 then some (false, fm)
  else
    match novaInitBlockmapFromInode rb rounds fm with
    | none => none
    | some (ret, fm) =>
      if ret ≠ 0 then some (false, fm)
      else
        match novaInitInodeListFromInode rb rounds garbage fm with
        | none => none
        | some (ret, fm) =>
          if ret ≠ 0 then
            some (false, { fm with sbi := novaDestroyBlocknodeTrees fm.sbi })
          else some (true, fm)

end Themis.RangeLog
