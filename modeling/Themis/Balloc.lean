/-
The NVMM block allocator (balloc.c): per-CPU free lists of block
ranges, each a red-black tree of `nova_range_node`s with a cached
lowest node (`first_node`) and a next-fit cursor (`p_node`).

# Pointers

Tree nodes have identity: `first_node` and `p_node` are pointers into
the tree, and the interesting failure is a pointer that outlives its
node. A `RangeNode` therefore carries its own address, the two cached
pointers are addresses, and the slab hands out addresses that were
never used before (`nextNode`), so a stale pointer can never alias a
later node.

# The tree

The red-black library is a parameter (`RbLib`): the model descends a
tree exactly as balloc.c does and leaves rebalancing and erasing to the
library. `rb_next`, `rb_prev` and `rb_first` are read off the in-order
list.

Node allocation may fail; each call that allocates takes the outcome as
an argument (`oom`). The contents of the blocks (the `zero` flag of
`nova_new_blocks`) are not part of the allocator's state.
-/
import Themis.Basic
import Themis.Lib.RbTree

namespace Themis.Balloc

open Lib

-- === the state

/-- `struct nova_range_node`: an inclusive range of block numbers (or
of inode numbers), at an address. -/
structure RangeNode where
  addr : Nat
  rangeLow : Nat
  rangeHigh : Nat
  deriving Repr, DecidableEq

/-- `struct free_list`, locks left out. -/
structure FreeList where
  blockFreeTree : RbTree RangeNode
  firstNode : Option Nat
  blockStart : Nat
  blockEnd : Nat
  numFreeBlocks : Nat
  numBlocknode : Nat
  pNode : Option Nat
  allocLogCount : Nat
  allocDataCount : Nat
  freeLogCount : Nat
  freeDataCount : Nat
  allocLogPages : Nat
  allocDataPages : Nat
  freedLogPages : Nat
  freedDataPages : Nat
  deriving Repr

/-- A free list as `kzalloc` leaves it. -/
def FreeList.empty : FreeList :=
  { blockFreeTree := .nil, firstNode := none, blockStart := 0, blockEnd := 0,
    numFreeBlocks := 0, numBlocknode := 0, pNode := none,
    allocLogCount := 0, allocDataCount := 0, freeLogCount := 0,
    freeDataCount := 0, allocLogPages := 0, allocDataPages := 0,
    freedLogPages := 0, freedDataPages := 0 }

/-- The allocator's part of `struct nova_sb_info`, with the slab the
range nodes come from. -/
structure NovaSbInfo where
  cpus : Nat
  numBlocks : Nat
  reservedBlocks : Nat
  perListBlocks : Nat
  freeLists : Nat → FreeList
  sharedFreeList : FreeList
  nextNode : Nat

/-- `nova_get_free_list`. -/
def novaGetFreeList (s : NovaSbInfo) (cpu : Nat) : FreeList :=
  if cpu < s.cpus then s.freeLists cpu else s.sharedFreeList

/-- Store through the pointer `nova_get_free_list` returns. -/
def setFreeList (s : NovaSbInfo) (cpu : Nat) (fl : FreeList) : NovaSbInfo :=
  if cpu < s.cpus then
    { s with freeLists := fun i => if i = cpu then fl else s.freeLists i }
  else { s with sharedFreeList := fl }

/-- The mount-time state `set_default_opts` and
`nova_alloc_block_free_lists` leave, before the block map is built. -/
def mountSbInfo (cpus numBlocks : Nat) : NovaSbInfo :=
  { cpus := cpus, numBlocks := numBlocks, reservedBlocks := RESERVED_BLOCKS,
    perListBlocks := 0, freeLists := fun _ => .empty,
    sharedFreeList := .empty, nextNode := 1 }

/-- `nova_alloc_blocknode`. -/
def novaAllocBlocknode (s : NovaSbInfo) (oom : Bool) :
    Option Nat × NovaSbInfo :=
  if oom then (none, s) else (some s.nextNode, { s with nextNode := s.nextNode + 1 })

-- === tree search

/-- `nova_rbtree_compare_rangenode`. -/
def novaRbtreeCompareRangenode (rangeLow : Nat) (curr : RangeNode) : Ordering :=
  if rangeLow < curr.rangeLow then .lt
  else if rangeLow > curr.rangeHigh then .gt
  else .eq

/-- `nova_find_range_node`: the hit flag and the last node visited. -/
def novaFindRangeNode (tree : RbTree RangeNode) (rangeLow : Nat) :
    Bool × Option RangeNode :=
  tree.descend (novaRbtreeCompareRangenode rangeLow) none

/-- `nova_insert_range_node`; `none` is the `-EINVAL` return. -/
def novaInsertRangeNode (rb : RbLib RangeNode.addr) (tree : RbTree RangeNode)
    (newNode : RangeNode) : Option (RbTree RangeNode) :=
  (tree.linkLeaf (novaRbtreeCompareRangenode newNode.rangeLow) newNode).map
    rb.insertColor

/-- `nova_insert_blocktree`. -/
def novaInsertBlocktree (rb : RbLib RangeNode.addr) (tree : RbTree RangeNode)
    (newNode : RangeNode) : Option (RbTree RangeNode) :=
  novaInsertRangeNode rb tree newNode

/-- `nova_find_free_slot`: the neighbours of a range, `none` on
`-EINVAL`. -/
def novaFindFreeSlot (tree : RbTree RangeNode) (rangeLow rangeHigh : Nat) :
    Option (Option RangeNode × Option RangeNode) :=
  match novaFindRangeNode tree rangeLow with
  | (true, _) => none
  | (false, none) => some (none, none)
  | (false, some retNode) =>
    if retNode.rangeHigh < rangeLow then
      some (some retNode, tree.next RangeNode.addr retNode.addr)
    else if retNode.rangeLow > rangeHigh then
      some (tree.prev RangeNode.addr retNode.addr, some retNode)
    else none

-- === initialisation

/-- One iteration of the loop of `nova_init_blockmap`; `none` is its
early return. -/
def novaInitBlockmapList (rb : RbLib RangeNode.addr) (recovery : Bool)
    (s : NovaSbInfo) (i : Nat) : Option NovaSbInfo :=
  let fl := novaGetFreeList s i
  let blockStart := s.perListBlocks * i
  let fl := { fl with blockStart := blockStart,
                      blockEnd := ulongPred (blockStart + s.perListBlocks) }
  if recovery then some (setFreeList s i fl)
  else
    let fl := { fl with numFreeBlocks := s.perListBlocks }
    let fl :=
      if i = 0 then
        { fl with blockStart := fl.blockStart + s.reservedBlocks,
                  numFreeBlocks := fl.numFreeBlocks - s.reservedBlocks }
      else fl
    let (node, s) := novaAllocBlocknode s false
    let blknode : RangeNode :=
      { addr := node.getD 0, rangeLow := fl.blockStart, rangeHigh := fl.blockEnd }
    match novaInsertBlocktree rb fl.blockFreeTree blknode with
    | none => none
    | some tree =>
      some (setFreeList s i
        { fl with blockFreeTree := tree, firstNode := some blknode.addr,
                  numBlocknode := 1, pNode := some blknode.addr })

/-- `nova_init_blockmap`. -/
def novaInitBlockmap (rb : RbLib RangeNode.addr) (s : NovaSbInfo)
    (recovery : Bool) : Option NovaSbInfo := do
  let s := { s with perListBlocks := s.numBlocks / s.cpus }
  let s ← (List.range s.cpus).foldlM (novaInitBlockmapList rb recovery) s
  let last := novaGetFreeList s (s.cpus - 1)
  if ulongSucc last.blockEnd < s.numBlocks then
    return { s with sharedFreeList :=
      { s.sharedFreeList with blockStart := ulongSucc last.blockEnd,
                              blockEnd := s.numBlocks - 1 } }
  else return s

-- === freeing

/-- Rewrite the range of the node at an address. -/
def modifyNode (p : Nat) (f : RangeNode → RangeNode) (t : RbTree RangeNode) :
    RbTree RangeNode :=
  t.map fun n => if n.addr = p then f n else n

/-- The common exit `block_found` of `nova_free_blocks`. -/
def blockFound (fl : FreeList) (numBlocks : Nat) (logPage : Bool) : FreeList :=
  let fl := { fl with numFreeBlocks := fl.numFreeBlocks + numBlocks }
  if logPage then
    { fl with freeLogCount := fl.freeLogCount + 1,
              freedLogPages := fl.freedLogPages + numBlocks }
  else
    { fl with freeDataCount := fl.freeDataCount + 1,
              freedDataPages := fl.freedDataPages + numBlocks }

/-- The "fits the hole" branch: `prev` swallows the freed range and
`next`, whose node is erased after the cursor has moved off it. -/
def fitsHole (rb : RbLib RangeNode.addr) (fl : FreeList)
    (prev next : RangeNode) : FreeList :=
  let fl :=
    if fl.pNode = some next.addr then
      match fl.blockFreeTree.next RangeNode.addr next.addr with
      | some pNext => { fl with pNode := some pNext.addr }
      | none => { fl with pNode := fl.firstNode }
    else fl
  let tree := rb.erase next.addr fl.blockFreeTree
  { fl with
    blockFreeTree :=
      modifyNode prev.addr (fun n => { n with rangeHigh := next.rangeHigh }) tree
    numBlocknode := fl.numBlocknode - 1 }

/-- The body of `nova_free_blocks` under the list's lock: where the
range goes between its neighbours. `none` is an error of
`nova_find_free_slot` or `nova_insert_blocktree`. -/
def freeInList (rb : RbLib RangeNode.addr) (fl : FreeList) (currNode : Nat)
    (blockLow numBlocks : Nat) (logPage : Bool) : Option FreeList :=
  let blockHigh := blockLow + numBlocks - 1
  match novaFindFreeSlot fl.blockFreeTree blockLow blockHigh with
  | none => none
  | some (prev, next) =>
    let leftOf := prev.filter fun p => blockLow == p.rangeHigh + 1
    let rightOf := next.filter fun n => blockHigh + 1 == n.rangeLow
    match leftOf, rightOf with
    | some p, some n => some (blockFound (fitsHole rb fl p n) numBlocks logPage)
    | some p, none =>
      -- aligns left
      let tree := modifyNode p.addr
        (fun m => { m with rangeHigh := m.rangeHigh + numBlocks })
        fl.blockFreeTree
      some (blockFound { fl with blockFreeTree := tree } numBlocks logPage)
    | none, some n =>
      -- aligns right
      let tree := modifyNode n.addr
        (fun m => { m with rangeLow := m.rangeLow - numBlocks })
        fl.blockFreeTree
      some (blockFound { fl with blockFreeTree := tree } numBlocks logPage)
    | none, none =>
      -- aligns somewhere in the middle
      match novaInsertBlocktree rb fl.blockFreeTree
          { addr := currNode, rangeLow := blockLow, rangeHigh := blockHigh } with
      | none => none
      | some tree =>
        let fl := { fl with blockFreeTree := tree }
        let fl := if prev.isNone then { fl with firstNode := some currNode }
                  else fl
        some (blockFound { fl with numBlocknode := fl.numBlocknode + 1 }
          numBlocks logPage)

/-- The list a block goes back to. The quotient is narrowed to an `int`. For
a block of the device it is at most twice the number of CPUs, so that it
is not negative. -/
def freeCpu (s : NovaSbInfo) (blocknr : Nat) : Nat :=
  let cpuid := intOfUlong (blocknr / s.perListBlocks)
  if cpuid ≥ s.cpus then SHARED_CPU else cpuid.toNat

/-- `nova_free_blocks` on the list of `cpuid`. -/
def freeOnCpu (rb : RbLib RangeNode.addr) (s : NovaSbInfo) (cpuid blocknr numBlocks : Nat)
    (logPage oom : Bool) : Int × NovaSbInfo :=
  match novaAllocBlocknode s oom with
  | (none, s) => (-ENOMEM, s)
  | (some currNode, s) =>
    match freeInList rb (novaGetFreeList s cpuid) currNode blocknr numBlocks logPage with
    | none => (-EINVAL, s)
    | some fl => (0, setFreeList s cpuid fl)

/-- `nova_free_blocks`. -/
def novaFreeBlocks (rb : RbLib RangeNode.addr) (s : NovaSbInfo) (blocknr : Nat)
    (num : Int) (btype : BlockType) (logPage oom : Bool) : Int × NovaSbInfo :=
  if num ≤ 0 then (-EINVAL, s)
  else
    freeOnCpu rb s (freeCpu s blocknr) blocknr (novaGetNumblocks btype * num.toNat) logPage oom

-- === allocating

/-- The loop of `nova_alloc_blocks_in_free_list` over the nodes from the
cursor on. Returns the blocks taken, the first of them and the list
without them; `none` when no node was taken. -/
def allocFrom (rb : RbLib RangeNode.addr) (fl : FreeList) (btype : BlockType)
    (numBlocks : Nat) : List RangeNode → Option (Nat × Nat × FreeList)
  | [] => none
  | curr :: rest =>
    let currBlocks := curr.rangeHigh - curr.rangeLow + 1
    if numBlocks ≥ currBlocks then
      -- superpage allocation must succeed
      if btype ≠ .blk4K ∧ numBlocks > currBlocks then
        allocFrom rb fl btype numBlocks rest
      else
        -- otherwise, allocate the whole blocknode
        let next := rest.head?.map RangeNode.addr
        let fl :=
          if fl.firstNode = some curr.addr then
            { fl with firstNode := next, pNode := next }
          else
            match next with
            | some n => { fl with pNode := some n }
            | none => { fl with pNode := fl.firstNode }
        some (currBlocks, curr.rangeLow,
          { fl with blockFreeTree := rb.erase curr.addr fl.blockFreeTree,
                    numBlocknode := fl.numBlocknode - 1 })
    else
      -- allocate partial blocknode
      let tree := modifyNode curr.addr
        (fun m => { m with rangeLow := m.rangeLow + numBlocks })
        fl.blockFreeTree
      some (numBlocks, curr.rangeLow,
        { fl with blockFreeTree := tree, pNode := some curr.addr })

/-- `nova_alloc_blocks_in_free_list`: the `unsigned long` returned, the
value of `*new_blocknr` (0 if not stored) and the list. -/
def novaAllocBlocksInFreeList (rb : RbLib RangeNode.addr) (fl : FreeList)
    (btype : BlockType) (numBlocks : Nat) : Nat × Nat × FreeList :=
  let temps := match fl.pNode with
    | some p => fl.blockFreeTree.fromPtr RangeNode.addr p
    | none => []
  match allocFrom rb fl btype numBlocks temps with
  | none => (ulongOfInt (-ENOSPC), 0, fl)
  | some (taken, newBlocknr, fl) =>
    (taken, newBlocknr, { fl with numFreeBlocks := fl.numFreeBlocks - taken })

/-- `nova_get_candidate_free_list`: the running maximum is an `int`, so
the comparison is made after two conversions. -/
def novaGetCandidateFreeList (s : NovaSbInfo) : Nat :=
  ((List.range s.cpus).foldl (fun (acc : Nat × Int) i =>
    let fl := novaGetFreeList s i
    if fl.numFreeBlocks > ulongOfInt acc.2 then (i, intOfUlong fl.numFreeBlocks)
    else acc) (0, 0)).1

/-- What one call of `nova_new_blocks` yields: the `int` returned, the
run taken off a list (its first block, stored in `*blocknr`, and its
length in 4K blocks) when the call succeeds, and the new state. -/
structure NewBlocks where
  ret : Int
  taken : Option (Nat × Nat)
  sbi : NovaSbInfo

/-- The statistics of an allocation. -/
def countAlloc (fl : FreeList) (atype : AllocType) (retBlocks : Nat) : FreeList :=
  match atype with
  | .log => { fl with allocLogCount := fl.allocLogCount + 1,
                      allocLogPages := fl.allocLogPages + retBlocks }
  | .data => { fl with allocDataCount := fl.allocDataCount + 1,
                       allocDataPages := fl.allocDataPages + retBlocks }

/-- The allocation proper, once a list with enough free blocks is
locked: the tail of `nova_new_blocks`. -/
def newBlocksFrom (rb : RbLib RangeNode.addr) (s : NovaSbInfo) (cpuid : Nat)
    (fl : FreeList) (btype : BlockType) (numBlocks : Nat) (atype : AllocType) :
    NewBlocks :=
  let (retBlocks, newBlocknr, fl) := novaAllocBlocksInFreeList rb fl btype numBlocks
  let s := setFreeList s cpuid (countAlloc fl atype retBlocks)
  if retBlocks ≤ 0 ∨ newBlocknr = 0 then ⟨-ENOSPC, none, s⟩
  else ⟨intOfUlong (retBlocks / novaGetNumblocks btype), some (newBlocknr, retBlocks), s⟩

/-- The `retry` loop of `nova_new_blocks`; `retries` is `3 - retried`. -/
def newBlocksRetry (rb : RbLib RangeNode.addr) (s : NovaSbInfo)
    (btype : BlockType) (numBlocks : Nat) (atype : AllocType) :
    (retries : Nat) → (cpuid : Nat) → NewBlocks
  | retries, cpuid =>
    let fl := novaGetFreeList s cpuid
    if fl.numFreeBlocks < numBlocks ∨ fl.firstNode = none ∨ fl.pNode = none then
      if fl.numFreeBlocks ≥ numBlocks then
        let first := fl.blockFreeTree.first.map RangeNode.addr
        newBlocksFrom rb s cpuid { fl with firstNode := first, pNode := first }
          btype numBlocks atype
      else
        match retries with
        | 0 => ⟨-ENOSPC, none, s⟩
        | retries + 1 =>
          newBlocksRetry rb s btype numBlocks atype retries
            (novaGetCandidateFreeList s)
    else newBlocksFrom rb s cpuid fl btype numBlocks atype

/-- `nova_new_blocks` on the CPU `cpuid`. -/
def novaNewBlocks (rb : RbLib RangeNode.addr) (s : NovaSbInfo) (cpuid num : Nat)
    (btype : BlockType) (atype : AllocType) : NewBlocks :=
  let numBlocks := num * novaGetNumblocks btype
  if numBlocks = 0 then ⟨-EINVAL, none, s⟩
  else newBlocksRetry rb s btype numBlocks atype 3 cpuid

-- === counting

/-- `nova_count_free_blocks`. -/
def novaCountFreeBlocks (s : NovaSbInfo) : Nat :=
  (List.range s.cpus).foldl (fun n i => n + (novaGetFreeList s i).numFreeBlocks) 0
    + (novaGetFreeList s SHARED_CPU).numFreeBlocks

end Themis.Balloc
