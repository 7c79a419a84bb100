/-
Inode numbers in use (inode.c): per CPU a red-black tree of ranges of
internal numbers, with a cached pointer to the lowest range.

The number `ino` belongs to CPU `ino % cpus` and has the internal number
`ino / cpus` there. Range nodes, the tree and its search are those of
the block allocator (`Themis.Balloc`); as there, nodes are told apart by
address and the slab never hands out an address twice. `none` is an
access through a NULL or stale node pointer.
-/
import Themis.Balloc
import Themis.InodeTable

namespace Themis.InodeList

open Lib Balloc

/-- `MAX_INODE`. -/
def MAX_INODE : Nat := 2 ^ 31

/-- `struct inode_map`, the mutex left out. -/
structure InodeMap where
  inodeInuseTree : RbTree RangeNode
  firstInodeRange : Option Nat
  numRangeNodeInode : Nat
  allocated : Nat
  freed : Nat

/-- An inode map as `kzalloc` leaves it. -/
def InodeMap.empty : InodeMap := ⟨.nil, none, 0, 0, 0⟩

/-- The inode lists' part of `struct nova_sb_info`, with the slab. -/
structure SbInfo where
  cpus : Nat
  inodeMaps : Nat → InodeMap
  inodesUsedCount : Nat
  nextNode : Nat

/-- Store the inode map of a CPU. -/
def SbInfo.setMap (s : SbInfo) (cpu : Nat) (m : InodeMap) : SbInfo :=
  { s with inodeMaps := fun i => if i = cpu then m else s.inodeMaps i }

/-- The node at an address, while it is in the tree. -/
def nodeAt (tree : RbTree RangeNode) (p : Nat) : Option RangeNode :=
  (tree.fromPtr RangeNode.addr p).head?

/-- `nova_alloc_inode_node`. -/
def novaAllocInodeNode (s : SbInfo) (oom : Bool) : Option Nat × SbInfo :=
  if oom then (none, s)
  else (some s.nextNode, { s with nextNode := s.nextNode + 1 })

/-- `nova_insert_inodetree`; `none` is its `-EINVAL`. -/
def novaInsertInodetree (rb : RbLib RangeNode.addr) (tree : RbTree RangeNode)
    (newNode : RangeNode) : Option (RbTree RangeNode) :=
  novaInsertRangeNode rb tree newNode

/-- `nova_search_inodetree`. -/
def novaSearchInodetree (s : SbInfo) (ino : Nat) : Bool × Option RangeNode :=
  novaFindRangeNode (s.inodeMaps (ino % s.cpus)).inodeInuseTree (ino / s.cpus)

-- === initialisation

/-- The highest reserved internal number of every CPU. -/
def reservedHigh (cpus : Nat) : Nat :=
  let rangeHigh := (NOVA_NORMAL_INODE_START - 1) / cpus
  if NOVA_NORMAL_INODE_START % cpus ≠ 0 then rangeHigh + 1 else rangeHigh

/-- The loop of `nova_init_inode_inuse_list`; `oom` says for which CPUs
no node can be had. -/
def initList (rb : RbLib RangeNode.addr) (oom : Nat → Bool) (rangeHigh : Nat) :
    SbInfo → List Nat → Int × SbInfo
  | s, [] => (0, s)
  | s, i :: rest =>
    match novaAllocInodeNode s (oom i) with
    | (none, s) => (-ENOMEM, s)
    | (some node, s) =>
      let m := s.inodeMaps i
      match novaInsertInodetree rb m.inodeInuseTree ⟨node, 0, rangeHigh⟩ with
      | none => (-EINVAL, s)
      | some tree =>
        initList rb oom rangeHigh (s.setMap i
          { m with inodeInuseTree := tree, numRangeNodeInode := 1
                   firstInodeRange := some node }) rest

/-- `nova_init_inode_inuse_list`. -/
def novaInitInodeInuseList (rb : RbLib RangeNode.addr) (oom : Nat → Bool)
    (s : SbInfo) : Int × SbInfo :=
  initList rb oom (reservedHigh s.cpus)
    { s with inodesUsedCount := NOVA_NORMAL_INODE_START } (List.range s.cpus)

/-- The state `nova_fill_super` has prepared: empty trees. -/
def mountInfo (cpus : Nat) : SbInfo := ⟨cpus, fun _ => .empty, 0, 1⟩

-- === allocation

/-- The exit of `nova_alloc_unused_inode` with a number. -/
def handOut (s : SbInfo) (cpuid newIno : Nat) (m : InodeMap) :
    Int × Nat × SbInfo :=
  (0, newIno * s.cpus + cpuid,
    { s with inodesUsedCount := s.inodesUsedCount + 1 }.setMap cpuid
      { m with allocated := m.allocated + 1 })

/-- `nova_alloc_unused_inode`: return value, number, state. The number is
0 where the source leaves `*ino` alone. -/
def novaAllocUnusedInode (rb : RbLib RangeNode.addr) (s : SbInfo)
    (cpuid : Nat) : Option (Int × Nat × SbInfo) :=
  let m := s.inodeMaps cpuid
  match m.firstInodeRange.bind (nodeAt m.inodeInuseTree) with
  | none => none
  | some i =>
    let newIno := i.rangeHigh + 1
    let grow (high : Nat) := modifyNode i.addr
      (fun n => { n with rangeHigh := high }) m.inodeInuseTree
    match m.inodeInuseTree.next RangeNode.addr i.addr with
    | some nextI =>
      if newIno = nextI.rangeLow - 1 then
        -- fill the gap completely
        some (handOut s cpuid newIno
          { m with
            inodeInuseTree := rb.erase nextI.addr (grow nextI.rangeHigh)
            numRangeNodeInode := m.numRangeNodeInode - 1 })
      else if newIno < nextI.rangeLow - 1 then
        some (handOut s cpuid newIno { m with inodeInuseTree := grow newIno })
      else some (-ENOSPC, 0, s)
    | none =>
      if newIno < MAX_INODE - 1 then
        some (handOut s cpuid newIno { m with inodeInuseTree := grow newIno })
      else some (-ENOSPC, 0, s)

-- === freeing

/-- The exit `block_found` of `nova_free_inuse_inode`. -/
def blockFound (s : SbInfo) (cpuid : Nat) (m : InodeMap) : Int × SbInfo :=
  (0, { s with inodesUsedCount := s.inodesUsedCount - 1 }.setMap cpuid
    { m with freed := m.freed + 1 })

/-- `nova_free_inuse_inode`. -/
def novaFreeInuseInode (rb : RbLib RangeNode.addr) (s : SbInfo) (ino : Nat)
    (oom : Bool) : Int × SbInfo :=
  let cpuid := ino % s.cpus
  let internalIno := ino / s.cpus
  let m := s.inodeMaps cpuid
  match novaSearchInodetree s ino with
  | (true, some i) =>
    if internalIno = i.rangeLow ∧ internalIno = i.rangeHigh then
      -- fits entire node
      blockFound s cpuid
        { m with inodeInuseTree := rb.erase i.addr m.inodeInuseTree
                 numRangeNodeInode := m.numRangeNodeInode - 1 }
    else if internalIno = i.rangeLow ∧ internalIno < i.rangeHigh then
      -- aligns left
      blockFound s cpuid
        { m with inodeInuseTree := modifyNode i.addr
                   (fun n => { n with rangeLow := internalIno + 1 })
                   m.inodeInuseTree }
    else if internalIno > i.rangeLow ∧ internalIno = i.rangeHigh then
      -- aligns right
      blockFound s cpuid
        { m with inodeInuseTree := modifyNode i.addr
                   (fun n => { n with rangeHigh := internalIno - 1 })
                   m.inodeInuseTree }
    else if internalIno > i.rangeLow ∧ internalIno < i.rangeHigh then
      -- aligns somewhere in the middle
      match novaAllocInodeNode s oom with
      | (none, s) => blockFound s cpuid m
      | (some currNode, s) =>
        let cut := modifyNode i.addr
          (fun n => { n with rangeHigh := internalIno - 1 }) m.inodeInuseTree
        match novaInsertInodetree rb cut
            ⟨currNode, internalIno + 1, i.rangeHigh⟩ with
        | none => (-EINVAL, s.setMap cpuid { m with inodeInuseTree := cut })
        | some tree =>
          blockFound s cpuid
            { m with inodeInuseTree := tree
                     numRangeNodeInode := m.numRangeNodeInode + 1 }
    else (0, s)
  | _ => (-EINVAL, s)

end Themis.InodeList
