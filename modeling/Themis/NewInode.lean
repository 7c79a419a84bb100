/-
`nova_new_nova_inode` (inode.c): an unused inode number, from the lists of
the CPUs in turn, and the place of its record.

The bound of the numbers (`MAX_INODE`) is set by the lists and the number
of slots (`TABLE_NUM`) by the mapping tables. Nothing compares the two.
-/
import Themis.InodeList
import Themis.InodePages

namespace Themis.NewInode

open Lib Balloc InodeList InodePages

variable {al : BlockAllocator}

/-- The parts of `struct nova_sb_info` that `nova_new_nova_inode` uses. -/
structure Sb (al : BlockAllocator) where
  lists : SbInfo
  pages : InodePages.State al
  mapId : Nat

/-- `nova_new_nova_inode`: the number, 0 for an error, and the offset of
its record. -/
def novaNewNovaInode (rb : RbLib RangeNode.addr) (sb : Sb al) :
    Option (Nat × Nat × Sb al) :=
  let mapId := sb.mapId
  let sb := { sb with mapId := (sb.mapId + 1) % sb.lists.cpus }
  match novaAllocUnusedInode rb sb.lists mapId with
  | none => none
  | some (ret, freeIno, lists) =>
    let sb := { sb with lists := lists }
    if ret ≠ 0 then some (0, 0, sb)
    else
      match novaGetInodeAddress sb.pages freeIno true with
      -- the number stays in use
      | (.error _, pages) => some (0, 0, { sb with pages := pages })
      | (.ok piAddr, pages) => some (freeIno, piAddr, { sb with pages := pages })

/-- The number that `nova_new_nova_inode` looks up next, if it gets one. -/
def nextIno (rb : RbLib RangeNode.addr) (sb : Sb al) : Option Nat :=
  match novaAllocUnusedInode rb sb.lists sb.mapId with
  | some (ret, freeIno, _) => if ret = 0 then some freeIno else none
  | none => none

/-- The states that calls of `nova_new_nova_inode` reach, with numbers
that are not reserved given back in between. -/
inductive NewRun (rb : RbLib RangeNode.addr) (sb₀ : Sb al) : Sb al → Prop
  | start : NewRun rb sb₀ sb₀
  | call {sb sb' : Sb al} {ino piAddr : Nat} (h : NewRun rb sb₀ sb)
      (hres : novaNewNovaInode rb sb = some (ino, piAddr, sb')) : NewRun rb sb₀ sb'
  | free {sb : Sb al} (ino : Nat) (h : NewRun rb sb₀ sb)
      (hnormal : reservedHigh sb.lists.cpus < ino / sb.lists.cpus) :
      NewRun rb sb₀ { sb with lists := (novaFreeInuseInode rb sb.lists ino false).2 }

end Themis.NewInode
