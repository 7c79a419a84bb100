/-
An unmount saves the free block ranges and the inode ranges in use, and
the next mount looks for them (bbuild.c, super.c).

What the logs of the two lists hold is the matter of `Themis.RangeLog`.
Here are the records that are to lead there. The save functions and
`nova_can_skip_full_scan` start from the fixed place of a reserved inode
(`basicInodeAt`); before they store, the save functions look the record
up once more if it carries a number above 1.

# Left out

Super block fields, journals, the root inode, the page locks, and all
other code that stores to the device or allocates blocks. It leaves the
record of the block list and the mapping tables alone.

# What `none` means

An access through a NULL pointer, or a lookup that fails: it is repeated
with the mutex still held.
-/
import Themis.Mount
import Themis.RangeLog

namespace Themis.Unmount

open Lib InodePages Mount

variable {al : BlockAllocator}

/-- `NOVA_INODELIST_INO`. -/
def NOVA_INODELIST_INO : Nat := 4

/-- `NOVA_INODELIST1_INO`. -/
def NOVA_INODELIST1_INO : Nat := 6

-- === format

/-- The part of `nova_init` that is about inodes: the reserved blocks are
cleared, the inode table is set up, and two reserved inodes get their
numbers. -/
def novaInit (s : State al) : Int × State al :=
  let s := { s with
    mem := fillBytes s.mem 0 (RESERVED_BLOCKS * PAGE_SIZE) fun _ => 0 }
  match novaInitInodeTable s with
  | (ret, s) =>
    if ret < 0 then (-EINVAL, s)
    else
      let mem := writeLE s.mem (basicInodeAt NOVA_BLOCKNODE_INO + 64) 8 NOVA_BLOCKNODE_INO
      (0, { s with
        mem := writeLE mem (basicInodeAt NOVA_INODELIST_INO + 64) 8 NOVA_INODELIST_INO })

-- === saving

/-- A list for which the log pages from `newBlock` on could be had, with
the allocator afterwards. `append` is what `nova_save_range_nodes_to_log`
makes of the device, and the new tail; it stays inside the log pages, and
block 0 is none. -/
structure SavedLog (al : BlockAllocator) where
  newBlock : Nat
  alloc : al.State
  append : (Nat → UInt8) → (Nat → UInt8) × Nat
  inside : ∀ mem x, x < PAGE_SIZE → (append mem).1 x = mem x

/-- `nova_update_tail_wwb` for the record at `pi`. -/
def novaUpdateTailWwb (m : Mounted al) (pi newTail : Nat) : Option (Mounted al) :=
  let novaIno := (inodeAt m.mem pi).novaIno
  let place :=
    if novaIno > NOVA_NORMAL_INODE_START then novaGetInodeByInoOrPiAddr m novaIno
    else some pi
  place.map fun pi => { m with mem := writeLE m.mem (pi + 80) 8 newTail }

/-- Both save functions from the point where the log pages are there: the
record that got the head, and what is left. -/
def saveToLog (m : Mounted al) (ino : Nat) (log : SavedLog al) :
    Option (Nat × Mounted al) := do
  let pi ← specialInode m ino
  let r := log.append (writeLE m.mem (pi + 72) 8 log.newBlock)
  let m ← novaUpdateTailWwb { m with mem := r.1, alloc := log.alloc } pi r.2
  return (pi, m)

/-- `inode_page_count_increase_with_migrate` without the counter.
`shouldMigrate` is the answer of `should_migrate`. -/
def inodePageCountIncreaseWithMigrate (shouldMigrate : Nat → Bool) (m : Mounted al)
    (pi : Nat) : Option (Mounted al) :=
  let ino := (inodeAt m.mem pi).novaIno
  if ino < NOVA_NORMAL_INODE_START then some m
  else if shouldMigrate (pi / PAGE_SIZE) then do
    let _ ← m.locks
    let table ← m.tables
    return .ofState (migrateInodePage ⟨m.cpus, table, m.mem, m.alloc⟩ ino).2
  else some m

/-- `nova_save_inode_list_to_log`. -/
def novaSaveInodeListToLog (shouldMigrate : Nat → Bool) (m : Mounted al)
    (log : SavedLog al) : Option (Mounted al) := do
  let r ← saveToLog m NOVA_INODELIST1_INO log
  inodePageCountIncreaseWithMigrate shouldMigrate r.2 r.1

/-- `nova_save_blocknode_mappings_to_log`. -/
def novaSaveBlocknodeMappingsToLog (m : Mounted al) (log : SavedLog al) :
    Option (Mounted al) := do
  let r ← saveToLog m NOVA_BLOCKNODE_INO log
  return r.2

/-- What `nova_put_super` saves. -/
def saveLists (shouldMigrate : Nat → Bool) (m : Mounted al) (inodes blocks : SavedLog al) :
    Option (Mounted al) := do
  let m ← novaSaveInodeListToLog shouldMigrate m inodes
  novaSaveBlocknodeMappingsToLog m blocks

-- === loading

/-- The record of a list as the loaders read it. -/
def listRecord (mem : Nat → UInt8) (ino : Nat) : RangeLog.Pi :=
  let pi := inodeAt mem (basicInodeAt ino)
  ⟨pi.novaIno, pi.logHead, pi.logTail⟩

end Themis.Unmount
