/-
Inode records and the per-CPU page mapping tables (inode.c,
mappingtable.c, wearleveling.c): where the record of an inode number
lives, and what moving its page does.

Records are addressed by their byte offset on the device. A mapping
table slot holds the byte offset of a 4K page of 32 records, 0 if the
slot has no page yet.
-/
import Themis.Basic

namespace Themis

/-- `NOVA_INODE_SIZE`. -/
def NOVA_INODE_SIZE : Nat := 128

/-- `NOVA_NORMAL_INODE_START`: inode numbers below it are reserved and
live at fixed offsets. -/
def NOVA_NORMAL_INODE_START : Nat := 16

/-- `num_inodes_bits` of the 4K inode pages: the page shift less
`NOVA_INODE_BITS`. -/
def NUM_INODES_BITS : Nat := 12 - 7

/-- The fields of `struct nova_inode` the modelled operations use. -/
structure NovaInode where
  valid : Nat
  novaIno : Nat
  logHead : Nat
  logTail : Nat
  deriving Repr, DecidableEq

/-- The mapping tables and the records they lead to. -/
structure InodeTables where
  cpus : Nat
  mappingTable : Nat → Nat → Nat
  record : Nat → NovaInode

namespace InodeTables

/-- The CPU whose table maps an inode number. -/
def cpuOf (s : InodeTables) (ino : Nat) : Nat := ino % s.cpus

/-- `superpage_count`: the slot of the inode's page. -/
def superpageCount (s : InodeTables) (ino : Nat) : Nat :=
  (ino / s.cpus) >>> NUM_INODES_BITS

/-- `index`: the place of the inode's record in its page. -/
def inodeIndex (s : InodeTables) (ino : Nat) : Nat :=
  (ino / s.cpus) &&& (2 ^ NUM_INODES_BITS - 1)

/-- The slot that maps an inode number. -/
def slotOf (s : InodeTables) (ino : Nat) : Nat :=
  s.mappingTable (s.cpuOf ino) (s.superpageCount ino)

/-- `nova_get_inode_address` with `extendable` 0: the walk over the
slots up to the inode's own. `none` is its error return. -/
def novaGetInodeAddress (s : InodeTables) (ino : Nat) : Option Nat :=
  let table := s.mappingTable (s.cpuOf ino)
  let superpageCount := s.superpageCount ino
  if (List.range (superpageCount + 1)).all fun i => table i != 0 then
    some (table superpageCount + s.inodeIndex ino * NOVA_INODE_SIZE)
  else none

/-- Store `log_tail` in the record at an offset. -/
def storeTail (s : InodeTables) (pi tail : Nat) : InodeTables :=
  { s with record := fun a =>
      if a = pi then { s.record a with logTail := tail } else s.record a }

/-- `memcpy` of a whole page of records. -/
def copyPage (s : InodeTables) (dst src : Nat) : InodeTables :=
  { s with record := fun a =>
      if dst ≤ a ∧ a < dst + PAGE_SIZE then s.record (a - dst + src)
      else s.record a }

/-- Point the slot of an inode's page at another page. -/
def switchSlot (s : InodeTables) (ino page : Nat) : InodeTables :=
  { s with mappingTable := fun cpu k =>
      if cpu = s.cpuOf ino ∧ k = s.superpageCount ino then page
      else s.mappingTable cpu k }

end InodeTables

end Themis
