/-
The pages of the inode table (inode.c, mappingtable.c, wearleveling.c):
how they are handed out, found and moved.

# State

Which page holds an inode number is recorded in DRAM only, in one
mapping table per CPU; the records themselves are bytes of the device.
`State.maps` reads the records out of the bytes, which is the view
`Themis.InodeTable` works with.

# Left out

The mutexes: the calls of a run follow one another. The page shift is
the constant 12 that `nova_init_inode_table` stores as the block type of
the table's own inode and that nothing changes later.
-/
import Themis.InodeTable
import Themis.Alloc
import Themis.Lib.Bytes

namespace Themis.InodePages

open Lib

/-- `TABLE_NUM`: the slots of one mapping table. -/
def TABLE_NUM : Nat := 512

/-- The offset of a CPU's `struct inode_table`, whose only word is
`log_head`. -/
def inodeTableAt (cpu : Nat) : Nat := PAGE_SIZE * 2 + cpu * 64

/-- The fields of the `struct nova_inode` at an offset. -/
def inodeAt (mem : Nat → UInt8) (a : Nat) : NovaInode where
  valid := (mem (a + 2)).toNat
  novaIno := readLE mem (a + 64) 8
  logHead := readLE mem (a + 72) 8
  logTail := readLE mem (a + 80) 8

/-- The mapping tables in DRAM, the device and its allocator. -/
structure State (al : BlockAllocator) where
  cpus : Nat
  table : Nat → Nat → Nat
  mem : Nat → UInt8
  alloc : al.State

variable {al : BlockAllocator}

/-- The tables and the records they lead to. -/
def State.maps (s : State al) : InodeTables where
  cpus := s.cpus
  mappingTable := s.table
  record := inodeAt s.mem

/-- Store into a slot of a mapping table. -/
def State.setSlot (s : State al) (cpu k page : Nat) : State al :=
  { s with table := fun c i => if c = cpu ∧ i = k then page else s.table c i }

/-- `nova_new_log_blocks(sb, pi, &blocknr, 1, 1)`: the offset of a zeroed
page, `none` when nothing was allocated. -/
def novaNewLogBlock (s : State al) : Option Nat × State al :=
  match al.newBlocks s.alloc .log 1 with
  | (none, a) => (none, { s with alloc := a })
  | (some (blocknr, _), a) =>
    (some (blocknr * PAGE_SIZE),
      { s with
        alloc := a
        mem := fillBytes s.mem (blocknr * PAGE_SIZE) PAGE_SIZE fun _ => 0 })

-- === initialisation

/-- Clear a CPU's table and give it its first page. -/
def firstPage (s : State al) (cpu block : Nat) : State al :=
  { s with
    table := fun c k =>
      if c = cpu then if k = 0 then block else 0 else s.table c k
    mem := writeLE s.mem (inodeTableAt cpu) 8 block }

/-- The loop of `nova_init_inode_table` over the CPUs. -/
def initLoop (s : State al) : List Nat → Int × State al
  | [] => (0, s)
  | cpu :: rest =>
    match novaNewLogBlock s with
    | (none, s) => (-ENOSPC, s)
    | (some block, s) => initLoop (firstPage s cpu block) rest

/-- `nova_init_inode_table`; the tables come zeroed from `kzalloc`. -/
def novaInitInodeTable (s : State al) : Int × State al :=
  initLoop { s with table := fun _ _ => 0 } (List.range s.cpus)

-- === lookup

/-- The loop of `nova_get_inode_address` over the slots up to the
inode's own, with the error it returns. -/
def extendLoop (cpu : Nat) (extendable : Bool) :
    State al → List Nat → Option Int × State al
  | s, [] => (none, s)
  | s, i :: rest =>
    if s.table cpu (i + 1) = 0 then
      if extendable then
        match novaNewLogBlock s with
        | (none, s) => (some (-ENOSPC), s)
        | (some curr, s) =>
          extendLoop cpu extendable (s.setSlot cpu (i + 1) curr) rest
      else (some (-EINVAL), s)
    else extendLoop cpu extendable s rest

/-- `nova_get_inode_address`: the offset of the record, or the error. -/
def novaGetInodeAddress (s : State al) (ino : Nat) (extendable : Bool) :
    Except Int Nat × State al :=
  let cpuid := s.maps.cpuOf ino
  let superpageCount := s.maps.superpageCount ino
  let index := s.maps.inodeIndex ino
  if s.table cpuid 0 = 0 then (.error (-EINVAL), s)
  else
    match extendLoop cpuid extendable s (List.range superpageCount) with
    | (some e, s) => (.error e, s)
    | (none, s) =>
      (.ok (s.table cpuid superpageCount + index * NOVA_INODE_SIZE), s)

/-- The slots that the loop reads. -/
def extendReads (cpu : Nat) (extendable : Bool) : State al → List Nat → List Nat
  | _, [] => []
  | s, i :: rest =>
    (i + 1) ::
      if s.table cpu (i + 1) = 0 then
        if extendable then
          match novaNewLogBlock s with
          | (none, _) => []
          | (some curr, s) =>
            extendReads cpu extendable (s.setSlot cpu (i + 1) curr) rest
        else []
      else extendReads cpu extendable s rest

/-- The slots that `nova_get_inode_address` reads: the first, those of
the loop and, after the loop, the inode's own. -/
def slotsRead (s : State al) (ino : Nat) (extendable : Bool) : List Nat :=
  let cpuid := s.maps.cpuOf ino
  let superpageCount := s.maps.superpageCount ino
  if s.table cpuid 0 = 0 then [0]
  else
    0 :: extendReads cpuid extendable s (List.range superpageCount) ++
      match (extendLoop cpuid extendable s (List.range superpageCount)).1 with
      | some _ => []
      | none => [superpageCount]

-- === migration

/-- `migrate_inode_page`: the page is copied and its slot switched; the
old page stays allocated. -/
def migrateInodePage (s : State al) (ino : Nat) : Int × State al :=
  let cpuid := s.maps.cpuOf ino
  let superpageCount := s.maps.superpageCount ino
  let curr := s.table cpuid superpageCount
  if curr = 0 then (-EINVAL, s)
  else
    match novaNewLogBlock s with
    | (none, s) => (-ENOSPC, s)
    | (some migrate, s) =>
      (0, { s with mem := copyBytes s.mem migrate curr PAGE_SIZE }.setSlot
        cpuid superpageCount migrate)

-- === runs

/-- The calls of a run. -/
inductive Op where
  | getAddress (ino : Nat) (extendable : Bool)
  | migrate (ino : Nat)
  deriving Repr, DecidableEq

/-- The inode number a call is about. -/
def Op.ino : Op → Nat
  | .getAddress ino _ => ino
  | .migrate ino => ino

/-- The state a call leaves. -/
def step (s : State al) : Op → State al
  | .getAddress ino extendable => (novaGetInodeAddress s ino extendable).2
  | .migrate ino => (migrateInodePage s ino).2

/-- A sequential run. -/
def run (s : State al) (ops : List Op) : State al := ops.foldl step s

/-- Where a number resolves to: `nova_get_inode_address` with
`extendable` 0. -/
def resolve (s : State al) (ino : Nat) : Option Nat :=
  match (novaGetInodeAddress s ino false).1 with
  | .ok a => some a
  | .error _ => none

/-- The 128 bytes of the record a number resolves to. -/
def recordOf (s : State al) (ino : Nat) : Option (List UInt8) :=
  (resolve s ino).map fun a =>
    (List.range NOVA_INODE_SIZE).map fun r => s.mem (a + r)

-- === page locks

/-- A lock of `inode_page_locks`: the array and the place in it. -/
structure PageLock where
  array : Nat
  slot : Nat
  deriving Repr, DecidableEq

/-- `nova_get_specific_inode_page_lock`, with its own constant for the
number of CPUs. The arithmetic is that of `unsigned int`. -/
def novaGetSpecificInodePageLock (ino : Nat) : PageLock where
  array := ino % 40
  slot := (ino / 40 % 2 ^ 32) >>> 5

/-- The locks that `nova_alloc_block_inode_page_locks` allocates: an array
of `TABLE_NUM` for each CPU. -/
def PageLock.Allocated (cpus : Nat) (l : PageLock) : Prop :=
  l.array < cpus ∧ l.slot < TABLE_NUM

instance (cpus : Nat) (l : PageLock) : Decidable (l.Allocated cpus) :=
  inferInstanceAs (Decidable (_ ∧ _))

end Themis.InodePages
