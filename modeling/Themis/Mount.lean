/-
Mounting a device that already holds a file system (super.c, bbuild.c):
what is known of the inode table after an unmount, and what failure
recovery finds of it.

# State

The mapping tables of `Themis.InodePages` and their locks are pointers
in `struct nova_sb_info`, which every mount takes from `kzalloc`. They
are options here; going through a NULL pointer is `none`.

# Left out

The super block checks, the journals, the rebuilding of the free lists
(`alloc` is what comes out of it), and the logs of the inodes that the
recovery threads go on to read.
-/
import Themis.InodePages

namespace Themis.Mount

open Lib InodePages

/-- `NOVA_SB_SIZE`. -/
def NOVA_SB_SIZE : Nat := 512

/-- `NOVA_BLOCKNODE_INO`. -/
def NOVA_BLOCKNODE_INO : Nat := 3

/-- `nova_get_basic_inode`: the fixed place of a reserved inode. -/
def basicInodeAt (ino : Nat) : Nat := NOVA_SB_SIZE * 2 + (ino - 1) * NOVA_INODE_SIZE

/-- A mounted file system: `inode_page_mapping_table_locks` and
`inode_page_mapping_tables` of `sbi`, and the device. -/
structure Mounted (al : BlockAllocator) where
  cpus : Nat
  locks : Option Unit
  tables : Option (Nat → Nat → Nat)
  mem : Nat → UInt8
  alloc : al.State

variable {al : BlockAllocator}

/-- After `nova_init_inode_table` both pointers are set. -/
def Mounted.ofState (s : State al) : Mounted al where
  cpus := s.cpus
  locks := some ()
  tables := some s.table
  mem := s.mem
  alloc := s.alloc

/-- `nova_get_inode_address` locks the table of the CPU and reads it. -/
def novaGetInodeAddress (m : Mounted al) (ino : Nat) (extendable : Bool) :
    Option (Except Int Nat × Mounted al) := do
  let _ ← m.locks
  let table ← m.tables
  let r := InodePages.novaGetInodeAddress ⟨m.cpus, table, m.mem, m.alloc⟩ ino extendable
  return (r.1, Mounted.ofState r.2)

-- === unmounting

/-- `nova_put_super`: what stays is the device. `save` is what
`nova_save_inode_list_to_log` and `nova_save_blocknode_mappings_to_log`
make of it. -/
def novaPutSuper (save : Mounted al → Nat → UInt8) (m : Mounted al) : Nat → UInt8 :=
  save m

-- === mounting

/-- `nova_get_inode_by_ino_or_pi_addr` with address 0: always through the
mapping tables. An error is retried with the mutex still held. -/
def novaGetInodeByInoOrPiAddr (m : Mounted al) (ino : Nat) : Option Nat := do
  match ← novaGetInodeAddress m ino false with
  | (.ok a, _) => return a
  | (.error _, _) => none

/-- The record of a reserved inode that is about to be changed: looked up
once more if it carries a number above 1. -/
def specialInode (m : Mounted al) (ino : Nat) : Option Nat :=
  let pi := basicInodeAt ino
  let novaIno := (inodeAt m.mem pi).novaIno
  if novaIno > 1 then novaGetInodeByInoOrPiAddr m novaIno else some pi

/-- The start of `nova_failure_recovery`: the log of the block list is
forgotten. -/
def forgetBlocknodes (m : Mounted al) : Option (Mounted al) := do
  let pi ← specialInode m NOVA_BLOCKNODE_INO
  return { m with mem := writeLE (writeLE m.mem (pi + 80) 8 0) (pi + 72) 8 0 }

/-- `nova_fill_super` without `init`. `canSkip` is the answer of
`nova_can_skip_full_scan`. -/
def novaFillSuper (cpus : Nat) (mem : Nat → UInt8) (canSkip : Bool) (alloc : al.State) :
    Option (Mounted al) :=
  let m : Mounted al := ⟨cpus, none, none, mem, alloc⟩
  if canSkip then some m else forgetBlocknodes m

-- === failure recovery

/-- The capacity of a `struct task_ring`. -/
def TASK_RING_SIZE : Nat := 512

/-- The rings of the recovery threads, and the one that is next. -/
structure Crawl where
  ringId : Nat
  rings : Nat → List Nat

/-- The pages of one CPU's inode table. The crawl ends in an error when a
ring is full, so as many rounds as there are places will do. -/
def crawlTable (mem : Nat → UInt8) (cpus : Nat) :
    Nat → Nat → Crawl → Option (Int × Crawl)
  | 0, _, _ => none
  | rounds + 1, curr, v =>
    if curr = 0 then some (0, v)
    else if (v.rings v.ringId).length ≥ TASK_RING_SIZE then some (-EINVAL, v)
    else
      -- the next page is read off the end of a 2M page
      crawlTable mem cpus rounds (readLE mem (curr + (2097152 - 8)) 8)
        { rings := Function.update v.rings v.ringId (v.rings v.ringId ++ [curr])
          ringId := (v.ringId + 1) % cpus }

/-- The loop of `nova_failure_recovery_crawl` over the CPUs. -/
def crawlLoop (mem : Nat → UInt8) (cpus : Nat) :
    List Nat → Crawl → Option (Int × Crawl)
  | [], v => some (0, v)
  | cpu :: rest, v =>
    match crawlTable mem cpus (TASK_RING_SIZE * cpus + 1)
        (readLE mem (inodeTableAt cpu) 8) v with
    | some (ret, v) => if ret = 0 then crawlLoop mem cpus rest v else some (ret, v)
    | none => none

/-- `nova_failure_recovery_crawl`, up to where it wakes the threads. The
recovery of the root behind that queues no page. It marks the root's
blocks in `global_bm[1]`, which is past the array on one CPU. -/
def novaFailureRecoveryCrawl (mem : Nat → UInt8) (cpus : Nat) : Option (Int × Crawl) :=
  crawlLoop mem cpus (List.range cpus) ⟨0, fun _ => []⟩

/-- The pages queued for the recovery threads. -/
def Crawl.queued (v : Crawl) (cpus : Nat) : List Nat := (List.range cpus).flatMap v.rings

/-- The blocks `failure_thread_func` marks for a page of its ring. -/
def failureMarks (curr : Nat) : List Nat :=
  (List.range 512).map fun i => curr / PAGE_SIZE + i

end Themis.Mount
