/-
`nova_update_tail_wwb` against `migrate_inode_page`, as two processes
over the mapping tables.

# Atomic steps

Each lock operation, the lookup, the page copy, the table switch and the
tail store is one step. The two sides take different locks: the update
holds the inode page lock over its store but the mapping-table lock only
around the lookup; the migration holds the mapping-table lock throughout
and never takes the page lock.

An interleaving is the list of steps taken, in order (`run`). A step
that its process cannot take — wrong program point, or a lock held by
the other side — has no successor.

# Error returns

`nova_get_inode_address` returns an error without releasing the
mapping-table lock, and the caller's retry blocks on it: the update is
then `hung`. `migrate_inode_page` also keeps the lock when the slot is
empty or no block is left; that call has `returned` without migrating.
-/
import Themis.InodeTable

namespace Themis.TailRace

/-- The two processes. -/
inductive Proc where
  | update | migrate
  deriving Repr, DecidableEq

/-- Where the update is. A pointer is the offset of the record it goes
on to use. -/
inductive UpdatePc where
  | start
  | pageLocked
  | tableLocked
  | resolved (pi : Nat)
  | ready (pi : Nat)
  | stored (pi : Nat)
  | done (pi : Nat)
  | hung
  deriving Repr, DecidableEq

/-- Where the migration is, with the page it moves and the page it
moves to. -/
inductive MigratePc where
  | start
  | tableLocked
  | found (curr : Nat)
  | allocated (curr migrate : Nat)
  | copied (curr migrate : Nat)
  | switched (migrate : Nat)
  | done (migrate : Nat)
  | returned
  deriving Repr, DecidableEq

/-- The two calls: the inode updated, the record pointer and the tail
passed in, and the inode number the migration was called with. -/
structure Call where
  ino : Nat
  pi : Nat
  newTail : Nat
  migrateIno : Nat
  deriving Repr, DecidableEq

/-- Shared memory, locks and program counters. -/
structure RaceState where
  mem : InodeTables
  freeBlocks : Nat → Bool
  tableLock : Nat → Option Proc
  pageLock : Nat → Nat → Option Proc
  update : UpdatePc
  migrate : MigratePc

/-- The atomic steps; `migAlloc` carries the allocator's answer. -/
inductive Event where
  | lockPage
  | lockTable
  | lookup
  | unlockTable
  | store
  | unlockPage
  | migLock
  | migRead
  | migAlloc (blocknr : Option Nat)
  | migCopy
  | migSwitch
  | migUnlock
  deriving Repr, DecidableEq

/-- Set one mapping-table lock. -/
def setTableLock (s : RaceState) (cpu : Nat) (owner : Option Proc) :
    Nat → Option Proc :=
  fun i => if i = cpu then owner else s.tableLock i

/-- Set the lock `nova_get_specific_inode_page_lock` finds. The 40 CPUs
are a constant there. -/
def setPageLock (s : RaceState) (ino : Nat) (owner : Option Proc) :
    Nat → Nat → Option Proc :=
  fun i k => if i = ino % 40 ∧ k = (ino / 40) >>> 5 then owner else s.pageLock i k

/-- One atomic step of the process it belongs to. -/
def step (c : Call) (s : RaceState) : Event → Option RaceState
  | .lockPage =>
    if s.update = .start ∧ s.pageLock (c.ino % 40) ((c.ino / 40) >>> 5) = none then
      some { s with pageLock := setPageLock s c.ino (some .update)
                    update := .pageLocked }
    else none
  | .lockTable =>
    -- only inode numbers above the first normal one are resolved again
    if s.update = .pageLocked ∧ c.ino > NOVA_NORMAL_INODE_START
        ∧ s.tableLock (s.mem.cpuOf c.ino) = none then
      some { s with tableLock := setTableLock s (s.mem.cpuOf c.ino) (some .update)
                    update := .tableLocked }
    else none
  | .lookup =>
    if s.update = .tableLocked then
      match s.mem.novaGetInodeAddress c.ino with
      | some pi => some { s with update := .resolved pi }
      | none => some { s with update := .hung }
    else none
  | .unlockTable =>
    match s.update with
    | .resolved pi =>
      some { s with tableLock := setTableLock s (s.mem.cpuOf c.ino) none
                    update := .ready pi }
    | _ => none
  | .store =>
    match s.update with
    | .ready pi =>
      some { s with mem := s.mem.storeTail pi c.newTail, update := .stored pi }
    | .pageLocked =>
      if c.ino > NOVA_NORMAL_INODE_START then none
      else some { s with mem := s.mem.storeTail c.pi c.newTail
                         update := .stored c.pi }
    | _ => none
  | .unlockPage =>
    match s.update with
    | .stored pi =>
      some { s with pageLock := setPageLock s (s.mem.record pi).novaIno none
                    update := .done pi }
    | _ => none
  | .migLock =>
    if s.migrate = .start ∧ s.tableLock (s.mem.cpuOf c.migrateIno) = none then
      some { s with
        tableLock := setTableLock s (s.mem.cpuOf c.migrateIno) (some .migrate)
        migrate := .tableLocked }
    else none
  | .migRead =>
    if s.migrate = .tableLocked then
      let curr := s.mem.slotOf c.migrateIno
      some { s with migrate := if curr = 0 then .returned else .found curr }
    else none
  | .migAlloc blocknr =>
    match s.migrate, blocknr with
    | .found _, none => some { s with migrate := .returned }
    | .found curr, some blocknr =>
      if s.freeBlocks blocknr then
        some { s with migrate := .allocated curr (blocknr * PAGE_SIZE) }
      else none
    | _, _ => none
  | .migCopy =>
    match s.migrate with
    | .allocated curr migrate =>
      some { s with mem := s.mem.copyPage migrate curr
                    migrate := .copied curr migrate }
    | _ => none
  | .migSwitch =>
    match s.migrate with
    | .copied _ migrate =>
      some { s with mem := s.mem.switchSlot c.migrateIno migrate
                    migrate := .switched migrate }
    | _ => none
  | .migUnlock =>
    match s.migrate with
    | .switched migrate =>
      some { s with tableLock := setTableLock s (s.mem.cpuOf c.migrateIno) none
                    migrate := .done migrate }
    | _ => none

/-- An interleaving. -/
def run (c : Call) (s : RaceState) (evs : List Event) : Option RaceState :=
  evs.foldlM (step c) s

/-- The tail found through the mapping table. -/
def tailOf (m : InodeTables) (ino : Nat) : Option Nat :=
  (m.novaGetInodeAddress ino).map fun pi => (m.record pi).logTail

end Themis.TailRace
