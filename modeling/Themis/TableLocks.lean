/-
The mutexes of the mapping tables (inode.c, wearleveling.c): one for each
CPU, `inode_page_mapping_table_locks`.

`nova_get_inode_address` and `migrate_inode_page` take the mutex of the
inode's CPU first and give it back in front of their last `return`. They
have other exits in between.

# What `none` means

The caller waits for a mutex that somebody holds. The calls follow one
another, so nobody is left who could give it back.
-/
import Themis.InodePages

namespace Themis.TableLocks

open InodePages

variable {al : BlockAllocator}

/-- The mapping tables, and which of their mutexes are held. -/
structure Locked (al : BlockAllocator) where
  tables : State al
  held : Nat → Bool

/-- `mutex_lock`. -/
def mutexLock (s : Locked al) (cpuid : Nat) : Option (Locked al) :=
  if s.held cpuid then none else some { s with held := Function.update s.held cpuid true }

/-- `mutex_unlock`. -/
def mutexUnlock (s : Locked al) (cpuid : Nat) : Locked al :=
  { s with held := Function.update s.held cpuid false }

/-- `nova_get_inode_address` between `mutex_lock` and its `return`. -/
def getAddressLocked (s : Locked al) (ino : Nat) (extendable : Bool) :
    Except Int Nat × Locked al :=
  let cpuid := s.tables.maps.cpuOf ino
  let superpageCount := s.tables.maps.superpageCount ino
  let index := s.tables.maps.inodeIndex ino
  if s.tables.table cpuid 0 = 0 then (.error (-EINVAL), s)
  else
    match extendLoop cpuid extendable s.tables (List.range superpageCount) with
    -- out of the loop, past the `mutex_unlock`
    | (some e, tables) => (.error e, { s with tables := tables })
    | (none, tables) =>
      (.ok (tables.table cpuid superpageCount + index * NOVA_INODE_SIZE),
        mutexUnlock { s with tables := tables } cpuid)

/-- `nova_get_inode_address`. -/
def novaGetInodeAddress (s : Locked al) (ino : Nat) (extendable : Bool) :
    Option (Except Int Nat × Locked al) :=
  (mutexLock s (s.tables.maps.cpuOf ino)).map fun s => getAddressLocked s ino extendable

/-- `migrate_inode_page` between `mutex_lock` and its `return`. -/
def migrateLocked (s : Locked al) (ino : Nat) : Int × Locked al :=
  let cpuid := s.tables.maps.cpuOf ino
  let superpageCount := s.tables.maps.superpageCount ino
  let curr := s.tables.table cpuid superpageCount
  if curr = 0 then (-EINVAL, s)
  else
    match novaNewLogBlock s.tables with
    | (none, tables) => (-ENOSPC, { s with tables := tables })
    | (some migrate, tables) =>
      let tables := { tables with
        mem := Lib.copyBytes tables.mem migrate curr PAGE_SIZE }.setSlot
          cpuid superpageCount migrate
      (0, mutexUnlock { s with tables := tables } cpuid)

/-- `migrate_inode_page`. -/
def migrateInodePage (s : Locked al) (ino : Nat) : Option (Int × Locked al) :=
  (mutexLock s (s.tables.maps.cpuOf ino)).map fun s => migrateLocked s ino

/-- What a call leaves. -/
def call (s : Locked al) : Op → Option (Locked al)
  | .getAddress ino extendable => (novaGetInodeAddress s ino extendable).map Prod.snd
  | .migrate ino => (migrateInodePage s ino).map Prod.snd

/-- Calls one after the other. -/
def calls (s : Locked al) : List Op → Option (Locked al)
  | [] => some s
  | op :: ops => (call s op).bind fun s => calls s ops

end Themis.TableLocks
