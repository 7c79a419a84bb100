/-
The lite journal (journal.c): a per-CPU ring of 64-byte undo entries in
one page, with its head and tail pointers in block 1 of the device.

# Memory

The device is an array of bytes. Every access goes through a device
offset, as `nova_get_block` turns offsets into pointers; an access that
leaves the device, or goes through offset 0 (the NULL that
`nova_get_block` returns for it), is an `oops`. `BUG()` is `bug`.

# Tags

An undo slot packs the width of its word into the top byte of the
word's offset. Offsets on the device are below 2^56 (`Device.size_le`),
so the tag never collides with the offset.

Write counts are not modelled; `should_migrate` and the allocator's
answer are arguments of the commit, which may move the journal page.
-/
import Themis.Basic
import Themis.Lib.Bytes

namespace Themis.Journal

open Lib

/-- `CACHELINE_SIZE`. -/
def CACHELINE_SIZE : Nat := 64

-- === the device

/-- The ways a call can fail to return. -/
inductive Fault where
  | oops | bug
  deriving Repr, DecidableEq

/-- An NVMM device. -/
structure Device where
  size : Nat
  byte : Nat → UInt8
  size_le : size ≤ 2 ^ 56

/-- An access of `n` bytes through `nova_get_block(sb, a)` stays on the
device. -/
def Device.Ok (d : Device) (a n : Nat) : Prop := a ≠ 0 ∧ a + n ≤ d.size

instance (d : Device) (a n : Nat) : Decidable (d.Ok a n) :=
  inferInstanceAs (Decidable (_ ∧ _))

/-- Load a word. -/
def Device.load (d : Device) (a n : Nat) : Except Fault Nat :=
  if d.Ok a n then .ok (readLE d.byte a n) else .error .oops

/-- Store a word. -/
def Device.store (d : Device) (a n v : Nat) : Except Fault Device :=
  if d.Ok a n then .ok { d with byte := writeLE d.byte a n v } else .error .oops

/-- Copy within the device. -/
def Device.memcpy (d : Device) (dst src n : Nat) : Except Fault Device :=
  if d.Ok dst n ∧ d.Ok src n then
    .ok { d with byte := copyBytes d.byte dst src n }
  else .error .oops

-- === the ring

/-- `struct nova_lite_journal_entry`, as built in DRAM. -/
structure LiteJournalEntry where
  addrs : Nat → Nat
  values : Nat → Nat

/-- The offset of a CPU's `struct ptr_pair`: the head is the first word
there, the tail the second. -/
def pairAt (cpu : Nat) : Nat := PAGE_SIZE + cpu * CACHELINE_SIZE

/-- `nova_get_journal_pointers`; `none` is its NULL. -/
def novaGetJournalPointers (cpus cpu : Nat) : Option Nat :=
  if cpu ≥ cpus then none else some (pairAt cpu)

/-- `next_lite_journal`. -/
def nextLiteJournal (currP : Nat) : Nat :=
  if currP % PAGE_SIZE + 64 ≥ PAGE_SIZE then currP - currP % PAGE_SIZE
  else currP + 64

/-- `memcpy_to_pmem_nocache` of an entry: its eight words. -/
def writeEntry (d : Device) (p : Nat) (e : LiteJournalEntry) :
    Except Fault Device := do
  let d ← [0, 1, 2, 3].foldlM (fun d i => d.store (p + 8 * i) 8 (e.addrs i)) d
  [0, 1, 2, 3].foldlM (fun d i => d.store (p + 32 + 8 * i) 8 (e.values i)) d

/-- `nova_create_lite_transaction`: the new tail and the device. -/
def novaCreateLiteTransaction (d : Device) (cpus : Nat)
    (dramEntry1 dramEntry2 : LiteJournalEntry) (entries cpu : Nat) :
    Except Fault (Nat × Device) := do
  match novaGetJournalPointers cpus cpu with
  | none => .error .bug
  | some pair =>
    let head ← d.load pair 8
    let tail ← d.load (pair + 8) 8
    if head = 0 ∨ head ≠ tail then .error .bug
    else
      let temp := head
      let d ← writeEntry d temp dramEntry1
      let temp := if entries = 2 then nextLiteJournal temp else temp
      let d ← if entries = 2 then writeEntry d temp dramEntry2 else pure d
      let newTail := nextLiteJournal temp
      let d ← d.store (pair + 8) 8 newTail
      return (newTail, d)

/-- `active_migrate_journal_page`: `migrate` is `none` when
`should_migrate` declines, else the allocator's answer. -/
def activeMigrateJournalPage (d : Device) (pair : Nat)
    (migrate : Option (Option Nat)) : Except Fault Device := do
  match migrate with
  | none => return d
  | some none => return d
  | some (some blocknr) =>
    let tail ← d.load (pair + 8) 8
    let head ← d.load pair 8
    let page := blocknr * PAGE_SIZE
    let curr := head / PAGE_SIZE * PAGE_SIZE
    let d ← d.memcpy page curr PAGE_SIZE
    let d ← d.store pair 8 (page + head % PAGE_SIZE)
    d.store (pair + 8) 8 (page + tail % PAGE_SIZE)

/-- `nova_commit_lite_transaction`. -/
def novaCommitLiteTransaction (d : Device) (cpus tail cpu : Nat)
    (migrate : Option (Option Nat)) : Except Fault Device := do
  match novaGetJournalPointers cpus cpu with
  | none => .error .bug
  | some pair =>
    let journalTail ← d.load (pair + 8) 8
    if journalTail ≠ tail then .error .bug
    else
      let d ← d.store pair 8 tail
      activeMigrateJournalPage d pair migrate

-- === recovery

/-- `nova_recover_lite_journal_entry`. The flush after the switch
touches the same address, also for an unknown type. -/
def novaRecoverLiteJournalEntry (d : Device) (addr value type : Nat) :
    Except Fault Device := do
  let d ← match type with
    | 1 => d.store addr 1 value
    | 2 => d.store addr 2 value
    | 4 => d.store addr 4 value
    | 8 => d.store addr 8 value
    | _ => pure d
  if d.Ok addr 1 then pure d else .error .oops

/-- One round of the loop of `nova_undo_lite_journal_entry`. -/
def undoSlot (entry : Nat) (d : Device) (i : Nat) : Except Fault Device := do
  let addr ← d.load (entry + 8 * i) 8
  let value ← d.load (entry + 32 + 8 * i) 8
  let type := addr >>> 56
  if addr ≠ 0 ∧ type ≠ 0 then novaRecoverLiteJournalEntry d addr value type
  else pure d

/-- `nova_undo_lite_journal_entry`. -/
def novaUndoLiteJournalEntry (d : Device) (entry : Nat) : Except Fault Device :=
  [0, 1, 2, 3].foldlM (undoSlot entry) d

/-- `nova_recover_lite_journal`. -/
def novaRecoverLiteJournal (d : Device) (pair recover : Nat) :
    Except Fault Device := do
  let head ← d.load pair 8
  let d ← novaUndoLiteJournalEntry d head
  let d ← if recover = 2 then do
      let head ← d.load pair 8
      novaUndoLiteJournalEntry d (nextLiteJournal head)
    else pure d
  let head ← d.load pair 8
  d.store (pair + 8) 8 head

/-- The loop of `nova_lite_journal_soft_init` over the CPUs. -/
def softInitFrom (d : Device) : List Nat → Except Fault (Int × Device)
  | [] => .ok (0, d)
  | i :: rest => do
    let head ← d.load (pairAt i) 8
    let tail ← d.load (pairAt i + 8) 8
    if head = tail then softInitFrom d rest
    else if tail = nextLiteJournal head then do
      let d ← novaRecoverLiteJournal d (pairAt i) 1
      softInitFrom d rest
    else if tail = nextLiteJournal (nextLiteJournal head) then do
      let d ← novaRecoverLiteJournal d (pairAt i) 2
      softInitFrom d rest
    else .ok (-EINVAL, d)

/-- `nova_lite_journal_soft_init`; `oom` is the outcome of its `kzalloc`. -/
def novaLiteJournalSoftInit (d : Device) (cpus : Nat) (oom : Bool) :
    Except Fault (Int × Device) :=
  if oom then .ok (-ENOMEM, d) else softInitFrom d (List.range cpus)

end Themis.Journal
