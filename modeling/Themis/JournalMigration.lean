/-
What `active_migrate_journal_page` does to persistent memory, in order.

`Themis.Journal` has the function as the running program sees it. Here its
stores go through the cache: the new page is zeroed with non-temporal
stores, and the copy and the two pointers are plain stores that nothing
flushes. A store is of eight bytes; a flush is of one cache line.

Freeing a page changes no persistent memory, but from then on the page is
the allocator's.
-/
import Themis.Journal
import Themis.Lib.Pmem

namespace Themis.Journal

open Lib

/-- An eight-byte store. -/
structure WordStore where
  addr : Nat
  value : Nat
  deriving Repr, DecidableEq

/-- The device behind the cache; a flush is given by an address of its
line. -/
def pmem : Pmem Device WordStore Nat where
  apply d s := { d with byte := writeLE d.byte s.addr 8 s.value }
  covers a s := s.addr / CACHELINE_SIZE == a / CACHELINE_SIZE
  hits s s' := s.addr / CACHELINE_SIZE == s'.addr / CACHELINE_SIZE

/-- A step of the code: an event of the memory, or a page given back with
`nova_free_log_blocks`. -/
inductive Action where
  | mem (e : Event WordStore Nat)
  | free (blocknr : Nat)
  deriving Repr, DecidableEq

/-- What the memory sees. -/
def events (as : List Action) : List (Event WordStore Nat) :=
  as.filterMap fun
    | .mem e => some e
    | .free _ => none

/-- The pages given back. -/
def freed (as : List Action) : List Nat :=
  as.filterMap fun
    | .mem _ => none
    | .free blocknr => some blocknr

/-- The words of a page. -/
def PAGE_WORDS : Nat := PAGE_SIZE / 8

/-- The words of a page that `memset_nt` clears. -/
def clearPage (page : Nat) : List WordStore :=
  (List.range PAGE_WORDS).map fun i => ⟨page + 8 * i, 0⟩

/-- The words of a page that `memcpy` stores. -/
def copyPage (d : Device) (page curr : Nat) : List WordStore :=
  (List.range PAGE_WORDS).map fun i => ⟨page + 8 * i, readLE d.byte (curr + 8 * i) 8⟩

/-- The two pointers, moved to the new page. -/
def movePointers (d : Device) (pair page : Nat) : List WordStore :=
  [⟨pair, page + readLE d.byte pair 8 % PAGE_SIZE⟩,
    ⟨pair + 8, page + readLE d.byte (pair + 8) 8 % PAGE_SIZE⟩]

/-- `active_migrate_journal_page` on a device the program sees as `d`. As
in `activeMigrateJournalPage`, `migrate` is `none` when `should_migrate`
declines, else the allocator's answer. -/
def migrateActions (d : Device) (pair : Nat) : Option (Option Nat) → List Action
  | none => []
  | some none => []
  | some (some blocknr) =>
    let page := blocknr * PAGE_SIZE
    let head := readLE d.byte pair 8
    let curr := head / PAGE_SIZE * PAGE_SIZE
    (clearPage page).map (fun s => .mem (.ntStore s))
      ++ (copyPage d page curr ++ movePointers d pair page).map (fun s => .mem (.store s))
      ++ [.free (head / PAGE_SIZE)]

end Themis.Journal
