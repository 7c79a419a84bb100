/-
Crashes around the migration of a journal page.

# The stores are those of the model

Seen by the running program, the stores of `migrateActions` leave the
device that `activeMigrateJournalPage` returns (`migrateActions_view`).

# Crashes

Neither pointer is flushed before the old page is given back. A crash may
keep neither store, so that the ring lies in a free page, or one of them,
so that recovery finds a ring it cannot explain. Journal page migration is
crash safe exactly if no page is migrated (`migration_crash_safe_iff`).
-/
import Themis.JournalMigration
import Themis.Proofs.Journal

namespace Themis.Journal

open Lib List

variable {d d' : Device} {cpus cpu head : Nat}
variable {ks : List WordStore} {a n v blocknr pair : Nat}

-- === the program's view

/-- Stores keep the size. -/
theorem foldl_apply_size (ks : List WordStore) : (ks.foldl pmem.apply d).size = d.size := by
  induction ks generalizing d with
  | nil => rfl
  | cons s ks ih => exact ih

/-- Stores to the bytes, one after another. -/
theorem foldl_apply_byte (ks : List WordStore) :
    (ks.foldl pmem.apply d).byte = ks.foldl (fun m s => writeLE m s.addr 8 s.value) d.byte := by
  induction ks generalizing d with
  | nil => rfl
  | cons s ks ih => exact ih

/-- A device is its size and bytes. -/
theorem device_ext (hsize : d.size = d'.size) (hbyte : d.byte = d'.byte) : d = d' := by
  cases d
  cases d'
  cases hsize
  cases hbyte
  rfl

/-- A byte that is not stored to. -/
theorem foldl_apply_outside {x : Nat} (h : ∀ s ∈ ks, x < s.addr ∨ s.addr + 8 ≤ x) :
    (ks.foldl pmem.apply d).byte x = d.byte x := by
  induction ks generalizing d with
  | nil => rfl
  | cons s ks ih =>
    rw [foldl_cons, ih fun t ht => h t (mem_cons_of_mem _ ht)]
    exact writeLE_outside (h s mem_cons_self)

/-- Clearing and copying a page copies it. -/
theorem clear_copy_byte (page curr : Nat) :
    ((clearPage page ++ copyPage d page curr).foldl pmem.apply d).byte
      = copyBytes d.byte page curr PAGE_SIZE := by
  have hcopy : ∀ d1 : Device, ((copyPage d page curr).foldl pmem.apply d1).byte
      = fun x => if page ≤ x ∧ x < page + 8 * PAGE_WORDS
          then d.byte (x - page + curr) else d1.byte x := by
    intro d1
    rw [foldl_apply_byte, copyPage, foldl_map, foldl_writeLE_words]
  rw [foldl_append, hcopy]
  funext x
  have hwords : 8 * PAGE_WORDS = PAGE_SIZE := by decide
  rw [hwords]
  unfold copyBytes
  split
  · rfl
  apply foldl_apply_outside
  intro s hs
  obtain ⟨i, hi, rfl⟩ := List.mem_map.1 hs
  have hlt := mem_range.1 hi
  show x < page + 8 * i ∨ page + 8 * i + 8 ≤ x
  omega

/-- The events of two lists. -/
theorem events_append (as bs : List Action) : events (as ++ bs) = events as ++ events bs :=
  filterMap_append

/-- The pages freed by two lists. -/
theorem freed_append (as bs : List Action) : freed (as ++ bs) = freed as ++ freed bs :=
  filterMap_append

/-- The events of memory actions. -/
theorem events_mem {α : Type} (f : α → Event WordStore Nat) (l : List α) :
    events (l.map fun x => .mem (f x)) = l.map f := by
  induction l with
  | nil => rfl
  | cons x l ih =>
    show f x :: events (l.map fun x => .mem (f x)) = _
    rw [ih]
    rfl

/-- The stores of a migration. -/
theorem events_migrateActions (d : Device) (pair blocknr : Nat) :
    events (migrateActions d pair (some (some blocknr)))
      = (clearPage (blocknr * PAGE_SIZE)).map .ntStore
        ++ (copyPage d (blocknr * PAGE_SIZE) (readLE d.byte pair 8 / PAGE_SIZE * PAGE_SIZE)
          ++ movePointers d pair (blocknr * PAGE_SIZE)).map .store := by
  show events (_ ++ _ ++ _) = _
  rw [events_append, events_append, events_mem, events_mem]
  exact append_nil _

/-- A load that worked. -/
theorem load_inv (h : d.load a n = .ok v) : v = readLE d.byte a n := by
  unfold Device.load at h
  split at h
  · cases h
    rfl
  · cases h

/-- A copy that worked. -/
theorem memcpy_inv {dst src : Nat} (h : d.memcpy dst src n = .ok d') :
    d'.size = d.size ∧ d'.byte = copyBytes d.byte dst src n := by
  unfold Device.memcpy at h
  split at h
  · cases h
    exact ⟨rfl, rfl⟩
  · cases h

/-- A store that worked. -/
theorem store_inv (h : d.store a n v = .ok d') :
    d'.size = d.size ∧ d'.byte = writeLE d.byte a n v := by
  unfold Device.store at h
  split at h
  · cases h
    exact ⟨rfl, rfl⟩
  · cases h

/-- What a migration does to the bytes. -/
theorem activeMigrateJournalPage_eq
    (h : activeMigrateJournalPage d pair (some (some blocknr)) = .ok d') :
    d'.size = d.size ∧ d'.byte = writeLE (writeLE (copyBytes d.byte (blocknr * PAGE_SIZE)
        (readLE d.byte pair 8 / PAGE_SIZE * PAGE_SIZE) PAGE_SIZE) pair 8
          (blocknr * PAGE_SIZE + readLE d.byte pair 8 % PAGE_SIZE)) (pair + 8) 8
          (blocknr * PAGE_SIZE + readLE d.byte (pair + 8) 8 % PAGE_SIZE) := by
  unfold activeMigrateJournalPage at h
  simp only [bind, Except.bind] at h
  split at h
  · cases h
  rename_i tail htail
  split at h
  · cases h
  rename_i head hhead
  split at h
  · cases h
  rename_i d1 hcopy
  split at h
  · cases h
  rename_i d2 hstore
  obtain ⟨hsize1, hbyte1⟩ := memcpy_inv hcopy
  obtain ⟨hsize2, hbyte2⟩ := store_inv hstore
  obtain ⟨hsize, hbyte⟩ := store_inv h
  rw [hbyte, hbyte2, hbyte1, hsize, hsize2, hsize1, load_inv htail, load_inv hhead]
  exact ⟨rfl, rfl⟩

/-- Seen by the program, a migration on a device with nothing pending
leaves what `activeMigrateJournalPage` returns. -/
theorem migrateActions_view (h : activeMigrateJournalPage d pair (some (some blocknr)) = .ok d') :
    pmem.view (pmem.exec ⟨d, []⟩ (events (migrateActions d pair (some (some blocknr))))) = d' := by
  obtain ⟨hsize, hbyte⟩ := activeMigrateJournalPage_eq h
  rw [events_migrateActions, Pmem.exec_append, Pmem.exec_ntStores, Pmem.exec_stores]
  unfold Pmem.view
  simp only [map_append, List.map_map, Function.comp_def, List.map_id']
  apply device_ext
  · rw [foldl_apply_size, hsize]
  · rw [← append_assoc, foldl_append, hbyte, ← clear_copy_byte]
    rfl

-- === crashes

/-- A store outside the page of pointers. -/
def OffPointers (s : WordStore) : Prop :=
  s.addr + 8 ≤ PAGE_SIZE ∨ 2 * PAGE_SIZE ≤ s.addr

/-- What may happen between the migration and the next flush of the
journal: stores outside the pointer block, flushes and fences, and pages
given back other than the journal's. -/
def Quiet (page : Nat) (as : List Action) : Prop :=
  (∀ s ∈ Pmem.stored (events as), OffPointers s) ∧ page ∉ freed as

/-- A device with the pointers of `d`. -/
structure SamePointers (d d' : Device) : Prop where
  size : d'.size = d.size
  heads : ∀ i < 64, headOf d' i = headOf d i
  tails : ∀ i < 64, tailOf d' i = tailOf d i

/-- Such stores leave the pointers. -/
theorem samePointers_foldl (h : ∀ s ∈ ks, OffPointers s) :
    SamePointers d (ks.foldl pmem.apply d) := by
  have hbyte : ∀ x, PAGE_SIZE ≤ x → x < 2 * PAGE_SIZE →
      (ks.foldl pmem.apply d).byte x = d.byte x := by
    intro x hlow hhigh
    apply foldl_apply_outside
    intro s hs
    rcases h s hs with hoff | hoff
    · exact .inr (by omega)
    · exact .inl (by omega)
  have hread : ∀ a, PAGE_SIZE ≤ a → a + 8 ≤ 2 * PAGE_SIZE →
      readLE (ks.foldl pmem.apply d).byte a 8 = readLE d.byte a 8 := by
    intro a hlow hhigh
    apply readLE_congr
    intro x h1 h2
    exact hbyte x (by omega) (by omega)
  refine ⟨foldl_apply_size ks, ?_, ?_⟩
  · intro i hi
    apply hread
    · simp only [pairAt]
      omega
    · simp only [pairAt, CACHELINE_SIZE, PAGE_SIZE]
      omega
  intro i hi
  apply hread
  · simp only [pairAt]
    omega
  · simp only [pairAt, CACHELINE_SIZE, PAGE_SIZE]
    omega

/-- A crash left `d`: recovery returns 0 and changes nothing, and the ring
of `cpu` is in no page of `pages`. -/
def Recovers (cpus cpu : Nat) (pages : List Nat) (d : Device) : Prop :=
  novaLiteJournalSoftInit d cpus false = .ok (0, d) ∧ headOf d cpu / PAGE_SIZE ∉ pages

/-- The migration is crash safe, on a device that the cache `c` stands
for: whatever a crash leaves at a point inside it, or after it and before
the next flush of the journal. -/
def MigrationSafe (c : Pmem.Cache Device WordStore) (cpus cpu : Nat)
    (migrate : Option (Option Nat)) : Prop :=
  ∀ done later m,
    done <+: migrateActions (pmem.view c) (pairAt cpu) migrate →
    (later ≠ [] → done = migrateActions (pmem.view c) (pairAt cpu) migrate) →
    Quiet (headOf (pmem.view c) cpu / PAGE_SIZE) later →
    pmem.Image (pmem.exec c (events (done ++ later))) m →
    Recovers cpus cpu (freed (done ++ later)) m

/-- A journal state with all rings empty, and the pointers durable. -/
structure Settled (c : Pmem.Cache Device WordStore) (cpus cpu head : Nat) : Prop where
  idle : Idle (pmem.view c) cpus cpu head
  pending : ∀ q ∈ c.pending, OffPointers q.1

variable {c : Pmem.Cache Device WordStore}

/-- The pointers that are durable. -/
theorem Settled.samePointers (h : Settled c cpus cpu head) :
    SamePointers c.durable (pmem.view c) := by
  apply samePointers_foldl
  intro s hs
  obtain ⟨q, hq, rfl⟩ := List.mem_map.1 hs
  exact h.pending q hq

/-- After a later crash recovery works. -/
theorem Settled.safe (h : Settled c cpus cpu head) {later : List Action} {m : Device}
    (hq : Quiet (headOf (pmem.view c) cpu / PAGE_SIZE) later)
    (hm : pmem.Image (pmem.exec c (events later)) m) : Recovers cpus cpu (freed later) m := by
  have hmade : pmem.MadeOf c.durable OffPointers c := ⟨⟨[], by simp, rfl⟩, h.pending⟩
  obtain ⟨ks, hks, rfl⟩ := (hmade.exec (events later) hq.1).image hm
  have hview := h.samePointers
  have hsame := samePointers_foldl (d := c.durable) hks
  have hcpus := h.idle.cpus_le
  have hlt := h.idle.cpu_lt
  constructor
  · apply novaLiteJournalSoftInit_quiet hcpus
    · have hge := h.idle.page_ge
      have hle := h.idle.page_le
      rw [hsame.size, ← hview.size]
      simp only [PAGE_SIZE] at *
      omega
    · intro i hi
      rw [hsame.heads i (by omega), hsame.tails i (by omega), ← hview.heads i (by omega),
        ← hview.tails i (by omega)]
      exact h.idle.quiet i hi
  · rw [hsame.heads cpu (by omega), ← hview.heads cpu (by omega)]
    exact hq.2

/-- Without a fence nothing gets durable. -/
theorem exec_durable (evs : List (Event WordStore Nat)) (h : .fence ∉ evs) :
    (pmem.exec c evs).durable = c.durable := by
  induction evs generalizing c with
  | nil => rfl
  | cons e evs ih =>
    have hrest := ih (c := pmem.step c e) fun hmem => h (mem_cons_of_mem _ hmem)
    show (pmem.exec (pmem.step c e) evs).durable = _
    rw [hrest]
    cases e with
    | fence => exact absurd mem_cons_self h
    | _ => rfl

/-- A crash may lose the whole migration. -/
theorem migration_lost (c : Pmem.Cache Device WordStore) (pair blocknr : Nat) :
    pmem.Image (pmem.exec c (events (migrateActions (pmem.view c) pair (some (some blocknr)))))
      c.durable := by
  refine ⟨[], nil_sublist _, ?_⟩
  rw [exec_durable]
  · rfl
  · rw [events_migrateActions]
    simp

/-- Migration of a journal page, in every journal state with empty rings
and durable pointers: it is crash safe exactly if no page is migrated,
because `should_migrate` declines or no block can be had. -/
theorem migration_crash_safe_iff (migrate : Option (Option Nat)) (h : Settled c cpus cpu head) :
    MigrationSafe c cpus cpu migrate ↔ ∀ blocknr, migrate ≠ some (some blocknr) := by
  constructor
  · rintro hsafe blocknr rfl
    have hall := hsafe _ [] c.durable (prefix_refl _) (fun hne => absurd rfl hne)
      ⟨by simp [events, Pmem.stored], by simp [freed]⟩
      (by rw [append_nil]; exact migration_lost c _ blocknr)
    -- the old page is given back and the old pointer still leads there
    apply hall.2
    have hcpu : cpu < 64 := lt_of_lt_of_le h.idle.cpu_lt h.idle.cpus_le
    rw [append_nil, ← h.samePointers.heads cpu hcpu]
    show _ ∈ freed (_ ++ _)
    rw [freed_append]
    exact mem_append_right _ mem_cons_self
  intro hno done later m hdone _ hq hm
  have hnil : migrateActions (pmem.view c) (pairAt cpu) migrate = [] := by
    rcases migrate with _ | _ | blocknr
    · rfl
    · rfl
    · exact absurd rfl (hno blocknr)
  rw [hnil, prefix_nil] at hdone
  rw [hdone, nil_append] at hm ⊢
  exact h.safe hq hm

/-- The small device is settled. -/
theorem smallDevice_settled : Settled ⟨smallDevice, []⟩ 1 0 12288 := ⟨smallDevice_idle, by simp⟩

/-- The small device, when no block can be had. -/
theorem migration_crash_safe_no_block :
    MigrationSafe ⟨smallDevice, []⟩ 1 0 (some none) :=
  (migration_crash_safe_iff (some none) smallDevice_settled).2 fun blocknr h => by cases h

/-- A crash may keep one pointer only. -/
theorem torn_pair_image : pmem.Image (pmem.exec ⟨smallDevice, []⟩
        (events (migrateActions smallDevice (pairAt 0) (some (some 4)))))
      (pmem.apply smallDevice ⟨4096, 16384⟩) := by
  rw [events_migrateActions, Pmem.exec_append, Pmem.exec_ntStores, Pmem.exec_stores]
  refine ⟨[⟨4096, 16384⟩], ?_, rfl⟩
  have hhead : readLE smallDevice.byte 4096 8 = 12288 := by decide
  simp [movePointers, hhead, pairAt, PAGE_SIZE]

/-- Recovery then refuses the device. -/
theorem torn_pair_rejected :
    (novaLiteJournalSoftInit (pmem.apply smallDevice ⟨4096, 16384⟩) 1 false).map Prod.fst
      = .ok (-EINVAL) := by decide +kernel

/-- Migration to block 4 is not crash safe: it leaves the ring in the page
given back when nothing is kept, and pointers that recovery rejects when
only the head is; the proof takes the second. -/
theorem migration_can_lose_ring :
    Idle smallDevice 1 0 12288 ∧ ¬ MigrationSafe ⟨smallDevice, []⟩ 1 0 (some (some 4)) := by
  refine ⟨smallDevice_idle, fun hsafe => ?_⟩
  have hall := hsafe _ [] _ (prefix_refl _) (fun hne => absurd rfl hne)
    ⟨by simp [events, Pmem.stored], by simp [freed]⟩
    (by rw [append_nil]; exact torn_pair_image)
  have hret := congrArg (Except.map Prod.fst) hall.1
  rw [torn_pair_rejected] at hret
  exact absurd hret (by decide)

end Themis.Journal
