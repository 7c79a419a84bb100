/-
When a tail update survives a concurrent migration of its inode page.

The whole story is in two orders of steps: whether the tail was stored
before the page was copied, and whether the record was resolved after
the table was switched. If neither, the store goes to the page the table
no longer leads to, and the update is lost. `Inv` follows both orders
through every interleaving; the locks play no part in it, which is the
defect.
-/
import Themis.TailRace
import Mathlib.Data.List.Basic
import Mathlib.Data.List.Induction
import Mathlib.Data.Nat.Bitwise

namespace Themis.TailRace

open InodeTables Option List

variable {c : Call} {s₀ s s' : RaceState} {evs : List Event}
variable {a ino n : Nat} {e : Event} {m : InodeTables}

-- === order in a list

/-- A pair in a list with one more element. -/
theorem pair_sublist_snoc {α : Type} {a b e : α} {l : List α} :
    [a, b].Sublist (l ++ [e]) ↔ [a, b].Sublist l ∨ (a ∈ l ∧ b = e) := by
  -- read from the end, the last element comes first
  have hrev : [a, b].reverse.Sublist (e :: l.reverse) ↔
      [a, b].reverse.Sublist l.reverse ∨ b = e ∧ [a].Sublist l.reverse := cons_sublist_cons'
  rwa [← reverse_concat, reverse_sublist, reverse_sublist, singleton_sublist, mem_reverse,
    and_comm] at hrev

/-- One more event. -/
theorem run_snoc (evs : List Event) (e : Event) :
    run c s (evs ++ [e]) = (run c s evs).bind fun s' => step c s' e := by
  simp only [run, foldlM_append, foldlM_cons, foldlM_nil, bind_pure, bind_eq_bind]

-- === memory

/-- Where the record of `ino` is on a page. -/
def recordAt (m : InodeTables) (ino page : Nat) : Nat :=
  page + m.inodeIndex ino * NOVA_INODE_SIZE

/-- A record begins in its page. -/
theorem inodeIndex_lt (m : InodeTables) (ino : Nat) :
    m.inodeIndex ino * NOVA_INODE_SIZE < PAGE_SIZE := by
  have h : m.inodeIndex ino ≤ 2 ^ NUM_INODES_BITS - 1 := Nat.and_le_right
  simp only [NUM_INODES_BITS, NOVA_INODE_SIZE, PAGE_SIZE] at *
  omega

/-- A record is on one page only. -/
theorem recordAt_outside {p q : Nat} (hp : PAGE_SIZE ∣ p) (hq : PAGE_SIZE ∣ q) (hne : p ≠ q) :
    ¬ (q ≤ recordAt m ino p ∧ recordAt m ino p < q + PAGE_SIZE) := by
  have hlt := inodeIndex_lt m ino
  unfold recordAt
  obtain ⟨i, rfl⟩ := hp
  obtain ⟨j, rfl⟩ := hq
  have hij : i ≠ j := fun h => hne (h ▸ rfl)
  rintro ⟨h1, h2⟩
  rcases Nat.lt_or_gt_of_ne hij with h | h
  · have : PAGE_SIZE * (i + 1) ≤ PAGE_SIZE * j := Nat.mul_le_mul_left _ h
    rw [Nat.mul_add] at this
    omega
  have : PAGE_SIZE * (j + 1) ≤ PAGE_SIZE * i := Nat.mul_le_mul_left _ h
  rw [Nat.mul_add] at this
  omega

/-- Records on two pages differ. -/
theorem recordAt_ne {p q : Nat} (hne : p ≠ q) : recordAt m ino p ≠ recordAt m ino q := by
  unfold recordAt
  omega

/-- The tails after a store. -/
theorem storeTail_tail (m : InodeTables) (pi tail a : Nat) :
    ((m.storeTail pi tail).record a).logTail = if a = pi then tail else (m.record a).logTail := by
  unfold storeTail
  dsimp only
  split <;> rfl

/-- A copied record. -/
theorem copyPage_inside (m : InodeTables) (ino dst src : Nat) :
    (m.copyPage dst src).record (recordAt m ino dst) = m.record (recordAt m ino src) := by
  have hlt := inodeIndex_lt m ino
  unfold copyPage recordAt
  dsimp only
  rw [if_pos ⟨Nat.le_add_right _ _, by omega⟩]
  congr 1
  omega

/-- A record that was not copied. -/
theorem copyPage_outside {dst src : Nat} (h : ¬ (dst ≤ a ∧ a < dst + PAGE_SIZE)) :
    (m.copyPage dst src).record a = m.record a := if_neg h

/-- The address is the one on the mapped page. -/
theorem novaGetInodeAddress_eq (h : m.novaGetInodeAddress ino = some a) :
    a = recordAt m ino (m.slotOf ino) := by
  unfold novaGetInodeAddress at h
  dsimp only at h
  split at h
  · injection h with h
    exact h.symm
  · cases h

/-- The address after a switch. -/
theorem novaGetInodeAddress_switchSlot {j page : Nat} (h : m.novaGetInodeAddress ino = some a)
    (hpage : page ≠ 0) (hcpu : m.cpuOf j = m.cpuOf ino)
    (hslot : m.superpageCount j = m.superpageCount ino) :
    (m.switchSlot j page).novaGetInodeAddress ino = some (recordAt m ino page) := by
  unfold novaGetInodeAddress at h ⊢
  dsimp only at h ⊢
  split at h
  · next hall =>
    have hnew : ∀ k, (m.switchSlot j page).mappingTable (m.cpuOf ino) k
        = if k = m.superpageCount ino then page
          else m.mappingTable (m.cpuOf ino) k := by
      intro k
      unfold switchSlot
      rw [hcpu, hslot]
      simp
    rw [if_pos]
    · show some ((m.switchSlot j page).mappingTable (m.cpuOf ino) (m.superpageCount ino) + _) = _
      rw [hnew, if_pos rfl]
      rfl
    rw [List.all_eq_true] at hall ⊢
    intro k hk
    have hold := hall k hk
    show ((m.switchSlot j page).mappingTable (m.cpuOf ino) k != 0) = true
    rw [hnew]
    split
    · simpa using hpage
    · exact hold
  · cases h

-- === the invariant

/-- The page that is mapped. -/
def MigratePc.mapped (old : Nat) : MigratePc → Nat
  | .switched n | .done n => n
  | _ => old

/-- The page that was copied to. -/
def MigratePc.copy : MigratePc → Option Nat
  | .copied _ n | .switched n | .done n => some n
  | _ => none

/-- A page a migration may get. -/
def FreshPage (old n : Nat) : Prop := n ≠ 0 ∧ n ≠ old ∧ PAGE_SIZE ∣ n

/-- The pages of the migration are as they should. -/
def MigratePc.Placed (old : Nat) : MigratePc → Prop
  | .found curr => curr = old
  | .allocated curr n | .copied curr n => curr = old ∧ FreshPage old n
  | .switched n | .done n => FreshPage old n
  | _ => True

/-- The record the update has resolved. -/
def UpdatePc.ptr : UpdatePc → Option Nat
  | .resolved pi | .ready pi | .stored pi | .done pi => some pi
  | _ => none

/-- The update has stored. -/
def UpdatePc.hasStored : UpdatePc → Prop
  | .stored _ | .done _ => True
  | _ => False

/-- The lookup comes after the switch. -/
def ResolvedLate (evs : List Event) : Prop :=
  [Event.migSwitch, Event.lookup].Sublist evs

/-- The store comes before the copy. -/
def StoredEarly (evs : List Event) : Prop :=
  [Event.store, Event.migCopy].Sublist evs

instance (evs : List Event) : Decidable (StoredEarly evs) :=
  inferInstanceAs (Decidable (List.Sublist _ evs))

/-- The start of the two calls: nobody holds a lock, the migration is
called for an inode of the same page, the inode's record can be reached,
and a free block is not the page in use. A reserved inode number is
updated through the pointer passed in, so there that pointer has to be
the record's. -/
structure Start (c : Call) (s₀ : RaceState) : Prop where
  update_eq : s₀.update = .start
  migrate_eq : s₀.migrate = .start
  tableUnlocked : ∀ cpu, s₀.tableLock cpu = none
  pageUnlocked : ∀ i k, s₀.pageLock i k = none
  sameCpu : s₀.mem.cpuOf c.migrateIno = s₀.mem.cpuOf c.ino
  sameSlot : s₀.mem.superpageCount c.migrateIno = s₀.mem.superpageCount c.ino
  reached : s₀.mem.novaGetInodeAddress c.ino
    = some (recordAt s₀.mem c.ino (s₀.mem.slotOf c.ino))
  aligned : PAGE_SIZE ∣ s₀.mem.slotOf c.ino
  passed : c.ino ≤ NOVA_NORMAL_INODE_START →
    s₀.mem.novaGetInodeAddress c.ino = some c.pi
  free : ∀ b, s₀.freeBlocks b = true → b ≠ 0 ∧ b * PAGE_SIZE ≠ s₀.mem.slotOf c.ino

/-- `tail` is `new` if `p` holds and `old` if not. -/
structure Selects (p : Prop) (new old tail : Nat) : Prop where
  yes : p → tail = new
  no : ¬ p → tail = old

/-- Only the truth of `p` matters. -/
theorem Selects.congr {p q : Prop} {new old tail : Nat}
    (h : Selects p new old tail) (hpq : q ↔ p) : Selects q new old tail :=
  ⟨fun hq => h.yes (hpq.mp hq), fun hq => h.no (fun hp => hq (hpq.mpr hp))⟩

/-- What holds after the steps `evs`, in terms of the page `old` mapped
at the start and the tail `t₀` stored there. -/
structure Inv (c : Call) (old t₀ : Nat) (s₀ s : RaceState) (evs : List Event) :
    Prop where
  cpus_eq : s.mem.cpus = s₀.mem.cpus
  free_eq : s.freeBlocks = s₀.freeBlocks
  slot_eq : s.mem.slotOf c.ino = s.migrate.mapped old
  lookup_eq : s.mem.novaGetInodeAddress c.ino
    = some (recordAt s₀.mem c.ino (s.migrate.mapped old))
  placed : s.migrate.Placed old
  copy_iff : .migCopy ∈ evs ↔ s.migrate.copy.isSome
  switch_iff : .migSwitch ∈ evs ↔ s.migrate.mapped old ≠ old
  store_iff : .store ∈ evs ↔ s.update.hasStored
  late_ptr : ResolvedLate evs → s.update.ptr.isSome
  ptr_late : ∀ pi, s.update.ptr = some pi → ResolvedLate evs →
    pi = recordAt s₀.mem c.ino (s.migrate.mapped old)
  ptr_early : ∀ pi, s.update.ptr = some pi → ¬ ResolvedLate evs →
    pi = recordAt s₀.mem c.ino old
  oldTail : Selects (.store ∈ evs ∧ ¬ ResolvedLate evs) c.newTail t₀
    (s.mem.record (recordAt s₀.mem c.ino old)).logTail
  copyTail : ∀ n, s.migrate.copy = some n →
    Selects (StoredEarly evs ∨ (.store ∈ evs ∧ ResolvedLate evs)) c.newTail t₀
      (s.mem.record (recordAt s₀.mem c.ino n)).logTail

variable {old t₀ : Nat}

/-- The mapped page is the copy. -/
theorem MigratePc.mapped_eq_copy {m : MigratePc} (hn : m.copy = some n) (hmap : m.mapped old ≠ old) :
    m.mapped old = n := by
  cases m with
  | switched k => exact some.inj hn
  | done k => exact some.inj hn
  | copied => exact absurd rfl hmap
  | _ => cases hn

/-- The copy is another page. -/
theorem MigratePc.copy_ne {m : MigratePc} (hn : m.copy = some n) (hp : m.Placed old) : n ≠ old := by
  cases m with
  | copied k l => exact some.inj hn ▸ hp.2.2.1
  | switched k => exact some.inj hn ▸ hp.2.1
  | done k => exact some.inj hn ▸ hp.2.1
  | _ => cases hn

/-- One more event. -/
theorem resolvedLate_snoc : ResolvedLate (evs ++ [e]) ↔
      ResolvedLate evs ∨ (.migSwitch ∈ evs ∧ .lookup = e) := pair_sublist_snoc

/-- One more event. -/
theorem storedEarly_snoc :
    StoredEarly (evs ++ [e]) ↔ StoredEarly evs ∨ (.store ∈ evs ∧ .migCopy = e) := pair_sublist_snoc

section

variable (h : Inv c old t₀ s₀ s evs)
include h

/-- Before the switch no lookup is late. -/
theorem Inv.not_late (hm : s.migrate.mapped old = old) : ¬ ResolvedLate evs := by
  intro hlate
  have hmem : Event.migSwitch ∈ evs := hlate.subset (by simp)
  exact h.switch_iff.mp hmem hm

/-- Steps that only move a program counter: neither the memory nor any
of the facts the invariant speaks about changes. -/
theorem Inv.quiet
    (he : e ≠ .lookup ∧ e ≠ .store ∧ e ≠ .migCopy ∧ e ≠ .migSwitch) (hmem : s'.mem = s.mem)
    (hfree : s'.freeBlocks = s.freeBlocks) (hptr : s'.update.ptr = s.update.ptr)
    (hsto : s'.update.hasStored ↔ s.update.hasStored)
    (hmap : s'.migrate.mapped old = s.migrate.mapped old) (hcopy : s'.migrate.copy = s.migrate.copy)
    (hplaced : s'.migrate.Placed old) : Inv c old t₀ s₀ s' (evs ++ [e]) := by
  obtain ⟨h1, h2, h3, h4⟩ := he
  have hlate : ResolvedLate (evs ++ [e]) ↔ ResolvedLate evs := by
    rw [resolvedLate_snoc]
    simp [Ne.symm h1]
  have hearly : StoredEarly (evs ++ [e]) ↔ StoredEarly evs := by
    rw [storedEarly_snoc]
    simp [Ne.symm h3]
  have hstore : Event.store ∈ evs ++ [e] ↔ Event.store ∈ evs := by simp [Ne.symm h2]
  refine ⟨hmem ▸ h.cpus_eq, hfree ▸ h.free_eq, ?_, ?_, hplaced, ?_, ?_, ?_, ?_, ?_, ?_, ?_, ?_⟩
  · rw [hmem, hmap]
    exact h.slot_eq
  · rw [hmem, hmap]
    exact h.lookup_eq
  · rw [hcopy, ← h.copy_iff]
    simp [Ne.symm h3]
  · rw [hmap, ← h.switch_iff]
    simp [Ne.symm h4]
  · rw [hstore, hsto]
    exact h.store_iff
  · rw [hlate, hptr]
    exact h.late_ptr
  · rw [hlate, hptr, hmap]
    exact h.ptr_late
  · rw [hlate, hptr]
    exact h.ptr_early
  · rw [hmem]
    exact h.oldTail.congr (by rw [hstore, hlate])
  intro n hn
  rw [hmem]
  exact (h.copyTail n (hcopy ▸ hn)).congr (by rw [hstore, hlate, hearly])

/-- The lookup. -/
theorem Inv.lookup {pi : Nat} (hupd : s.update = .tableLocked)
    (haddr : s.mem.novaGetInodeAddress c.ino = some pi) :
    Inv c old t₀ s₀ { s with update := .resolved pi } (evs ++ [.lookup]) := by
  have hnot : ¬ ResolvedLate evs := by
    intro hlate
    have := h.late_ptr hlate
    rw [hupd] at this
    cases this
  have hstore : Event.store ∉ evs := by
    rw [h.store_iff, hupd]
    exact id
  have hlate : ResolvedLate (evs ++ [.lookup]) ↔ s.migrate.mapped old ≠ old := by
    rw [resolvedLate_snoc, h.switch_iff]
    simp [hnot]
  have hearly : StoredEarly (evs ++ [.lookup]) ↔ StoredEarly evs := by
    rw [storedEarly_snoc]
    simp
  have hpi : pi = recordAt s₀.mem c.ino (s.migrate.mapped old) := by
    rw [h.lookup_eq] at haddr
    exact (some.inj haddr).symm
  refine ⟨h.cpus_eq, h.free_eq, h.slot_eq, h.lookup_eq, h.placed, ?_, ?_, ?_, ?_, ?_, ?_, ?_, ?_⟩
  · simpa using h.copy_iff
  · simpa using h.switch_iff
  · simp [hstore, UpdatePc.hasStored]
  · intro _
    rfl
  · intro q hq _
    cases hq
    exact hpi
  · intro q hq hnl
    cases hq
    rw [hlate, not_not] at hnl
    rw [hpi, hnl]
  · exact h.oldTail.congr (by simp [hstore])
  · intro n hn
    exact (h.copyTail n hn).congr (by simp [hstore, hearly])

/-- The store. -/
theorem Inv.store {pi : Nat} (hnot : ¬ s.update.hasStored)
    (hlateptr : ResolvedLate evs → pi = recordAt s₀.mem c.ino (s.migrate.mapped old))
    (hearlyptr : ¬ ResolvedLate evs → pi = recordAt s₀.mem c.ino old) :
    Inv c old t₀ s₀ { s with mem := s.mem.storeTail pi c.newTail
                             update := .stored pi } (evs ++ [.store]) := by
  have hstore : Event.store ∉ evs := fun hm => hnot (h.store_iff.mp hm)
  have hlate : ResolvedLate (evs ++ [.store]) ↔ ResolvedLate evs := by
    rw [resolvedLate_snoc]
    simp
  have hearly : StoredEarly (evs ++ [.store]) ↔ StoredEarly evs := by
    rw [storedEarly_snoc]
    simp
  have hnearly : ¬ StoredEarly evs := fun he => hstore (he.subset (by simp))
  refine ⟨h.cpus_eq, h.free_eq, h.slot_eq, h.lookup_eq, h.placed, ?_, ?_, ?_, ?_, ?_, ?_, ?_, ?_⟩
  · simpa using h.copy_iff
  · simpa using h.switch_iff
  · simp [UpdatePc.hasStored]
  · intro _
    rfl
  · intro q hq hl
    cases hq
    exact hlateptr (hlate.mp hl)
  · intro q hq hl
    cases hq
    exact hearlyptr (fun hl' => hl (hlate.mpr hl'))
  · rw [storeTail_tail]
    by_cases hl : ResolvedLate evs
    · have hmap : s.migrate.mapped old ≠ old := h.switch_iff.mp (hl.subset (by simp))
      rw [if_neg (by rw [hlateptr hl]; exact recordAt_ne (Ne.symm hmap))]
      exact h.oldTail.congr (by simp [hlate, hl])
    · rw [if_pos (hearlyptr hl).symm]
      exact ⟨fun _ => rfl, fun hno => absurd ⟨by simp, mt hlate.mp hl⟩ hno⟩
  intro n hn
  have htail := (h.copyTail n hn).no (by simp [hnearly, hstore])
  rw [storeTail_tail]
  by_cases hl : ResolvedLate evs
  · -- resolved late: the pointer is into the copy
    have hmap : s.migrate.mapped old ≠ old := h.switch_iff.mp (hl.subset (by simp))
    rw [if_pos (by rw [hlateptr hl, MigratePc.mapped_eq_copy hn hmap])]
    exact ⟨fun _ => rfl, fun hno =>
      absurd (.inr ⟨by simp, hlate.mpr hl⟩) hno⟩
  have hne := MigratePc.copy_ne hn h.placed
  rw [if_neg (by rw [hearlyptr hl]; exact recordAt_ne hne), htail]
  exact ⟨fun hyes => by simp [hearly, hnearly, hlate, hl] at hyes, fun _ => rfl⟩

end

/-- Only the CPUs matter. -/
theorem recordAt_congr {m' : InodeTables} (h : m.cpus = m'.cpus) (ino page : Nat) :
    recordAt m ino page = recordAt m' ino page := by
  unfold recordAt inodeIndex
  rw [h]

/-- The copy. -/
theorem Inv.copy (h : Inv c old t₀ s₀ s evs) {curr n : Nat}
    (hold : PAGE_SIZE ∣ old) (hmig : s.migrate = .allocated curr n) :
    Inv c old t₀ s₀ { s with mem := s.mem.copyPage n curr
                             migrate := .copied curr n } (evs ++ [.migCopy]) := by
  have hplaced : curr = old ∧ FreshPage old n := by
    have := h.placed
    rwa [hmig] at this
  obtain ⟨rfl, hn⟩ := hplaced
  have hmap : s.migrate.mapped curr = curr := by rw [hmig]; rfl
  have hnl := h.not_late hmap
  have hlate : ResolvedLate (evs ++ [.migCopy]) ↔ ResolvedLate evs := by
    rw [resolvedLate_snoc]
    simp
  have hnc : Event.migCopy ∉ evs := by
    rw [h.copy_iff, hmig]
    simp [MigratePc.copy]
  have hearly : StoredEarly (evs ++ [.migCopy]) ↔ Event.store ∈ evs := by
    rw [storedEarly_snoc]
    constructor
    · rintro (he | he)
      · exact absurd (he.subset (by simp)) hnc
      · exact he.1
    · exact fun he => .inr ⟨he, rfl⟩
  have hslot := h.slot_eq
  have hlook := h.lookup_eq
  rw [hmap] at hslot hlook
  refine ⟨h.cpus_eq, h.free_eq, hslot, hlook, ⟨rfl, hn⟩, ?_, ?_, ?_, ?_, ?_, ?_, ?_, ?_⟩
  · simp [MigratePc.copy]
  · have := h.switch_iff
    rw [hmap] at this
    simpa [MigratePc.mapped] using this
  · simpa using h.store_iff
  · rw [hlate]
    exact h.late_ptr
  · intro pi _ hl
    exact absurd (hlate.mp hl) hnl
  · intro pi hpi _
    exact h.ptr_early pi hpi hnl
  · rw [copyPage_outside (recordAt_outside hold hn.2.2 (Ne.symm hn.2.1))]
    exact h.oldTail.congr (by simp [hlate])
  intro k hk
  cases hk
  rw [← recordAt_congr h.cpus_eq, copyPage_inside, recordAt_congr h.cpus_eq]
  exact h.oldTail.congr (by simp [hlate, hearly, hnl])

/-- The switch. -/
theorem Inv.switch (h : Inv c old t₀ s₀ s evs) {curr : Nat}
    (hcpu : s₀.mem.cpuOf c.migrateIno = s₀.mem.cpuOf c.ino)
    (hsp : s₀.mem.superpageCount c.migrateIno = s₀.mem.superpageCount c.ino)
    (hmig : s.migrate = .copied curr n) :
    Inv c old t₀ s₀ { s with mem := s.mem.switchSlot c.migrateIno n
                             migrate := .switched n } (evs ++ [.migSwitch]) := by
  have hplaced : curr = old ∧ FreshPage old n := by
    have := h.placed
    rwa [hmig] at this
  obtain ⟨rfl, hn⟩ := hplaced
  have hmap : s.migrate.mapped curr = curr := by rw [hmig]; rfl
  have hcopy : s.migrate.copy = some n := by rw [hmig]; rfl
  have hnl := h.not_late hmap
  have hlate : ResolvedLate (evs ++ [.migSwitch]) ↔ ResolvedLate evs := by
    rw [resolvedLate_snoc]
    simp
  have hearly : StoredEarly (evs ++ [.migSwitch]) ↔ StoredEarly evs := by
    rw [storedEarly_snoc]
    simp
  have hcpu' : s.mem.cpuOf c.migrateIno = s.mem.cpuOf c.ino := by
    unfold cpuOf at hcpu ⊢
    rw [h.cpus_eq]
    exact hcpu
  have hsp' : s.mem.superpageCount c.migrateIno = s.mem.superpageCount c.ino := by
    unfold superpageCount at hsp ⊢
    rw [h.cpus_eq]
    exact hsp
  refine ⟨h.cpus_eq, h.free_eq, ?_, ?_, hn, ?_, ?_, ?_, ?_, ?_, ?_, ?_, ?_⟩
  · show (s.mem.switchSlot c.migrateIno n).slotOf c.ino = n
    exact if_pos ⟨hcpu'.symm, hsp'.symm⟩
  · show (s.mem.switchSlot c.migrateIno n).novaGetInodeAddress c.ino = _
    rw [novaGetInodeAddress_switchSlot h.lookup_eq hn.1 hcpu' hsp', recordAt_congr h.cpus_eq]
    rfl
  · have := h.copy_iff
    rw [hcopy] at this
    simpa [MigratePc.copy] using this
  · simpa [MigratePc.mapped] using hn.2.1
  · simpa using h.store_iff
  · rw [hlate]
    exact h.late_ptr
  · intro pi _ hl
    exact absurd (hlate.mp hl) hnl
  · intro pi hpi _
    exact h.ptr_early pi hpi hnl
  · exact h.oldTail.congr (by simp [hlate])
  intro k hk
  cases hk
  exact (h.copyTail n hcopy).congr (by simp [hlate, hearly])

-- === every run

/-- Any event keeps the invariant. -/
theorem Inv.step {e : Event} (hstart : Start c s₀) (h : Inv c (s₀.mem.slotOf c.ino) t₀ s₀ s evs)
    (hstep : TailRace.step c s e = some s') :
    Inv c (s₀.mem.slotOf c.ino) t₀ s₀ s' (evs ++ [e]) := by
  cases e <;> simp only [TailRace.step] at hstep
  case lockPage | lockTable =>
    split at hstep
    · next hg =>
      cases hstep
      exact h.quiet (by simp) rfl rfl (by rw [hg.1]; rfl)
        (by rw [hg.1]; exact Iff.rfl) rfl rfl h.placed
    · cases hstep
  case lookup =>
    split at hstep
    · next hg =>
      rw [h.lookup_eq] at hstep
      cases hstep
      exact h.lookup hg h.lookup_eq
    · cases hstep
  case store =>
    split at hstep
    · next pi hg =>
      cases hstep
      exact h.store (by rw [hg]; exact id) (h.ptr_late pi (by rw [hg]; rfl))
        (h.ptr_early pi (by rw [hg]; rfl))
    · next hg =>
      split at hstep
      · cases hstep
      next hle =>
      cases hstep
      have hnl : ¬ ResolvedLate evs := by
        intro hl
        have := h.late_ptr hl
        rw [hg] at this
        cases this
      have hpi := hstart.passed (by omega)
      rw [hstart.reached] at hpi
      exact h.store (by rw [hg]; exact id) (fun hl => absurd hl hnl)
        (fun _ => (some.inj hpi).symm)
    · cases hstep
  case migLock =>
    split at hstep
    · next hg =>
      cases hstep
      exact h.quiet (by simp) rfl rfl rfl Iff.rfl (by rw [hg.1]; rfl)
        (by rw [hg.1]; rfl) trivial
    · cases hstep
  case migRead =>
    split at hstep
    · next hg =>
      cases hstep
      have hslot : s.mem.slotOf c.migrateIno = s₀.mem.slotOf c.ino := by
        have hs := h.slot_eq
        rw [hg] at hs
        unfold slotOf cpuOf superpageCount at hs ⊢
        rw [h.cpus_eq] at hs ⊢
        rw [show c.migrateIno % s₀.mem.cpus = c.ino % s₀.mem.cpus
          from hstart.sameCpu]
        rw [show (c.migrateIno / s₀.mem.cpus) >>> NUM_INODES_BITS
          = (c.ino / s₀.mem.cpus) >>> NUM_INODES_BITS from hstart.sameSlot]
        exact hs
      refine h.quiet (by simp) rfl rfl rfl Iff.rfl ?_ ?_ ?_ <;>
        dsimp only <;> split
      · rw [hg]; rfl
      · rw [hg]; rfl
      · rw [hg]; rfl
      · rw [hg]; rfl
      · trivial
      · exact hslot
    · cases hstep
  case migAlloc blocknr =>
    split at hstep
    · next hg =>
      cases hstep
      exact h.quiet (by simp) rfl rfl rfl Iff.rfl (by rw [hg]; rfl)
        (by rw [hg]; rfl) trivial
    · next curr b hg =>
      split at hstep
      · next hfree =>
        cases hstep
        have hplaced := h.placed
        rw [hg] at hplaced
        rw [h.free_eq] at hfree
        obtain ⟨hb, hne⟩ := hstart.free b hfree
        refine h.quiet (by simp) rfl rfl rfl Iff.rfl (by rw [hg]; rfl)
          (by rw [hg]; rfl) ⟨hplaced, ?_, hne, Nat.dvd_mul_left _ _⟩
        exact Nat.mul_ne_zero hb (by decide)
      · cases hstep
    · cases hstep
  case migCopy =>
    split at hstep
    · next curr n hg =>
      cases hstep
      exact h.copy hstart.aligned hg
    · cases hstep
  case migSwitch =>
    split at hstep
    · next curr n hg =>
      cases hstep
      exact h.switch hstart.sameCpu hstart.sameSlot hg
    · cases hstep
  case migUnlock =>
    split at hstep
    · next n hg =>
      cases hstep
      have hplaced := h.placed
      rw [hg] at hplaced
      exact h.quiet (by simp) rfl rfl rfl Iff.rfl (by rw [hg]; rfl)
        (by rw [hg]; rfl) hplaced
    · cases hstep
  case unlockTable | unlockPage =>
    split at hstep
    · next pi hg =>
      cases hstep
      exact h.quiet (by simp) rfl rfl (by rw [hg]; rfl)
        (by rw [hg]; exact Iff.rfl) rfl rfl h.placed
    · cases hstep

/-- The tail at the start. -/
def startTail (c : Call) (s₀ : RaceState) : Nat :=
  (s₀.mem.record (recordAt s₀.mem c.ino (s₀.mem.slotOf c.ino))).logTail

/-- The start. -/
theorem Inv.start (hstart : Start c s₀) :
    Inv c (s₀.mem.slotOf c.ino) (startTail c s₀) s₀ s₀ [] := by
  have hu := hstart.update_eq
  have hm := hstart.migrate_eq
  refine ⟨rfl, rfl, ?_, ?_, ?_, ?_, ?_, ?_, ?_, ?_, ?_, ?_, ?_⟩
  · rw [hm]
    rfl
  · rw [hm]
    exact hstart.reached
  · rw [hm]
    trivial
  · simp [hm, MigratePc.copy]
  · simp [hm, MigratePc.mapped]
  · simp [hu, UpdatePc.hasStored]
  · intro hl
    cases hl
  · intro pi hpi
    rw [hu] at hpi
    cases hpi
  · intro pi hpi
    rw [hu] at hpi
    cases hpi
  · exact ⟨fun hyes => absurd hyes.1 (by simp), fun _ => rfl⟩
  intro n hn
  rw [hm] at hn
  cases hn

/-- Any interleaving keeps the invariant. -/
theorem Inv.run (hstart : Start c s₀) (hrun : TailRace.run c s₀ evs = some s) :
    Inv c (s₀.mem.slotOf c.ino) (startTail c s₀) s₀ s evs := by
  induction evs using reverseRecOn generalizing s with
  | nil =>
    cases hrun
    exact Inv.start hstart
  | append_singleton evs e ih =>
    rw [run_snoc] at hrun
    obtain ⟨s1, hs1, he⟩ := bind_eq_some_iff.mp hrun
    exact (ih hs1).step hstart he

/-- Both calls have returned. -/
def Finished (s : RaceState) : Prop :=
  (∃ pi, s.update = .done pi)
    ∧ (s.migrate = .returned ∨ ∃ n, s.migrate = .done n)

/-- The orders that keep the update: no page was copied, or the tail was
stored before the copy, or the record was resolved after the switch —
or there was nothing to lose. -/
def UpdateKept (c : Call) (s₀ : RaceState) (evs : List Event) : Prop :=
  startTail c s₀ = c.newTail ∨ .migCopy ∉ evs ∨ StoredEarly evs
    ∨ ResolvedLate evs

/-- A tail update and a migration of its inode page, in any interleaving
in which both return: the record reached through the mapping table has
the new tail if and only if the store preceded the page copy, or the
lookup followed the table switch, or no page was moved, or the tail did
not change. -/
theorem tail_update_kept_iff (c : Call) (s₀ s : RaceState)
    (evs : List Event) (hstart : Start c s₀) (hrun : run c s₀ evs = some s) (hfin : Finished s) :
    tailOf s.mem c.ino = some c.newTail ↔ UpdateKept c s₀ evs := by
  have h := Inv.run hstart hrun
  obtain ⟨⟨pi, hupd⟩, hmig⟩ := hfin
  have hstore : Event.store ∈ evs := by
    rw [h.store_iff, hupd]
    trivial
  unfold tailOf UpdateKept
  rw [h.lookup_eq, map_some, some.injEq]
  rcases hmig with hmig | ⟨n, hmig⟩
  · -- nothing was moved
    have hnc : Event.migCopy ∉ evs := by
      rw [h.copy_iff, hmig]
      simp [MigratePc.copy]
    have hmap : s.migrate.mapped (s₀.mem.slotOf c.ino) = s₀.mem.slotOf c.ino := by
      rw [hmig]
      rfl
    rw [hmap, h.oldTail.yes ⟨hstore, h.not_late hmap⟩]
    simp [hnc]
  have hcopy : s.migrate.copy = some n := by rw [hmig]; rfl
  have hmap : s.migrate.mapped (s₀.mem.slotOf c.ino) = n := by rw [hmig]; rfl
  have hmem : Event.migCopy ∈ evs := by
    rw [h.copy_iff, hcopy]
    rfl
  have hsel := h.copyTail n hcopy
  rw [hmap]
  by_cases hkept : StoredEarly evs ∨ ResolvedLate evs
  · rw [hsel.yes (hkept.imp_right fun hl => ⟨hstore, hl⟩)]
    simp [hkept]
  · rw [hsel.no fun hh => hkept (hh.imp_right And.right)]
    simp [hkept, hmem]

-- === a lost update

/-- Inode 41 of one CPU: page slot 1, in the page at block 5, with tail
100. Block 9 is free. -/
def raceStart : RaceState :=
  { mem := { cpus := 1, mappingTable := fun _ k => if k < 2 then (4 + k) * PAGE_SIZE else 0
             record := fun _ => { valid := 1, novaIno := 41, logHead := 64
                                  logTail := 100 } }
    freeBlocks := fun b => b = 9
    tableLock := fun _ => none, pageLock := fun _ _ => none
    update := .start, migrate := .start }

/-- An update and a migration of one page. -/
def raceCall : Call :=
  { ino := 41, pi := 5 * PAGE_SIZE + 9 * NOVA_INODE_SIZE, newTail := 140
    migrateIno := 41 }

/-- They can start. -/
theorem raceStart_start : Start raceCall raceStart := by
  refine ⟨rfl, rfl, fun _ => rfl, fun _ _ => rfl, rfl, rfl, by decide, by decide, by decide, ?_⟩
  intro b hb
  have hb9 : b = 9 := by simpa [raceStart] using hb
  subst hb9
  decide

/-- The update resolves the record, the migration copies and switches
the page, and the store then goes to the page left behind. -/
def lostRun : List Event :=
  [.lockPage, .lockTable, .lookup, .unlockTable, .migLock, .migRead,
    .migAlloc (some 9), .migCopy, .store, .unlockPage, .migSwitch, .migUnlock]

/-- The update does not survive every interleaving. -/
theorem tail_update_can_be_lost :
    ¬ ∀ (c : Call) (s₀ s : RaceState) (evs : List Event), Start c s₀ →
        run c s₀ evs = some s → Finished s → tailOf s.mem c.ino = some c.newTail := by
  intro hall
  have hlost := hall raceCall raceStart _ lostRun raceStart_start rfl
    ⟨⟨_, rfl⟩, .inr ⟨_, rfl⟩⟩
  exact absurd hlost (by decide)

/-- The store comes before the copy. -/
def keptRun : List Event :=
  [.lockPage, .lockTable, .lookup, .unlockTable, .migLock, .migRead,
    .migAlloc (some 9), .store, .migCopy, .unlockPage, .migSwitch, .migUnlock]

/-- There the store precedes the copy, and the update is kept. -/
theorem tail_update_kept_before_copy :
    Start raceCall raceStart ∧ StoredEarly keptRun
      ∧ ∃ s, run raceCall raceStart keptRun = some s ∧ Finished s
        ∧ tailOf s.mem raceCall.ino = some raceCall.newTail := by
  have hearly : StoredEarly keptRun := by decide
  refine ⟨raceStart_start, hearly, _, rfl, ⟨⟨_, rfl⟩, .inr ⟨_, rfl⟩⟩, ?_⟩
  refine (tail_update_kept_iff raceCall raceStart _ keptRun raceStart_start rfl
    ⟨⟨_, rfl⟩, .inr ⟨_, rfl⟩⟩).mpr ?_
  exact .inr (.inr (.inl hearly))

end Themis.TailRace
