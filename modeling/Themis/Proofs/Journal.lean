/-
Undo of a lite transaction after a crash.

The writers pack the width of a word into the top byte of its offset;
`nova_undo_lite_journal_entry` reads the width back but hands the packed
address on, so the store it makes is at least 2^56 bytes past the device.
Recovery therefore works exactly when it has nothing to undo
(`novaUndoLiteJournalEntry_eq`); everything else here is the walk to that
point.
-/
import Themis.Journal
import Mathlib.Data.Nat.Bitwise
import Mathlib.Data.List.Basic

namespace Themis.Journal

open Lib List

variable {p entry i : Nat} {tx : Transaction} {d0 : Device}
variable {addr : Nat} {w : Word} {slots first : Nat → Option Word} {d₁ : Device}
  {migrate : Option (Option Nat)}

-- === transactions

/-- A journaled word: where it is, its width, and the value to restore. -/
structure Word where
  addr : Nat
  width : Nat
  old : Nat
  deriving Repr, DecidableEq

/-- An entry with its old values. -/
def encodeEntry (slots : Nat → Option Word) : LiteJournalEntry where
  addrs i := match slots i with
    | none => 0
    | some w => w.addr ||| (w.width <<< 56)
  values i := match slots i with
    | none => 0
    | some w => w.old

/-- A transaction: one entry, or two. -/
structure Transaction where
  first : Nat → Option Word
  second : Option (Nat → Option Word)

/-- The entries of a transaction. -/
def Transaction.entries (tx : Transaction) : List (Nat → Option Word) :=
  tx.first :: tx.second.toList

/-- The words of a transaction. -/
def Transaction.words (tx : Transaction) : List Word :=
  tx.entries.flatMap fun slots => [0, 1, 2, 3].filterMap slots

/-- A transaction is opened. -/
def createTransaction (d : Device) (cpus cpu : Nat) (tx : Transaction) :
    Except Fault (Nat × Device) :=
  match tx.second with
  | none =>
    novaCreateLiteTransaction d cpus (encodeEntry tx.first)
      (encodeEntry fun _ => none) 1 cpu
  | some second =>
    novaCreateLiteTransaction d cpus (encodeEntry tx.first)
      (encodeEntry second) 2 cpu

/-- In-place updates of journaled words, in the order they reached the
device. -/
def applyUpdates (d : Device) : List (Word × Nat) → Device
  | [] => d
  | (w, v) :: rest =>
    applyUpdates { d with byte := writeLE d.byte w.addr w.width v } rest

/-- The head of a journal. -/
def headOf (d : Device) (cpu : Nat) : Nat := readLE d.byte (pairAt cpu) 8

/-- The tail of a journal. -/
def tailOf (d : Device) (cpu : Nat) : Nat := readLE d.byte (pairAt cpu + 8) 8

/-- A device whose journals are empty, with the ring of `cpu` at `head`:
any of the 64 places of a page that lies behind the pointer block. -/
structure Idle (d : Device) (cpus cpu head : Nat) : Prop where
  cpu_lt : cpu < cpus
  cpus_le : cpus ≤ 64
  quiet : ∀ i < cpus, headOf d i = tailOf d i
  head_eq : headOf d cpu = head
  slot : head % 64 = 0
  page_ge : 2 * PAGE_SIZE ≤ head
  page_le : head / PAGE_SIZE * PAGE_SIZE + PAGE_SIZE ≤ d.size

/-- A word a caller may journal: of a machine width, on the device,
outside the pointer block and the journal page. -/
structure Word.Valid (w : Word) (d : Device) (head : Nat) : Prop where
  width : w.width = 1 ∨ w.width = 2 ∨ w.width = 4 ∨ w.width = 8
  onDevice : d.Ok w.addr w.width
  value : w.old = readLE d.byte w.addr w.width
  offPointers : w.addr + w.width ≤ PAGE_SIZE ∨ 2 * PAGE_SIZE ≤ w.addr
  offJournal : w.addr + w.width ≤ head / PAGE_SIZE * PAGE_SIZE
    ∨ head / PAGE_SIZE * PAGE_SIZE + PAGE_SIZE ≤ w.addr

-- === ring

/-- Once around the page. -/
theorem nextLiteJournal_cases (p : Nat) : (4032 ≤ p % 4096 ∧ nextLiteJournal p = p - p % 4096)
      ∨ (p % 4096 < 4032 ∧ nextLiteJournal p = p + 64) := by
  unfold nextLiteJournal
  by_cases h : p % PAGE_SIZE + 64 ≥ PAGE_SIZE
  · rw [if_pos h]
    simp only [PAGE_SIZE] at h
    exact .inl ⟨by omega, rfl⟩
  rw [if_neg h]
  simp only [PAGE_SIZE] at h
  exact .inr ⟨by omega, rfl⟩

/-- The next entry is on the same page. -/
theorem nextLiteJournal_page (hp : p % 64 = 0) :
    nextLiteJournal p / 4096 = p / 4096 ∧ nextLiteJournal p % 64 = 0 ∧ nextLiteJournal p ≠ p := by
  rcases nextLiteJournal_cases p with ⟨h, heq⟩ | ⟨h, heq⟩ <;> rw [heq] <;> omega

/-- Two entries on are two places on. -/
theorem nextLiteJournal_twice (hp : p % 64 = 0) : nextLiteJournal (nextLiteJournal p) ≠ p
      ∧ nextLiteJournal (nextLiteJournal p) ≠ nextLiteJournal p := by
  obtain ⟨-, hn, -⟩ := nextLiteJournal_page hp
  refine ⟨?_, (nextLiteJournal_page hn).2.2⟩
  rcases nextLiteJournal_cases p with ⟨h, heq⟩ | ⟨h, heq⟩ <;>
    rcases nextLiteJournal_cases (nextLiteJournal p) with ⟨h', heq'⟩ | ⟨h', heq'⟩ <;>
    rw [heq'] <;> omega

-- === accesses

variable {d d' : Device} {a n v cpus cpu head : Nat}

/-- A load inside the device. -/
theorem load_ok (h : d.Ok a n) : d.load a n = .ok (readLE d.byte a n) := if_pos h

/-- A store inside the device. -/
theorem store_ok (h : d.Ok a n) :
    d.store a n v = .ok { d with byte := writeLE d.byte a n v } := if_pos h

/-- Only the size matters. -/
theorem Device.Ok.of_size (h : d.Ok a n) (hs : d'.size = d.size) : d'.Ok a n := ⟨h.1, hs ▸ h.2⟩

/-- Words are stored one after another. -/
theorem storeWords_spec (f : Nat → Nat) (l : List Nat) (hnd : l.Nodup)
    (hok : ∀ i ∈ l, d.Ok (p + 8 * i) 8) :
    ∃ d', l.foldlM (fun d i => d.store (p + 8 * i) 8 (f i)) d = .ok d' ∧ d'.size = d.size
      ∧ (∀ i ∈ l, readLE d'.byte (p + 8 * i) 8 = f i % 256 ^ 8)
      ∧ ∀ x, (∀ i ∈ l, x < p + 8 * i ∨ p + 8 * i + 8 ≤ x) → d'.byte x = d.byte x := by
  induction l generalizing d with
  | nil => exact ⟨d, rfl, rfl, by simp, fun _ _ => rfl⟩
  | cons i l ih =>
    obtain ⟨hi, hnd⟩ := nodup_cons.mp hnd
    have hfirst := hok i mem_cons_self
    obtain ⟨d', heq, hsz, hread, hout⟩ :=
      ih (d := { d with byte := writeLE d.byte (p + 8 * i) 8 (f i) }) hnd
        (fun j hj => hok j (mem_cons_of_mem i hj))
    refine ⟨d', ?_, hsz, ?_, ?_⟩
    · rw [foldlM_cons, store_ok hfirst]
      exact heq
    · intro j hj
      rcases mem_cons.mp hj with rfl | hj
      · -- the later stores go to other words
        have hkeep : readLE d'.byte (p + 8 * j) 8
            = readLE (writeLE d.byte (p + 8 * j) 8 (f j)) (p + 8 * j) 8 := by
          apply readLE_congr
          intro x h1 h2
          apply hout
          intro k hk
          have hkj : k ≠ j := fun h => hi (h ▸ hk)
          omega
        rw [hkeep, readLE_writeLE_self]
      · exact hread j hj
    intro x hx
    rw [hout x fun j hj => hx j (mem_cons_of_mem i hj)]
    exact writeLE_outside (hx i mem_cons_self)

/-- The entry is in the bytes at `p`. -/
def HoldsEntry (d : Device) (p : Nat) (e : LiteJournalEntry) : Prop :=
  ∀ i ∈ [0, 1, 2, 3], readLE d.byte (p + 8 * i) 8 = e.addrs i % 256 ^ 8

/-- An entry is written. -/
theorem writeEntry_spec (e : LiteJournalEntry) (h : d.Ok p 64) :
    ∃ d', writeEntry d p e = .ok d' ∧ d'.size = d.size ∧ HoldsEntry d' p e
      ∧ ∀ x, (x < p ∨ p + 64 ≤ x) → d'.byte x = d.byte x := by
  obtain ⟨hp, hsz⟩ := h
  have hfour : ∀ i ∈ [0, 1, 2, 3], i < 4 := by decide
  obtain ⟨d₁, h1, hsz1, hread1, hout1⟩ :=
    storeWords_spec (d := d) (p := p) e.addrs [0, 1, 2, 3] (by decide)
      (fun i hi => ⟨by omega, by have := hfour i hi; omega⟩)
  obtain ⟨d2, h2, hsz2, -, hout2⟩ :=
    storeWords_spec (d := d₁) (p := p + 32) e.values [0, 1, 2, 3] (by decide)
      (fun i hi => ⟨by omega, by have := hfour i hi; omega⟩)
  refine ⟨d2, ?_, hsz2.trans hsz1, ?_, ?_⟩
  · unfold writeEntry
    rw [h1]
    exact h2
  · intro i hi
    rw [← hread1 i hi]
    have hi4 := hfour i hi
    apply readLE_congr
    intro x hx1 hx2
    apply hout2
    intro j hj
    omega
  intro x hx
  rw [hout2 x, hout1 x]
  · intro i hi
    have := hfour i hi
    omega
  intro i hi
  have := hfour i hi
  omega

-- === undo

/-- Address and width in one word. -/
theorem packed_eq {width : Nat} (h : addr < 2 ^ 56) :
    addr ||| (width <<< 56) = width * 2 ^ 56 + addr := by
  rw [Nat.lor_comm, ← Nat.shiftLeft_add_eq_or_of_lt h, Nat.shiftLeft_eq]

/-- An empty slot is skipped. -/
theorem undoSlot_empty (hok : d.Ok entry 64) (hi : i < 4)
    (hread : readLE d.byte (entry + 8 * i) 8 = 0) : undoSlot entry d i = .ok d := by
  obtain ⟨hp, hsz⟩ := hok
  unfold undoSlot
  rw [load_ok ⟨by omega, by omega⟩, load_ok ⟨by omega, by omega⟩, hread]
  rfl

/-- An address outside is a fault. -/
theorem novaRecoverLiteJournalEntry_off {value type : Nat} (hoff : ∀ k, ¬ d.Ok addr k)
    (htype : type = 1 ∨ type = 2 ∨ type = 4 ∨ type = 8) :
    novaRecoverLiteJournalEntry d addr value type = .error .oops := by
  have hstore : ∀ k v, d.store addr k v = .error .oops := fun k v => if_neg (hoff k)
  unfold novaRecoverLiteJournalEntry
  rcases htype with rfl | rfl | rfl | rfl <;> simp only [hstore] <;> rfl

/-- And so is a slot with one. -/
theorem undoSlot_off {packed : Nat} (hok : d.Ok entry 64) (hi : i < 4)
    (hread : readLE d.byte (entry + 8 * i) 8 = packed) (hne : packed ≠ 0)
    (hoff : ∀ k, ¬ d.Ok packed k)
    (htype : packed >>> 56 = 1 ∨ packed >>> 56 = 2 ∨ packed >>> 56 = 4 ∨ packed >>> 56 = 8) :
    undoSlot entry d i = .error .oops := by
  obtain ⟨hp, hsz⟩ := hok
  have hnz : packed >>> 56 ≠ 0 := by rcases htype with h | h | h | h <;> omega
  unfold undoSlot
  rw [load_ok ⟨by omega, by omega⟩, load_ok ⟨by omega, by omega⟩, hread]
  simp only [bind, Except.bind]
  rw [if_pos ⟨hne, hnz⟩]
  exact novaRecoverLiteJournalEntry_off hoff htype

/-- A packed word is an address outside. -/
theorem packed_facts (hw : w.Valid d' head) : (w.addr ||| (w.width <<< 56)) % 256 ^ 8 ≠ 0
      ∧ (∀ k, ¬ d.Ok ((w.addr ||| (w.width <<< 56)) % 256 ^ 8) k)
      ∧ ((w.addr ||| (w.width <<< 56)) % 256 ^ 8) >>> 56 = w.width := by
  have hwidth : 1 ≤ w.width ∧ w.width ≤ 8 := by rcases hw.width with h | h | h | h <;> omega
  have haddr : w.addr < 2 ^ 56 := by
    have h1 := hw.onDevice.2
    have h2 := d'.size_le
    omega
  have hpos := hw.onDevice.1
  rw [packed_eq haddr]
  refine ⟨by omega, ?_, by omega⟩
  intro k hk
  have h1 := hk.2
  have h2 := d.size_le
  omega

/-- A slot of a transaction faults. -/
theorem undoSlot_word (hok : d.Ok entry 64) (hi : i < 4) (hw : w.Valid d' head)
    (hread : readLE d.byte (entry + 8 * i) 8 = (w.addr ||| (w.width <<< 56)) % 256 ^ 8) :
    undoSlot entry d i = .error .oops := by
  obtain ⟨hne, hoff, htype⟩ := packed_facts hw
  exact undoSlot_off hok hi hread hne hoff (by rw [htype]; exact hw.width)

/-- An entry without old values. -/
def EmptyEntry (slots : Nat → Option Word) : Prop :=
  ∀ i ∈ [0, 1, 2, 3], slots i = none

/-- Undoing an entry skips it or faults. -/
theorem novaUndoLiteJournalEntry_eq (hok : d.Ok entry 64)
    (hholds : HoldsEntry d entry (encodeEntry slots))
    (hvalid : ∀ i ∈ [0, 1, 2, 3], ∀ w, slots i = some w → w.Valid d' head) :
    (EmptyEntry slots → novaUndoLiteJournalEntry d entry = .ok d)
      ∧ (¬ EmptyEntry slots → novaUndoLiteJournalEntry d entry = .error .oops) := by
  have hfour : ∀ i ∈ [0, 1, 2, 3], i < 4 := by decide
  have hempty : ∀ i ∈ [0, 1, 2, 3], slots i = none → undoSlot entry d i = .ok d := by
    intro i hi hs
    apply undoSlot_empty hok (hfour i hi)
    rw [hholds i hi]
    simp only [encodeEntry, hs]
    rfl
  have hfilled : ∀ i ∈ [0, 1, 2, 3], slots i ≠ none → undoSlot entry d i = .error .oops := by
    intro i hi hs
    obtain ⟨w, hw⟩ := Option.ne_none_iff_exists'.mp hs
    apply undoSlot_word hok (hfour i hi) (hvalid i hi w hw)
    rw [hholds i hi]
    simp only [encodeEntry, hw]
  -- the loop runs over the empty slots up to the first filled one
  have hloop : ∀ l : List Nat, (∀ i ∈ l, i ∈ [0, 1, 2, 3]) →
      ((∀ i ∈ l, slots i = none) → l.foldlM (undoSlot entry) d = .ok d)
      ∧ ((¬ ∀ i ∈ l, slots i = none) → l.foldlM (undoSlot entry) d = .error .oops) := by
    intro l
    induction l with
    | nil => exact fun _ => ⟨fun _ => rfl, fun h => absurd (by simp) h⟩
    | cons i l ih =>
      intro hsub
      obtain ⟨ih1, ih2⟩ := ih fun j hj => hsub j (mem_cons_of_mem i hj)
      have hi := hsub i mem_cons_self
      constructor
      · intro hall
        rw [foldlM_cons, hempty i hi (hall i mem_cons_self)]
        exact ih1 fun j hj => hall j (mem_cons_of_mem i hj)
      intro hsome
      by_cases hs : slots i = none
      · rw [foldlM_cons, hempty i hi hs]
        refine ih2 fun hall => hsome ?_
        intro j hj
        rcases mem_cons.mp hj with rfl | hj
        · exact hs
        · exact hall j hj
      · rw [foldlM_cons, hfilled i hi hs]
        rfl
  exact hloop [0, 1, 2, 3] fun i hi => hi

-- === recovery

/-- The pointers of a journal are on the device. -/
theorem pair_ok (hi : i < 64) (hsize : 2 * PAGE_SIZE ≤ d.size) :
    d.Ok (pairAt i) 8 ∧ d.Ok (pairAt i + 8) 8 := by
  simp only [pairAt, CACHELINE_SIZE, PAGE_SIZE, Device.Ok] at *
  omega

/-- A journal without a transaction. -/
theorem softInitFrom_empty (rest : List Nat) (hi : i < 64) (hsize : 2 * PAGE_SIZE ≤ d.size)
    (hq : headOf d i = tailOf d i) : softInitFrom d (i :: rest) = softInitFrom d rest := by
  obtain ⟨hok1, hok2⟩ := pair_ok hi hsize
  unfold headOf tailOf at hq
  rw [softInitFrom]
  simp only [load_ok hok1, load_ok hok2, bind, Except.bind]
  rw [if_pos hq]

/-- A journal with one entry. -/
theorem softInitFrom_one (rest : List Nat) (hi : i < 64) (hsize : 2 * PAGE_SIZE ≤ d.size)
    (hne : headOf d i ≠ tailOf d i) (htail : tailOf d i = nextLiteJournal (headOf d i)) :
    softInitFrom d (i :: rest)
      = (novaRecoverLiteJournal d (pairAt i) 1).bind fun d => softInitFrom d rest := by
  obtain ⟨hok1, hok2⟩ := pair_ok hi hsize
  unfold headOf tailOf at hne htail
  rw [softInitFrom]
  simp only [load_ok hok1, load_ok hok2, bind, Except.bind]
  rw [if_neg hne, if_pos htail]

/-- A journal with two entries. -/
theorem softInitFrom_two (rest : List Nat) (hi : i < 64) (hsize : 2 * PAGE_SIZE ≤ d.size)
    (hne : headOf d i ≠ tailOf d i) (hne1 : tailOf d i ≠ nextLiteJournal (headOf d i))
    (htail : tailOf d i = nextLiteJournal (nextLiteJournal (headOf d i))) :
    softInitFrom d (i :: rest)
      = (novaRecoverLiteJournal d (pairAt i) 2).bind fun d => softInitFrom d rest := by
  obtain ⟨hok1, hok2⟩ := pair_ok hi hsize
  unfold headOf tailOf at hne hne1 htail
  rw [softInitFrom]
  simp only [load_ok hok1, load_ok hok2, bind, Except.bind]
  rw [if_neg hne, if_neg hne1, if_pos htail]

/-- Journals without transactions are passed over. -/
theorem softInitFrom_quiet (l rest : List Nat) (hsize : 2 * PAGE_SIZE ≤ d.size)
    (hl : ∀ i ∈ l, i < 64 ∧ headOf d i = tailOf d i) :
    softInitFrom d (l ++ rest) = softInitFrom d rest := by
  induction l with
  | nil => rfl
  | cons i l ih =>
    obtain ⟨hi, hq⟩ := hl i mem_cons_self
    rw [cons_append, softInitFrom_empty _ hi hsize hq]
    exact ih fun j hj => hl j (mem_cons_of_mem i hj)

/-- A new tail changes no other pointer. -/
theorem pointers_writeTail (b : Nat → UInt8) :
    (∀ j, readLE (writeLE b (pairAt i + 8) 8 v) (pairAt j) 8 = readLE b (pairAt j) 8)
      ∧ ∀ j, j ≠ i → readLE (writeLE b (pairAt i + 8) 8 v) (pairAt j + 8) 8
        = readLE b (pairAt j + 8) 8 := by
  simp only [pairAt, CACHELINE_SIZE, PAGE_SIZE]
  constructor
  · intro j
    apply readLE_writeLE_of_disjoint
    omega
  intro j hj
  apply readLE_writeLE_of_disjoint
  omega

/-- The entries are in the journal from `p` on. -/
def HoldsEntries (d : Device) : Nat → List (Nat → Option Word) → Prop
  | _, [] => True
  | p, slots :: rest =>
    HoldsEntry d p (encodeEntry slots) ∧ HoldsEntries d (nextLiteJournal p) rest

/-- The tail behind a transaction. -/
def Transaction.tailFrom (tx : Transaction) (head : Nat) : Nat :=
  match tx.second with
  | none => nextLiteJournal head
  | some _ => nextLiteJournal (nextLiteJournal head)

/-- A device on which a transaction of `cpu` is open at `head`. -/
structure Open (d : Device) (cpus cpu head : Nat) (tx : Transaction) : Prop where
  cpu_lt : cpu < cpus
  cpus_le : cpus ≤ 64
  quiet : ∀ i < cpus, i ≠ cpu → headOf d i = tailOf d i
  head_eq : headOf d cpu = head
  tail_eq : tailOf d cpu = tx.tailFrom head
  slot : head % 64 = 0
  page_ge : 2 * PAGE_SIZE ≤ head
  page_le : head / PAGE_SIZE * PAGE_SIZE + PAGE_SIZE ≤ d.size
  entries : HoldsEntries d head tx.entries

/-- A place of the page is on the device. -/
theorem place_ok (hp : p % 64 = 0) (hpage : p / 4096 = head / 4096) (hge : 2 * PAGE_SIZE ≤ head)
    (hle : head / PAGE_SIZE * PAGE_SIZE + PAGE_SIZE ≤ d.size) : d.Ok p 64 := by
  simp only [PAGE_SIZE, Device.Ok] at *
  omega

/-- The tail is set back to the head. -/
def resetTail (d : Device) (cpu : Nat) : Device :=
  { d with byte := writeLE d.byte (pairAt cpu + 8) 8 (headOf d cpu) }

/-- An entry without words. -/
theorem filterMap_slots_eq_nil :
    [0, 1, 2, 3].filterMap slots = [] ↔ EmptyEntry slots := filterMap_eq_nil_iff

/-- Recovery of one entry. -/
theorem recover_one (hload : d.load (pairAt cpu) 8 = .ok head)
    (hstore : d.store (pairAt cpu + 8) 8 head = .ok d₁)
    (hfirst : (EmptyEntry first → novaUndoLiteJournalEntry d head = .ok d)
      ∧ (¬ EmptyEntry first → novaUndoLiteJournalEntry d head = .error .oops)) :
    (EmptyEntry first → novaRecoverLiteJournal d (pairAt cpu) 1 = .ok d₁)
      ∧ (¬ EmptyEntry first → novaRecoverLiteJournal d (pairAt cpu) 1 = .error .oops) := by
  unfold novaRecoverLiteJournal
  constructor
  · intro hempty
    simp only [hload, hfirst.1 hempty, hstore, bind, Except.bind, pure,
      Except.pure, if_neg (show ¬ (1 : Nat) = 2 by decide)]
  · intro hfull
    simp only [hload, hfirst.2 hfull, bind, Except.bind]

/-- Recovery of two entries. -/
theorem recover_two {second : Nat → Option Word} (hload : d.load (pairAt cpu) 8 = .ok head)
    (hstore : d.store (pairAt cpu + 8) 8 head = .ok d₁)
    (hfirst : (EmptyEntry first → novaUndoLiteJournalEntry d head = .ok d)
      ∧ (¬ EmptyEntry first → novaUndoLiteJournalEntry d head = .error .oops))
    (hsecond : (EmptyEntry second → novaUndoLiteJournalEntry d (nextLiteJournal head) = .ok d)
      ∧ (¬ EmptyEntry second → novaUndoLiteJournalEntry d (nextLiteJournal head) = .error .oops)) :
    (EmptyEntry first ∧ EmptyEntry second → novaRecoverLiteJournal d (pairAt cpu) 2 = .ok d₁)
      ∧ (¬ (EmptyEntry first ∧ EmptyEntry second) →
          novaRecoverLiteJournal d (pairAt cpu) 2 = .error .oops) := by
  unfold novaRecoverLiteJournal
  constructor
  · rintro ⟨h1, h2⟩
    simp only [hload, hfirst.1 h1, hsecond.1 h2, hstore, bind, Except.bind, if_true]
  intro hfull
  by_cases h1 : EmptyEntry first
  · have h2 : ¬ EmptyEntry second := fun h2 => hfull ⟨h1, h2⟩
    simp only [hload, hfirst.1 h1, hsecond.2 h2, bind, Except.bind, if_true]
  · simp only [hload, hfirst.2 h1, bind, Except.bind]

/-- The pointers are on the device. -/
theorem Open.size_ge (h : Open d cpus cpu head tx) : 2 * PAGE_SIZE ≤ d.size := by
  have h1 := h.page_ge
  have h2 := h.page_le
  simp only [PAGE_SIZE] at *
  omega

/-- Recovery of the open transaction within the loop over the CPUs: if it
journaled nothing, its tail is reset and the loop goes on; otherwise
recovery dies. -/
theorem softInitFrom_open (rest : List Nat) (h : Open d cpus cpu head tx)
    (hvalid : ∀ w ∈ tx.words, w.Valid d0 head) :
    (tx.words = [] → softInitFrom d (cpu :: rest) = softInitFrom (resetTail d cpu) rest)
      ∧ (tx.words ≠ [] → softInitFrom d (cpu :: rest) = .error .oops) := by
  have hsize := h.size_ge
  have hcpu : cpu < 64 := lt_of_lt_of_le h.cpu_lt h.cpus_le
  obtain ⟨hok1, hok2⟩ := pair_ok hcpu hsize
  obtain ⟨hpage, hslot, hone⟩ := nextLiteJournal_page h.slot
  obtain ⟨htwo, htwo'⟩ := nextLiteJournal_twice h.slot
  have hload : d.load (pairAt cpu) 8 = .ok head := by
    rw [load_ok hok1]
    exact congrArg Except.ok h.head_eq
  have hstore : d.store (pairAt cpu + 8) 8 head = .ok (resetTail d cpu) := by
    rw [store_ok hok2, resetTail, h.head_eq]
  have hval : ∀ slots ∈ tx.entries, ∀ i ∈ [0, 1, 2, 3], ∀ w,
      slots i = some w → w.Valid d0 head := by
    intro slots hs i hi w hw
    exact hvalid w (mem_flatMap.mpr ⟨slots, hs, mem_filterMap.mpr ⟨i, hi, hw⟩⟩)
  have hentries := h.entries
  have htail := h.tail_eq
  unfold Transaction.tailFrom at htail
  unfold Transaction.words
  unfold Transaction.entries at hentries hval ⊢
  have hfirst := novaUndoLiteJournalEntry_eq
    (place_ok h.slot rfl h.page_ge h.page_le) hentries.1
    (hval tx.first mem_cons_self)
  cases hsec : tx.second with
  | none =>
    rw [hsec] at htail
    simp only [Option.toList_none, flatMap_cons, flatMap_nil,
      append_nil, ne_eq, filterMap_slots_eq_nil]
    obtain ⟨hgood, hbad⟩ := recover_one hload hstore hfirst
    rw [softInitFrom_one rest hcpu hsize (by rw [h.head_eq, htail]; exact Ne.symm hone)
      (by rw [h.head_eq, htail])]
    exact ⟨fun he => by rw [hgood he]; rfl, fun hne => by rw [hbad hne]; rfl⟩
  | some second =>
    rw [hsec] at htail hentries hval
    have hsecond := novaUndoLiteJournalEntry_eq
      (place_ok hslot hpage h.page_ge h.page_le) hentries.2.1
      (hval second (by simp))
    simp only [Option.toList_some, flatMap_cons, flatMap_nil,
      append_nil, ne_eq, append_eq_nil_iff, filterMap_slots_eq_nil]
    obtain ⟨hgood, hbad⟩ := recover_two hload hstore hfirst hsecond
    rw [softInitFrom_two rest hcpu hsize (by rw [h.head_eq, htail]; exact Ne.symm htwo)
      (by rw [h.head_eq, htail]; exact htwo') (by rw [h.head_eq, htail])]
    exact ⟨fun he => by rw [hgood he]; rfl, fun hne => by rw [hbad hne]; rfl⟩

-- === creation

/-- The byte ranges the recovery code reads: the pointer block and the
journal page. -/
structure SameJournal (d d' : Device) (head : Nat) : Prop where
  size_eq : d'.size = d.size
  pointers : ∀ x, PAGE_SIZE ≤ x → x < 2 * PAGE_SIZE → d'.byte x = d.byte x
  page : ∀ x, head / PAGE_SIZE * PAGE_SIZE ≤ x →
    x < head / PAGE_SIZE * PAGE_SIZE + PAGE_SIZE → d'.byte x = d.byte x

/-- Only the page of pointers matters. -/
theorem pointers_congr (hi : i < 64)
    (h : ∀ x, PAGE_SIZE ≤ x → x < 2 * PAGE_SIZE → d'.byte x = d.byte x) :
    headOf d' i = headOf d i ∧ tailOf d' i = tailOf d i := by
  simp only [headOf, tailOf, pairAt, CACHELINE_SIZE, PAGE_SIZE] at *
  constructor
  · apply readLE_congr
    intro x h1 h2
    exact h x (by omega) (by omega)
  apply readLE_congr
  intro x h1 h2
  exact h x (by omega) (by omega)

/-- Only the bytes of the entry matter. -/
theorem HoldsEntry.congr {e : LiteJournalEntry} (h : HoldsEntry d p e)
    (hb : ∀ x, p ≤ x → x < p + 64 → d'.byte x = d.byte x) : HoldsEntry d' p e := by
  have hfour : ∀ i ∈ [0, 1, 2, 3], i < 4 := by decide
  intro i hi
  rw [← h i hi]
  have := hfour i hi
  apply readLE_congr
  intro x h1 h2
  exact hb x (by omega) (by omega)

/-- Only the page of the journal matters. -/
theorem HoldsEntries.keep (tx : Transaction) (hhead : head % 64 = 0)
    (hkeep : ∀ p e, p % 64 = 0 → p / 4096 = head / 4096 → HoldsEntry d p e → HoldsEntry d' p e)
    (hent : HoldsEntries d head tx.entries) : HoldsEntries d' head tx.entries := by
  obtain ⟨hpage, hslot, -⟩ := nextLiteJournal_page hhead
  unfold Transaction.entries at hent ⊢
  cases hsec : tx.second with
  | none =>
    exact ⟨hkeep _ _ hhead rfl hent.1, trivial⟩
  | some second =>
    rw [hsec] at hent
    exact ⟨hkeep _ _ hhead rfl hent.1, hkeep _ _ hslot hpage hent.2.1, trivial⟩

/-- Only the journal matters. -/
theorem Open.congr {tx : Transaction} (h : Open d cpus cpu head tx)
    (hs : SameJournal d d' head) : Open d' cpus cpu head tx := by
  have hptr : ∀ i < cpus, headOf d' i = headOf d i ∧ tailOf d' i = tailOf d i :=
    fun i hi => pointers_congr (lt_of_lt_of_le hi h.cpus_le) hs.pointers
  have hplace : ∀ p e, p % 64 = 0 → p / 4096 = head / 4096 →
      HoldsEntry d p e → HoldsEntry d' p e := by
    intro p e hp hpg he
    refine he.congr fun x h1 h2 => hs.page x ?_ ?_ <;>
      simp only [PAGE_SIZE] <;> omega
  refine ⟨h.cpu_lt, h.cpus_le, ?_, ?_, ?_, h.slot, h.page_ge, ?_, ?_⟩
  · intro i hi hne
    rw [(hptr i hi).1, (hptr i hi).2]
    exact h.quiet i hi hne
  · rw [(hptr cpu h.cpu_lt).1]
    exact h.head_eq
  · rw [(hptr cpu h.cpu_lt).2]
    exact h.tail_eq
  · rw [hs.size_eq]
    exact h.page_le
  exact h.entries.keep tx h.slot hplace

/-- The tail is an address. -/
theorem Transaction.tailFrom_lt (tx : Transaction) (h : Idle d cpus cpu head) :
    tx.tailFrom head < 256 ^ 8 := by
  have h1 := h.page_le
  have h2 := d.size_le
  obtain ⟨hpage, hslot, -⟩ := nextLiteJournal_page h.slot
  obtain ⟨hpage', -, -⟩ := nextLiteJournal_page hslot
  unfold Transaction.tailFrom
  simp only [PAGE_SIZE] at h1
  cases tx.second <;> dsimp only <;> omega

/-- The new tail opens the transaction. -/
theorem Idle.storeTail (tx : Transaction) (h : Idle d cpus cpu head) (hsize : d'.size = d.size)
    (hptr : ∀ x, PAGE_SIZE ≤ x → x < 2 * PAGE_SIZE → d'.byte x = d.byte x)
    (hent : HoldsEntries d' head tx.entries) :
    ∃ d₁, d'.store (pairAt cpu + 8) 8 (tx.tailFrom head) = .ok d₁
      ∧ d₁.size = d.size ∧ Open d₁ cpus cpu head tx := by
  have hcpu : cpu < 64 := lt_of_lt_of_le h.cpu_lt h.cpus_le
  have hge := h.page_ge
  have hle := h.page_le
  have hbig : 2 * PAGE_SIZE ≤ d'.size := by
    simp only [PAGE_SIZE] at *
    omega
  obtain ⟨-, hok2⟩ := pair_ok hcpu hbig
  obtain ⟨hheads, htails⟩ := pointers_writeTail (v := tx.tailFrom head) (i := cpu) d'.byte
  have hptr' : ∀ i < cpus, headOf d' i = headOf d i ∧ tailOf d' i = tailOf d i :=
    fun i hi => pointers_congr (lt_of_lt_of_le hi h.cpus_le) hptr
  refine ⟨_, store_ok hok2, hsize, h.cpu_lt, h.cpus_le, ?_, ?_, ?_, h.slot,
    hge, by rw [← hsize] at hle; exact hle, ?_⟩
  · intro i hi hne
    show readLE (writeLE d'.byte _ _ _) _ _ = readLE (writeLE d'.byte _ _ _) _ _
    rw [hheads i, htails i hne]
    have := h.quiet i hi
    rw [← (hptr' i hi).1, ← (hptr' i hi).2] at this
    exact this
  · show readLE (writeLE d'.byte _ _ _) _ _ = head
    rw [hheads cpu, ← h.head_eq]
    exact (hptr' cpu h.cpu_lt).1
  · show readLE (writeLE d'.byte _ _ _) _ _ = tx.tailFrom head
    rw [readLE_writeLE_self, Nat.mod_eq_of_lt (tx.tailFrom_lt h)]
  -- the entries lie behind the pointer block
  have hkeep : ∀ p e, p % 64 = 0 → p / 4096 = head / 4096 → HoldsEntry d' p e → HoldsEntry
        { d' with byte := writeLE d'.byte (pairAt cpu + 8) 8 (tx.tailFrom head) } p e := by
    intro p e hp hpg he
    refine he.congr fun x h1 h2 => writeLE_outside ?_
    simp only [pairAt, CACHELINE_SIZE, PAGE_SIZE] at *
    omega
  exact hent.keep tx h.slot hkeep

/-- A transaction is opened. -/
theorem createTransaction_spec (tx : Transaction) (h : Idle d cpus cpu head) :
    ∃ d₁, createTransaction d cpus cpu tx = .ok (tx.tailFrom head, d₁)
      ∧ d₁.size = d.size ∧ Open d₁ cpus cpu head tx := by
  have hcpu : cpu < 64 := lt_of_lt_of_le h.cpu_lt h.cpus_le
  have hge := h.page_ge
  have hle := h.page_le
  have hbig : 2 * PAGE_SIZE ≤ d.size := by
    simp only [PAGE_SIZE] at *
    omega
  obtain ⟨hok1, hok2⟩ := pair_ok hcpu hbig
  have hhead : d.load (pairAt cpu) 8 = .ok head := by
    rw [load_ok hok1]
    exact congrArg Except.ok h.head_eq
  have htail : d.load (pairAt cpu + 8) 8 = .ok head := by
    rw [load_ok hok2]
    exact congrArg Except.ok ((h.quiet cpu h.cpu_lt).symm.trans h.head_eq)
  have hpair : novaGetJournalPointers cpus cpu = some (pairAt cpu) :=
    if_neg (not_le.mpr h.cpu_lt)
  have hne : ¬ (head = 0 ∨ head ≠ head) := by
    simp only [PAGE_SIZE] at hge
    omega
  obtain ⟨d2, hw2, hsz2, hent2, hout2⟩ := writeEntry_spec (d := d) (p := head)
    (encodeEntry tx.first) (place_ok h.slot rfl hge hle)
  have hptr2 : ∀ x, PAGE_SIZE ≤ x → x < 2 * PAGE_SIZE → d2.byte x = d.byte x := by
    intro x h1 h2
    exact hout2 x (.inl (lt_of_lt_of_le h2 hge))
  unfold createTransaction novaCreateLiteTransaction
  cases hsec : tx.second with
  | none =>
    obtain ⟨d₁, hst, hsz, hopen⟩ := h.storeTail tx hsz2 hptr2 (by
      unfold Transaction.entries
      rw [hsec]
      exact ⟨hent2, trivial⟩)
    refine ⟨d₁, ?_, hsz, hopen⟩
    unfold Transaction.tailFrom at hst ⊢
    rw [hsec] at hst ⊢
    simp only [hpair, hhead, htail, bind, Except.bind, if_neg hne, hw2,
      if_neg (show ¬ (1 : Nat) = 2 by decide), pure, Except.pure, hst]
  | some second =>
    obtain ⟨hpage, hslot, hne'⟩ := nextLiteJournal_page h.slot
    have hle2 : head / PAGE_SIZE * PAGE_SIZE + PAGE_SIZE ≤ d2.size := by
      rw [hsz2]
      exact hle
    obtain ⟨d3, hw3, hsz3, hent3, hout3⟩ :=
      writeEntry_spec (d := d2) (p := nextLiteJournal head) (encodeEntry second)
        (place_ok hslot hpage hge hle2)
    have hge' : 2 * PAGE_SIZE ≤ nextLiteJournal head := by
      simp only [PAGE_SIZE] at *
      omega
    have hptr3 : ∀ x, PAGE_SIZE ≤ x → x < 2 * PAGE_SIZE → d3.byte x = d.byte x := by
      intro x h1 h2
      rw [hout3 x (.inl (lt_of_lt_of_le h2 hge'))]
      exact hptr2 x h1 h2
    have hfirst : HoldsEntry d3 head (encodeEntry tx.first) := by
      refine hent2.congr fun x h1 h2 => hout3 x ?_
      have := h.slot
      omega
    obtain ⟨d₁, hst, hsz, hopen⟩ := h.storeTail tx (hsz3.trans hsz2) hptr3 (by
      unfold Transaction.entries
      rw [hsec]
      exact ⟨hfirst, hent3, trivial⟩)
    refine ⟨d₁, ?_, hsz, hopen⟩
    unfold Transaction.tailFrom at hst ⊢
    rw [hsec] at hst ⊢
    simp only [hpair, hhead, htail, bind, Except.bind, if_neg hne, hw2, hw3,
      if_true, pure, Except.pure, hst]

-- === updates

/-- Updates change their words only. -/
theorem applyUpdates_spec (ups : List (Word × Nat)) :
    (applyUpdates d ups).size = d.size ∧ ∀ x, (∀ u ∈ ups, x < u.1.addr ∨ u.1.addr + u.1.width ≤ x) →
          (applyUpdates d ups).byte x = d.byte x := by
  induction ups generalizing d with
  | nil => exact ⟨rfl, fun _ _ => rfl⟩
  | cons u ups ih =>
    obtain ⟨hsz, hout⟩ := ih (d := { d with byte := writeLE d.byte u.1.addr u.1.width u.2 })
    refine ⟨hsz, fun x hx => ?_⟩
    show (applyUpdates { d with byte := _ } ups).byte x = d.byte x
    rw [hout x fun w hw => hx w (mem_cons_of_mem u hw)]
    exact writeLE_outside (hx u mem_cons_self)

/-- Updates leave the journal alone. -/
theorem applyUpdates_sameJournal {ups : List (Word × Nat)} (hups : ∀ u ∈ ups, u.1 ∈ tx.words)
    (hvalid : ∀ w ∈ tx.words, w.Valid d0 head) : SameJournal d (applyUpdates d ups) head := by
  obtain ⟨hsz, hout⟩ := applyUpdates_spec (d := d) ups
  refine ⟨hsz, ?_, ?_⟩
  · intro x h1 h2
    apply hout
    intro u hu
    have := (hvalid u.1 (hups u hu)).offPointers
    omega
  intro x h1 h2
  apply hout
  intro u hu
  have := (hvalid u.1 (hups u hu)).offJournal
  omega

-- === commit

/-- The block the commit may move the journal page to is one the
allocator hands out. -/
def GoodMigrate (migrate : Option (Option Nat)) : Prop :=
  ∀ b, migrate = some (some b) → RESERVED_BLOCKS ≤ b

/-- No journal has a transaction. -/
def AllQuiet (d : Device) (cpus : Nat) : Prop :=
  ∀ i < cpus, headOf d i = tailOf d i

/-- Then recovery does nothing. -/
theorem novaLiteJournalSoftInit_quiet (hcpus : cpus ≤ 64)
    (hsize : 2 * PAGE_SIZE ≤ d.size) (h : AllQuiet d cpus) :
    novaLiteJournalSoftInit d cpus false = .ok (0, d) := by
  unfold novaLiteJournalSoftInit
  have := softInitFrom_quiet (List.range cpus) [] hsize fun i hi => by
    have hlt := mem_range.mp hi
    exact ⟨lt_of_lt_of_le hlt hcpus, h i hlt⟩
  rw [append_nil] at this
  rw [this]
  rfl

/-- One journal with equal pointers. -/
theorem allQuiet_of_pair {b : Nat → UInt8}
    (hd : d.byte = writeLE (writeLE b (pairAt cpu) 8 v) (pairAt cpu + 8) 8 v)
    (hothers : ∀ i < cpus, i ≠ cpu → readLE b (pairAt i) 8 = readLE b (pairAt i + 8) 8) :
    AllQuiet d cpus := by
  intro i hi
  unfold headOf tailOf
  rw [hd]
  obtain ⟨hheads, htails⟩ := pointers_writeTail (v := v) (i := cpu)
    (writeLE b (pairAt cpu) 8 v)
  rw [hheads i]
  by_cases hic : i = cpu
  · subst hic
    rw [readLE_writeLE_self, readLE_writeLE_self]
  rw [htails i hic]
  have hq := hothers i hi hic
  rw [readLE_writeLE_of_disjoint, readLE_writeLE_of_disjoint]
  · exact hq
  · simp only [pairAt, CACHELINE_SIZE, PAGE_SIZE]
    omega
  · simp only [pairAt, CACHELINE_SIZE, PAGE_SIZE]
    omega

/-- The new head ends the transaction. -/
theorem Open.storeHead (h : Open d cpus cpu head tx)
    (hd : d'.byte = writeLE d.byte (pairAt cpu) 8 (tx.tailFrom head))
    (hlt : tx.tailFrom head < 256 ^ 8) : AllQuiet d' cpus := by
  intro i hi
  unfold headOf tailOf
  rw [hd]
  have hdisj : readLE (writeLE d.byte (pairAt cpu) 8 (tx.tailFrom head))
      (pairAt i + 8) 8 = tailOf d i := by
    apply readLE_writeLE_of_disjoint
    simp only [pairAt, CACHELINE_SIZE, PAGE_SIZE]
    omega
  rw [hdisj]
  by_cases hic : i = cpu
  · subst hic
    rw [readLE_writeLE_self, Nat.mod_eq_of_lt hlt, h.tail_eq]
  rw [readLE_writeLE_of_disjoint]
  · exact h.quiet i hi hic
  · simp only [pairAt, CACHELINE_SIZE, PAGE_SIZE]
    omega

/-- A migration leaves all journals quiet. -/
theorem activeMigrateJournalPage_quiet (hq : AllQuiet d cpus) (hgood : GoodMigrate migrate)
    (hcpu : cpu < cpus) (hcpus : cpus ≤ 64) (hsize : 2 * PAGE_SIZE ≤ d.size)
    (hmig : activeMigrateJournalPage d (pairAt cpu) migrate = .ok d') :
    d'.size = d.size ∧ AllQuiet d' cpus := by
  obtain ⟨hok1, hok2⟩ := pair_ok (lt_of_lt_of_le hcpu hcpus) hsize
  unfold activeMigrateJournalPage at hmig
  rcases migrate with _ | _ | b
  · cases hmig
    exact ⟨rfl, hq⟩
  · cases hmig
    exact ⟨rfl, hq⟩
  have hb := hgood b rfl
  have heq : readLE d.byte (pairAt cpu) 8 = readLE d.byte (pairAt cpu + 8) 8 := hq cpu hcpu
  simp only [load_ok hok1, load_ok hok2, bind, Except.bind] at hmig
  unfold Device.memcpy at hmig
  split at hmig
  · cases hmig
  next d2 hcopy =>
  split at hcopy
  · injection hcopy with hcopy
    have hsz2 : d2.size = d.size := by rw [← hcopy]
    have hst : ∀ (bs : Nat → UInt8) v, Device.store { d2 with byte := bs } (pairAt cpu + 8) 8 v
          = .ok { d2 with byte := writeLE bs (pairAt cpu + 8) 8 v } :=
      fun bs v => store_ok (hok2.of_size hsz2)
    rw [store_ok (hok1.of_size hsz2)] at hmig
    dsimp only at hmig
    rw [hst, ← heq] at hmig
    cases hmig
    refine ⟨hsz2, allQuiet_of_pair rfl ?_⟩
    rw [← hcopy]
    intro i hi hne
    -- the page copied to lies behind the pointer block
    have hkeep : ∀ a, a + 8 ≤ 2 * PAGE_SIZE → readLE (copyBytes d.byte (b * PAGE_SIZE)
          (readLE d.byte (pairAt cpu) 8 / PAGE_SIZE * PAGE_SIZE) PAGE_SIZE) a 8
          = readLE d.byte a 8 := by
      intro a ha
      apply readLE_congr
      intro x h1 h2
      apply copyBytes_outside
      simp only [RESERVED_BLOCKS, PAGE_SIZE] at *
      omega
    rw [hkeep, hkeep]
    · exact hq i hi
    · simp only [pairAt, CACHELINE_SIZE, PAGE_SIZE]
      omega
    · simp only [pairAt, CACHELINE_SIZE, PAGE_SIZE]
      omega
  · cases hcopy

/-- A commit leaves all journals quiet. -/
theorem novaCommitLiteTransaction_quiet (h : Open d cpus cpu head tx)
    (hlt : tx.tailFrom head < 256 ^ 8) (hgood : GoodMigrate migrate)
    (hcommit : novaCommitLiteTransaction d cpus (tx.tailFrom head) cpu migrate = .ok d') :
    d'.size = d.size ∧ AllQuiet d' cpus := by
  have hsize := h.size_ge
  obtain ⟨hok1, hok2⟩ := pair_ok (lt_of_lt_of_le h.cpu_lt h.cpus_le) hsize
  have hpair : novaGetJournalPointers cpus cpu = some (pairAt cpu) :=
    if_neg (not_le.mpr h.cpu_lt)
  have htail : d.load (pairAt cpu + 8) 8 = .ok (tx.tailFrom head) := by
    rw [load_ok hok2]
    exact congrArg Except.ok h.tail_eq
  have hstep : novaCommitLiteTransaction d cpus (tx.tailFrom head) cpu migrate
      = activeMigrateJournalPage
          { d with byte := writeLE d.byte (pairAt cpu) 8 (tx.tailFrom head) }
          (pairAt cpu) migrate := by
    unfold novaCommitLiteTransaction
    generalize tx.tailFrom head = tail at htail ⊢
    rw [hpair]
    dsimp only
    rw [htail, store_ok hok1]
    simp only [bind, Except.bind, ne_eq, not_true_eq_false, if_false]
  rw [hstep] at hcommit
  have hq : AllQuiet
      { d with byte := writeLE d.byte (pairAt cpu) 8 (tx.tailFrom head) } cpus :=
    h.storeHead rfl hlt
  have hres := activeMigrateJournalPage_quiet hq hgood h.cpu_lt h.cpus_le hsize hcommit
  exact hres

-- === the verdict

/-- What recovery owes an open transaction of `cpu` on the device `d` a
crash left: it returns 0, every journaled word has its old value, no
byte outside the words and the CPU's pointers changed, and the ring is
empty. -/
structure Undone (d d' : Device) (cpu : Nat) (tx : Transaction) : Prop where
  restored : ∀ w ∈ tx.words, readLE d'.byte w.addr w.width = w.old
  frame : ∀ x, (∀ w ∈ tx.words, x < w.addr ∨ w.addr + w.width ≤ x) →
    (x < pairAt cpu ∨ pairAt cpu + 16 ≤ x) → d'.byte x = d.byte x
  empty : headOf d' cpu = tailOf d' cpu

/-- Recovery does what it owes. -/
def UndoCorrect (d : Device) (cpus cpu : Nat) (tx : Transaction) (oom : Bool) :
    Prop :=
  ∃ d', novaLiteJournalSoftInit d cpus oom = .ok (0, d') ∧ Undone d d' cpu tx

/-- After a commit recovery does nothing. -/
def CommitQuiet (d : Device) (cpus cpu tail : Nat) : Prop :=
  ∀ migrate d', GoodMigrate migrate →
    novaCommitLiteTransaction d cpus tail cpu migrate = .ok d' →
    novaLiteJournalSoftInit d' cpus false = .ok (0, d')

/-- Recovery of an open transaction. -/
theorem novaLiteJournalSoftInit_open (h : Open d cpus cpu head tx)
    (hvalid : ∀ w ∈ tx.words, w.Valid d0 head) :
    (tx.words = [] → novaLiteJournalSoftInit d cpus false = .ok (0, resetTail d cpu))
      ∧ (tx.words ≠ [] → novaLiteJournalSoftInit d cpus false = .error .oops) := by
  have hsize := h.size_ge
  obtain ⟨l1, l2, hl⟩ := append_of_mem (mem_range.mpr h.cpu_lt)
  have hnodup := nodup_range (n := cpus)
  rw [hl] at hnodup
  obtain ⟨-, hnd2, hnd3⟩ := nodup_append.mp hnodup
  have hlt : ∀ i, i ∈ l1 ∨ i ∈ l2 → i < cpus := by
    intro i hi
    apply mem_range.mp
    rw [hl]
    rcases hi with hi | hi <;> simp [hi]
  have hskip := softInitFrom_quiet l1 (cpu :: l2) hsize fun i hi =>
    ⟨lt_of_lt_of_le (hlt i (.inl hi)) h.cpus_le,
      h.quiet i (hlt i (.inl hi)) (hnd3 i hi cpu mem_cons_self)⟩
  obtain ⟨hgood, hbad⟩ := softInitFrom_open l2 h hvalid
  unfold novaLiteJournalSoftInit
  rw [hl, hskip]
  refine ⟨fun he => ?_, hbad⟩
  rw [hgood he]
  -- the CPUs behind it are still quiet
  obtain ⟨hheads, htails⟩ := pointers_writeTail (v := headOf d cpu) (i := cpu) d.byte
  have hrest := softInitFrom_quiet (d := resetTail d cpu) l2 [] hsize fun i hi => by
    have hne : i ≠ cpu := fun hic => (nodup_cons.mp hnd2).1 (hic ▸ hi)
    refine ⟨lt_of_lt_of_le (hlt i (.inr hi)) h.cpus_le, ?_⟩
    show readLE (writeLE d.byte _ _ _) _ _ = readLE (writeLE d.byte _ _ _) _ _
    rw [hheads i, htails i hne]
    exact h.quiet i (hlt i (.inr hi)) hne
  rw [append_nil] at hrest
  rw [hrest]
  rfl

/-- Without words there is nothing to undo. -/
theorem resetTail_undone (hwords : tx.words = []) (hlt : headOf d cpu < 256 ^ 8) :
    Undone d (resetTail d cpu) cpu tx := by
  refine ⟨?_, ?_, ?_⟩
  · intro w hw
    rw [hwords] at hw
    cases hw
  · intro x _ hx
    apply writeLE_outside
    omega
  obtain ⟨hheads, -⟩ := pointers_writeTail (v := headOf d cpu) (i := cpu) d.byte
  show readLE (writeLE d.byte _ _ _) _ _ = readLE (writeLE d.byte _ _ _) _ _
  rw [hheads cpu, readLE_writeLE_self, Nat.mod_eq_of_lt hlt]
  rfl

/-- Undo of a lite transaction. On an idle journal the transaction is
created; after a crash that kept any updates of its words, recovery
restores them, and nothing else, if and only if there is no word to
restore (and `kzalloc` succeeds). After the commit, recovery undoes
nothing. -/
theorem undo_correct_iff_no_words (d : Device) (cpus cpu head : Nat)
    (tx : Transaction) (hidle : Idle d cpus cpu head) (hvalid : ∀ w ∈ tx.words, w.Valid d head) :
    ∃ tail d₁, createTransaction d cpus cpu tx = .ok (tail, d₁)
      ∧ ∀ ups : List (Word × Nat), (∀ u ∈ ups, u.1 ∈ tx.words) →
        (∀ oom, UndoCorrect (applyUpdates d₁ ups) cpus cpu tx oom ↔ tx.words = [] ∧ oom = false)
        ∧ CommitQuiet (applyUpdates d₁ ups) cpus cpu tail := by
  obtain ⟨d₁, hcreate, hsz, hopen₁⟩ := createTransaction_spec tx hidle
  refine ⟨_, d₁, hcreate, fun ups hups => ?_⟩
  have hopen : Open (applyUpdates d₁ ups) cpus cpu head tx :=
    hopen₁.congr (applyUpdates_sameJournal hups hvalid)
  obtain ⟨hgood, hbad⟩ := novaLiteJournalSoftInit_open hopen hvalid
  have hlt := tx.tailFrom_lt hidle
  constructor
  · intro oom
    cases oom with
    | true =>
      constructor
      · rintro ⟨d', hret, -⟩
        cases hret
      · rintro ⟨-, h⟩
        cases h
    | false =>
      constructor
      · rintro ⟨d', hret, -⟩
        refine ⟨?_, rfl⟩
        by_contra hne
        rw [hbad hne] at hret
        cases hret
      rintro ⟨he, -⟩
      refine ⟨_, hgood he, resetTail_undone he ?_⟩
      rw [hopen.head_eq]
      have h₁ := hidle.page_le
      have h₂ := d.size_le
      simp only [PAGE_SIZE] at h₁
      omega
  intro migrate d' hm hcommit
  obtain ⟨hsz', hq⟩ := novaCommitLiteTransaction_quiet hopen hlt hm hcommit
  apply novaLiteJournalSoftInit_quiet hopen.cpus_le _ hq
  rw [hsz']
  exact hopen.size_ge

-- === a failed recovery

/-- A device of a few pages. -/
def smallDevice : Device where
  size := 5 * PAGE_SIZE
  byte := writeLE (writeLE (fun _ => 0) 4096 8 12288) 4104 8 12288
  size_le := by decide

/-- Its journal is idle. -/
theorem smallDevice_idle : Idle smallDevice 1 0 12288 := by
  refine ⟨by decide, by decide, ?_, by decide, by decide, by decide, by decide⟩
  intro i hi
  have h0 : i = 0 := by omega
  subst h0
  decide

/-- The word of a log tail. -/
def tailWord : Word := { addr := 16384, width := 8, old := 0 }

/-- A transaction of one word. -/
def oneWord : Transaction where
  first i := if i = 0 then some tailWord else none
  second := none

/-- Its word is valid. -/
theorem oneWord_valid : ∀ w ∈ oneWord.words, w.Valid smallDevice 12288 := by
  intro w hw
  have hw' : w = tailWord := by simpa [Transaction.words, Transaction.entries, oneWord] using hw
  subst hw'
  exact ⟨by decide, by decide, by decide, by decide, by decide⟩

/-- Recovery does not always undo: here it dies before it restores the
word. -/
theorem undo_can_fail :
    ¬ ∀ (d : Device) (cpus cpu head : Nat) (tx : Transaction),
      Idle d cpus cpu head → (∀ w ∈ tx.words, w.Valid d head) →
      ∀ tail d₁, createTransaction d cpus cpu tx = .ok (tail, d₁) →
      ∀ ups : List (Word × Nat), (∀ u ∈ ups, u.1 ∈ tx.words) →
        UndoCorrect (applyUpdates d₁ ups) cpus cpu tx false := by
  intro hall
  obtain ⟨d₁, hcreate, -, hopen⟩ := createTransaction_spec oneWord smallDevice_idle
  obtain ⟨d', hret, -⟩ := hall smallDevice 1 0 12288 oneWord smallDevice_idle
    oneWord_valid _ d₁ hcreate [] (by simp)
  have hdies := (novaLiteJournalSoftInit_open hopen oneWord_valid).2 (by decide)
  rw [show applyUpdates d₁ [] = d₁ from rfl, hdies] at hret
  cases hret

/-- A transaction without words. -/
def noWords : Transaction where
  first _ := none
  second := some fun _ => none

/-- There the crash is survived. -/
theorem undo_correct_no_words :
    Idle smallDevice 1 0 12288
      ∧ ∃ tail d₁, createTransaction smallDevice 1 0 noWords = .ok (tail, d₁)
        ∧ UndoCorrect d₁ 1 0 noWords false ∧ CommitQuiet d₁ 1 0 tail := by
  refine ⟨smallDevice_idle, ?_⟩
  obtain ⟨tail, d₁, hcreate, hall⟩ := undo_correct_iff_no_words smallDevice 1 0
    12288 noWords smallDevice_idle (by intro w hw; cases hw)
  obtain ⟨hundo, hquiet⟩ := hall [] (by simp)
  exact ⟨tail, d₁, hcreate, (hundo false).mpr ⟨by decide, rfl⟩, hquiet⟩

end Themis.Journal
