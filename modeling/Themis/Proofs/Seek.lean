/-
`SEEK_DATA` and `SEEK_HOLE` against the positions they are to find.

The scan jumps over holes but never over a mapped page (`pastHole_spec`),
so its flags say what there is between the two pages and its count is the
distance to what is searched (`scan_data`, `scan_hole`). The count is then
an `int`: `moveOffset_eq_iff` says up to which distance the offset comes
out right.
-/
import Themis.Seek
import Mathlib.Order.Bounds.Basic

namespace Themis.Seek

open Lib Log File

variable {al : BlockAllocator} {st : State al} {ino last offset iBlocks : Nat}
variable {p rounds : Nat} {s : Scan}

attribute [local simp] regionFrom

-- === mapped pages

/-- The page is mapped. -/
def Mapped (st : State al) (ino p : Nat) : Prop := ((st.info ino).tree.get p).isSome

instance (st : State al) (ino p : Nat) : Decidable (Mapped st ino p) :=
  inferInstanceAs (Decidable (_ = true))

/-- Entries begin at or before their pages. -/
def StartsBefore (st : State al) (ino : Nat) : Prop :=
  ∀ p a, (st.info ino).tree.get p = some a → (entryAt st.nv a).pgoff ≤ p

/-- The jump over a hole. -/
theorem pastHole_spec (h : StartsBefore st ino) (last : Nat) (hp : p ≤ last)
    (hhole : ¬ Mapped st ino p) : p < pastHole st ino last p ∧ pastHole st ino last p ≤ last + 1 ∧
      ∀ q, p ≤ q → q < pastHole st ino last p → ¬ Mapped st ino q := by
  have hnext : ∀ q, p ≤ q → q < p + 1 → ¬ Mapped st ino q := by
    intro q h1 h2
    rwa [show q = p by omega]
  unfold pastHole
  cases hg : (st.info ino).tree.gangLookup p with
  | none => exact ⟨by simp, by simpa using hp, hnext⟩
  | some a =>
    obtain ⟨j, hj, ha, hleast⟩ := Radix.gangLookup_eq_some hg
    have hstart := h j a ha
    have hfree : ∀ q, p ≤ q → q < max (p + 1) (entryAt st.nv a).pgoff → ¬ Mapped st ino q := by
      intro q h1 h2
      rcases Nat.lt_or_ge q (p + 1) with hq | hq
      · exact hnext q h1 hq
      · have hqj : q < j := by omega
        simp [Mapped, hleast q h1 hqj]
    simp only
    split
    · exact ⟨by omega, by omega, fun q h1 h2 => hfree q h1 (by omega)⟩
    · exact ⟨by omega, by omega, hfree⟩

-- === the scans

/-- The scan finds the first mapped page. -/
theorem scan_data (h : StartsBefore st ino) (hrounds : last + 1 - s.pgoff ≤ rounds) (hp : p ≤ last)
    (hsp : s.pgoff ≤ p) (hmap : Mapped st ino p)
    (hfree : ∀ q, s.pgoff ≤ q → q < p → ¬ Mapped st ino q) :
    (lookupLoop st ino last false rounds s).blocks = s.blocks + (p - s.pgoff) ∧
      (lookupLoop st ino last false rounds s).dataFound = true ∧
      (lookupLoop st ino last false rounds s).holeFound
        = (s.holeFound || decide (s.pgoff < p)) := by
  induction rounds generalizing s with
  | zero => omega
  | succ rounds ih =>
    rcases Nat.eq_or_lt_of_le hsp with heq | hlt
    · obtain ⟨a, ha⟩ := Option.isSome_iff_exists.1 hmap
      simp [lookupLoop, heq, hp, ha]
    have hhole := hfree s.pgoff le_rfl hlt
    have hnone : (st.info ino).tree.get s.pgoff = none := by simpa [Mapped] using hhole
    obtain ⟨h1, h2, h3⟩ := pastHole_spec h last (by omega) hhole
    have hle : pastHole st ino last s.pgoff ≤ p := by
      by_contra hcon
      exact h3 p hsp (by omega) hmap
    have hgo := ih (s := ({ s with holeFound := true } : Scan).moveTo
      (pastHole st ino last s.pgoff) false) (by simp only [Scan.moveTo]; omega) hle
      (fun q hq => hfree q (by simp only [Scan.moveTo] at hq; omega))
    simp only [lookupLoop, if_pos (show s.pgoff ≤ last by omega), hnone]
    refine ⟨?_, hgo.2.1, ?_⟩
    · rw [hgo.1]
      simp only [Scan.moveTo, Bool.not_false, Bool.or_true, if_true]
      omega
    · rw [hgo.2.2]
      simp [Scan.moveTo, hlt]

/-- Or none, where there is none. -/
theorem scan_no_data (h : StartsBefore st ino) (hrounds : last + 1 - s.pgoff ≤ rounds)
    (hfree : ∀ q, s.pgoff ≤ q → q ≤ last → ¬ Mapped st ino q) :
    (lookupLoop st ino last false rounds s).dataFound = s.dataFound ∧
      (lookupLoop st ino last false rounds s).holeFound
        = (s.holeFound || decide (s.pgoff ≤ last)) := by
  induction rounds generalizing s with
  | zero =>
    have hend : ¬ s.pgoff ≤ last := by omega
    simp [lookupLoop, hend]
  | succ rounds ih =>
    by_cases hin : s.pgoff ≤ last
    · have hhole := hfree s.pgoff le_rfl hin
      have hnone : (st.info ino).tree.get s.pgoff = none := by simpa [Mapped] using hhole
      obtain ⟨h1, h2, h3⟩ := pastHole_spec h last hin hhole
      have hgo := ih (s := ({ s with holeFound := true } : Scan).moveTo
        (pastHole st ino last s.pgoff) false) (by simp only [Scan.moveTo]; omega)
        (fun q hq => hfree q (by simp only [Scan.moveTo] at hq; omega))
      simp only [lookupLoop, if_pos hin, hnone]
      refine ⟨hgo.1, ?_⟩
      rw [hgo.2]
      simp [Scan.moveTo, hin]
    · simp [lookupLoop, hin]

/-- What the scan for a hole leaves from `s` on. -/
structure ScannedHole (st : State al) (ino last : Nat) (s r : Scan) : Prop where
  data : r.dataFound = true ↔
    s.dataFound = true ∨ ∃ p, s.pgoff ≤ p ∧ p ≤ last ∧ Mapped st ino p
  hole : r.holeFound = true ↔
    s.holeFound = true ∨ ∃ p, s.pgoff ≤ p ∧ p ≤ last ∧ ¬ Mapped st ino p
  kept : s.holeFound = true → r.blocks = s.blocks
  blocks : s.holeFound = false → ∀ p, s.pgoff ≤ p → p ≤ last → ¬ Mapped st ino p →
    (∀ q, s.pgoff ≤ q → q < p → Mapped st ino q) → r.blocks = s.blocks + (p - s.pgoff)

/-- The scan for a hole. -/
theorem scan_hole (h : StartsBefore st ino) (hrounds : last + 1 - s.pgoff ≤ rounds) :
    ScannedHole st ino last s (lookupLoop st ino last true rounds s) := by
  have hout : ∀ s : Scan, ¬ s.pgoff ≤ last → ScannedHole st ino last s s := by
    intro s hs
    have hno : ∀ P : Nat → Prop, ¬ ∃ p, s.pgoff ≤ p ∧ p ≤ last ∧ P p := by
      rintro P ⟨p, h1, h2, -⟩
      omega
    exact ⟨by simp [hno], by simp [hno], fun _ => rfl, fun _ p h1 h2 => by omega⟩
  induction rounds generalizing s with
  | zero => exact hout s (by omega)
  | succ rounds ih =>
    by_cases hin : s.pgoff ≤ last
    swap
    · simpa [lookupLoop, hin] using hout s hin
    simp only [lookupLoop, if_pos hin]
    by_cases hmap : Mapped st ino s.pgoff
    · -- a mapped page: one page further
      obtain ⟨a, ha⟩ := Option.isSome_iff_exists.1 hmap
      have hgo := ih (s := ({ s with dataFound := true } : Scan).moveTo (s.pgoff + 1) true)
        (by simp only [Scan.moveTo]; omega)
      simp only [ha, Bool.not_true, Bool.false_eq_true, if_false]
      refine ⟨?_, ?_, ?_, ?_⟩
      · rw [hgo.data]
        simp only [Scan.moveTo, true_or, true_iff]
        exact .inr ⟨s.pgoff, le_rfl, hin, hmap⟩
      · rw [hgo.hole]
        apply or_congr_right
        constructor
        · rintro ⟨p, h1, h2, h3⟩
          exact ⟨p, by simp only [Scan.moveTo] at h1; omega, h2, h3⟩
        rintro ⟨p, h1, h2, h3⟩
        have hne : p ≠ s.pgoff := by
          rintro rfl
          exact h3 hmap
        exact ⟨p, by simp only [Scan.moveTo]; omega, h2, h3⟩
      · intro hs
        rw [hgo.kept hs]
        simp [Scan.moveTo, hs]
      intro hs p h1 h2 h3 h4
      have hne : p ≠ s.pgoff := by
        rintro rfl
        exact h3 hmap
      rw [hgo.blocks hs p (by simp only [Scan.moveTo]; omega) h2 h3
        (fun q hq => h4 q (by simp only [Scan.moveTo] at hq; omega))]
      simp only [Scan.moveTo, hs, Bool.not_false, Bool.true_or, if_true]
      omega
    -- a hole: over it, the count stays
    have hnone : (st.info ino).tree.get s.pgoff = none := by simpa [Mapped] using hmap
    obtain ⟨hlt, hle, hfree⟩ := pastHole_spec h last hin hmap
    have hgo := ih (s := ({ s with holeFound := true } : Scan).moveTo
      (pastHole st ino last s.pgoff) true) (by simp only [Scan.moveTo]; omega)
    have hcount : (({ s with holeFound := true } : Scan).moveTo
        (pastHole st ino last s.pgoff) true).blocks = s.blocks := by simp [Scan.moveTo]
    simp only [hnone]
    refine ⟨?_, ?_, ?_, ?_⟩
    · rw [hgo.data]
      apply or_congr_right
      constructor
      · rintro ⟨p, h1, h2, h3⟩
        exact ⟨p, by simp only [Scan.moveTo] at h1; omega, h2, h3⟩
      rintro ⟨p, h1, h2, h3⟩
      refine ⟨p, ?_, h2, h3⟩
      simp only [Scan.moveTo]
      by_contra hcon
      exact hfree p h1 (by omega) h3
    · rw [hgo.hole]
      simp only [Scan.moveTo, true_or, true_iff]
      exact .inr ⟨s.pgoff, le_rfl, hin, hmap⟩
    · intro _
      rw [hgo.kept rfl, hcount]
    intro _ p h1 h2 h3 h4
    have heq : p = s.pgoff := by
      by_contra hne
      exact hmap (h4 s.pgoff le_rfl (by omega))
    rw [hgo.kept rfl]
    omega

-- === the offset

/-- The new offset. -/
theorem moveOffset_eq (offset : Nat) {b : Nat} (hb : b < 2 ^ 64) :
    moveOffset offset b = loffT (offset / PAGE_SIZE * PAGE_SIZE + b * PAGE_SIZE : Nat) := by
  have hmod : ∀ x y : Int, x % 2 ^ 64 = y % 2 ^ 64 → loffT x = loffT y := by
    intro x y hxy
    have hxy' : x % ((2 ^ 64 : Nat) : Int) = y % ((2 ^ 64 : Nat) : Int) := by exact_mod_cast hxy
    simp only [loffT, Int.bmod_def, hxy']
  unfold moveOffset
  by_cases h0 : offset % PAGE_SIZE = 0
  · rw [if_neg (not_not.2 h0)]
    apply hmod
    simp only [PAGE_SIZE] at *
    omega
  rw [if_pos h0]
  apply hmod
  by_cases hzero : b = 0
  · rw [hzero]
    simp only [ulongPred, if_true, PAGE_SIZE] at *
    omega
  rw [ulongPred_of_pos (by omega)]
  simp only [PAGE_SIZE] at *
  omega

/-- When the new offset is right. -/
theorem moveOffset_eq_iff (offset : Nat) {n : Nat}
    (hend : (offset / PAGE_SIZE + n) * PAGE_SIZE < 2 ^ 63) :
    moveOffset offset (ulongOfInt (intOfUlong n)) = ((offset / PAGE_SIZE + n) * PAGE_SIZE : Nat)
      ↔ n < 2 ^ 31 := by
  have hb : ulongOfInt (intOfUlong n) < 2 ^ 64 := by
    unfold ulongOfInt
    omega
  rw [moveOffset_eq offset hb]
  generalize offset / PAGE_SIZE = f at *
  simp only [PAGE_SIZE] at *
  have hv : (ulongOfInt (intOfUlong n) : Int) = intOfUlong n % 2 ^ 64 := by
    unfold ulongOfInt
    omega
  have hint : ∃ k : Int, intOfUlong n = n - 2 ^ 32 * k ∧ - 2 ^ 31 ≤ intOfUlong n ∧
      intOfUlong n < 2 ^ 31 := by
    unfold intOfUlong
    rw [Int.bmod_def]
    split
    · exact ⟨n / 2 ^ 32, by omega, by omega, by omega⟩
    · exact ⟨n / 2 ^ 32 + 1, by omega, by omega, by omega⟩
  unfold loffT
  rw [Int.bmod_def]
  generalize ulongOfInt (intOfUlong n) = u at *
  generalize intOfUlong n = v at *
  constructor
  · intro heq
    split at heq <;> omega
  · intro hn
    split <;> omega

-- === exact positions

/-- A sparse file: it has blocks and a size, and no page behind its end is
mapped. -/
structure SparseFile (st : State al) (ino iBlocks : Nat) : Prop where
  blocks : iBlocks ≠ 0
  sihSize : (st.info ino).sihSize ≠ 0
  loff : (st.info ino).iSize < 2 ^ 63
  starts : StartsBefore st ino
  within : ∀ p, Mapped st ino p → p * PAGE_SIZE < (st.info ino).iSize

/-- The position lies in a mapped page. -/
def InData (st : State al) (ino x : Nat) : Prop := Mapped st ino (x / PAGE_SIZE)

/-- There is one least element. -/
theorem forall_isLeast_iff {S : Set Nat} (hp : IsLeast S p) {Q : Nat → Prop} :
    (∀ q, IsLeast S q → Q q) ↔ Q p := by
  constructor
  · intro hall
    exact hall p hp
  · intro hQ q hq
    rwa [hq.unique hp]

/-- What `SEEK_DATA` is to return. -/
def DataExact (st : State al) (ino offset : Nat) (r : Int × Int) : Prop :=
  (r.1 = - ENXIO ↔ ∀ x, offset ≤ x → x < (st.info ino).iSize → ¬ InData st ino x) ∧
    ((∃ x, offset ≤ x ∧ x < (st.info ino).iSize ∧ InData st ino x) →
      r.1 = 0 ∧ ∃ x : Nat, IsLeast {x | offset ≤ x ∧ InData st ino x} x ∧ r.2 = x)

/-- What `SEEK_HOLE` is to return. -/
def HoleExact (st : State al) (ino offset : Nat) (r : Int × Int) : Prop :=
  r.1 = 0 ∧
    (∀ x : Nat, IsLeast {x | offset ≤ x ∧ x < (st.info ino).iSize ∧ ¬ InData st ino x} x →
      r.2 = x) ∧
    ((∀ x, offset ≤ x → x < (st.info ino).iSize → InData st ino x) →
      r.2 = (st.info ino).iSize)

/-- The scan from an offset. -/
def scanned (st : State al) (ino offset : Nat) (hole : Bool) : Scan :=
  lookupLoop st ino ((st.info ino).iSize / PAGE_SIZE) hole
    ((st.info ino).iSize / PAGE_SIZE + 1 - offset / PAGE_SIZE)
    ⟨offset / PAGE_SIZE, 0, false, false⟩

/-- The result, from the scan. -/
theorem novaFindRegion_eq (h : SparseFile st ino iBlocks)
    (hoff : offset < (st.info ino).iSize) (hole : Bool) :
    novaFindRegion st ino iBlocks offset hole = regionFrom (st.info ino).iSize offset hole
        (intOfUlong (scanned st ino offset hole).blocks)
        (scanned st ino offset hole).dataFound (scanned st ino offset hole).holeFound := by
  have hboth : ¬ (iBlocks = 0 ∨ (st.info ino).sihSize = 0) := by
    rintro (h0 | h0)
    · exact h.blocks h0
    · exact h.sihSize h0
  unfold novaFindRegion
  rw [if_neg (not_le.2 hoff), if_neg hboth]
  simp only [novaLookupHoleInRange, scanned]

/-- A mapped page is in the file. -/
theorem SparseFile.le_last (h : SparseFile st ino iBlocks) (hp : Mapped st ino p) :
    p ≤ (st.info ino).iSize / PAGE_SIZE := by
  have := h.within p hp
  rw [Nat.le_div_iff_mul_le (by decide)]
  omega

/-- The first data is where the page begins. -/
theorem isLeast_data (hlt : offset / PAGE_SIZE < p)
    (hp : IsLeast {p | offset / PAGE_SIZE ≤ p ∧ Mapped st ino p} p) :
    IsLeast {x | offset ≤ x ∧ InData st ino x} (p * PAGE_SIZE) := by
  constructor
  · refine ⟨?_, ?_⟩
    · have := Nat.lt_mul_of_div_lt hlt (by decide)
      omega
    · rw [InData, Nat.mul_div_cancel _ (by decide)]
      exact hp.1.2
  rintro x ⟨hx, hdata⟩
  have := hp.2 ⟨Nat.div_le_div_right hx, hdata⟩
  exact (Nat.le_div_iff_mul_le (by decide)).1 this

/-- A file, inode 5, of which the page `p` is mapped and no other; its
entry is at 4096. -/
def onePage (p size : Nat) : State (BlockAllocator.ascending 64) where
  nv :=
    { slot := fun _ => .fileWrite ⟨p, 1, 2, 0, size⟩
      invalid := fun _ => 0
      next := fun _ => 0
      logHead := fun _ => 4096
      logTail := fun _ => 4136
      record := fun _ => ⟨size, ⟨0o100644, 0, 0, 0, 0, 0⟩, 1, 4096, 4136⟩ }
  data := fun _ => 0
  alloc := { next := 9, returned := fun _ => false }
  info := fun _ =>
    { tree := Radix.empty.set p 4096
      logPages := 1
      lastSetattr := 0
      lastLinkChange := 0
      sihSize := size
      iSize := size
      attrs := ⟨0o100644, 0, 0, 0, 0, 0⟩ }
  trace := []

/-- The mapped page of that file. -/
theorem onePage_mapped {q size ino : Nat} : Mapped (onePage p size) ino q ↔ q = p := by
  simp only [Mapped, onePage, Radix.set, Radix.empty, Function.update_apply]
  split <;> simp [*]

/-- It is a sparse file. -/
theorem onePage_sparse {size : Nat} (hp : p * PAGE_SIZE < size) (hsize : size < 2 ^ 63) :
    SparseFile (onePage p size) 5 1 where
  blocks := by decide
  sihSize := by
    show size ≠ 0
    omega
  loff := hsize
  starts := by
    intro q a hq
    have hqp : q = p := onePage_mapped.1 (by rw [Mapped, hq]; rfl)
    rw [hqp]
    exact le_refl p
  within := by
    intro q hq
    rw [onePage_mapped.1 hq]
    exact hp

/-- `SEEK_DATA` is exact if and only if the next mapped page is fewer than
2^31 pages away. -/
theorem seekData_exact_iff (h : SparseFile st ino iBlocks) (hoff : offset < (st.info ino).iSize) :
    DataExact st ino offset (novaFindRegion st ino iBlocks offset false) ↔
      ∀ p, IsLeast {p | offset / PAGE_SIZE ≤ p ∧ Mapped st ino p} p →
        p - offset / PAGE_SIZE < 2 ^ 31 := by
  have hne : (0 : Int) ≠ - ENXIO := by decide
  have hfirst : offset / PAGE_SIZE ≤ (st.info ino).iSize / PAGE_SIZE := Nat.div_le_div_right hoff.le
  rw [novaFindRegion_eq h hoff]
  by_cases hsome : ∃ p, offset / PAGE_SIZE ≤ p ∧ Mapped st ino p
  · -- the next mapped page
    obtain ⟨p, hp⟩ : ∃ p, IsLeast {p | offset / PAGE_SIZE ≤ p ∧ Mapped st ino p} p :=
      ⟨Nat.find hsome, Nat.find_spec hsome, fun q hq => Nat.find_min' hsome hq⟩
    obtain ⟨hpf, hmap⟩ := hp.1
    have hfree : ∀ q, offset / PAGE_SIZE ≤ q → q < p → ¬ Mapped st ino q := by
      intro q h1 h2 h3
      have := hp.2 ⟨h1, h3⟩
      omega
    have hscan := scan_data h.starts (s := ⟨offset / PAGE_SIZE, 0, false, false⟩)
      (le_refl _) (h.le_last hmap) hpf hmap hfree
    change (scanned st ino offset false).blocks = _ ∧ (scanned st ino offset false).dataFound = _ ∧
      (scanned st ino offset false).holeFound = _ at hscan
    obtain ⟨hblocks, hdata, hhole⟩ := hscan
    simp only [Nat.zero_add, Bool.false_or] at hblocks hhole
    rw [forall_isLeast_iff hp, hblocks, hdata, hhole]
    rcases Nat.eq_or_lt_of_le hpf with heq | hlt
    · -- the offset is in data
      have hin : InData st ino offset := by
        rw [InData, heq]
        exact hmap
      have hself : IsLeast {x | offset ≤ x ∧ InData st ino x} offset :=
        ⟨⟨le_refl _, hin⟩, fun x hx => hx.1⟩
      have hres : regionFrom (st.info ino).iSize offset false
          (intOfUlong (p - offset / PAGE_SIZE)) true (decide (offset / PAGE_SIZE < p))
          = (0, (offset : Int)) := by simp [heq]
      rw [hres, heq, Nat.sub_self]
      refine iff_of_true ⟨⟨fun h0 => absurd h0 hne, ?_⟩, fun _ => ⟨rfl, offset, hself, rfl⟩⟩
        (by decide)
      intro hall
      exact absurd hin (hall offset (le_refl _) hoff)
    -- a hole in front of it
    have hleast := isLeast_data hlt hp
    have hend := h.within p hmap
    have hsize := h.loff
    have hmove := moveOffset_eq_iff offset (n := p - offset / PAGE_SIZE)
      (by rw [Nat.add_sub_of_le hpf]; omega)
    rw [Nat.add_sub_of_le hpf] at hmove
    have hres : regionFrom (st.info ino).iSize offset false
        (intOfUlong (p - offset / PAGE_SIZE)) true (decide (offset / PAGE_SIZE < p))
        = (0, moveOffset offset (ulongOfInt (intOfUlong (p - offset / PAGE_SIZE)))) := by
      simp [hlt]
    rw [hres, ← hmove]
    constructor
    · intro hexact
      obtain ⟨-, x, hx, hr⟩ := hexact.2 ⟨p * PAGE_SIZE, hleast.1.1, hend, hleast.1.2⟩
      rw [hx.unique hleast] at hr
      exact hr
    intro hr
    refine ⟨⟨fun h0 => absurd h0 hne, ?_⟩, fun _ => ⟨rfl, p * PAGE_SIZE, hleast, hr⟩⟩
    intro hall
    exact absurd hleast.1.2 (hall _ hleast.1.1 hend)
  · -- no data up to the end
    have hnone : ∀ q, offset / PAGE_SIZE ≤ q → ¬ Mapped st ino q := by
      intro q h1 h2
      exact hsome ⟨q, h1, h2⟩
    have hscan := scan_no_data h.starts (s := ⟨offset / PAGE_SIZE, 0, false, false⟩)
      (le_refl _) (fun q h1 (_ : q ≤ (st.info ino).iSize / PAGE_SIZE) => hnone q h1)
    change (scanned st ino offset false).dataFound = _ ∧
      (scanned st ino offset false).holeFound = _ at hscan
    obtain ⟨hdata, hhole⟩ := hscan
    have hno : ∀ x, offset ≤ x → ¬ InData st ino x := by
      intro x hx
      exact hnone _ (Nat.div_le_div_right hx)
    have hres : ∀ count, regionFrom (st.info ino).iSize offset false count false true
        = (- ENXIO, (offset : Int)) := by
      intro count
      simp
    rw [hdata, hhole]
    simp only [hfirst, decide_true, Bool.or_true, hres]
    refine iff_of_true ⟨iff_of_true rfl fun x hx _ => hno x hx, ?_⟩ ?_
    · rintro ⟨x, hx, -, hdata⟩
      exact absurd hdata (hno x hx)
    · intro p hp
      exact absurd hp.1.2 (hnone p hp.1.1)

/-- One page in the middle of a file of four. -/
theorem seekData_exact_iff_small :
    DataExact (onePage 2 16384) 5 100 (novaFindRegion (onePage 2 16384) 5 1 100 false) := by
  have hfile : SparseFile (onePage 2 16384) 5 1 := onePage_sparse (by decide) (by decide)
  refine (seekData_exact_iff hfile (by decide)).2 ?_
  intro p hp
  have hle := hp.2 ⟨(by decide : 100 / PAGE_SIZE ≤ 2), onePage_mapped.2 rfl⟩
  exact lt_of_le_of_lt (Nat.sub_le _ _) (by omega)

/-- Data behind a hole of 8 TiB: the offset comes out negative. -/
theorem seekData_far_page :
    SparseFile (onePage (2 ^ 31) (2 ^ 43 + 4096)) 5 1 ∧
      novaFindRegion (onePage (2 ^ 31) (2 ^ 43 + 4096)) 5 1 0 false = (0, -2 ^ 43) ∧
      ¬ DataExact (onePage (2 ^ 31) (2 ^ 43 + 4096)) 5 0
        (novaFindRegion (onePage (2 ^ 31) (2 ^ 43 + 4096)) 5 1 0 false) := by
  have hfile : SparseFile (onePage (2 ^ 31) (2 ^ 43 + 4096)) 5 1 :=
    onePage_sparse (by decide) (by decide)
  obtain ⟨hblocks, hdata, hhole⟩ := scan_data hfile.starts
    (s := ⟨0, 0, false, false⟩) (p := 2 ^ 31) (le_refl _) (hfile.le_last (onePage_mapped.2 rfl))
    (Nat.zero_le _) (onePage_mapped.2 rfl) (fun q _ hq => by rw [onePage_mapped]; omega)
  have hres : novaFindRegion (onePage (2 ^ 31) (2 ^ 43 + 4096)) 5 1 0 false = (0, -2 ^ 43) := by
    rw [novaFindRegion_eq hfile (by decide)]
    have hs : (scanned (onePage (2 ^ 31) (2 ^ 43 + 4096)) 5 0 false).blocks = 2 ^ 31 := hblocks
    have hd : (scanned (onePage (2 ^ 31) (2 ^ 43 + 4096)) 5 0 false).dataFound = true := hdata
    have hf : (scanned (onePage (2 ^ 31) (2 ^ 43 + 4096)) 5 0 false).holeFound = true := hhole
    rw [hs, hd, hf]
    decide
  refine ⟨hfile, hres, ?_⟩
  rw [hres]
  rintro ⟨-, hfound⟩
  have hin : InData (onePage (2 ^ 31) (2 ^ 43 + 4096)) 5 (2 ^ 43) := onePage_mapped.2 (by decide)
  obtain ⟨-, x, -, hx⟩ := hfound ⟨2 ^ 43, by decide, by decide, hin⟩
  simp only at hx
  omega

/-- The result for a hole further on. -/
theorem holeExact_iff_of_lt {r : Int × Int} (hlt : offset / PAGE_SIZE < p)
    (hp : IsLeast {p | offset / PAGE_SIZE ≤ p ∧ p ≤ (st.info ino).iSize / PAGE_SIZE ∧
      ¬ Mapped st ino p} p) :
    HoleExact st ino offset r ↔ r.1 = 0 ∧ r.2 = (p * PAGE_SIZE : Nat) := by
  obtain ⟨-, hpl, hhole⟩ := hp.1
  have hend : p * PAGE_SIZE ≤ (st.info ino).iSize := (Nat.le_div_iff_mul_le (by decide)).1 hpl
  have hle : offset ≤ p * PAGE_SIZE := by
    have := Nat.lt_mul_of_div_lt hlt (by decide)
    omega
  have hbefore : ∀ x, offset ≤ x → x < p * PAGE_SIZE → InData st ino x := by
    intro x h1 h2
    by_contra hx
    have hxp : x / PAGE_SIZE < p := Nat.div_lt_of_lt_mul (by rwa [Nat.mul_comm])
    have := hp.2 ⟨Nat.div_le_div_right h1, by omega, hx⟩
    omega
  have hnot : ¬ InData st ino (p * PAGE_SIZE) := by rwa [InData, Nat.mul_div_cancel _ (by decide)]
  apply and_congr_right
  intro _
  rcases Nat.eq_or_lt_of_le hend with heq | hin
  · constructor
    · intro h
      rw [h.2 fun x h1 h2 => hbefore x h1 (by omega), heq]
    · intro h
      refine ⟨?_, fun _ => by rw [h, heq]⟩
      intro x hx
      exact absurd (hbefore x hx.1.1 (by rw [heq]; exact hx.1.2.1)) hx.1.2.2
  have hleast : IsLeast {x | offset ≤ x ∧ x < (st.info ino).iSize ∧ ¬ InData st ino x}
      (p * PAGE_SIZE) := by
    refine ⟨⟨hle, hin, hnot⟩, ?_⟩
    intro x hx
    by_contra hcon
    exact hx.2.2 (hbefore x hx.1 (not_le.1 hcon))
  constructor
  · intro h
    exact h.1 _ hleast
  intro h
  refine ⟨fun x hx => by rw [h, hx.unique hleast], ?_⟩
  intro hall
  exact absurd (hall _ hle hin) hnot

/-- `SEEK_HOLE` is exact if and only if the first page without data is
fewer than 2^31 pages away, and the offset does not lie in the last
hole. -/
theorem seekHole_exact_iff (h : SparseFile st ino iBlocks) (hoff : offset < (st.info ino).iSize) :
    HoleExact st ino offset (novaFindRegion st ino iBlocks offset true) ↔
      (∀ p, IsLeast {p | offset / PAGE_SIZE ≤ p ∧ p ≤ (st.info ino).iSize / PAGE_SIZE ∧
        ¬ Mapped st ino p} p → p - offset / PAGE_SIZE < 2 ^ 31) ∧
      (¬ InData st ino offset → ∃ x, offset < x ∧ InData st ino x) := by
  have hfirst : offset / PAGE_SIZE ≤ (st.info ino).iSize / PAGE_SIZE := Nat.div_le_div_right hoff.le
  have hscan : ScannedHole st ino ((st.info ino).iSize / PAGE_SIZE)
      ⟨offset / PAGE_SIZE, 0, false, false⟩ (scanned st ino offset true) :=
    scan_hole h.starts (le_refl _)
  rw [novaFindRegion_eq h hoff]
  generalize scanned st ino offset true = s at hscan
  have hdata := hscan.data
  have hhole := hscan.hole
  simp only [Bool.false_eq_true, false_or] at hdata hhole
  by_cases hsome : ∃ p, offset / PAGE_SIZE ≤ p ∧ p ≤ (st.info ino).iSize / PAGE_SIZE ∧
      ¬ Mapped st ino p
  swap
  · -- data up to the end
    have hall : ∀ q, offset / PAGE_SIZE ≤ q → q ≤ (st.info ino).iSize / PAGE_SIZE →
        Mapped st ino q := by
      intro q h1 h2
      by_contra h3
      exact hsome ⟨q, h1, h2, h3⟩
    have hin : ∀ x, offset ≤ x → x < (st.info ino).iSize → InData st ino x := by
      intro x h1 h2
      exact hall _ (Nat.div_le_div_right h1) (Nat.div_le_div_right h2.le)
    have hd : s.dataFound = true := hdata.2 ⟨_, le_refl _, hfirst, hall _ (le_refl _) hfirst⟩
    have hf : s.holeFound = false := by
      rw [← Bool.not_eq_true, hhole]
      exact hsome
    have hres : regionFrom (st.info ino).iSize offset true (intOfUlong s.blocks) s.dataFound
        s.holeFound = (0, ((st.info ino).iSize : Int)) := by simp [hd, hf]
    rw [hres]
    refine iff_of_true ⟨rfl, ?_, fun _ => rfl⟩ ⟨?_, ?_⟩
    · intro x hx
      exact absurd (hin x hx.1.1 hx.1.2.1) hx.1.2.2
    · intro p hp
      exact absurd ⟨p, hp.1⟩ hsome
    · intro hnot
      exact absurd (hin offset (le_refl _) hoff) hnot
  -- the first page without data
  obtain ⟨p, hp⟩ : ∃ p, IsLeast {p | offset / PAGE_SIZE ≤ p ∧
      p ≤ (st.info ino).iSize / PAGE_SIZE ∧ ¬ Mapped st ino p} p := by
    classical
    exact ⟨Nat.find hsome, Nat.find_spec hsome, fun q hq => Nat.find_min' hsome hq⟩
  obtain ⟨hpf, hpl, hnot⟩ := hp.1
  have hbefore : ∀ q, offset / PAGE_SIZE ≤ q → q < p → Mapped st ino q := by
    intro q h1 h2
    by_contra h3
    have := hp.2 ⟨h1, by omega, h3⟩
    omega
  have hf : s.holeFound = true := hhole.2 ⟨p, hp.1⟩
  have hblocks : s.blocks = p - offset / PAGE_SIZE := by
    simpa using hscan.blocks rfl p hpf hpl hnot hbefore
  rw [forall_isLeast_iff hp]
  rcases Nat.eq_or_lt_of_le hpf with heq | hlt
  · -- the offset is in a hole
    have hself : ¬ InData st ino offset := by
      rw [InData, heq]
      exact hnot
    have hleast : IsLeast {x | offset ≤ x ∧ x < (st.info ino).iSize ∧ ¬ InData st ino x}
        offset := ⟨⟨le_refl _, hoff, hself⟩, fun x hx => hx.1⟩
    have hzero : ulongOfInt (intOfUlong s.blocks) = 0 := by
      rw [hblocks, heq, Nat.sub_self]
      decide
    have hres : regionFrom (st.info ino).iSize offset true (intOfUlong s.blocks) s.dataFound
        s.holeFound = (0, if !s.dataFound then ((st.info ino).iSize : Int) else offset) := by
      simp [hf, hzero]
    have hlater : s.dataFound = true ↔ ∃ x, offset < x ∧ InData st ino x := by
      rw [hdata]
      constructor
      · rintro ⟨q, h1, h2, h3⟩
        have hne : q ≠ offset / PAGE_SIZE := by
          rintro rfl
          exact hself h3
        refine ⟨q * PAGE_SIZE, Nat.lt_mul_of_div_lt (by omega) (by decide), ?_⟩
        rwa [InData, Nat.mul_div_cancel _ (by decide)]
      · rintro ⟨x, h1, h2⟩
        exact ⟨x / PAGE_SIZE, Nat.div_le_div_right h1.le, h.le_last h2, h2⟩
    have hclose : p - offset / PAGE_SIZE < 2 ^ 31 := by
      rw [heq, Nat.sub_self]
      decide
    rw [hres, ← hlater]
    simp only [hclose, true_and, hself, not_false_eq_true, true_imp_iff]
    cases hd : s.dataFound with
    | true =>
      refine iff_of_true ⟨rfl, ?_, ?_⟩ rfl
      · intro x hx
        rw [hx.unique hleast]
        rfl
      · intro hall
        exact absurd (hall offset (le_refl _) hoff) hself
    | false =>
      refine iff_of_false ?_ (by decide)
      rintro ⟨-, hx, -⟩
      have := hx offset hleast
      simp only [Bool.not_false, if_true, Nat.cast_inj] at this
      omega
  · -- data, and a hole behind it
    have hin : InData st ino offset := hbefore _ (le_refl _) hlt
    have hd : s.dataFound = true := hdata.2 ⟨_, le_refl _, hfirst, hin⟩
    have hsize := h.loff
    have hend : p * PAGE_SIZE ≤ (st.info ino).iSize := (Nat.le_div_iff_mul_le (by decide)).1 hpl
    have hmove := moveOffset_eq_iff offset (n := p - offset / PAGE_SIZE)
      (by rw [Nat.add_sub_of_le hpf]; omega)
    rw [Nat.add_sub_of_le hpf] at hmove
    rw [holeExact_iff_of_lt hlt hp]
    simp only [hin, not_true_eq_false, false_imp_iff, and_true]
    by_cases hzero : ulongOfInt (intOfUlong s.blocks) = 0
    · -- the count has come out as 0
      have hres : regionFrom (st.info ino).iSize offset true (intOfUlong s.blocks)
          s.dataFound s.holeFound = (0, (offset : Int)) := by simp [hf, hd, hzero]
      rw [hres]
      have hpast := Nat.lt_mul_of_div_lt hlt (by decide)
      refine iff_of_false ?_ ?_
      · rintro ⟨-, heq⟩
        simp only [Nat.cast_inj] at heq
        omega
      intro hclose
      rw [hblocks, intOfUlong_of_le (by unfold INT_MAX; omega), ulongOfInt] at hzero
      omega
    have hres : regionFrom (st.info ino).iSize offset true (intOfUlong s.blocks)
        s.dataFound s.holeFound = (0, moveOffset offset (ulongOfInt (intOfUlong s.blocks))) := by
      simp [hf, hd, hzero]
    rw [hres, hblocks, ← hmove]
    simp

/-- One page with a hole behind it and the offset in the page. -/
theorem seekHole_exact_iff_small :
    HoleExact (onePage 0 16384) 5 100 (novaFindRegion (onePage 0 16384) 5 1 100 true) := by
  have hfile : SparseFile (onePage 0 16384) 5 1 := onePage_sparse (by decide) (by decide)
  refine (seekHole_exact_iff hfile (by decide)).2 ⟨?_, ?_⟩
  · intro p hp
    have hle := hp.2 ⟨(by decide : 100 / PAGE_SIZE ≤ 1), by decide, mt onePage_mapped.1 (by decide)⟩
    exact lt_of_le_of_lt (Nat.sub_le _ _) (by omega)
  · intro hnot
    exact absurd (onePage_mapped.2 (by decide)) hnot

/-- The offset is in the last hole: the size comes out. -/
theorem seekHole_last_hole :
    SparseFile (onePage 0 8192) 5 1 ∧ novaFindRegion (onePage 0 8192) 5 1 4096 true = (0, 8192) ∧
      ¬ HoleExact (onePage 0 8192) 5 4096 (novaFindRegion (onePage 0 8192) 5 1 4096 true) := by
  have hres : novaFindRegion (onePage 0 8192) 5 1 4096 true = (0, 8192) := by decide
  refine ⟨onePage_sparse (by decide) (by decide), hres, ?_⟩
  rw [hres]
  rintro ⟨-, hleast, -⟩
  have hnot : ¬ InData (onePage 0 8192) 5 4096 := mt onePage_mapped.1 (by decide)
  have := hleast 4096 ⟨⟨le_refl _, by decide, hnot⟩, fun x hx => hx.1⟩
  simp only at this
  omega

end Themis.Seek
