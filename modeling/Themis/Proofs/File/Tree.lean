/-
What the tree functions of a file leave: the pages mapped to an entry or
cut off, the `invalid_pages` of the entries that lost pages, and the
blocks given back.

That pages do not share blocks and that the counts are right are
hypotheses here and part of the invariant of a file later.
-/
import Mathlib.Algebra.BigOperators.Intervals
import Mathlib.Order.Interval.Finset.Nat
import Themis.File
import Themis.Proofs.Log.Moves

namespace Themis.File

open Lib Log Function Radix

variable {al : BlockAllocator} {st st' st'' : State al} {ino : Nat}
variable {a lo hi last pgoff : Nat} {run : FreeRun}
variable {i first q : Nat} {tree tree' : Nat → Option Nat}

-- === frames

/-- Only the tree of one inode, the `invalid_pages` of entries and the
allocator differ. -/
structure TreeOnly (ino : Nat) (st st' : State al) : Prop where
  slot : st'.nv.slot = st.nv.slot
  next : st'.nv.next = st.nv.next
  logHead : st'.nv.logHead = st.nv.logHead
  logTail : st'.nv.logTail = st.nv.logTail
  record : st'.nv.record = st.nv.record
  data : st'.data = st.data
  info : st'.info = Function.update st.info ino
    { st.info ino with tree := (st'.info ino).tree }

namespace TreeOnly

/-- Nothing was done. -/
theorem refl (ino : Nat) (st : State al) : TreeOnly ino st st :=
  ⟨rfl, rfl, rfl, rfl, rfl, rfl, (update_eq_self ino st.info).symm⟩

variable (h : TreeOnly ino st st')
include h

/-- One after the other. -/
theorem trans (h' : TreeOnly ino st' st'') : TreeOnly ino st st'' where
  slot := h'.slot.trans h.slot
  next := h'.next.trans h.next
  logHead := h'.logHead.trans h.logHead
  logTail := h'.logTail.trans h.logTail
  record := h'.record.trans h.record
  data := h'.data.trans h.data
  info := by
    have h1 := h.info
    have h2 := h'.info
    rw [h1] at h2
    simpa using h2

/-- The header with another tree. -/
theorem self : st'.info ino = { st.info ino with tree := (st'.info ino).tree } := by
  conv_lhs => rw [h.info]
  rw [update_self]

/-- Entries stay. -/
theorem entryAt (a : Nat) : entryAt st'.nv a = entryAt st.nv a := by
  simp only [File.entryAt, h.slot]

/-- Blocks stay. -/
theorem getNvmm (a i : Nat) : getNvmm st'.nv a i = getNvmm st.nv a i := by
  simp only [File.getNvmm, h.entryAt]

end TreeOnly

section

variable (st : State al)

section

variable (ino : Nat)

@[simp] theorem setTree_nv (t : Radix Nat) : (setTree st ino t).nv = st.nv := rfl

@[simp] theorem setTree_alloc (t : Radix Nat) : (setTree st ino t).alloc = st.alloc := rfl

/-- The tree that was set. -/
@[simp] theorem setTree_tree (t : Radix Nat) :
    ((setTree st ino t).info ino).tree = t := by simp [setTree, State.setInfo]

/-- The last tree counts. -/
@[simp] theorem setTree_setTree (t t' : Radix Nat) :
    setTree (setTree st ino t) ino t' = setTree st ino t' := by simp [setTree, State.setInfo]

/-- The same tree again. -/
@[simp] theorem setTree_self :
    setTree st ino (st.info ino).tree = st := by simp [setTree, State.setInfo]

/-- Setting a tree is all. -/
theorem setTree_only (t : Radix Nat) : TreeOnly ino st (setTree st ino t) := by
  refine ⟨rfl, rfl, rfl, rfl, rfl, rfl, ?_⟩
  simp [setTree, State.setInfo]

end

/-- A counter is stored. -/
theorem invalidPages_only (ino a n : Nat) : TreeOnly ino st (st.store (.invalidPages a n)) :=
  ⟨rfl, rfl, rfl, rfl, rfl, rfl, (update_eq_self ino st.info).symm⟩

/-- Blocks are given back. -/
theorem novaFreeDataBlocks_only (ino b n : Nat) : TreeOnly ino st (novaFreeDataBlocks st b n) :=
  ⟨rfl, rfl, rfl, rfl, rfl, rfl, (update_eq_self ino st.info).symm⟩

end

-- === page map

/-- The map from pages to blocks. -/
def pageMap (st : State al) (ino i : Nat) : Option Nat :=
  ((st.info ino).tree.get i).map fun a => getNvmm st.nv a i

/-- The block of a mapped page. -/
theorem pageMap_some (h : (st.info ino).tree.get i = some a) :
    pageMap st ino i = some (getNvmm st.nv a i) := by simp [pageMap, h]

/-- A hole has no block. -/
theorem pageMap_none (h : (st.info ino).tree.get i = none) : pageMap st ino i = none := by
  simp [pageMap, h]

/-- The same page, the same block. -/
theorem TreeOnly.pageMap {i : Nat} (h : TreeOnly ino st st')
    (htree : (st'.info ino).tree.get i = (st.info ino).tree.get i) :
    pageMap st' ino i = pageMap st ino i := by
  simp only [File.pageMap, htree]
  congr 1
  funext a
  exact h.getNvmm a i

/-- The pages in a range that an entry maps. -/
def mapped (tree : Nat → Option Nat) (a lo hi : Nat) : Nat :=
  ((Finset.Ico lo hi).filter fun i => tree i = some a).card

/-- An empty range. -/
theorem mapped_empty (tree : Nat → Option Nat) (a : Nat) (h : hi ≤ lo) :
    mapped tree a lo hi = 0 := by simp [mapped, Finset.Ico_eq_empty_of_le h]

/-- The first page of a range. -/
theorem mapped_first (tree : Nat → Option Nat) (a : Nat) (h : lo < hi) : mapped tree a lo hi
      = (if tree lo = some a then 1 else 0) + mapped tree a (lo + 1) hi := by
  simp only [mapped, Finset.card_filter]
  exact Finset.sum_eq_sum_Ico_succ_bot h _

/-- The count depends on the range. -/
theorem mapped_congr (h : ∀ i, lo ≤ i → i < hi → tree i = tree' i) :
    mapped tree a lo hi = mapped tree' a lo hi := by
  unfold mapped
  congr 1
  apply Finset.filter_congr
  intro i hi
  rw [Finset.mem_Ico] at hi
  rw [h i hi.1 hi.2]

/-- What an entry loses in a range. -/
theorem mapped_taken (hkeys : ∀ i, tree i = some a → lo ≤ i ∧ i < hi)
    (hin : ∀ i, first ≤ i → i < last → tree' i ≠ some a)
    (hout : ∀ i, ¬ (first ≤ i ∧ i < last) → tree' i = tree i) :
    mapped tree' a lo hi + mapped tree a first last = mapped tree a lo hi := by
  have hleft : (Finset.Ico lo hi).filter (fun i => tree' i = some a)
      = ((Finset.Ico lo hi).filter fun i => tree i = some a).filter
          fun i => ¬ (first ≤ i ∧ i < last) := by
    ext i
    simp only [Finset.mem_filter, Finset.mem_Ico]
    by_cases hr : first ≤ i ∧ i < last
    · tauto
    · rw [hout i hr]
      tauto
  have hright : (Finset.Ico first last).filter (fun i => tree i = some a)
      = ((Finset.Ico lo hi).filter fun i => tree i = some a).filter
          fun i => first ≤ i ∧ i < last := by
    ext i
    simp only [Finset.mem_filter, Finset.mem_Ico]
    constructor
    · intro h
      exact ⟨⟨hkeys i h.2, h.2⟩, h.1⟩
    · intro h
      exact ⟨h.2, h.1.2⟩
  unfold mapped
  rw [hleft, hright, Nat.add_comm]
  exact Finset.card_filter_add_card_filter_not _

-- === assign

/-- A range of pages set to an entry. -/
def setRange (t : Radix Nat) (a start : Nat) : Nat → Radix Nat
  | 0 => t
  | num + 1 => setRange (t.set start a) a (start + 1) num

/-- The tree after a range was set. -/
theorem setRange_get (a i : Nat) : ∀ (num start : Nat) (t : Radix Nat),
    (setRange t a start num).get i = if start ≤ i ∧ i < start + num then some a else t.get i := by
  intro num
  induction num with
  | zero =>
    intro start t
    rw [if_neg (by omega)]
    rfl
  | succ num ih =>
    intro start t
    rw [setRange, ih]
    by_cases hi : i = start
    · subst hi
      rw [if_neg (by omega), if_pos (by omega), get_set_self]
    rw [get_set_of_ne t a hi]
    by_cases hr : start + 1 ≤ i ∧ i < start + 1 + num
    · rw [if_pos hr, if_pos (by omega)]
    · rw [if_neg hr, if_neg (by omega)]

/-- Assigning without giving back sets a range. -/
theorem assignLoop_keep (ino a : Nat) : ∀ (num : Nat) (st : State al)
    (start : Nat), assignLoop ino a false num st start
      = setTree st ino (setRange (st.info ino).tree a start num) := by
  intro num
  induction num with
  | zero =>
    intro st start
    simp [assignLoop, setRange]
  | succ num ih =>
    intro st start
    have hpage : assignPage ino a false st start
        = setTree st ino ((st.info ino).tree.set start a) := by
      simp only [assignPage, Bool.false_eq_true, if_false]
      split <;> rfl
    rw [assignLoop, ih, hpage, setTree_tree, setTree_setTree]
    rfl

/-- Assigning a page touches the tree and counters. -/
theorem assignPage_only (ino a : Nat) (free : Bool) (st : State al)
    (pgoff : Nat) : TreeOnly ino st (assignPage ino a free st pgoff) := by
  unfold assignPage
  split
  · split
    · exact ((invalidPages_only st ino _ _).trans
        (novaFreeDataBlocks_only _ ino _ 1)).trans (setTree_only _ ino _)
    · exact setTree_only _ ino _
  · exact setTree_only _ ino _

/-- The page is set. -/
theorem assignPage_tree (ino a : Nat) (free : Bool) (st : State al)
    (pgoff : Nat) : ((assignPage ino a free st pgoff).info ino).tree
      = (st.info ino).tree.set pgoff a := by
  unfold assignPage
  simp only [setTree_tree]
  split
  · split <;> rfl
  · rfl

/-- The old entry counts one more. -/
theorem assignPage_invalid (ino a : Nat) (st : State al) (pgoff b : Nat) :
    (assignPage ino a true st pgoff).nv.invalid b = st.nv.invalid b
      + if (st.info ino).tree.get pgoff = some b then 1 else 0 := by
  unfold assignPage novaGetWriteEntry
  cases hold : (st.info ino).tree.get pgoff with
  | none => simp
  | some old =>
    simp only [if_true, novaFreeDataBlocks, State.store, Nvmm.apply]
    by_cases hb : b = old
    · subst hb
      simp
    · have : ¬ old = b := fun h => hb h.symm
      simp [hb, this]

/-- The old block is given back. -/
theorem assignPage_inUse (ino a : Nat) (st : State al) (pgoff : Nat)
    (huse : ∀ x, pageMap st ino pgoff = some x → st.InUse x) (x : Nat) :
    (assignPage ino a true st pgoff).InUse x ↔ st.InUse x ∧ pageMap st ino pgoff ≠ some x := by
  unfold assignPage novaGetWriteEntry
  cases hold : (st.info ino).tree.get pgoff with
  | none =>
    rw [pageMap_none hold]
    simp [State.InUse]
  | some old =>
    have hmap := pageMap_some hold
    have hx := huse _ hmap
    rw [hmap]
    simp only [if_true, State.InUse, setTree_alloc, novaFreeDataBlocks, State.store]
    have hrun : ∀ y, getNvmm st.nv old pgoff ≤ y →
        y < getNvmm st.nv old pgoff + 1 → al.InUse st.alloc y := by
      intro y h1 h2
      have : y = getNvmm st.nv old pgoff := by omega
      rw [this]
      exact hx
    rw [al.free_inUse hrun]
    apply and_congr_right
    intro _
    rw [Ne, Option.some.injEq]
    apply not_congr
    omega

/-- What mapping pages `[start, start + num)` to the entry `a` leaves. -/
structure Assigned (st st' : State al) (ino a start num : Nat) : Prop where
  only : TreeOnly ino st st'
  tree : ∀ i, (st'.info ino).tree.get i
    = if start ≤ i ∧ i < start + num then some a
      else (st.info ino).tree.get i
  invalid : ∀ b, b ≠ a → st'.nv.invalid b = st.nv.invalid b
    + mapped (st.info ino).tree.get b start (start + num)
  fresh : (∀ i, start ≤ i → i < start + num →
    (st.info ino).tree.get i ≠ some a) → st'.nv.invalid a = st.nv.invalid a
  inUse : ∀ x, st'.InUse x ↔ st.InUse x ∧
    ∀ i, start ≤ i → i < start + num → pageMap st ino i ≠ some x

/-- Assigning a range gives back what it replaces. -/
theorem assignLoop_free {ino : Nat} : ∀ (num : Nat) (st : State al) (start : Nat),
    (∀ i x, start ≤ i → i < start + num → pageMap st ino i = some x → st.InUse x) →
    (∀ i j x, start ≤ i → i < start + num → start ≤ j → j < start + num →
      pageMap st ino i = some x → pageMap st ino j = some x → i = j) →
    Assigned st (assignLoop ino a true num st start) ino a start num := by
  intro num
  induction num with
  | zero =>
    intro st start _ _
    refine ⟨TreeOnly.refl _ _, ?_, ?_, fun _ => rfl, ?_⟩
    · intro i
      rw [if_neg (by omega)]
      rfl
    · intro b _
      rw [mapped_empty _ _ (by omega)]
      rfl
    intro x
    constructor
    · intro hx
      exact ⟨hx, fun i h1 h2 => by omega⟩
    · exact fun hx => hx.1
  | succ num ih =>
    intro st start huse hinj
    rw [assignLoop]
    have honly := assignPage_only ino a true st start
    have htree := assignPage_tree ino a true st start
    have hinv := assignPage_invalid ino a st start
    have hfree := assignPage_inUse ino a st start
      (huse start · le_rfl (by omega))
    generalize assignPage ino a true st start = st1 at *
    -- the pages still to come are untouched
    have hrest : ∀ i, start + 1 ≤ i → (st1.info ino).tree.get i = (st.info ino).tree.get i := by
      intro i hi
      rw [htree, get_set_of_ne _ _ (by omega)]
    have hmap : ∀ i, start + 1 ≤ i → pageMap st1 ino i = pageMap st ino i := fun i hi =>
      honly.pageMap (hrest i hi)
    have h := ih st1 (start + 1)
      (by
        intro i x h1 h2 hx
        rw [hmap i h1] at hx
        refine (hfree x).2 ⟨huse i x (by omega) (by omega) hx, ?_⟩
        intro h0
        have := hinj start i x le_rfl (by omega) (by omega) (by omega)
          h0 hx
        omega)
      (by
        intro i j x h1 h2 h3 h4 hi hj
        rw [hmap i h1] at hi
        rw [hmap j h3] at hj
        exact hinj i j x (by omega) (by omega) (by omega) (by omega) hi hj)
    refine ⟨honly.trans h.only, ?_, ?_, ?_, ?_⟩
    · intro i
      rw [h.tree i, htree]
      by_cases hi : i = start
      · subst hi
        rw [if_neg (by omega), if_pos (by omega), get_set_self]
      rw [get_set_of_ne _ _ hi]
      by_cases hr : start + 1 ≤ i ∧ i < start + 1 + num
      · rw [if_pos hr, if_pos (by omega)]
      · rw [if_neg hr, if_neg (by omega)]
    · intro b hb
      have hcount : mapped (st1.info ino).tree.get b (start + 1)
          (start + 1 + num) = mapped (st.info ino).tree.get b (start + 1)
          (start + (num + 1)) := by
        rw [show start + (num + 1) = start + 1 + num by omega]
        exact mapped_congr fun i h1 _ => hrest i h1
      rw [h.invalid b hb, hinv b, hcount,
        mapped_first (st.info ino).tree.get b (by omega : start < start + (num + 1))]
      omega
    · intro hnot
      have h0 := hnot start le_rfl (by omega)
      rw [h.fresh, hinv a, if_neg h0, Nat.add_zero]
      intro i h1 h2
      rw [hrest i h1]
      exact hnot i (by omega) (by omega)
    intro x
    rw [h.inUse x, hfree x]
    constructor
    · intro ⟨⟨hx, h0⟩, hr⟩
      refine ⟨hx, ?_⟩
      intro i h1 h2
      by_cases hi : i = start
      · rw [hi]
        exact h0
      · rw [← hmap i (by omega)]
        exact hr i (by omega) (by omega)
    intro ⟨hx, hr⟩
    refine ⟨⟨hx, hr start le_rfl (by omega)⟩, ?_⟩
    intro i h1 h2
    rw [hmap i h1]
    exact hr i (by omega) (by omega)

-- === delete

/-- Every entry starts at or before the pages it stands under, so that
the jump over a hole skips nothing. -/
def StartsOk (st : State al) (ino : Nat) : Prop :=
  ∀ i a, (st.info ino).tree.get i = some a → (entryAt st.nv a).pgoff ≤ i

/-- Up to the next entry there is a hole. -/
theorem hole_skipped (hstart : StartsOk st ino) (hnone : (st.info ino).tree.get pgoff = none)
    (hgang : (st.info ino).tree.gangLookup pgoff = some a) :
    ∀ i, pgoff ≤ i → i < max (pgoff + 1) (entryAt st.nv a).pgoff →
      (st.info ino).tree.get i = none := by
  intro i h1 h2
  obtain ⟨j, hj, hget, hgap⟩ := gangLookup_eq_some hgang
  have hle := hstart j a hget
  by_cases hi : i = pgoff
  · rw [hi]
    exact hnone
  · apply hgap i h1
    omega

/-- Deleting without giving back clears a range. -/
theorem deleteLoop_keep {ino : Nat} : ∀ (rounds : Nat) (st : State al)
    (pgoff : Nat) (run : FreeRun), StartsOk st ino → last + 1 - pgoff ≤ rounds →
    ∃ t, deleteLoop ino last false rounds st pgoff run = (setTree st ino t, run)
      ∧ ∀ i, t.get i = if pgoff ≤ i ∧ i ≤ last then none else (st.info ino).tree.get i := by
  intro rounds
  induction rounds with
  | zero =>
    intro st pgoff run _ hr
    refine ⟨(st.info ino).tree, by simp [deleteLoop], ?_⟩
    intro i
    rw [if_neg (by omega)]
  | succ rounds ih =>
    intro st pgoff run hstart hr
    rw [deleteLoop]
    by_cases hlast : pgoff ≤ last
    · rw [if_pos hlast]
      cases hget : novaGetWriteEntry st ino pgoff with
      | some a =>
        simp only [deletePage, Bool.false_eq_true, if_false]
        have hstart' : StartsOk
            (setTree st ino ((st.info ino).tree.delete pgoff)) ino := by
          intro i b hb
          rw [setTree_tree] at hb
          by_cases hi : i = pgoff
          · rw [hi, get_delete_self] at hb
            cases hb
          · rw [get_delete_of_ne _ hi] at hb
            exact hstart i b hb
        obtain ⟨t, ht, hgett⟩ := ih _ (pgoff + 1) run hstart' (by omega)
        refine ⟨t, by rw [ht, setTree_setTree], ?_⟩
        intro i
        rw [hgett i, setTree_tree]
        by_cases hi : i = pgoff
        · rw [hi, get_delete_self, if_neg (by omega), if_pos (by omega)]
        rw [get_delete_of_ne _ hi]
        by_cases hrange : pgoff + 1 ≤ i ∧ i ≤ last
        · rw [if_pos hrange, if_pos (by omega)]
        · rw [if_neg hrange, if_neg (by omega)]
      | none =>
        cases hgang : (st.info ino).tree.gangLookup pgoff with
        | none =>
          refine ⟨(st.info ino).tree, by simp, ?_⟩
          intro i
          split
          · rename_i hrange
            exact gangLookup_eq_none hgang hrange.1
          · rfl
        | some a =>
          have hskip := hole_skipped hstart hget hgang
          obtain ⟨t, ht, hgett⟩ := ih st
            (max (pgoff + 1) (entryAt st.nv a).pgoff) run hstart (by omega)
          refine ⟨t, ht, ?_⟩
          intro i
          rw [hgett i]
          by_cases hi : max (pgoff + 1) (entryAt st.nv a).pgoff ≤ i
          · by_cases hil : i ≤ last
            · rw [if_pos ⟨hi, hil⟩, if_pos ⟨by omega, hil⟩]
            · rw [if_neg (by omega), if_neg (by omega)]
          rw [if_neg (by omega)]
          by_cases hp : pgoff ≤ i
          · rw [hskip i hp (by omega)]
            simp
          · rw [if_neg (by omega)]
    · rw [if_neg hlast]
      refine ⟨(st.info ino).tree, by simp, ?_⟩
      intro i
      rw [if_neg (by omega)]

/-- A block is in the pending run. -/
def FreeRun.Has (run : FreeRun) (x : Nat) : Prop :=
  run.start ≠ 0 ∧ run.start ≤ x ∧ x < run.start + run.num

/-- A block joins the run, or the run is given back. -/
theorem novaFreeContiguousDataBlocks_spec (st : State al) (a pgoff : Nat)
    (run : FreeRun) (hroom : st.nv.invalid a + 1 ≤ (entryAt st.nv a).numPages)
    (hpos : getNvmm st.nv a pgoff ≠ 0) (huse : st.InUse (getNvmm st.nv a pgoff))
    (hnot : ¬ run.Has (getNvmm st.nv a pgoff)) (hrun : ∀ x, run.Has x → st.InUse x) (ino : Nat) :
    let r := novaFreeContiguousDataBlocks st a pgoff 1 run
    TreeOnly ino st r.1 ∧ r.1.info = st.info ∧
      (∀ b, r.1.nv.invalid b = st.nv.invalid b + if b = a then 1 else 0) ∧
      (∀ x, r.2.Has x → r.1.InUse x) ∧ ∀ x, (r.1.InUse x ∧ ¬ r.2.Has x) ↔
        (st.InUse x ∧ ¬ run.Has x ∧ x ≠ getNvmm st.nv a pgoff) := by
  have hinv : ∀ b, (st.store (.invalidPages a (st.nv.invalid a + 1))).nv.invalid b
      = st.nv.invalid b + if b = a then 1 else 0 := by
    intro b
    by_cases hb : b = a
    · subst hb
      simp [State.store, Nvmm.apply]
    · simp [State.store, Nvmm.apply, hb]
  have honly := invalidPages_only st ino a (st.nv.invalid a + 1)
  have hnv : getNvmm (st.store (.invalidPages a (st.nv.invalid a + 1))).nv a pgoff
      = getNvmm st.nv a pgoff := honly.getNvmm a pgoff
  have halloc : (st.store (.invalidPages a (st.nv.invalid a + 1))).alloc = st.alloc := rfl
  have hinfo : (st.store (.invalidPages a (st.nv.invalid a + 1))).info = st.info := rfl
  simp only [novaFreeContiguousDataBlocks]
  rw [if_neg (by omega)]
  simp only [hnv]
  generalize st.store (.invalidPages a (st.nv.invalid a + 1)) = st1 at *
  generalize getNvmm st.nv a pgoff = b at *
  have huse1 : ∀ x, st1.InUse x ↔ st.InUse x := by
    intro x
    rw [State.InUse, halloc]
    exact Iff.rfl
  have hsingle : ∀ (f x : Nat), (⟨b, 1, f⟩ : FreeRun).Has x ↔ x = b := by
    intro f x
    simp only [FreeRun.Has]
    omega
  by_cases hs : run.start = 0
  · have hno : ∀ x, ¬ run.Has x := fun x h => h.1 hs
    rw [if_pos hs]
    refine ⟨honly, hinfo, hinv, ?_, ?_⟩
    · intro x hx
      rw [(hsingle _ x).1 hx, huse1]
      exact huse
    intro x
    rw [huse1, hsingle]
    simp [hno]
  rw [if_neg hs]
  by_cases hadj : b = run.start + run.num
  · have hhas : ∀ x, ({ run with num := run.num + 1 } : FreeRun).Has x ↔ run.Has x ∨ x = b := by
      intro x
      simp only [FreeRun.Has]
      omega
    rw [if_pos hadj]
    refine ⟨honly, hinfo, hinv, ?_, ?_⟩
    · intro x hx
      rw [huse1]
      rcases (hhas x).1 hx with h | rfl
      · exact hrun x h
      · exact huse
    intro x
    rw [huse1, hhas]
    tauto
  rw [if_neg hadj]
  have hfree : ∀ x, (novaFreeDataBlocks st1 run.start run.num).InUse x ↔
      st.InUse x ∧ ¬ run.Has x := by
    intro x
    have hall : ∀ y, run.start ≤ y → y < run.start + run.num →
        al.InUse st1.alloc y := fun y h1 h2 =>
      (huse1 y).2 (hrun y ⟨hs, h1, h2⟩)
    have := al.free_inUse (t := .data) hall x
    simp only [State.InUse, novaFreeDataBlocks]
    rw [this, ← State.InUse, huse1]
    simp only [FreeRun.Has]
    tauto
  refine ⟨honly.trans (novaFreeDataBlocks_only _ _ _ _), hinfo, hinv, ?_, ?_⟩
  · intro x hx
    rw [(hsingle _ x).1 hx, hfree]
    exact ⟨huse, hnot⟩
  intro x
  rw [hfree, hsingle]
  tauto

/-- The pages `[pgoff, last]` can be given back: their blocks are in use,
their own and not in the run, and their entries have the pages. -/
structure Removable (st : State al) (ino pgoff last : Nat) (run : FreeRun) :
    Prop where
  starts : StartsOk st ino
  room : ∀ a, (∃ i, pgoff ≤ i ∧ i ≤ last ∧
      (st.info ino).tree.get i = some a) →
    st.nv.invalid a + mapped (st.info ino).tree.get a pgoff (last + 1)
      ≤ (entryAt st.nv a).numPages
  inUse : ∀ i x, pgoff ≤ i → i ≤ last → pageMap st ino i = some x →
    st.InUse x ∧ x ≠ 0
  inj : ∀ i j x, pgoff ≤ i → i ≤ last → pgoff ≤ j → j ≤ last →
    pageMap st ino i = some x → pageMap st ino j = some x → i = j
  held : ∀ x, run.Has x → st.InUse x ∧
    ∀ i, pgoff ≤ i → i ≤ last → pageMap st ino i ≠ some x

/-- A hole is skipped. -/
theorem Removable.skip (h : Removable st ino pgoff last run) (hq : pgoff ≤ q) :
    Removable st ino q last run where
  starts := h.starts
  room a ha := by
    obtain ⟨i, h1, h2, hi⟩ := ha
    have hle : mapped (st.info ino).tree.get a q (last + 1)
        ≤ mapped (st.info ino).tree.get a pgoff (last + 1) := by
      apply Finset.card_le_card
      intro j hj
      simp only [Finset.mem_filter, Finset.mem_Ico] at hj ⊢
      exact ⟨⟨by omega, hj.1.2⟩, hj.2⟩
    have := h.room a ⟨i, by omega, h2, hi⟩
    omega
  inUse i x h1 h2 := h.inUse i x (by omega) h2
  inj i j x h1 h2 h3 h4 := h.inj i j x (by omega) h2 (by omega) h4
  held x hx := ⟨(h.held x hx).1, fun i h1 h2 => (h.held x hx).2 i (by omega) h2⟩

/-- What giving back the pages `[pgoff, last]` leaves, before the run is
freed. -/
structure Removed (st : State al) (ino pgoff last : Nat) (run : FreeRun)
    (st' : State al) (run' : FreeRun) : Prop where
  only : TreeOnly ino st st'
  tree : ∀ i, (st'.info ino).tree.get i
    = if pgoff ≤ i ∧ i ≤ last then none else (st.info ino).tree.get i
  invalid : ∀ b, st'.nv.invalid b = st.nv.invalid b
    + mapped (st.info ino).tree.get b pgoff (last + 1)
  held : ∀ x, run'.Has x → st'.InUse x
  inUse : ∀ x, (st'.InUse x ∧ ¬ run'.Has x) ↔
    (st.InUse x ∧ ¬ run.Has x ∧
      ∀ i, pgoff ≤ i → i ≤ last → pageMap st ino i ≠ some x)

/-- There was nothing. -/
theorem Removed.of_none (hrun : ∀ x, run.Has x → st.InUse x)
    (hnone : ∀ i, pgoff ≤ i → i ≤ last → (st.info ino).tree.get i = none) :
    Removed st ino pgoff last run st run where
  only := TreeOnly.refl ino st
  tree i := by
    split
    · rename_i hr
      exact hnone i hr.1 hr.2
    · rfl
  invalid b := by
    have : mapped (st.info ino).tree.get b pgoff (last + 1) = 0 := by
      rw [mapped, Finset.card_eq_zero, Finset.filter_eq_empty_iff]
      intro i hi
      rw [Finset.mem_Ico] at hi
      rw [hnone i hi.1 (by omega)]
      simp
    omega
  held := hrun
  inUse x := by
    constructor
    · intro ⟨h1, h2⟩
      refine ⟨h1, h2, ?_⟩
      intro i h3 h4
      rw [pageMap_none (hnone i h3 h4)]
      simp
    · exact fun h => ⟨h.1, h.2.1⟩

/-- Behind a hole. -/
theorem Removed.of_skip {run' : FreeRun} (h : Removed st ino q last run st' run') (hq : pgoff ≤ q)
    (hnone : ∀ i, pgoff ≤ i → i < q → (st.info ino).tree.get i = none) :
    Removed st ino pgoff last run st' run' where
  only := h.only
  tree i := by
    rw [h.tree i]
    by_cases hi : q ≤ i
    · by_cases hl : i ≤ last
      · rw [if_pos ⟨hi, hl⟩, if_pos ⟨by omega, hl⟩]
      · rw [if_neg (by omega), if_neg (by omega)]
    rw [if_neg (by omega)]
    split
    · exact hnone i (by omega) (by omega)
    · rfl
  invalid b := by
    rw [h.invalid b]
    congr 1
    unfold mapped
    congr 1
    ext i
    simp only [Finset.mem_filter, Finset.mem_Ico]
    constructor
    · intro hi
      exact ⟨⟨by omega, hi.1.2⟩, hi.2⟩
    intro hi
    refine ⟨⟨?_, hi.1.2⟩, hi.2⟩
    by_contra hlt
    have := hnone i hi.1.1 (by omega)
    rw [hi.2] at this
    cases this
  held := h.held
  inUse x := by
    rw [h.inUse x]
    apply and_congr_right
    intro _
    apply and_congr_right
    intro _
    constructor
    · intro hr i h1 h2
      by_cases hi : q ≤ i
      · exact hr i hi h2
      · rw [pageMap_none (hnone i h1 (by omega))]
        simp
    · intro hr i h1 h2
      exact hr i (by omega) h2

/-- One page is deleted. -/
theorem deletePage_spec (h : Removable st ino pgoff last run) (hlast : pgoff ≤ last)
    (hget : (st.info ino).tree.get pgoff = some a) : let r := deletePage st ino a pgoff true run
    Removable r.1 ino (pgoff + 1) last r.2 ∧
      ∀ st' run', Removed r.1 ino (pgoff + 1) last r.2 st' run' →
        Removed st ino pgoff last run st' run' := by
  have hmap := pageMap_some hget
  obtain ⟨huse, hpos⟩ := h.inUse pgoff _ le_rfl hlast hmap
  have hroom := h.room a ⟨pgoff, le_rfl, hlast, hget⟩
  rw [mapped_first _ _ (by omega : pgoff < last + 1), if_pos hget] at hroom
  have honly0 := setTree_only st ino ((st.info ino).tree.delete pgoff)
  obtain ⟨honly, hinfo, hinv, hrun, hfree⟩ := novaFreeContiguousDataBlocks_spec
      (setTree st ino ((st.info ino).tree.delete pgoff)) a pgoff run (by
        change st.nv.invalid a + 1 ≤ (entryAt st.nv a).numPages
        omega) hpos huse
      (fun hr => (h.held _ hr).2 pgoff le_rfl hlast hmap)
      (fun x hx => (h.held x hx).1) ino
  simp only [deletePage, if_true]
  generalize novaFreeContiguousDataBlocks
    (setTree st ino ((st.info ino).tree.delete pgoff)) a pgoff 1 run = r at *
  obtain ⟨st1, run1⟩ := r
  change ∀ b, st1.nv.invalid b = st.nv.invalid b + if b = a then 1 else 0 at hinv
  have honly1 := honly0.trans honly
  have htree : (st1.info ino).tree = (st.info ino).tree.delete pgoff := by rw [hinfo, setTree_tree]
  have hrest : ∀ i, pgoff + 1 ≤ i → (st1.info ino).tree.get i = (st.info ino).tree.get i := by
    intro i hi
    rw [htree, get_delete_of_ne _ (by omega)]
  have hmap1 : ∀ i, pgoff + 1 ≤ i → pageMap st1 ino i = pageMap st ino i :=
    fun i hi => honly1.pageMap (hrest i hi)
  have hcount : ∀ b, mapped (st1.info ino).tree.get b (pgoff + 1) (last + 1)
      = mapped (st.info ino).tree.get b (pgoff + 1) (last + 1) := fun b =>
    mapped_congr fun i h1 _ => hrest i h1
  -- blocks of later pages are neither freed nor in the new run
  have hlater : ∀ i x, pgoff + 1 ≤ i → i ≤ last → pageMap st ino i = some x →
      st1.InUse x ∧ ¬ run1.Has x := by
    intro i x h1 h2 hx
    refine (hfree x).2 ⟨(h.inUse i x (by omega) h2 hx).1, ?_, ?_⟩
    · intro hr
      exact (h.held x hr).2 i (by omega) h2 hx
    intro heq
    rw [heq] at hx
    have := h.inj i pgoff _ (by omega) h2 le_rfl hlast hx hmap
    omega
  constructor
  · refine ⟨?_, ?_, ?_, ?_, ?_⟩
    · intro i b hb
      rw [honly1.entryAt]
      by_cases hi : i = pgoff
      · rw [hi, htree, get_delete_self] at hb
        cases hb
      · rw [htree, get_delete_of_ne _ hi] at hb
        exact h.starts i b hb
    · intro b hb
      obtain ⟨i, h1, h2, hi⟩ := hb
      rw [hrest i h1] at hi
      have hr := h.room b ⟨i, by omega, h2, hi⟩
      rw [mapped_first _ _ (by omega : pgoff < last + 1), hget] at hr
      rw [hinv b, hcount b, honly1.entryAt]
      by_cases hb : b = a
      · simp only [hb, if_true] at hr ⊢
        omega
      have hne : ¬ a = b := fun hab => hb hab.symm
      simp only [hb, Option.some.injEq, hne, if_false] at hr ⊢
      omega
    · intro i x h1 h2 hx
      rw [hmap1 i h1] at hx
      exact ⟨(hlater i x h1 h2 hx).1, (h.inUse i x (by omega) h2 hx).2⟩
    · intro i j x h1 h2 h3 h4 hi hj
      rw [hmap1 i h1] at hi
      rw [hmap1 j h3] at hj
      exact h.inj i j x (by omega) h2 (by omega) h4 hi hj
    · intro x hx
      refine ⟨hrun x hx, ?_⟩
      intro i h1 h2 hi
      rw [hmap1 i h1] at hi
      exact (hlater i x h1 h2 hi).2 hx
  · intro st' run' hr
    refine ⟨honly1.trans hr.only, ?_, ?_, hr.held, ?_⟩
    · intro i
      rw [hr.tree i]
      by_cases hi : i = pgoff
      · rw [hi, htree, get_delete_self, if_neg (by omega), if_pos ⟨le_rfl, hlast⟩]
      rw [htree, get_delete_of_ne _ hi]
      by_cases hrange : pgoff + 1 ≤ i ∧ i ≤ last
      · rw [if_pos hrange, if_pos (by omega)]
      · rw [if_neg hrange, if_neg (by omega)]
    · intro b
      rw [hr.invalid b, hinv b, hcount b, mapped_first _ _ (by omega : pgoff < last + 1), hget]
      by_cases hb : b = a
      · simp only [hb, if_true]
        omega
      have hne : ¬ a = b := fun hab => hb hab.symm
      simp only [hb, Option.some.injEq, hne, if_false]
      omega
    intro x
    rw [hr.inUse x]
    constructor
    · intro ⟨h1, h2, h3⟩
      obtain ⟨h4, h5, h6⟩ := (hfree x).1 ⟨h1, h2⟩
      refine ⟨h4, h5, ?_⟩
      intro i hi1 hi2
      by_cases hi : i = pgoff
      · rw [hi, hmap]
        intro heq
        rw [Option.some.injEq] at heq
        exact h6 heq.symm
      · rw [← hmap1 i (by omega)]
        exact h3 i (by omega) hi2
    intro ⟨h1, h2, h3⟩
    have hne : x ≠ getNvmm st.nv a pgoff := by
      intro heq
      exact h3 pgoff le_rfl hlast (by rw [heq]; exact hmap)
    obtain ⟨h4, h5⟩ := (hfree x).2 ⟨h1, h2, hne⟩
    refine ⟨h4, h5, ?_⟩
    intro i hi1 hi2
    rw [hmap1 i hi1]
    exact h3 i (by omega) hi2

/-- Deleting gives back every block of the range. -/
theorem deleteLoop_free {ino : Nat} : ∀ (rounds : Nat) (st : State al)
    (pgoff : Nat) (run : FreeRun), Removable st ino pgoff last run → last + 1 - pgoff ≤ rounds →
    Removed st ino pgoff last run (deleteLoop ino last true rounds st pgoff run).1
      (deleteLoop ino last true rounds st pgoff run).2 := by
  intro rounds
  induction rounds with
  | zero =>
    intro st pgoff run h hr
    exact Removed.of_none (fun x hx => (h.held x hx).1)
      fun i h1 h2 => by omega
  | succ rounds ih =>
    intro st pgoff run h hr
    rw [deleteLoop]
    by_cases hlast : pgoff ≤ last
    · rw [if_pos hlast]
      cases hget : novaGetWriteEntry st ino pgoff with
      | some a =>
        obtain ⟨hnext, hback⟩ := deletePage_spec h hlast hget
        exact hback _ _ (ih _ (pgoff + 1) _ hnext (by omega))
      | none =>
        cases hgang : (st.info ino).tree.gangLookup pgoff with
        | none =>
          exact Removed.of_none (fun x hx => (h.held x hx).1)
            fun i h1 _ => gangLookup_eq_none hgang h1
        | some a =>
          have hskip := hole_skipped h.starts hget hgang
          have hq : pgoff ≤ max (pgoff + 1) (entryAt st.nv a).pgoff := by omega
          exact (ih st _ run (h.skip hq) (by omega)).of_skip hq hskip
    rw [if_neg hlast]
    exact Removed.of_none (fun x hx => (h.held x hx).1)
      fun i h1 h2 => by omega

/-- What cutting off the pages `[first, last]` leaves. -/
structure Deleted (st st' : State al) (ino first last : Nat) : Prop where
  only : TreeOnly ino st st'
  tree : ∀ i, (st'.info ino).tree.get i
    = if first ≤ i ∧ i ≤ last then none else (st.info ino).tree.get i
  invalid : ∀ b, st'.nv.invalid b = st.nv.invalid b
    + mapped (st.info ino).tree.get b first (last + 1)
  inUse : ∀ x, st'.InUse x ↔ st.InUse x ∧
    ∀ i, first ≤ i → i ≤ last → pageMap st ino i ≠ some x

/-- `nova_delete_file_tree` with blocks given back. -/
theorem novaDeleteFileTree_free (h : Removable st ino first last ⟨0, 0, 0⟩) :
    Deleted st (novaDeleteFileTree st ino first last true).1 ino first last := by
  have hno : ∀ x, ¬ (⟨0, 0, 0⟩ : FreeRun).Has x := fun x hx => hx.1 rfl
  have hr := deleteLoop_free (last + 1 - first) st first ⟨0, 0, 0⟩ h le_rfl
  simp only [novaDeleteFileTree]
  generalize deleteLoop ino last true (last + 1 - first) st first ⟨0, 0, 0⟩ = r
    at hr ⊢
  have hiff : ∀ x, (r.1.InUse x ∧ ¬ r.2.Has x) ↔ st.InUse x ∧
      ∀ i, first ≤ i → i ≤ last → pageMap st ino i ≠ some x := by
    intro x
    rw [hr.inUse x]
    simp [hno]
  split
  · rename_i hs
    refine ⟨hr.only.trans (novaFreeDataBlocks_only _ _ _ _), hr.tree, hr.invalid, ?_⟩
    intro x
    have hall : ∀ y, r.2.start ≤ y → y < r.2.start + r.2.num →
        al.InUse r.1.alloc y := fun y h1 h2 => hr.held y ⟨hs, h1, h2⟩
    rw [← hiff x]
    have := al.free_inUse (t := .data) hall x
    simp only [State.InUse, novaFreeDataBlocks]
    rw [this]
    apply and_congr_right
    intro _
    simp only [FreeRun.Has]
    tauto
  rename_i hs
  have hs0 : r.2.start = 0 := not_not.1 hs
  refine ⟨hr.only, hr.tree, hr.invalid, ?_⟩
  intro x
  rw [← hiff x]
  constructor
  · exact fun hx => ⟨hx, fun hh => hh.1 hs0⟩
  · exact fun hx => hx.1

/-- `nova_delete_file_tree` on the tree alone. -/
theorem novaDeleteFileTree_keep (first last : Nat) (h : StartsOk st ino) :
    ∃ t, (novaDeleteFileTree st ino first last false).1 = setTree st ino t ∧
      ∀ i, t.get i = if first ≤ i ∧ i ≤ last then none else (st.info ino).tree.get i := by
  obtain ⟨t, ht, hget⟩ := deleteLoop_keep (last + 1 - first) st first ⟨0, 0, 0⟩
    h le_rfl
  refine ⟨t, ?_, hget⟩
  simp [novaDeleteFileTree, ht]

end Themis.File
