/-
Frees of blocks that are free already.

`nova_find_free_slot` descends for the low end of the range and then
compares the range with the last node visited only. If the descent ends
at the node in front of the range, nothing looks at the one behind it, and
the range is taken for free of overlaps (`overlap_rejected_iff`). Which of
the two nodes comes last depends on the shape of the tree.
-/
import Themis.Proofs.Balloc.FreeList

namespace Themis.Balloc

open Lib RangeNode

variable (rb : RbLib addr) {tree : RbTree RangeNode} {low k : Nat}

-- === the search

/-- A block of the run is free already. -/
def Overlaps (L : List RangeNode) (low k : Nat) : Prop := ∃ b, InRun low k b ∧ Covers L b

/-- The descent ends below the run. -/
def EndsBelow (tree : RbTree RangeNode) (low : Nat) : Prop :=
  ∃ p, novaFindRangeNode tree low = (false, some p) ∧ p.rangeHigh < low

/-- `nova_find_free_slot` on the `k` blocks from `low` on: an error
exactly if they overlap a node, and their two neighbours otherwise. -/
structure SlotExact (tree : RbTree RangeNode) (low k : Nat) : Prop where
  error : novaFindFreeSlot tree low (low + k - 1) = none ↔ Overlaps tree.toList low k
  slot : ¬ Overlaps tree.toList low k → ∃ A B, Slot tree.toList A B low k
    ∧ novaFindFreeSlot tree low (low + k - 1) = some (A.getLast?, B.head?)

/-- The slot found below a run. -/
theorem findFreeSlot_of_endsBelow (h : EndsBelow tree low) (high : Nat) :
    ∃ p, novaFindFreeSlot tree low high = some (some p, tree.next addr p.addr) := by
  obtain ⟨p, hfind, hp⟩ := h
  refine ⟨p, ?_⟩
  rw [novaFindFreeSlot, hfind]
  exact if_pos hp

/-- An overlap that the descent meets is refused. -/
theorem findFreeSlot_of_overlap (h : NodesOk tree.toList) (hk : 0 < k)
    (hover : Overlaps tree.toList low k) (hend : ¬ EndsBelow tree low) :
    novaFindFreeSlot tree low (low + k - 1) = none := by
  rw [novaFindFreeSlot]
  cases hhit : (novaFindRangeNode tree low).1 with
  | true =>
    rw [show novaFindRangeNode tree low
      = (true, (novaFindRangeNode tree low).2) from Prod.ext hhit rfl]
  | false =>
    have hpair : novaFindRangeNode tree low
        = (false, (novaFindRangeNode tree low).2) := Prod.ext hhit rfl
    obtain ⟨A, B, hsp, hlast⟩ := RbTree.descend_split (h.cmpSorted low) hhit
    have hbelow : ∀ n ∈ A, n.rangeHigh < low :=
      fun n hn => compare_eq_gt (hsp.below n hn)
    -- the overlapping node is behind the range's low end
    obtain ⟨b, hb, m, hm, hmb⟩ := hover
    unfold InRun at hb
    have hmB : m ∈ B := by
      rw [hsp.eq] at hm
      cases List.mem_append.mp hm with
      | inl hA =>
        have := hbelow m hA
        omega
      | inr hB => exact hB
    obtain ⟨n, B', rfl⟩ := List.exists_cons_of_ne_nil (List.ne_nil_of_mem hmB)
    cases hlast with
    | inl hA =>
      obtain ⟨hne, hres⟩ := hA
      obtain ⟨A', p, rfl⟩ := List.eq_nil_or_concat A |>.resolve_left hne
      refine absurd ⟨p, ?_, hbelow p (by simp)⟩ hend
      rw [hpair, show (novaFindRangeNode tree low).2 = _ from hres]
      simp
    | inr hB =>
      have hres : (novaFindRangeNode tree low).2 = some n := by
        cases hB with
        | inl hB => exact hB.2
        | inr hnil => cases hnil.2.1
      have hnm : n.rangeLow ≤ m.rangeLow := by
        cases List.mem_cons.mp hmB with
        | inl he => exact le_of_eq (congrArg rangeLow he.symm)
        | inr hmB' =>
          have hn := (hsp.eq ▸ h : NodesOk (A ++ n :: B')).at_node
          have := hn.2.1 m hmB'
          omega
      have hlow := compare_eq_lt (hsp.above n (by simp))
      have hrange := h.range n (by rw [hsp.eq]; simp)
      rw [hpair, hres]
      simp only [if_neg (show ¬ n.rangeHigh < low by omega),
        if_neg (show ¬ n.rangeLow > low + k - 1 by omega)]

/-- The slot is right exactly if no overlap is missed. -/
theorem slotExact_iff (h : NodesOk tree.toList) (hk : 0 < k) :
    SlotExact tree low k ↔ (Overlaps tree.toList low k → ¬ EndsBelow tree low) := by
  constructor
  · intro hs hover hend
    obtain ⟨p, hp⟩ := findFreeSlot_of_endsBelow hend (low + k - 1)
    have hnone := hs.error.mpr hover
    rw [hp] at hnone
    cases hnone
  intro hsees
  have hslot : ¬ Overlaps tree.toList low k → ∃ A B, Slot tree.toList A B low k
      ∧ novaFindFreeSlot tree low (low + k - 1) = some (A.getLast?, B.head?) := by
    intro hno
    obtain ⟨A, B, hs, heq, -⟩ := findFreeSlot_eq (RbLib.spine addr) h hk
      fun x hx hcov => hno ⟨x, hx, hcov⟩
    exact ⟨A, B, hs, heq⟩
  refine ⟨⟨fun hnone => ?_, fun hover => ?_⟩, hslot⟩
  · by_contra hno
    obtain ⟨A, B, -, heq⟩ := hslot hno
    rw [heq] at hnone
    cases hnone
  · exact findFreeSlot_of_overlap h hk hover (hsees hover)

-- === the free

/-- A free of a range that is free already, in part or as a whole, is an
error and changes no list. -/
def FreeRejects (s : NovaSbInfo) (blocknr : Nat) (num : Int) (btype : BlockType)
    (logPage oom : Bool) : Prop :=
  Overlaps (novaGetFreeList s (freeCpu s blocknr)).nodes blocknr
      (novaGetNumblocks btype * num.toNat) →
    (novaFreeBlocks rb s blocknr num btype logPage oom).1 ≠ 0
      ∧ ∀ i, novaGetFreeList (novaFreeBlocks rb s blocknr num btype logPage oom).2 i
          = novaGetFreeList s i

/-- Such a free goes through. -/
theorem freeInList_of_endsBelow {fl : FreeList} (h : EndsBelow fl.blockFreeTree low)
    (fresh k : Nat) (logPage : Bool) : ∃ fl', freeInList rb fl fresh low k logPage = some fl' := by
  obtain ⟨p, hslot⟩ := findFreeSlot_of_endsBelow h (low + k - 1)
  obtain ⟨q, hfind, -⟩ := h
  have hins := RbTree.linkLeaf_isSome (novaRbtreeCompareRangenode low)
    (⟨fresh, low, low + k - 1⟩ : RangeNode) fl.blockFreeTree none
  rw [show (fl.blockFreeTree.descend (novaRbtreeCompareRangenode low) none).1 = false
    from congrArg Prod.fst hfind] at hins
  obtain ⟨tree', htree'⟩ := Option.isSome_iff_exists.mp hins
  have hinsert : novaInsertBlocktree rb fl.blockFreeTree ⟨fresh, low, low + k - 1⟩
      = some (rb.insertColor tree') := by
    rw [novaInsertBlocktree, novaInsertRangeNode, htree']
    rfl
  unfold freeInList
  simp only [hslot, hinsert]
  -- neither neighbour aligns, or one of them, or both
  split
  · exact ⟨_, rfl⟩
  · exact ⟨_, rfl⟩
  · exact ⟨_, rfl⟩
  · exact ⟨_, rfl⟩

/-- Frees of free blocks are refused exactly where the search sees the
overlap: for every ordered tree and range, `nova_find_free_slot` is exact
iff no overlap goes with a descent that ends below the range, and
`nova_free_blocks`, once it has its node, refuses an overlapping range
and leaves the lists alone under the same condition. -/
theorem overlap_rejected_iff :
    (∀ (tree : RbTree RangeNode) (low k : Nat), NodesOk tree.toList → 0 < k →
      (SlotExact tree low k ↔ (Overlaps tree.toList low k → ¬ EndsBelow tree low)))
    ∧ ∀ (s : NovaSbInfo) (blocknr : Nat) (num : Int) (btype : BlockType)
        (logPage oom : Bool), NodesOk (novaGetFreeList s (freeCpu s blocknr)).nodes →
      (FreeRejects rb s blocknr num btype logPage oom ↔
        oom = true ∨ (Overlaps (novaGetFreeList s (freeCpu s blocknr)).nodes blocknr
            (novaGetNumblocks btype * num.toNat) →
          ¬ EndsBelow (novaGetFreeList s (freeCpu s blocknr)).blockFreeTree blocknr)) := by
  refine ⟨fun tree low k h hk => slotExact_iff h hk, ?_⟩
  intro s blocknr num btype logPage oom h
  obtain ⟨c, hc⟩ : ∃ c, freeCpu s blocknr = c := ⟨_, rfl⟩
  rw [hc] at h ⊢
  unfold FreeRejects novaFreeBlocks
  rw [hc]
  by_cases hover : Overlaps (novaGetFreeList s c).nodes blocknr
      (novaGetNumblocks btype * num.toNat)
  · have hk : 0 < novaGetNumblocks btype * num.toNat := by
      obtain ⟨b, hb, -⟩ := hover
      unfold InRun at hb
      omega
    have hnum : ¬ num ≤ 0 := by
      intro hle
      rw [Int.toNat_of_nonpos hle, Nat.mul_zero] at hk
      exact lt_irrefl 0 hk
    simp only [if_neg hnum, freeOnCpu]
    cases oom with
    | true =>
      simp only [novaAllocBlocknode, if_true, true_or, iff_true]
      exact fun _ => ⟨by decide, fun _ => trivial⟩
    | false =>
      simp only [novaAllocBlocknode, Bool.false_eq_true, if_false, false_or]
      -- the slab moves on, the lists do not
      rw [show novaGetFreeList { s with nextNode := s.nextNode + 1 } c
        = novaGetFreeList s c from rfl]
      constructor
      · intro hrej _ hend
        obtain ⟨fl', hfl'⟩ := freeInList_of_endsBelow rb hend s.nextNode
          (novaGetNumblocks btype * num.toNat) logPage
        have := (hrej hover).1
        rw [hfl'] at this
        exact this rfl
      intro hsees _
      have hnone := findFreeSlot_of_overlap h hk hover (hsees hover)
      have hfree : freeInList rb (novaGetFreeList s c) s.nextNode
          blocknr (novaGetNumblocks btype * num.toNat) logPage = none := by
        unfold freeInList
        simp only [hnone]
      rw [hfree]
      exact ⟨(by decide : -EINVAL ≠ 0), fun _ => rfl⟩
  · exact ⟨fun _ => .inr fun ho => absurd ho hover, fun _ ho => absurd ho hover⟩

/-- A list whose root has a left child only. -/
def leftLeaning : NovaSbInfo :=
  { mountSbInfo 1 32 with
    perListBlocks := 32
    nextNode := 3
    freeLists := fun _ => { FreeList.empty with
      blockFreeTree := .node (.node .nil ⟨1, 1, 3⟩ .nil) ⟨2, 10, 20⟩ .nil
      firstNode := some 1, pNode := some 1, numFreeBlocks := 14, numBlocknode := 2 } }

/-- Freeing block 15 is refused. -/
theorem overlap_rejected_iff_inside :
    let rb := RbLib.spine addr
    NodesOk (novaGetFreeList leftLeaning (freeCpu leftLeaning 15)).nodes
      ∧ FreeRejects rb leftLeaning 15 1 .blk4K false false := by
  intro rb
  have hok : NodesOk (novaGetFreeList leftLeaning (freeCpu leftLeaning 15)).nodes :=
    ⟨by decide, by decide, by decide⟩
  refine ⟨hok, ((overlap_rejected_iff rb).2 leftLeaning 15 1 .blk4K false false hok).mpr ?_⟩
  refine .inr fun _ hend => ?_
  obtain ⟨p, hp, -⟩ := hend
  cases hp

/-- Blocks 5 to 12 overlap the node from 10 on, but the descent for 5
ends at the node 1 to 3: the free goes through, and the list counts 22
free blocks where there are 19. -/
theorem overlap_accepted :
    let rb := RbLib.spine addr
    let r := novaFreeBlocks rb leftLeaning 5 8 .blk4K false false
    NodesOk (novaGetFreeList leftLeaning 0).nodes
      ∧ novaFindFreeSlot (novaGetFreeList leftLeaning 0).blockFreeTree 5 12
          = some (some ⟨1, 1, 3⟩, some ⟨2, 10, 20⟩) ∧ r.1 = 0
      ∧ (novaGetFreeList r.2 0).nodes = [⟨1, 1, 3⟩, ⟨3, 5, 12⟩, ⟨2, 10, 20⟩]
      ∧ (novaGetFreeList r.2 0).numFreeBlocks = 22 := by
  intro rb r
  exact ⟨⟨by decide, by decide, by decide⟩, rfl, rfl, rfl, rfl⟩

end Themis.Balloc
