/-
One free list: its representation invariant, and what a call of
`nova_alloc_blocks_in_free_list` (4K type) or the locked part of
`nova_free_blocks` does to it.

The tree enters only here. `findFreeSlot_eq` turns the descent of
`nova_find_free_slot` into a split of the in-order list, and from there
on everything is `Takes`/`Puts` (Nodes.lean) plus the two cached pointers.
-/
import Themis.Proofs.Balloc.Nodes

namespace Themis.Balloc

open Lib List Option RangeNode

variable (rb : RbLib addr) {fl fl' : FreeList} {bound : Nat}
variable {A B : List RangeNode} {curr n : RangeNode} {low k fresh : Nat} {tree : RbTree RangeNode}
  {logPage : Bool}

/-- The nodes of a free list, in order. -/
def FreeList.nodes (fl : FreeList) : List RangeNode := fl.blockFreeTree.toList

/-- The representation invariant of a free list. `bound` is above every
address in use. -/
structure FreeListInv (fl : FreeList) (bound : Nat) : Prop where
  nodesOk : NodesOk fl.nodes
  numFree : fl.numFreeBlocks = totalBlocks fl.nodes
  numNodes : fl.numBlocknode = fl.nodes.length
  first : fl.firstNode = fl.nodes.head?.map RangeNode.addr
  cursor : ∀ p, fl.pNode = some p → p ∈ fl.nodes.map RangeNode.addr
  addr_lt : ∀ p ∈ fl.nodes.map RangeNode.addr, p < bound

/-- A higher bound on the addresses. -/
theorem FreeListInv.mono {bound' : Nat} (h : FreeListInv fl bound)
    (hb : bound ≤ bound') : FreeListInv fl bound' :=
  { h with addr_lt := fun p hp => lt_of_lt_of_le (h.addr_lt p hp) hb }

/-- Free blocks are in nodes. -/
theorem FreeListInv.nodes_ne_nil (h : FreeListInv fl bound)
    (hpos : 0 < fl.numFreeBlocks) : fl.nodes ≠ [] := by
  intro hnil
  rw [h.numFree, hnil] at hpos
  exact absurd hpos (by decide)

/-- The first address of a list that is not empty. -/
theorem head?_append_cons (A B : List RangeNode) (n : RangeNode) :
    (A ++ n :: B).head?.map addr = some ((A.head?.map addr).getD n.addr) := by
  cases A <;> rfl

-- === allocation

/-- Outcome of an allocation at list level: `k` blocks from `b` on were
taken out of one node, the invariant holds again, and the cursor is
where a next-fit search goes on. -/
structure AllocOutcome (fl fl' : FreeList) (bound num b k : Nat) : Prop where
  takes : Takes fl.nodes fl'.nodes b k
  pos : 0 < k
  le : k ≤ num
  inv : FreeListInv fl' bound

/-- Taking a whole node. -/
theorem allocWhole_spec (h : FreeListInv fl bound) (hL : fl.nodes = A ++ curr :: B)
    (first' p' : Option Nat) (hfirst : first' = (A ++ B).head?.map addr)
    (hp : ∀ p, p' = some p → p ∈ (A ++ B).map addr) (hfl : fl' = { fl with
      blockFreeTree := rb.erase curr.addr fl.blockFreeTree,
      numBlocknode := fl.numBlocknode - 1, firstNode := first', pNode := p',
      numFreeBlocks := fl.numFreeBlocks - curr.len }) :
    fl'.nodes = A ++ B ∧ Takes fl.nodes fl'.nodes curr.rangeLow curr.len
      ∧ FreeListInv fl' bound := by
  have hnodes : fl'.nodes = A ++ B := by
    rw [hfl]
    show (rb.erase curr.addr fl.blockFreeTree).toList = A ++ B
    rw [rb.toList_erase]
    rw [show fl.blockFreeTree.toList = A ++ curr :: B from hL]
    exact filter_ptr_eq (hL ▸ h.nodesOk.addrs)
  have htakes : Takes fl.nodes fl'.nodes curr.rangeLow curr.len := by
    rw [hL, hnodes]
    exact Takes.whole A B curr
  have htotal := htakes.total h.nodesOk
  refine ⟨hnodes, htakes, htakes.nodesOk h.nodesOk, ?_, ?_, ?_, ?_, ?_⟩
  · have := h.numFree
    rw [hfl]
    show fl.numFreeBlocks - curr.len = totalBlocks _
    rw [← hfl]
    omega
  · have := h.numNodes
    rw [hnodes, hfl]
    rw [hL] at this
    simp only [length_append, length_cons] at this ⊢
    omega
  · rw [hnodes, hfl]
    exact hfirst
  · rw [hnodes, hfl]
    exact hp
  · intro p hmem
    exact h.addr_lt p (htakes.addrs_subset hmem)

/-- Taking the front of a node. -/
theorem allocPart_spec (h : FreeListInv fl bound) (hL : fl.nodes = A ++ curr :: B) {num : Nat}
    (hnum : num < curr.len) (hfl : fl' = { fl with
      blockFreeTree := modifyNode curr.addr
        (fun m => { m with rangeLow := m.rangeLow + num }) fl.blockFreeTree,
      pNode := some curr.addr, numFreeBlocks := fl.numFreeBlocks - num }) :
    fl'.nodes = A ++ { curr with rangeLow := curr.rangeLow + num } :: B
      ∧ Takes fl.nodes fl'.nodes curr.rangeLow num ∧ FreeListInv fl' bound := by
  have hnodes : fl'.nodes = A ++ { curr with rangeLow := curr.rangeLow + num } :: B := by
    rw [hfl]
    show (modifyNode _ _ _).toList = _
    rw [modifyNode, RbTree.toList_map]
    rw [show fl.blockFreeTree.toList = A ++ curr :: B from hL]
    exact map_ptr_eq _ (hL ▸ h.nodesOk.addrs)
  have htakes : Takes fl.nodes fl'.nodes curr.rangeLow num := by
    rw [hL, hnodes]
    exact Takes.part A B curr hnum
  have htotal := htakes.total h.nodesOk
  refine ⟨hnodes, htakes, htakes.nodesOk h.nodesOk, ?_, ?_, ?_, ?_, ?_⟩
  · have := h.numFree
    rw [hfl]
    show fl.numFreeBlocks - num = totalBlocks _
    rw [← hfl]
    omega
  · have := h.numNodes
    rw [hnodes, hfl]
    rw [hL] at this
    simpa using this
  · have := h.first
    rw [hnodes, hfl]
    rw [hL, head?_append_cons] at this
    rw [head?_append_cons]
    exact this
  · intro p hpn
    rw [hfl] at hpn
    injection hpn with hpn
    rw [hnodes, ← hpn]
    simp
  · intro p hmem
    exact h.addr_lt p (htakes.addrs_subset hmem)

/-- What taking up to `num` blocks out of the node between `A` and `B`
leaves: the node goes with its last block, and the cursor then stands on
the node behind it, around the end of the list if need be. -/
structure AllocAt (fl fl' : FreeList) (bound num : Nat) (A B : List RangeNode)
    (curr : RangeNode) : Prop where
  takes : Takes fl.nodes fl'.nodes curr.rangeLow (min num curr.len)
  inv : FreeListInv fl' bound
  whole : curr.len ≤ num → fl'.nodes = A ++ B
    ∧ fl'.pNode = (B ++ A).head?.map RangeNode.addr
  part : num < curr.len →
    fl'.nodes = A ++ { curr with rangeLow := curr.rangeLow + num } :: B
      ∧ fl'.pNode = some curr.addr

/-- The loop takes from the node at the cursor. -/
theorem allocFrom_at (btype : BlockType) (num : Nat) (h : FreeListInv fl bound)
    (hL : fl.nodes = A ++ curr :: B) (hfit : btype ≠ .blk4K → num ≤ curr.len) :
    ∃ fl1, allocFrom rb fl btype num (curr :: B) = some (min num curr.len, curr.rangeLow, fl1)
      ∧ AllocAt fl { fl1 with
          numFreeBlocks := fl1.numFreeBlocks - min num curr.len } bound num A B curr := by
  simp only [allocFrom]
  rw [show curr.rangeHigh - curr.rangeLow + 1 = curr.len from rfl]
  by_cases hge : num ≥ curr.len
  · have hskip : ¬ (btype ≠ .blk4K ∧ num > curr.len) := fun hs =>
      absurd (hfit hs.1) (not_le.mpr hs.2)
    rw [if_pos hge, if_neg hskip, Nat.min_eq_right hge]
    refine ⟨_, rfl, ?_⟩
    have hfirst := h.first
    rw [hL] at hfirst
    -- it remains to say where the two cached pointers go
    suffices hptr : ∀ fl1 : FreeList, ∀ first' : Option Nat,
        fl1 = { fl with firstNode := first',
                        pNode := (B ++ A).head?.map addr } →
        first' = (A ++ B).head?.map addr →
        AllocAt fl { fl1 with
          blockFreeTree := rb.erase curr.addr fl1.blockFreeTree,
          numBlocknode := fl1.numBlocknode - 1,
          numFreeBlocks := fl1.numFreeBlocks - curr.len } bound num A B curr by
      by_cases hf : fl.firstNode = some curr.addr
      · -- the erased node is the first one, so nothing precedes it
        have hA : A = [] := by
          cases A with
          | nil => rfl
          | cons a A =>
            have hdistinct := h.nodesOk.addrs
            rw [hL, map_append, nodup_append] at hdistinct
            rw [hf] at hfirst
            injection hfirst with hfirst
            exact absurd hfirst.symm
              (hdistinct.2.2 a.addr (by simp) curr.addr (by simp))
        subst hA
        refine hptr _ (B.head?.map addr) ?_ rfl
        rw [if_pos hf, append_nil]
      -- some node precedes it and stays the first one
      rw [if_neg hf]
      cases A with
      | nil => exact absurd hfirst hf
      | cons a A =>
        have hfst : fl.firstNode = some a.addr := hfirst
        refine hptr _ fl.firstNode ?_ hfst
        cases B with
        | nil =>
          rw [hfst]
          rfl
        | cons m B => rfl
    intro fl1 first' hfl1 hfirst'
    have hcur : ∀ p, (B ++ A).head?.map addr = some p →
        p ∈ (A ++ B).map addr := by
      intro p hp
      obtain ⟨m, hm, rfl⟩ := map_eq_some_iff.mp hp
      have hmem := mem_of_mem_head? hm
      refine List.mem_map_of_mem ?_
      simp only [mem_append] at hmem ⊢
      exact hmem.symm
    obtain ⟨hnodes, htakes, hinv⟩ := allocWhole_spec rb h hL first' _ hfirst' hcur rfl
    rw [hfl1]
    refine ⟨?_, hinv, fun _ => ⟨hnodes, rfl⟩, fun hlt => ?_⟩
    · rw [Nat.min_eq_right hge]
      exact htakes
    · exact absurd hge (not_le.mpr hlt)
  · have hlt : num < curr.len := Nat.lt_of_not_le hge
    rw [if_neg hge, Nat.min_eq_left (le_of_lt hlt)]
    refine ⟨_, rfl, ?_⟩
    obtain ⟨hnodes, htakes, hinv⟩ := allocPart_spec h hL hlt rfl
    refine ⟨?_, hinv, fun hle => ?_, fun _ => ⟨hnodes, rfl⟩⟩
    · rw [Nat.min_eq_left (le_of_lt hlt)]
      exact htakes
    · exact absurd hlt (not_lt.mpr hle)

/-- The cursor stands at a node of the list. -/
theorem FreeListInv.cursor_split {p : Nat} (h : FreeListInv fl bound) (hp : fl.pNode = some p) :
    ∃ A curr B, fl.nodes = A ++ curr :: B ∧ p = curr.addr
      ∧ fl.blockFreeTree.fromPtr addr p = curr :: B := by
  obtain ⟨curr, hcurr, rfl⟩ := List.mem_map.mp (h.cursor p hp)
  obtain ⟨A, B, hL⟩ := append_of_mem hcurr
  exact ⟨A, curr, B, hL, rfl, RbTree.fromPtr_eq hL h.nodesOk.addrs⟩

/-- An allocation with the cursor on a node. -/
theorem novaAllocBlocksInFreeList_at (num : Nat) (h : FreeListInv fl bound)
    (hL : fl.nodes = A ++ curr :: B) (hp : fl.pNode = some curr.addr) :
    ∃ fl', novaAllocBlocksInFreeList rb fl .blk4K num = (min num curr.len, curr.rangeLow, fl')
      ∧ AllocAt fl fl' bound num A B curr := by
  obtain ⟨fl1, heq, hat⟩ := allocFrom_at rb .blk4K num h hL (fun hne => absurd rfl hne)
  unfold novaAllocBlocksInFreeList
  simp only [hp, RbTree.fromPtr_eq hL h.nodesOk.addrs, heq]
  exact ⟨_, rfl, hat⟩

/-- An allocation from a list with a cursor. -/
theorem novaAllocBlocksInFreeList_spec {num p : Nat}
    (h : FreeListInv fl bound) (hnum : 0 < num) (hp : fl.pNode = some p) :
    ∃ b k fl', novaAllocBlocksInFreeList rb fl .blk4K num = (k, b, fl')
      ∧ AllocOutcome fl fl' bound num b k := by
  obtain ⟨A, curr, B, hL, rfl, -⟩ := h.cursor_split hp
  obtain ⟨fl', heq, hat⟩ := novaAllocBlocksInFreeList_at rb num h hL hp
  have hlen : 0 < curr.len := Nat.succ_pos _
  exact ⟨_, _, fl', heq, hat.takes, Nat.lt_min.mpr ⟨hnum, hlen⟩, Nat.min_le_left _ _, hat.inv⟩

-- === freeing

/-- Nodes in order are sorted for the comparison. -/
theorem NodesOk.cmpSorted {L : List RangeNode} (h : NodesOk L) (low : Nat) :
    RbTree.CmpSorted (novaRbtreeCompareRangenode low) L := by
  refine h.ordered.imp_of_mem fun {a b} ha hb hab => ?_
  have hra := h.range a ha
  simp only [novaRbtreeCompareRangenode]
  constructor
  · intro hlt
    split at hlt
    · rw [if_pos (by omega)]
    · split at hlt <;> cases hlt
  intro hgt
  split at hgt
  · cases hgt
  split at hgt
  · rw [if_neg (by omega), if_pos (by omega)]
  · cases hgt

/-- Below the node. -/
theorem compare_eq_lt (h : novaRbtreeCompareRangenode low n = .lt) : low < n.rangeLow := by
  simp only [novaRbtreeCompareRangenode] at h
  split at h
  · assumption
  · split at h <;> cases h

/-- Above the node. -/
theorem compare_eq_gt (h : novaRbtreeCompareRangenode low n = .gt) : n.rangeHigh < low := by
  simp only [novaRbtreeCompareRangenode] at h
  split at h
  · cases h
  split at h
  · assumption
  · cases h

/-- Inside the node. -/
theorem compare_eq_eq (h : novaRbtreeCompareRangenode low n = .eq) :
    n.rangeLow ≤ low ∧ low ≤ n.rangeHigh := by
  simp only [novaRbtreeCompareRangenode] at h
  split at h
  · cases h
  split at h
  · cases h
  · omega

/-- Where a free run sits among the nodes of a list. -/
structure Slot (L A B : List RangeNode) (low k : Nat) : Prop where
  eq : L = A ++ B
  below : ∀ a ∈ A, a.rangeHigh < low
  above : ∀ b ∈ B, low + k ≤ b.rangeLow

/-- `nova_find_free_slot` on a run that touches no node: it returns the
neighbours of the run, whatever the shape of the tree, and an insertion
at that key lands between them. -/
theorem findFreeSlot_eq (h : NodesOk tree.toList) (hk : 0 < k)
    (hfree : ∀ x, InRun low k x → ¬ Covers tree.toList x) :
    ∃ A B, Slot tree.toList A B low k
      ∧ novaFindFreeSlot tree low (low + k - 1) = some (A.getLast?, B.head?)
      ∧ ∀ node : RangeNode, node.rangeLow = low →
          ∃ tree', novaInsertBlocktree rb tree node = some tree'
            ∧ tree'.toList = A ++ node :: B := by
  have hmiss : (novaFindRangeNode tree low).1 = false := by
    by_contra hhit
    rw [Bool.not_eq_false] at hhit
    obtain ⟨n, hn, hcmp, -⟩ := RbTree.descend_found hhit
    exact hfree low ⟨le_rfl, by omega⟩ ⟨n, hn, compare_eq_eq hcmp⟩
  obtain ⟨A, B, hsp, hlast⟩ := RbTree.descend_split (h.cmpSorted low) hmiss
  have habove : ∀ n ∈ B, low + k ≤ n.rangeLow := by
    intro n hn
    have hlt := compare_eq_lt (hsp.above n hn)
    have hmem : n ∈ tree.toList := by
      rw [hsp.eq]
      exact mem_append_right A hn
    by_contra hov
    exact hfree n.rangeLow ⟨by omega, by omega⟩
      ⟨n, hmem, le_rfl, h.range n hmem⟩
  have hbelow : ∀ n ∈ A, n.rangeHigh < low :=
    fun n hn => compare_eq_gt (hsp.below n hn)
  refine ⟨A, B, ⟨hsp.eq, hbelow, habove⟩, ?_, ?_⟩
  · -- whichever neighbour the descent ended at, the other one is its
    -- `rb_next` or `rb_prev`
    rw [novaFindFreeSlot]
    rw [show novaFindRangeNode tree low
        = (false, (novaFindRangeNode tree low).2) from Prod.ext hmiss rfl]
    rcases hlast with ⟨hA, hres⟩ | ⟨hB, hres⟩ | ⟨hA, hB, hres⟩
    · obtain ⟨A', p, rfl⟩ := eq_nil_or_concat A |>.resolve_left hA
      have hp := hbelow p (by simp)
      have hL : tree.toList = A' ++ p :: B := by rw [hsp.eq]; simp
      rw [show (novaFindRangeNode tree low).2 = some p by
        rw [show (novaFindRangeNode tree low).2 = _ from hres]; simp]
      simp only [if_pos hp, RbTree.next_eq hL h.addrs]
      simp
    · obtain ⟨n, B', rfl⟩ := exists_cons_of_ne_nil hB
      have hn := habove n (by simp)
      have hnr := h.range n (by rw [hsp.eq]; simp)
      rw [show (novaFindRangeNode tree low).2 = some n from hres]
      simp only [if_neg (show ¬ n.rangeHigh < low by omega),
        if_pos (show n.rangeLow > low + k - 1 by omega), RbTree.prev_eq hsp.eq h.addrs]
      rfl
    · rw [show (novaFindRangeNode tree low).2 = none from hres, hA, hB]
      rfl
  intro node hnode
  have hsome := RbTree.linkLeaf_isSome (novaRbtreeCompareRangenode low) node
    tree none
  rw [show (tree.descend (novaRbtreeCompareRangenode low) none).1 = false
    from hmiss] at hsome
  obtain ⟨tree', htree'⟩ := isSome_iff_exists.mp hsome
  refine ⟨rb.insertColor tree', ?_, ?_⟩
  · rw [novaInsertBlocktree, novaInsertRangeNode, hnode, htree']
    rfl
  · rw [rb.toList_insertColor]
    exact RbTree.toList_linkLeaf hsp htree'

/-- A node behind all others can be inserted. -/
theorem insertRangeNode_last (node : RangeNode) (h : NodesOk tree.toList)
    (hlast : ∀ n ∈ tree.toList, n.rangeHigh < node.rangeLow) :
    ∃ tree', novaInsertRangeNode rb tree node = some tree'
      ∧ tree'.toList = tree.toList ++ [node] := by
  have hfree : ∀ x, InRun node.rangeLow 1 x → ¬ Covers tree.toList x := by
    intro x hx hcov
    obtain ⟨n, hn, hnx⟩ := hcov
    have := hlast n hn
    unfold InRun at hx
    omega
  obtain ⟨A, B, hslot, -, hins⟩ := findFreeSlot_eq rb h Nat.one_pos hfree
  obtain ⟨tree', htree, hlist⟩ := hins node rfl
  have hB : B = [] := by
    refine eq_nil_iff_forall_not_mem.mpr fun n hn => ?_
    have hmem : n ∈ tree.toList := by
      rw [hslot.eq]
      exact mem_append_right A hn
    have := hslot.above n hn
    have := hlast n hmem
    have := h.range n hmem
    omega
  refine ⟨tree', htree, ?_⟩
  rw [hlist, hslot.eq, hB, append_nil]

/-- Outcome of a free at list level: exactly the run was put back and
the invariant holds again. -/
structure FreeOutcome (fl fl' : FreeList) (bound fresh low k : Nat) : Prop where
  puts : Puts fresh low k fl.nodes fl'.nodes
  inv : FreeListInv fl' bound

/-- The statistics do not touch the list. -/
theorem blockFound_fields (fl : FreeList) (k : Nat) (logPage : Bool) :
    (blockFound fl k logPage).nodes = fl.nodes
      ∧ (blockFound fl k logPage).numFreeBlocks = fl.numFreeBlocks + k
      ∧ (blockFound fl k logPage).numBlocknode = fl.numBlocknode
      ∧ (blockFound fl k logPage).firstNode = fl.firstNode
      ∧ (blockFound fl k logPage).pNode = fl.pNode := by
  cases logPage <;> exact ⟨rfl, rfl, rfl, rfl, rfl⟩

/-- A free from what it does to the nodes. -/
theorem FreeOutcome.of_branch {fl1 : FreeList} (h : FreeListInv fl bound) (hk : 0 < k)
    (hfresh : fresh < bound) (hputs : Puts fresh low k fl.nodes fl1.nodes)
    (hfree : fl1.numFreeBlocks = fl.numFreeBlocks) (hnum : fl1.numBlocknode = fl1.nodes.length)
    (hfirst : fl1.firstNode = fl1.nodes.head?.map addr)
    (hcur : ∀ p, fl1.pNode = some p → p ∈ fl1.nodes.map addr) :
    FreeOutcome fl (blockFound fl1 k logPage) bound fresh low k := by
  obtain ⟨hn, hf, hb, hfi, hpn⟩ := blockFound_fields fl1 k logPage
  refine ⟨hn ▸ hputs, ?_⟩
  refine ⟨hn ▸ hputs.nodesOk hk h.nodesOk, ?_, ?_, ?_, ?_, ?_⟩
  · rw [hf, hn, hfree, h.numFree, hputs.total hk h.nodesOk]
  · rw [hb, hn, hnum]
  · rw [hfi, hn, hfirst]
  · rw [hpn, hn]
    exact hcur
  intro p hp
  rw [hn] at hp
  rcases hputs.addrs_subset hp with hp | rfl
  · exact h.addr_lt p hp
  · exact hfresh

/-- Changing a node by its address. -/
theorem nodes_modifyNode (f : RangeNode → RangeNode) (hL : tree.toList = A ++ n :: B)
    (hnd : (tree.toList.map addr).Nodup) :
    (modifyNode n.addr f tree).toList = A ++ f n :: B := by
  rw [modifyNode, RbTree.toList_map, hL]
  exact map_ptr_eq f (hL ▸ hnd)

/-- Filling a hole: `next` is erased, and a cursor on it moves on first
— to its successor, or back to the first node, which is not `next`
because `prev` precedes it. -/
theorem fitsHole_spec {p : RangeNode} (h : FreeListInv fl bound) (hk : 0 < k)
    (hfresh : fresh < bound) (hL : fl.nodes = A ++ p :: n :: B) (hp : p.rangeHigh + 1 = low)
    (hn : low + k = n.rangeLow) :
    FreeOutcome fl (blockFound (fitsHole rb fl p n) k logPage) bound fresh low k := by
  have hL2 : fl.nodes = (A ++ [p]) ++ n :: B := by rw [hL]; simp
  have hnd := h.nodesOk.addrs
  have hnext : fl.blockFreeTree.next addr n.addr = B.head? := RbTree.next_eq hL2 hnd
  have herase : (rb.erase n.addr fl.blockFreeTree).toList = A ++ p :: B := by
    rw [rb.toList_erase]
    rw [show fl.blockFreeTree.toList = (A ++ [p]) ++ n :: B from hL2]
    rw [filter_ptr_eq (hL2 ▸ hnd)]
    simp
  have hnd' : ((rb.erase n.addr fl.blockFreeTree).toList.map addr).Nodup := by
    rw [herase]
    rw [hL2] at hnd
    have hsub : (A ++ p :: B).Sublist (A ++ [p] ++ n :: B) := by simp
    exact hnd.sublist (hsub.map _)
  -- the cursor's detour does not touch the tree
  have hshape : ∃ q, fitsHole rb fl p n = { fl with
      blockFreeTree := modifyNode p.addr
        (fun m => { m with rangeHigh := n.rangeHigh })
        (rb.erase n.addr fl.blockFreeTree),
      numBlocknode := fl.numBlocknode - 1, pNode := q }
      ∧ ∀ r, q = some r → r ∈ (A ++ p :: B).map addr := by
    by_cases hc : fl.pNode = some n.addr
    · cases B with
      | nil =>
        refine ⟨fl.firstNode, ?_, ?_⟩
        · simp only [fitsHole, if_pos hc, hnext]
          rfl
        intro r hr
        rw [h.first, hL, head?_append_cons] at hr
        injection hr with hr
        cases A with
        | nil => simpa using hr.symm
        | cons a A => simp [← hr]
      | cons m B =>
        refine ⟨some m.addr, ?_, ?_⟩
        · simp only [fitsHole, if_pos hc, hnext]
          rfl
        intro r hr
        injection hr with hr
        simp [hr]
    refine ⟨fl.pNode, ?_, ?_⟩
    · simp only [fitsHole, if_neg hc]
    intro r hr
    have hmem := h.cursor r hr
    have hne : r ≠ n.addr := fun he => hc (he ▸ hr)
    rw [hL] at hmem
    simp only [map_append, map_cons, mem_append, mem_cons] at hmem ⊢
    tauto
  obtain ⟨q, hshape, hq⟩ := hshape
  rw [hshape]
  have hnodes : (modifyNode p.addr (fun m => { m with rangeHigh := n.rangeHigh })
      (rb.erase n.addr fl.blockFreeTree)).toList = A ++ { p with rangeHigh := n.rangeHigh } :: B :=
    nodes_modifyNode _ herase hnd'
  have hnum := h.numNodes
  have hfirst := h.first
  rw [hL] at hnum
  rw [hL, head?_append_cons] at hfirst
  refine FreeOutcome.of_branch h hk hfresh ?_ rfl ?_ ?_ ?_
  · rw [hL]
    show Puts fresh low k _ (modifyNode _ _ _).toList
    rw [hnodes]
    exact Puts.hole A B p n hp hn
  · show fl.numBlocknode - 1 = (modifyNode _ _ _).toList.length
    rw [hnodes]
    simp only [length_append, length_cons] at hnum ⊢
    omega
  · show fl.firstNode = (modifyNode _ _ _).toList.head?.map _
    rw [hnodes, head?_append_cons]
    exact hfirst
  intro r hr
  have := hq r hr
  show r ∈ (modifyNode _ _ _).toList.map _
  rw [hnodes]
  simpa using this

/-- A run that joins one neighbour. -/
theorem growNode_spec (f : RangeNode → RangeNode) (haddr : (f n).addr = n.addr)
    (h : FreeListInv fl bound) (hk : 0 < k) (hfresh : fresh < bound) (hL : fl.nodes = A ++ n :: B)
    (hputs : Puts fresh low k (A ++ n :: B) (A ++ f n :: B)) :
    FreeOutcome fl
      (blockFound { fl with
        blockFreeTree := modifyNode n.addr f fl.blockFreeTree } k logPage) bound fresh low k := by
  have hnodes : (modifyNode n.addr f fl.blockFreeTree).toList
      = A ++ f n :: B := nodes_modifyNode f hL h.nodesOk.addrs
  have hnum := h.numNodes
  have hfirst := h.first
  have hcur := h.cursor
  rw [hL] at hnum hcur
  rw [hL, head?_append_cons] at hfirst
  refine FreeOutcome.of_branch h hk hfresh ?_ rfl ?_ ?_ ?_
  · show Puts fresh low k _ (modifyNode _ _ _).toList
    rw [hL, hnodes]
    exact hputs
  · show fl.numBlocknode = (modifyNode _ _ _).toList.length
    rw [hnodes]
    simpa using hnum
  · show fl.firstNode = (modifyNode _ _ _).toList.head?.map _
    rw [hnodes, head?_append_cons, haddr]
    exact hfirst
  intro r hr
  have := hcur r hr
  show r ∈ (modifyNode _ _ _).toList.map _
  rw [hnodes]
  simpa [haddr] using this

/-- The locked part of `nova_free_blocks` on a run no node of the list
touches: it succeeds and puts exactly that run back. -/
theorem freeInList_spec (logPage : Bool) (h : FreeListInv fl bound) (hk : 0 < k)
    (hfresh : fresh < bound) (hnew : fresh ∉ fl.nodes.map addr)
    (hfree : ∀ x, InRun low k x → ¬ Covers fl.nodes x) :
    ∃ fl', freeInList rb fl fresh low k logPage = some fl'
      ∧ FreeOutcome fl fl' bound fresh low k := by
  obtain ⟨A, B, hslot, hfind, hins⟩ := findFreeSlot_eq rb h.nodesOk hk hfree
  have hL : fl.nodes = A ++ B := hslot.eq
  simp only [freeInList, hfind]
  -- which neighbours touch the run
  rcases hl : (A.getLast?.filter fun p => low == p.rangeHigh + 1) with _ | p
  · rcases hr : (B.head?.filter fun n => low + k - 1 + 1 == n.rangeLow) with _ | n
    · -- neither: a node of its own
      obtain ⟨tree', htree', hlist⟩ := hins ⟨fresh, low, low + k - 1⟩ rfl
      simp only [hl, hr, htree']
      refine ⟨_, rfl, ?_⟩
      have hnum := h.numNodes
      have hfirst := h.first
      have hcur := h.cursor
      rw [hL] at hnum hfirst hcur
      have hputs : Puts fresh low k fl.nodes tree'.toList := by
        rw [hL, hlist]
        exact Puts.middle A B hslot.below hslot.above (hL ▸ hnew)
      refine FreeOutcome.of_branch h hk hfresh ?_ ?_ ?_ ?_ ?_
      · split <;> exact hputs
      · split <;> rfl
      · have hlen : tree'.toList.length = fl.numBlocknode + 1 := by
          rw [hlist, hnum]
          simp only [length_append, length_cons]
          omega
        split <;> exact hlen.symm
      · split
        · next hnone =>
          have hA : A = [] := by simpa using hnone
          show some fresh = tree'.toList.head?.map _
          rw [hlist, hA]
          rfl
        · next hsome =>
          show fl.firstNode = tree'.toList.head?.map _
          cases A with
          | nil => simp at hsome
          | cons a A =>
            rw [hlist, hfirst]
            rfl
      intro r hr'
      have hr'' : fl.pNode = some r := by
        revert hr'
        split <;> exact id
      have hmem := hcur r hr''
      have hgoal : r ∈ tree'.toList.map addr := by
        rw [hlist]
        simp only [map_append, map_cons, mem_append, mem_cons] at hmem ⊢
        tauto
      split <;> exact hgoal
    · -- aligns right
      obtain ⟨hhead, hadj⟩ := filter_eq_some_iff.mp hr
      obtain ⟨B', rfl⟩ := head?_eq_some_iff.mp hhead
      have hadj' : low + k - 1 + 1 = n.rangeLow := by simpa using hadj
      simp only [hl, hr]
      refine ⟨_, rfl, ?_⟩
      refine growNode_spec _ rfl h hk hfresh hL ?_
      exact Puts.right A B' n hslot.below (by omega)
  · obtain ⟨hlast, hadjl⟩ := filter_eq_some_iff.mp hl
    have hadjl' : low = p.rangeHigh + 1 := by simpa using hadjl
    obtain ⟨A', rfl⟩ := getLast?_eq_some_iff.mp hlast
    have hL' : fl.nodes = A' ++ p :: B := by rw [hL]; simp
    rcases hr : (B.head?.filter fun n => low + k - 1 + 1 == n.rangeLow) with _ | n
    · -- aligns left
      simp only [hl, hr]
      refine ⟨_, rfl, ?_⟩
      refine growNode_spec _ rfl h hk hfresh hL' ?_
      exact Puts.left A' B p hadjl'.symm hslot.above
    -- fits the hole
    obtain ⟨hhead, hadj⟩ := filter_eq_some_iff.mp hr
    obtain ⟨B', rfl⟩ := head?_eq_some_iff.mp hhead
    have hadj' : low + k - 1 + 1 = n.rangeLow := by simpa using hadj
    simp only [hl, hr]
    refine ⟨_, rfl, ?_⟩
    exact fitsHole_spec rb h hk hfresh hL' hadjl'.symm (by omega)

end Themis.Balloc
