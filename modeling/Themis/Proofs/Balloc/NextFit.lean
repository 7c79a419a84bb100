/-
Next fit: successive single-block allocations go round the free list.

The blocks a list hands out one by one are a prefix of one sequence that
is fixed when the first of them is asked for: the free blocks upwards
from the cursor's node, and then those in front of it (`cyclicFrom`).
`Rotates` says which sequence is still to come; an allocation takes its
head and leaves its tail (`Rotates.step`).
-/
import Themis.Proofs.Balloc.FreeList

namespace Themis.Balloc

open Lib List

variable (rb : RbLib RangeNode.addr) {fl : FreeList} {bound : Nat}

-- === the sequence

/-- The blocks of a node, in order. -/
def RangeNode.blocks (n : RangeNode) : List Nat := List.range' n.rangeLow n.len

/-- The blocks of a list, in order. -/
def blocksOf (L : List RangeNode) : List Nat := L.flatMap RangeNode.blocks

/-- The free blocks of a list. -/
def FreeList.freeBlocks (fl : FreeList) : List Nat := blocksOf fl.nodes

/-- The blocks from `low` on, then those in front. -/
def cyclicFrom (low : Nat) (blocks : List Nat) : List Nat :=
  blocks.filter (low ≤ ·) ++ blocks.filter (· < low)

/-- The cursor as `nova_new_blocks` sets it before it allocates: a list
without one starts over at `rb_first`. -/
def reseed (fl : FreeList) : FreeList :=
  if fl.firstNode = none ∨ fl.pNode = none then
    let first := fl.blockFreeTree.first.map RangeNode.addr
    { fl with firstNode := first, pNode := first }
  else fl

/-- `k` successive allocations of one 4K block: what each of them
returns, and the block it stores. -/
def allocSingles : Nat → FreeList → List (Nat × Nat)
  | 0, _ => []
  | k + 1, fl =>
    let r := novaAllocBlocksInFreeList rb (reseed fl) .blk4K 1
    (r.1, r.2.1) :: allocSingles k r.2.2

/-- The blocks of two lists. -/
theorem blocksOf_append (A B : List RangeNode) : blocksOf (A ++ B) = blocksOf A ++ blocksOf B := by
  simp [blocksOf]

/-- The blocks of the first node come first. -/
theorem blocksOf_cons (n : RangeNode) (B : List RangeNode) :
    blocksOf (n :: B) = n.blocks ++ blocksOf B := by simp [blocksOf]

/-- The blocks are those covered. -/
theorem mem_blocksOf {L : List RangeNode} (h : NodesOk L) (b : Nat) :
    b ∈ blocksOf L ↔ Covers L b := by
  simp only [blocksOf, mem_flatMap, RangeNode.blocks, mem_range'_1, Covers]
  constructor
  · intro hin
    obtain ⟨n, hn, hb⟩ := hin
    have := h.range n hn
    exact ⟨n, hn, by simp only [RangeNode.len] at hb; omega⟩
  intro hin
  obtain ⟨n, hn, hb⟩ := hin
  exact ⟨n, hn, by simp only [RangeNode.len]; omega⟩

/-- There are as many as the nodes count. -/
theorem length_blocksOf (L : List RangeNode) : (blocksOf L).length = totalBlocks L := by
  induction L with
  | nil => rfl
  | cons n L ih =>
    rw [blocksOf_cons, totalBlocks_cons, length_append, ih, RangeNode.blocks, length_range']

/-- From a node on: its blocks, those behind, those in front. -/
theorem cyclicFrom_split {A B : List RangeNode} {curr : RangeNode} (h : NodesOk (A ++ curr :: B)) :
    cyclicFrom curr.rangeLow (blocksOf (A ++ curr :: B)) = blocksOf (curr :: B) ++ blocksOf A := by
  obtain ⟨hA, hB, -⟩ := h.at_node
  have hlow : ∀ b ∈ blocksOf A, b < curr.rangeLow := by
    intro b hb
    simp only [blocksOf, mem_flatMap, RangeNode.blocks, mem_range'_1] at hb
    obtain ⟨n, hn, hb⟩ := hb
    have := hA n hn
    have := h.range n (mem_append_left _ hn)
    simp only [RangeNode.len] at hb
    omega
  have hhigh : ∀ b ∈ blocksOf (curr :: B), curr.rangeLow ≤ b := by
    intro b hb
    simp only [blocksOf, mem_flatMap, RangeNode.blocks, mem_range'_1] at hb
    obtain ⟨n, hn, hb⟩ := hb
    cases mem_cons.mp hn with
    | inl he => exact he ▸ hb.1
    | inr hn =>
      have := hB n hn
      have := h.range curr (by simp)
      omega
  have h1 : (blocksOf A).filter (curr.rangeLow ≤ ·) = [] := by
    refine filter_eq_nil_iff.mpr fun b hb => ?_
    simpa using hlow b hb
  have h2 : (blocksOf (curr :: B)).filter (curr.rangeLow ≤ ·) = blocksOf (curr :: B) := by
    refine filter_eq_self.mpr fun b hb => ?_
    simpa using hhigh b hb
  have h3 : (blocksOf A).filter (· < curr.rangeLow) = blocksOf A := by
    refine filter_eq_self.mpr fun b hb => ?_
    simpa using hlow b hb
  have h4 : (blocksOf (curr :: B)).filter (· < curr.rangeLow) = [] := by
    refine filter_eq_nil_iff.mpr fun b hb => ?_
    simpa using hhigh b hb
  rw [cyclicFrom, blocksOf_append, filter_append, filter_append, h1, h2, h3, h4,
    nil_append, append_nil]

-- === the run

/-- The sequence still to come: the cursor's node and those behind it,
then those in front. -/
structure Rotates (fl : FreeList) (bound : Nat) (seq : List Nat) : Prop where
  inv : FreeListInv fl bound
  here : seq = [] ∨ ∃ A curr B, fl.nodes = A ++ curr :: B
    ∧ fl.pNode = some curr.addr ∧ seq = blocksOf (curr :: B) ++ blocksOf A

/-- A cursor that is set stays. -/
theorem reseed_of_cursor {p : Nat} (h : FreeListInv fl bound) (hp : fl.pNode = some p) :
    reseed fl = fl := by
  obtain ⟨A, curr, B, hL, -, -⟩ := h.cursor_split hp
  have hfirst := h.first
  rw [hL] at hfirst
  exact if_neg (by simp [hfirst, hp])

/-- A node begins with its lowest block. -/
theorem RangeNode.blocks_eq_cons (n : RangeNode) :
    n.blocks = n.rangeLow :: List.range' (n.rangeLow + 1) (n.len - 1) := by
  rfl

/-- One allocation takes the next block of the sequence. -/
theorem Rotates.step {b : Nat} {seq : List Nat} (h : Rotates fl bound (b :: seq)) :
    ∃ fl', novaAllocBlocksInFreeList rb (reseed fl) .blk4K 1 = (1, b, fl')
      ∧ Rotates fl' bound seq := by
  cases h.here with
  | inl hnil => cases hnil
  | inr hsplit =>
    obtain ⟨A, curr, B, hL, hp, hseq⟩ := hsplit
    rw [blocksOf_cons, curr.blocks_eq_cons] at hseq
    injection hseq with hb hseq
    obtain ⟨fl', heq, hat⟩ := novaAllocBlocksInFreeList_at rb 1 h.inv hL hp
    rw [reseed_of_cursor h.inv hp, heq, hb]
    refine ⟨fl', rfl, hat.inv, ?_⟩
    by_cases hlen : curr.len ≤ 1
    · -- the node is used up, and the cursor goes on to the one behind it
      obtain ⟨hnodes, hcur⟩ := hat.whole hlen
      have hrest : range' (curr.rangeLow + 1) (curr.len - 1) = [] := by
        rw [Nat.sub_eq_zero_of_le hlen]
        rfl
      rw [hrest] at hseq
      cases B with
      | cons m B => exact .inr ⟨A, m, B, hnodes, hcur, hseq⟩
      | nil =>
        -- around the end of the list
        cases A with
        | nil => exact .inl hseq
        | cons a A =>
          refine .inr ⟨[], a, A, ?_, hcur, ?_⟩
          · rw [hnodes, append_nil]
            rfl
          · rw [hseq]
            exact (append_nil _).symm
    obtain ⟨hnodes, hcur⟩ := hat.part (Nat.lt_of_not_le hlen)
    refine .inr ⟨A, _, B, hnodes, hcur, ?_⟩
    rw [hseq]
    refine congrArg (fun l => l ++ blocksOf B ++ blocksOf A) ?_
    have hlen' : curr.len - 1 = RangeNode.len { curr with rangeLow := curr.rangeLow + 1 } := by
      simp only [RangeNode.len] at hlen ⊢
      omega
    rw [hlen']
    rfl

/-- `k` allocations take the first `k`. -/
theorem Rotates.run {k : Nat} {seq : List Nat} (h : Rotates fl bound seq) (hk : k ≤ seq.length) :
    allocSingles rb k fl = (seq.take k).map fun b => (1, b) := by
  induction k generalizing fl seq with
  | zero => rfl
  | succ k ih =>
    cases seq with
    | nil => exact absurd hk (Nat.not_succ_le_zero k)
    | cons b seq =>
      obtain ⟨fl', heq, h'⟩ := h.step rb
      have hrest := ih h' (Nat.le_of_succ_le_succ hk)
      simp only [allocSingles, heq, hrest, take_succ_cons, map_cons]

/-- Next fit rotates: in a well-formed list whose cursor stands on `n`,
the free blocks are listed upwards, and `k` single-block allocations
return one block each, in turn the first `k` of the cyclic sequence that
starts at the lowest block of `n`. -/
theorem next_fit_rotates {n : RangeNode} {k : Nat} (h : FreeListInv fl bound)
    (hn : n ∈ fl.nodes) (hp : fl.pNode = some n.addr) (hk : k ≤ fl.numFreeBlocks) :
    (fl.freeBlocks.Pairwise (· < ·) ∧ ∀ b, b ∈ fl.freeBlocks ↔ Covers fl.nodes b)
      ∧ allocSingles rb k fl
        = ((cyclicFrom n.rangeLow fl.freeBlocks).take k).map fun b => (1, b) := by
  have hsorted : fl.freeBlocks.Pairwise (· < ·) := by
    refine pairwise_flatMap.mpr ⟨fun m _ => pairwise_lt_range', ?_⟩
    refine h.nodesOk.ordered.imp_of_mem fun {a c} ha hc hac => ?_
    intro x hx y hy
    have := h.nodesOk.range a ha
    simp only [RangeNode.blocks, mem_range'_1, RangeNode.len] at hx hy
    omega
  refine ⟨⟨hsorted, mem_blocksOf h.nodesOk⟩, ?_⟩
  obtain ⟨A, B, hL⟩ := append_of_mem hn
  have hseq : cyclicFrom n.rangeLow fl.freeBlocks = blocksOf (n :: B) ++ blocksOf A := by
    rw [FreeList.freeBlocks, hL]
    exact cyclicFrom_split (hL ▸ h.nodesOk)
  have hlen : (cyclicFrom n.rangeLow fl.freeBlocks).length = fl.numFreeBlocks := by
    rw [hseq, h.numFree, hL, length_append, length_blocksOf, length_blocksOf,
      totalBlocks_append, Nat.add_comm]
  exact Rotates.run rb ⟨h, .inr ⟨A, n, B, hL, hp, hseq⟩⟩ (hlen ▸ hk)

/-- A list of two nodes with the cursor on the second. -/
def twoNodes : FreeList :=
  { FreeList.empty with
    blockFreeTree := .ofList [⟨1, 1, 2⟩, ⟨2, 8, 8⟩]
    firstNode := some 1, pNode := some 2, numFreeBlocks := 3, numBlocknode := 2 }

/-- Its list is in order. -/
theorem twoNodes_inv : FreeListInv twoNodes 3 :=
  ⟨⟨by decide, by decide, by decide⟩, by decide, by decide, by decide, by decide, by decide⟩

/-- Three blocks from the second node, around the end. -/
theorem next_fit_rotates_two_nodes :
    FreeListInv twoNodes 3 ∧ twoNodes.pNode = some 2
      ∧ allocSingles (RbLib.spine RangeNode.addr) 3 twoNodes = [(1, 8), (1, 1), (1, 2)] := by
  refine ⟨twoNodes_inv, rfl, ?_⟩
  have hrun := (next_fit_rotates (RbLib.spine RangeNode.addr) twoNodes_inv
    (show (⟨2, 8, 8⟩ : RangeNode) ∈ twoNodes.nodes by decide) rfl (le_refl 3)).2
  rw [hrun]
  decide

end Themis.Balloc
