/-
Superpages: allocations of 2M and 1G blocks, which must come out of one
node.

The loop of `nova_alloc_blocks_in_free_list` skips nodes that are too
small, from the cursor to the end of the list, and does not come back to
the nodes in front of the cursor. A request is therefore served exactly
if a node at or behind the cursor is large enough
(`superpage_complete_iff`), which depends on the calls before it.

Either way the invariant of the allocator is kept
(`novaNewBlocks_safe`), so runs may mix the block types (`Runs`).
-/
import Themis.Proofs.Balloc.Safety

namespace Themis.Balloc

open Lib List

variable (rb : RbLib RangeNode.addr) {fl : FreeList} {bound num : Nat}
  {btype : BlockType}
variable {rest : List RangeNode} {c : Nat}

-- === the loop

/-- The nodes the loop looks at. -/
def FreeList.fromCursor (fl : FreeList) : List RangeNode :=
  match fl.pNode with
  | some p => fl.blockFreeTree.fromPtr RangeNode.addr p
  | none => []

/-- The cursor cuts the list. -/
theorem FreeListInv.fromCursor_suffix (h : FreeListInv fl bound) :
    ∃ A, fl.nodes = A ++ fl.fromCursor := by
  unfold FreeList.fromCursor
  cases hp : fl.pNode with
  | none => exact ⟨fl.nodes, (append_nil _).symm⟩
  | some p =>
    obtain ⟨A, curr, B, hL, -, hfrom⟩ := h.cursor_split hp
    exact ⟨A, by rw [hL]; exact congrArg (A ++ ·) hfrom.symm⟩

/-- An allocation is the loop from the cursor on. -/
theorem novaAllocBlocksInFreeList_eq (fl : FreeList) (btype : BlockType) (num : Nat) :
    novaAllocBlocksInFreeList rb fl btype num = match allocFrom rb fl btype num fl.fromCursor with
      | none => (ulongOfInt (-ENOSPC), 0, fl)
      | some (taken, newBlocknr, fl) =>
        (taken, newBlocknr, { fl with numFreeBlocks := fl.numFreeBlocks - taken }) := rfl

/-- A node that is too small is passed over. -/
theorem allocFrom_skip {curr : RangeNode} (hb : btype ≠ .blk4K) (hlt : curr.len < num) :
    allocFrom rb fl btype num (curr :: rest) = allocFrom rb fl btype num rest := by
  have hge : num ≥ curr.rangeHigh - curr.rangeLow + 1 := le_of_lt hlt
  rw [allocFrom]
  rw [if_pos hge, if_pos ⟨hb, hlt⟩]

/-- No node is large enough. -/
theorem allocFrom_missed (hb : btype ≠ .blk4K) (hsmall : ∀ n ∈ rest, n.len < num) :
    allocFrom rb fl btype num rest = none := by
  induction rest with
  | nil => rfl
  | cons curr rest ih =>
    rw [allocFrom_skip rb hb (hsmall curr (by simp))]
    exact ih fun n hn => hsmall n (mem_cons_of_mem _ hn)

/-- Some node is large enough. -/
theorem allocFrom_found {A : List RangeNode} (h : FreeListInv fl bound) (hb : btype ≠ .blk4K)
    (hL : fl.nodes = A ++ rest) (hfit : ∃ n ∈ rest, num ≤ n.len) :
    ∃ b fl1, allocFrom rb fl btype num rest = some (num, b, fl1) ∧ Takes fl.nodes fl1.nodes b num
      ∧ FreeListInv { fl1 with numFreeBlocks := fl1.numFreeBlocks - num } bound := by
  induction rest generalizing A with
  | nil =>
    obtain ⟨n, hn, -⟩ := hfit
    cases hn
  | cons curr rest ih =>
    by_cases hcurr : num ≤ curr.len
    · obtain ⟨fl1, heq, hat⟩ := allocFrom_at rb btype num h hL fun _ => hcurr
      rw [Nat.min_eq_left hcurr] at heq hat
      have htakes := hat.takes
      rw [Nat.min_eq_left hcurr] at htakes
      exact ⟨curr.rangeLow, fl1, heq, htakes, hat.inv⟩
    rw [allocFrom_skip rb hb (Nat.lt_of_not_le hcurr)]
    refine ih (by rw [hL, append_cons]) ?_
    obtain ⟨n, hn, hlen⟩ := hfit
    cases mem_cons.mp hn with
    | inl he => exact absurd (he ▸ hlen) hcurr
    | inr hn => exact ⟨n, hn, hlen⟩

/-- An allocation that finds no large node. -/
theorem novaAllocBlocksInFreeList_missed (hb : btype ≠ .blk4K)
    (hsmall : ∀ n ∈ fl.fromCursor, n.len < num) :
    novaAllocBlocksInFreeList rb fl btype num = (ulongOfInt (-ENOSPC), 0, fl) := by
  rw [novaAllocBlocksInFreeList_eq, allocFrom_missed rb hb hsmall]

/-- An allocation that finds one. -/
theorem novaAllocBlocksInFreeList_found (h : FreeListInv fl bound)
    (hb : btype ≠ .blk4K) (hfit : ∃ n ∈ fl.fromCursor, num ≤ n.len) :
    ∃ b fl', novaAllocBlocksInFreeList rb fl btype num = (num, b, fl')
      ∧ Takes fl.nodes fl'.nodes b num ∧ FreeListInv fl' bound := by
  obtain ⟨A, hL⟩ := h.fromCursor_suffix
  obtain ⟨b, fl1, heq, htakes, hinv⟩ := allocFrom_found rb h hb hL hfit
  rw [novaAllocBlocksInFreeList_eq, heq]
  exact ⟨b, _, rfl, htakes, hinv⟩

-- === completeness

/-- What a superpage allocation owes its caller: `num` blocks out of one
node if some node has them, and an untouched list if none has. -/
structure SuperpageComplete (fl : FreeList) (btype : BlockType) (num : Nat) : Prop where
  served : (∃ n ∈ fl.nodes, num ≤ n.len) →
    ∃ b fl', novaAllocBlocksInFreeList rb fl btype num = (num, b, fl')
      ∧ Takes fl.nodes fl'.nodes b num
      ∧ fl'.numFreeBlocks + num = fl.numFreeBlocks
  refused : (∀ n ∈ fl.nodes, n.len < num) →
    novaAllocBlocksInFreeList rb fl btype num = (ulongOfInt (-ENOSPC), 0, fl)

/-- Taking something changes the list. -/
theorem Takes.not_refl {L : List RangeNode} {b k : Nat} (h : NodesOk L) (hk : 0 < k) :
    ¬ Takes L L b k := by
  intro ht
  have := ht.total h
  omega

/-- In a well-formed list a superpage allocation is complete exactly if
no node is large enough, or one at or behind the cursor is. -/
theorem superpageComplete_of_inv (h : FreeListInv fl bound) (hb : btype ≠ .blk4K) :
    SuperpageComplete rb fl btype num ↔
      (∀ n ∈ fl.nodes, n.len < num) ∨ ∃ n ∈ fl.fromCursor, num ≤ n.len := by
  obtain ⟨A, hL⟩ := h.fromCursor_suffix
  constructor
  · intro hc
    by_contra hnot
    rw [not_or] at hnot
    obtain ⟨hsome, hnone⟩ := hnot
    have hsmall : ∀ n ∈ fl.fromCursor, n.len < num := fun n hn =>
      Nat.lt_of_not_le fun hle => hnone ⟨n, hn, hle⟩
    have hbig : ∃ n ∈ fl.nodes, num ≤ n.len := by
      by_contra hno
      exact hsome fun n hn => Nat.lt_of_not_le fun hle => hno ⟨n, hn, hle⟩
    obtain ⟨b, fl', heq, htakes, -⟩ := hc.served hbig
    rw [novaAllocBlocksInFreeList_missed rb hb hsmall] at heq
    injection heq with hnum heq
    injection heq with _ hfl
    rw [← hfl] at htakes
    refine Takes.not_refl h.nodesOk ?_ htakes
    rw [← hnum]
    decide
  intro hcase
  cases hcase with
  | inl hsmall =>
    refine ⟨fun hbig => ?_, fun _ => ?_⟩
    · obtain ⟨n, hn, hle⟩ := hbig
      exact absurd hle (not_le.mpr (hsmall n hn))
    refine novaAllocBlocksInFreeList_missed rb hb fun n hn => hsmall n ?_
    rw [hL]
    exact mem_append_right A hn
  | inr hfit =>
    obtain ⟨b, fl', heq, htakes, hinv⟩ := novaAllocBlocksInFreeList_found rb h hb hfit
    refine ⟨fun _ => ⟨b, fl', heq, htakes, ?_⟩, fun hsmall => ?_⟩
    · rw [hinv.numFree, h.numFree]
      exact (htakes.total h.nodesOk).symm
    obtain ⟨n, hn, hle⟩ := hfit
    refine absurd hle (not_le.mpr (hsmall n ?_))
    rw [hL]
    exact mem_append_right A hn

-- === runs of all types

variable {s₀ s : NovaSbInfo} {held : Finset Nat}

/-- The same nodes, with another cursor. -/
theorem SafeState.same_nodes (h : SafeState s₀ s held) (hfl : FreeListInv fl s.nextNode)
    (hnodes : fl.nodes = (novaGetFreeList s c).nodes) : SafeState s₀ (setFreeList s c fl) held := by
  refine h.update hfl ?_ ?_ ?_ ?_
  · intro b hb
    exact .inl (hnodes ▸ hb)
  · intro b
    rw [hnodes]
  · intro b hb
    exact h.freeNotHeld b (isFree_of_covers (hnodes ▸ hb))
  · intro b hb
    exact .inr hb

/-- A superpage from one list. -/
theorem newBlocksFrom_superpage (atype : AllocType) (h : SafeState s₀ s held)
    (hzero : ¬ IsFree s₀ 0) (hb : btype ≠ .blk4K) (hnum : 0 < num) (hfl : FreeListInv fl s.nextNode)
    (hnodes : fl.nodes = (novaGetFreeList s c).nodes) :
    SafeState s₀ (newBlocksFrom rb s c fl btype num atype).sbi
      (held ∪ (newBlocksFrom rb s c fl btype num atype).blocks) := by
  by_cases hfit : ∃ n ∈ fl.fromCursor, num ≤ n.len
  · obtain ⟨b, fl', heq, htakes, hinv⟩ := novaAllocBlocksInFreeList_found rb hfl hb hfit
    obtain ⟨hres, -, -, hsafe⟩ := newBlocksFrom_safe rb atype h hzero hfl hnodes heq
      hnum htakes hinv
    rw [hres]
    exact hsafe
  have hsmall : ∀ n ∈ fl.fromCursor, n.len < num := fun n hn =>
    Nat.lt_of_not_le fun hle => hfit ⟨n, hn, hle⟩
  -- only the statistics move, by the error code taken for a count
  have hres : newBlocksFrom rb s c fl btype num atype = ⟨-ENOSPC, none,
      setFreeList s c (countAlloc fl atype (ulongOfInt (-ENOSPC)))⟩ := by
    unfold newBlocksFrom
    simp only [novaAllocBlocksInFreeList_missed rb hb hsmall, or_true, if_true]
  rw [hres]
  show SafeState s₀ (setFreeList s c _) (held ∪ ∅)
  rw [Finset.union_empty]
  exact h.same_nodes (hfl.countAlloc atype _) (by rw [countAlloc_nodes, hnodes])

/-- A superpage, with retries. -/
theorem newBlocksRetry_superpage (atype : AllocType)
    (h : SafeState s₀ s held) (hzero : ¬ IsFree s₀ 0) (hb : btype ≠ .blk4K)
    (hnum : 0 < num) (retries c : Nat) :
    SafeState s₀ (newBlocksRetry rb s btype num atype retries c).sbi
      (held ∪ (newBlocksRetry rb s btype num atype retries c).blocks) := by
  cases newBlocksRetry_cases rb btype atype h.list hnum retries c with
  | inl hfail =>
    rw [hfail.1]
    show SafeState s₀ s (held ∪ ∅)
    rw [Finset.union_empty]
    exact h
  | inr hserved =>
    obtain ⟨c', fl, p, -, -, hfl, hnodes, -, heq⟩ := hserved
    rw [heq]
    exact newBlocksFrom_superpage rb atype h hzero hb hnum hfl hnodes

/-- A page of any type has blocks. -/
theorem novaGetNumblocks_pos (btype : BlockType) : 0 < novaGetNumblocks btype := by
  cases btype <;> exact Nat.succ_pos _

/-- `nova_new_blocks` of any type keeps the state safe. -/
theorem novaNewBlocks_safe {n : Nat} (h : SafeState s₀ s held)
    (hzero : ¬ IsFree s₀ 0) (hn : 0 < n) (cpuid : Nat) (btype : BlockType) (atype : AllocType) :
    SafeState s₀ (novaNewBlocks rb s cpuid n btype atype).sbi
      (held ∪ (novaNewBlocks rb s cpuid n btype atype).blocks) := by
  by_cases hb : btype = .blk4K
  · rw [hb]
    exact (novaNewBlocks_spec rb h hzero hn cpuid atype).2
  have hpos : 0 < n * novaGetNumblocks btype := Nat.mul_pos hn (novaGetNumblocks_pos btype)
  unfold novaNewBlocks
  simp only [if_neg (Nat.ne_of_gt hpos)]
  exact newBlocksRetry_superpage rb atype h hzero hb hpos 3 cpuid

/-- The states a run reaches from `s₀`, with the blocks held there:
allocations of blocks of any type, and frees of any run of held blocks,
of one 4K block or more. -/
inductive Runs (s₀ : NovaSbInfo) : NovaSbInfo → Finset Nat → Prop
  | start : Runs s₀ s₀ ∅
  | alloc {s : NovaSbInfo} {held : Finset Nat} (cpuid num : Nat)
      (btype : BlockType) (atype : AllocType) (h : Runs s₀ s held) (hnum : 1 ≤ num) :
      Runs s₀ (novaNewBlocks rb s cpuid num btype atype).sbi
        (held ∪ (novaNewBlocks rb s cpuid num btype atype).blocks)
  | free {s : NovaSbInfo} {held : Finset Nat} (blocknr : Nat) (num : Int)
      (logPage : Bool) (h : Runs s₀ s held) (hnum : 0 < num)
      (hrun : Finset.Ico blocknr (blocknr + num.toNat) ⊆ held) :
      Runs s₀ (novaFreeBlocks rb s blocknr num .blk4K logPage false).2
        (held \ Finset.Ico blocknr (blocknr + num.toNat))

/-- Every state of a run is safe. -/
theorem Runs.safe (hstart : SafeState s₀ s₀ ∅) (hzero : ¬ IsFree s₀ 0)
    (h : Runs rb s₀ s held) : SafeState s₀ s held := by
  induction h with
  | start => exact hstart
  | alloc cpuid num btype atype _ hnum ih =>
    exact novaNewBlocks_safe rb ih hzero hnum cpuid btype atype
  | free blocknr num logPage _ hnum hrun ih => exact (novaFreeBlocks_spec rb ih hnum hrun logPage).2

/-- Superpage allocation in every state a run reaches: on any of its
lists it is complete exactly if no node is large enough, or one at or
behind the cursor is. -/
theorem superpage_complete_iff (hstart : SafeState s₀ s₀ ∅) (hzero : ¬ IsFree s₀ 0)
    (hrun : Runs rb s₀ s held) (cpu : Nat) (hb : btype ≠ .blk4K) :
    SuperpageComplete rb (novaGetFreeList s cpu) btype num ↔
      (∀ n ∈ (novaGetFreeList s cpu).nodes, n.len < num)
        ∨ ∃ n ∈ (novaGetFreeList s cpu).fromCursor, num ≤ n.len :=
  superpageComplete_of_inv rb ((hrun.safe rb hstart hzero).list cpu) hb

/-- A fresh list of 1997 blocks serves a 2M request. -/
theorem superpage_complete_iff_fresh :
    let rb := RbLib.spine RangeNode.addr
    ∃ s₀, novaInitBlockmap rb (mountSbInfo 1 2000) false = some s₀
      ∧ SuperpageComplete rb (novaGetFreeList s₀ 0) .blk2M 512 := by
  intro rb
  obtain ⟨s₀, hinit, hstart, hfree⟩ := novaInitBlockmap_spec rb
    (show RESERVED_BLOCKS < 2000 / 1 by decide)
  have hzero : ¬ IsFree s₀ 0 := fun h0 => absurd ((hfree 0).mp h0).1 (by decide)
  refine ⟨s₀, hinit, (superpage_complete_iff rb hstart hzero .start 0
    (show BlockType.blk2M ≠ .blk4K by decide)).mpr (.inr ⟨⟨1, 3, 1999⟩, ?_, ?_⟩)⟩
  · have hs : some s₀ = novaInitBlockmap rb (mountSbInfo 1 2000) false := hinit.symm
    injection hs with hs
    rw [hs]
    exact mem_singleton.mpr rfl
  · exact (by decide : 512 ≤ 1997)

/-- 2000 blocks on one CPU: 600 blocks are allocated, then 600 more, the
first 600 are freed again and 400 more are allocated. -/
def behindCursor : NovaSbInfo :=
  let rb := RbLib.spine RangeNode.addr
  let s₀ := (novaInitBlockmap rb (mountSbInfo 1 2000) false).getD (mountSbInfo 1 2000)
  let s₁ := (novaNewBlocks rb s₀ 0 600 .blk4K .data).sbi
  let s₂ := (novaNewBlocks rb s₁ 0 600 .blk4K .data).sbi
  let s₃ := (novaFreeBlocks rb s₂ 3 600 .blk4K false false).2
  (novaNewBlocks rb s₃ 0 400 .blk4K .data).sbi

/-- The node of 600 blocks lies in front of the cursor, which stands on
one of 397: a 2M request fails although 512 blocks in a row are free. -/
theorem superpage_in_front_of_cursor :
    let rb := RbLib.spine RangeNode.addr
    (∃ s₀ held, novaInitBlockmap rb (mountSbInfo 1 2000) false = some s₀
      ∧ Runs rb s₀ behindCursor held)
      ∧ (novaGetFreeList behindCursor 0).nodes = [⟨2, 3, 602⟩, ⟨1, 1603, 1999⟩]
      ∧ (novaAllocBlocksInFreeList rb (novaGetFreeList behindCursor 0) .blk2M 512).1
          = ulongOfInt (-ENOSPC)
      ∧ (novaNewBlocks rb behindCursor 0 1 .blk2M .data).ret = -ENOSPC := by
  intro rb
  refine ⟨?_, rfl, rfl, rfl⟩
  refine ⟨_, _, rfl, .alloc 0 400 .blk4K .data (.free 3 600 false
    (.alloc 0 600 .blk4K .data (.alloc 0 600 .blk4K .data .start (by decide)) (by decide))
    (by decide) ?_) (by decide)⟩
  intro b hb
  exact Finset.mem_union_left _ (Finset.mem_union_right _ hb)

end Themis.Balloc
