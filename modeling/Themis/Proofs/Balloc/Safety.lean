/-
Allocator safety over whole runs.

The free lists together, against the ghost set `held` of blocks handed out
and not yet freed. `SafeState` carries the induction: every list meets its
representation invariant, no block is in two lists, and the blocks
`nova_init_blockmap` put in the lists are the disjoint union of the free
and the held ones.

A call touches one list, so both step lemmas go through `SafeState.update`.
Which list a freed run lands in plays no role, so runs that cross a per-CPU
boundary need no case of their own.
-/
import Themis.Proofs.Balloc.FreeList
import Mathlib.Data.Finset.Basic
import Mathlib.Order.Interval.Finset.Nat

namespace Themis.Balloc

open Lib List Option RangeNode

variable (rb : RbLib addr)
variable {b c bound num j : Nat} {fl : FreeList}

-- === frames

/-- The list that a CPU number selects; the shared one is last. -/
def listIndex (s : NovaSbInfo) (cpu : Nat) : Nat := min cpu s.cpus

/-- The list is that of its index. -/
theorem novaGetFreeList_listIndex (s : NovaSbInfo) (cpu : Nat) :
    novaGetFreeList s (listIndex s cpu) = novaGetFreeList s cpu := by
  unfold novaGetFreeList listIndex
  by_cases h : cpu < s.cpus
  · rw [Nat.min_eq_left (le_of_lt h)]
  · rw [Nat.min_eq_right (by omega), if_neg (lt_irrefl _), if_neg h]

/-- Changing a list keeps the number of CPUs. -/
@[simp] theorem setFreeList_cpus (s : NovaSbInfo) (c : Nat) (fl : FreeList) :
    (setFreeList s c fl).cpus = s.cpus := by
  unfold setFreeList
  split <;> rfl

/-- Changing a list keeps the slab. -/
@[simp] theorem setFreeList_nextNode (s : NovaSbInfo) (c : Nat)
    (fl : FreeList) : (setFreeList s c fl).nextNode = s.nextNode := by
  unfold setFreeList
  split <;> rfl

/-- The lists after one was changed. -/
theorem novaGetFreeList_setFreeList (s : NovaSbInfo) (c i : Nat) (fl : FreeList) (hi : i ≤ s.cpus) :
    novaGetFreeList (setFreeList s c fl) i
      = if i = listIndex s c then fl else novaGetFreeList s i := by
  unfold novaGetFreeList setFreeList listIndex
  by_cases hc : c < s.cpus
  · simp only [if_pos hc, Nat.min_eq_left (le_of_lt hc)]
    by_cases hic : i = c
    · simp [hic, hc]
    · simp [hic]
  simp only [if_neg hc, Nat.min_eq_right (Nat.le_of_not_lt hc)]
  by_cases hic : i = s.cpus
  · simp [hic]
  · simp [hic, show i < s.cpus by omega]

-- === the invariant

/-- Some list has the block free. -/
def IsFree (s : NovaSbInfo) (b : Nat) : Prop :=
  ∃ i ≤ s.cpus, Covers (novaGetFreeList s i).nodes b

/-- The allocator's invariant, against the blocks `s₀` started with and
the blocks currently held. -/
structure SafeState (s₀ s : NovaSbInfo) (held : Finset Nat) : Prop where
  lists : ∀ i ≤ s.cpus, FreeListInv (novaGetFreeList s i) s.nextNode
  listsDisjoint : ∀ i ≤ s.cpus, ∀ j ≤ s.cpus, i ≠ j → ∀ b,
    Covers (novaGetFreeList s i).nodes b →
      ¬ Covers (novaGetFreeList s j).nodes b
  conserved : ∀ b, IsFree s₀ b ↔ IsFree s b ∨ b ∈ held
  freeNotHeld : ∀ b, IsFree s b → b ∉ held

variable {s₀ s : NovaSbInfo} {held held' : Finset Nat}

/-- Every list of a safe state is in order. -/
theorem SafeState.list (h : SafeState s₀ s held) (cpu : Nat) :
    FreeListInv (novaGetFreeList s cpu) s.nextNode := by
  rw [← novaGetFreeList_listIndex]
  exact h.lists _ (Nat.min_le_right _ _)

/-- What a list covers is free. -/
theorem isFree_of_covers {cpu : Nat} (h : Covers (novaGetFreeList s cpu).nodes b) : IsFree s b :=
  ⟨listIndex s cpu, Nat.min_le_right _ _, by rwa [novaGetFreeList_listIndex]⟩

/-- What is free after one list was changed. -/
theorem isFree_setFreeList : IsFree (setFreeList s c fl) b ↔ Covers fl.nodes b ∨
      ∃ i ≤ s.cpus, i ≠ listIndex s c ∧ Covers (novaGetFreeList s i).nodes b := by
  constructor
  · rintro ⟨i, hi, hcov⟩
    rw [setFreeList_cpus] at hi
    rw [novaGetFreeList_setFreeList s c i fl hi] at hcov
    by_cases hic : i = listIndex s c
    · rw [if_pos hic] at hcov
      exact .inl hcov
    · rw [if_neg hic] at hcov
      exact .inr ⟨i, hi, hic, hcov⟩
  rintro (hcov | ⟨i, hi, hic, hcov⟩)
  · refine ⟨listIndex s c, ?_, ?_⟩
    · rw [setFreeList_cpus]
      exact Nat.min_le_right _ _
    · rw [novaGetFreeList_setFreeList s c (listIndex s c) fl (Nat.min_le_right _ _), if_pos rfl]
      exact hcov
  refine ⟨i, by rwa [setFreeList_cpus], ?_⟩
  rw [novaGetFreeList_setFreeList s c i fl hi, if_neg hic]
  exact hcov

/-- Replace one list: the invariant survives if the new list is well
formed and block by block its free/held status is still accounted for. -/
theorem SafeState.update (h : SafeState s₀ s held) (hfl : FreeListInv fl s.nextNode)
    (hnew : ∀ b, Covers fl.nodes b → Covers (novaGetFreeList s c).nodes b ∨ b ∈ held)
    (hmoved : ∀ b, (Covers fl.nodes b ∨ b ∈ held') ↔
      (Covers (novaGetFreeList s c).nodes b ∨ b ∈ held))
    (hexcl : ∀ b, Covers fl.nodes b → b ∉ held')
    (hheld : ∀ b, b ∈ held' → Covers (novaGetFreeList s c).nodes b ∨ b ∈ held) :
    SafeState s₀ (setFreeList s c fl) held' := by
  have hc := Nat.min_le_right c s.cpus
  have hget := novaGetFreeList_listIndex s c
  -- a block of list `c`, or a held one, is in no other list
  have hother : ∀ i ≤ s.cpus, i ≠ listIndex s c → ∀ b,
      Covers (novaGetFreeList s c).nodes b ∨ b ∈ held → ¬ Covers (novaGetFreeList s i).nodes b := by
    rintro i hi hic b (hb | hb) hcov
    · rw [← hget] at hb
      exact h.listsDisjoint _ hc i hi (Ne.symm hic) b hb hcov
    · exact h.freeNotHeld b ⟨i, hi, hcov⟩ hb
  refine ⟨?_, ?_, ?_, ?_⟩
  · intro i hi
    rw [setFreeList_cpus] at hi
    rw [novaGetFreeList_setFreeList s c i fl hi, setFreeList_nextNode]
    split
    · exact hfl
    · exact h.lists i hi
  · intro i hi j hj hij b
    rw [setFreeList_cpus] at hi hj
    rw [novaGetFreeList_setFreeList s c i fl hi, novaGetFreeList_setFreeList s c j fl hj]
    by_cases hic : i = listIndex s c
    · have hjc : j ≠ listIndex s c := hic ▸ Ne.symm hij
      rw [if_pos hic, if_neg hjc]
      exact fun hb => hother j hj hjc b (hnew b hb)
    rw [if_neg hic]
    by_cases hjc : j = listIndex s c
    · rw [if_pos hjc]
      exact fun hb hb' => hother i hi hic b (hnew b hb') hb
    · rw [if_neg hjc]
      exact h.listsDisjoint i hi j hj hij b
  · intro b
    rw [h.conserved b, isFree_setFreeList]
    have hm := hmoved b
    constructor
    · rintro (⟨i, hi, hcov⟩ | hb)
      · by_cases hic : i = listIndex s c
        · rw [hic, hget] at hcov
          tauto
        · exact .inl (.inr ⟨i, hi, hic, hcov⟩)
      · tauto
    rintro ((hcov | ⟨i, hi, -, hcov⟩) | hb)
    · have := hm.mp (.inl hcov)
      exact this.imp_left isFree_of_covers
    · exact .inl ⟨i, hi, hcov⟩
    · have := hm.mp (.inr hb)
      exact this.imp_left isFree_of_covers
  intro b hb hmem
  rcases isFree_setFreeList.mp hb with hcov | ⟨i, hi, hic, hcov⟩
  · exact hexcl b hcov hmem
  · exact hother i hi hic b (hheld b hmem) hcov

-- === allocation

/-- The blocks handed out. -/
def NewBlocks.blocks (r : NewBlocks) : Finset Nat :=
  match r.taken with
  | none => ∅
  | some (b, k) => Finset.Ico b (b + k)

/-- A run as an interval. -/
theorem inRun_iff_mem_Ico {k x : Nat} : InRun b k x ↔ x ∈ Finset.Ico b (b + k) := by
  rw [Finset.mem_Ico, InRun]

/-- What a call of `nova_new_blocks` may do: hand out a run of at most
`num` blocks, each of them free before the call, or fail and change
nothing. -/
inductive AllocStep (s : NovaSbInfo) (num : Nat) : NewBlocks → Prop
  | taken (b k : Nat) (s' : NovaSbInfo) (hb : b ≠ 0) (hk : 0 < k)
      (hle : k ≤ num) (hfree : ∀ x, InRun b k x → IsFree s x) :
      AllocStep s num ⟨intOfUlong k, some (b, k), s'⟩
  | failed : AllocStep s num ⟨-ENOSPC, none, s⟩

/-- Counting an allocation touches no node. -/
@[simp] theorem countAlloc_nodes (fl : FreeList) (atype : AllocType)
    (k : Nat) : (countAlloc fl atype k).nodes = fl.nodes := by cases atype <;> rfl

/-- Counting an allocation keeps the invariant. -/
theorem FreeListInv.countAlloc (h : FreeListInv fl bound) (atype : AllocType) (k : Nat) :
    FreeListInv (countAlloc fl atype k) bound := by
  cases atype <;>
    exact ⟨h.nodesOk, h.numFree, h.numNodes, h.first, h.cursor, h.addr_lt⟩

/-- An allocation from a list of a safe state, whatever it takes. -/
theorem newBlocksFrom_safe {k : Nat} {fl' : FreeList} {btype : BlockType} (atype : AllocType)
    (h : SafeState s₀ s held) (hzero : ¬ IsFree s₀ 0) (hfl : FreeListInv fl s.nextNode)
    (hnodes : fl.nodes = (novaGetFreeList s c).nodes)
    (heq : novaAllocBlocksInFreeList rb fl btype num = (k, b, fl')) (hk : 0 < k)
    (htakes : Takes fl.nodes fl'.nodes b k) (hinv : FreeListInv fl' s.nextNode) :
    newBlocksFrom rb s c fl btype num atype = ⟨intOfUlong (k / novaGetNumblocks btype), some (b, k),
            setFreeList s c (countAlloc fl' atype k)⟩ ∧ b ≠ 0 ∧ (∀ x, InRun b k x → IsFree s x)
      ∧ SafeState s₀ (setFreeList s c (countAlloc fl' atype k)) (held ∪ Finset.Ico b (b + k)) := by
  have hcov := fun x => htakes.covers hfl.nodesOk x
  have hrun : ∀ x, InRun b k x → Covers (novaGetFreeList s c).nodes x := by
    intro x hx
    rw [← hnodes]
    exact htakes.run_covered hfl.nodesOk hx
  have hbpos : b ≠ 0 := by
    rintro rfl
    have hfree := isFree_of_covers (hrun 0 ⟨le_rfl, by omega⟩)
    exact hzero ((h.conserved 0).mpr (.inl hfree))
  refine ⟨?_, hbpos, fun x hx => isFree_of_covers (hrun x hx), ?_⟩
  · unfold newBlocksFrom
    simp only [heq, if_neg (show ¬ (k ≤ 0 ∨ b = 0) by omega)]
  have hstat : ∀ x, Covers (Balloc.countAlloc fl' atype k).nodes x
      ↔ Covers (novaGetFreeList s c).nodes x ∧ ¬ InRun b k x := by
    intro x
    rw [countAlloc_nodes, ← hnodes, ← hcov x]
  have hdisj : ∀ x, Covers (novaGetFreeList s c).nodes x → x ∉ held :=
    fun x hx => h.freeNotHeld x (isFree_of_covers hx)
  refine h.update (hinv.countAlloc atype k) ?_ ?_ ?_ ?_
  · intro x hx
    exact .inl ((hstat x).mp hx).1
  · intro x
    rw [hstat x, Finset.mem_union, ← inRun_iff_mem_Ico]
    tauto
  · intro x hx
    rw [Finset.mem_union, ← inRun_iff_mem_Ico]
    have := (hstat x).mp hx
    tauto
  intro x hx
  rw [Finset.mem_union, ← inRun_iff_mem_Ico] at hx
  tauto

/-- An allocation from one list. -/
theorem newBlocksFrom_spec {p : Nat} (atype : AllocType) (h : SafeState s₀ s held)
    (hzero : ¬ IsFree s₀ 0) (hnum : 0 < num) (hfl : FreeListInv fl s.nextNode)
    (hnodes : fl.nodes = (novaGetFreeList s c).nodes) (hp : fl.pNode = some p) :
    AllocStep s num (newBlocksFrom rb s c fl .blk4K num atype)
      ∧ SafeState s₀ (newBlocksFrom rb s c fl .blk4K num atype).sbi
          (held ∪ (newBlocksFrom rb s c fl .blk4K num atype).blocks) := by
  obtain ⟨b, k, fl', heq, hout⟩ := novaAllocBlocksInFreeList_spec rb hfl hnum hp
  obtain ⟨hres, hb, hfree, hsafe⟩ := newBlocksFrom_safe rb atype h hzero hfl hnodes heq
    hout.pos hout.takes hout.inv
  have hdiv : k / novaGetNumblocks .blk4K = k := Nat.div_one k
  rw [hres, hdiv]
  exact ⟨.taken b k _ hb hout.pos hout.le hfree, hsafe⟩

/-- The cursor may be set to the first node. -/
theorem FreeListInv.reset (h : FreeListInv fl bound) {first : Option Nat}
    (hfirst : first = fl.nodes.head?.map addr) :
    FreeListInv { fl with firstNode := first, pNode := first } bound := by
  refine ⟨h.nodesOk, h.numFree, h.numNodes, hfirst, ?_, h.addr_lt⟩
  intro p hp
  obtain ⟨n, hn, rfl⟩ := map_eq_some_iff.mp (hfirst ▸ hp)
  exact List.mem_map_of_mem (mem_of_mem_head? hn)

/-- Where a list has enough, no other is asked. -/
theorem newBlocksRetry_enough (btype : BlockType) (atype : AllocType)
    (hl : FreeListInv (novaGetFreeList s c) s.nextNode) (hnum : 0 < num)
    (hge : num ≤ (novaGetFreeList s c).numFreeBlocks) (retries : Nat) :
    ∃ fl p, FreeListInv fl s.nextNode ∧ fl.nodes = (novaGetFreeList s c).nodes ∧ fl.pNode = some p
      ∧ newBlocksRetry rb s btype num atype retries c
          = newBlocksFrom rb s c fl btype num atype := by
  unfold newBlocksRetry
  by_cases hnull : (novaGetFreeList s c).firstNode = none ∨ (novaGetFreeList s c).pNode = none
  · rw [if_pos (.inr hnull), if_pos hge]
    obtain ⟨n, L, hL⟩ := exists_cons_of_ne_nil
      (hl.nodes_ne_nil (lt_of_lt_of_le hnum hge))
    have hfirst : (novaGetFreeList s c).blockFreeTree.first.map addr
        = (novaGetFreeList s c).nodes.head?.map addr := rfl
    refine ⟨_, n.addr, hl.reset hfirst, rfl, ?_, rfl⟩
    show Option.map _ _ = _
    rw [hfirst, hL]
    rfl
  rw [not_or] at hnull
  obtain ⟨p, hp⟩ := ne_none_iff_exists'.mp hnull.2
  rw [if_neg (by rw [not_or, not_or]; exact ⟨by omega, hnull⟩)]
  exact ⟨_, p, hl, rfl, hp, rfl⟩

/-- What the retry loop comes to: the tail of `nova_new_blocks` on the
first list asked or on the candidate list, whichever has enough blocks
first, or `-ENOSPC` if neither has. -/
theorem newBlocksRetry_cases (btype : BlockType) (atype : AllocType)
    (hl : ∀ c, FreeListInv (novaGetFreeList s c) s.nextNode) (hnum : 0 < num) (retries c : Nat) :
    (newBlocksRetry rb s btype num atype retries c = ⟨-ENOSPC, none, s⟩
        ∧ (novaGetFreeList s c).numFreeBlocks < num
        ∧ (0 < retries → (novaGetFreeList s (novaGetCandidateFreeList s)).numFreeBlocks < num))
      ∨ ∃ c' fl p, (c' = c ∨ c' = novaGetCandidateFreeList s)
        ∧ num ≤ (novaGetFreeList s c').numFreeBlocks
        ∧ FreeListInv fl s.nextNode ∧ fl.nodes = (novaGetFreeList s c').nodes ∧ fl.pNode = some p
        ∧ newBlocksRetry rb s btype num atype retries c
            = newBlocksFrom rb s c' fl btype num atype := by
  by_cases hge : num ≤ (novaGetFreeList s c).numFreeBlocks
  · obtain ⟨fl, p, hfl, hnodes, hp, heq⟩ :=
      newBlocksRetry_enough rb btype atype (hl c) hnum hge retries
    exact .inr ⟨c, fl, p, .inl rfl, hge, hfl, hnodes, hp, heq⟩
  have hlt : (novaGetFreeList s c).numFreeBlocks < num := Nat.lt_of_not_le hge
  induction retries generalizing c with
  | zero =>
    refine .inl ⟨?_, hlt, fun h => absurd h (lt_irrefl 0)⟩
    unfold newBlocksRetry
    rw [if_pos (.inl hlt), if_neg hge]
  | succ retries ih =>
    have heq : newBlocksRetry rb s btype num atype (retries + 1) c
        = newBlocksRetry rb s btype num atype retries
            (novaGetCandidateFreeList s) := by
      rw [newBlocksRetry]
      rw [if_pos (.inl hlt), if_neg hge]
    rw [heq]
    by_cases hcand : num ≤ (novaGetFreeList s (novaGetCandidateFreeList s)).numFreeBlocks
    · obtain ⟨fl, p, hfl, hnodes, hp, heq'⟩ :=
        newBlocksRetry_enough rb btype atype (hl _) hnum hcand retries
      exact .inr ⟨_, fl, p, .inr rfl, hcand, hfl, hnodes, hp, heq'⟩
    cases ih (novaGetCandidateFreeList s) hcand (Nat.lt_of_not_le hcand) with
    | inl hfail => exact .inl ⟨hfail.1, hlt, fun _ => hfail.2.1⟩
    | inr hserved =>
      obtain ⟨c', fl, p, hc', hrest⟩ := hserved
      exact .inr ⟨c', fl, p, .inr (hc'.elim id id), hrest⟩

/-- The retries. -/
theorem newBlocksRetry_spec (atype : AllocType) (h : SafeState s₀ s held) (hzero : ¬ IsFree s₀ 0)
    (hnum : 0 < num) (retries c : Nat) :
    AllocStep s num (newBlocksRetry rb s .blk4K num atype retries c)
      ∧ SafeState s₀ (newBlocksRetry rb s .blk4K num atype retries c).sbi
          (held ∪ (newBlocksRetry rb s .blk4K num atype retries c).blocks) := by
  cases newBlocksRetry_cases rb .blk4K atype h.list hnum retries c with
  | inl hfail =>
    rw [hfail.1]
    refine ⟨.failed, ?_⟩
    show SafeState s₀ s (held ∪ ∅)
    rw [Finset.union_empty]
    exact h
  | inr hserved =>
    obtain ⟨c', fl, p, -, -, hfl, hnodes, hp, heq⟩ := hserved
    rw [heq]
    exact newBlocksFrom_spec rb atype h hzero hnum hfl hnodes hp

/-- `nova_new_blocks` on a safe state. -/
theorem novaNewBlocks_spec (h : SafeState s₀ s held) (hzero : ¬ IsFree s₀ 0) (hnum : 0 < num)
    (cpuid : Nat) (atype : AllocType) : AllocStep s num (novaNewBlocks rb s cpuid num .blk4K atype)
      ∧ SafeState s₀ (novaNewBlocks rb s cpuid num .blk4K atype).sbi
          (held ∪ (novaNewBlocks rb s cpuid num .blk4K atype).blocks) := by
  have hnb : num * novaGetNumblocks .blk4K = num := Nat.mul_one num
  unfold novaNewBlocks
  simp only [hnb, if_neg (Nat.ne_of_gt hnum)]
  exact newBlocksRetry_spec rb atype h hzero hnum 3 cpuid

-- === freeing

/-- The slab may move on. -/
theorem SafeState.nextNode_succ (h : SafeState s₀ s held) :
    SafeState s₀ { s with nextNode := s.nextNode + 1 } held :=
  ⟨fun i hi => (h.lists i hi).mono (Nat.le_succ _), h.listsDisjoint, h.conserved, h.freeNotHeld⟩

/-- `nova_free_blocks` of blocks that are held. -/
theorem novaFreeBlocks_spec {blocknr : Nat} {num : Int} (h : SafeState s₀ s held) (hnum : 0 < num)
    (hrun : Finset.Ico blocknr (blocknr + num.toNat) ⊆ held) (logPage : Bool) :
    (novaFreeBlocks rb s blocknr num .blk4K logPage false).1 = 0
      ∧ SafeState s₀ (novaFreeBlocks rb s blocknr num .blk4K logPage false).2
          (held \ Finset.Ico blocknr (blocknr + num.toNat)) := by
  have hnb : novaGetNumblocks .blk4K * num.toNat = num.toNat := Nat.one_mul _
  obtain ⟨c, hc⟩ : ∃ c, freeCpu s blocknr = c := ⟨_, rfl⟩
  rw [novaFreeBlocks, if_neg (show ¬ num ≤ 0 by omega), hnb, hc]
  clear hc
  simp only [freeOnCpu, novaAllocBlocknode, Bool.false_eq_true, if_false]
  have h' := h.nextNode_succ
  have hl := h'.list c
  have hmem : ∀ x, InRun blocknr num.toNat x → x ∈ held :=
    fun x hx => hrun (inRun_iff_mem_Ico.mp hx)
  have hfresh : s.nextNode ∉ (novaGetFreeList
      { s with nextNode := s.nextNode + 1 } c).nodes.map addr :=
    fun hin => lt_irrefl _ ((h.list c).addr_lt _ hin)
  obtain ⟨fl', heq, hout⟩ := freeInList_spec rb logPage hl
    (show 0 < num.toNat by omega) (Nat.lt_succ_self s.nextNode) hfresh
    (fun x hx hcov => h'.freeNotHeld x (isFree_of_covers hcov) (hmem x hx))
  simp only [heq]
  refine ⟨trivial, ?_⟩
  have hcov := fun x => hout.puts.covers (show 0 < num.toNat by omega)
    hl.nodesOk x
  have hnot : ∀ x, Covers (novaGetFreeList
      { s with nextNode := s.nextNode + 1 } c).nodes x → x ∉ held :=
    fun x hx => h'.freeNotHeld x (isFree_of_covers hx)
  refine h'.update hout.inv ?_ ?_ ?_ ?_
  · intro x hx
    exact ((hcov x).mp hx).imp_right (hmem x)
  · intro x
    rw [hcov x, Finset.mem_sdiff, ← inRun_iff_mem_Ico]
    tauto
  · intro x hx
    rw [Finset.mem_sdiff, ← inRun_iff_mem_Ico]
    have := (hcov x).mp hx
    tauto
  · intro x hx
    exact .inr (Finset.mem_sdiff.mp hx).1

-- === initialisation

/-- The node of CPU `i` after a format. -/
def initNode (per i : Nat) : RangeNode :=
  { addr := i + 1, rangeLow := per * i + (if i = 0 then RESERVED_BLOCKS else 0),
    rangeHigh := per * i + per - 1 }

/-- The loop invariant of `nova_init_blockmap`: the first `j` lists hold
their one node, the others are untouched. -/
structure Built (cpus numBlocks per j : Nat) (s : NovaSbInfo) : Prop where
  cpus_eq : s.cpus = cpus
  numBlocks_eq : s.numBlocks = numBlocks
  reserved : s.reservedBlocks = RESERVED_BLOCKS
  perList : s.perListBlocks = per
  nextNode_eq : s.nextNode = j + 1
  built : ∀ i < j, (s.freeLists i).nodes = [initNode per i]
    ∧ FreeListInv (s.freeLists i) (j + 1)
  later : ∀ i, j ≤ i → s.freeLists i = .empty
  shared : s.sharedFreeList = .empty

/-- An empty list is in order. -/
theorem freeListInv_empty (bound : Nat) : FreeListInv .empty bound := by
  refine ⟨⟨?_, .nil, nodup_nil⟩, rfl, rfl, rfl, ?_, ?_⟩
  · intro n hn
    cases hn
  · intro p hp
    cases hp
  · intro p hp
    cases hp

/-- A list of one node is in order. -/
theorem freeListInv_singleton {n : RangeNode} (hnodes : fl.nodes = [n])
    (hrange : n.rangeLow ≤ n.rangeHigh) (hfree : fl.numFreeBlocks = n.len)
    (hnum : fl.numBlocknode = 1) (hfirst : fl.firstNode = some n.addr) (hp : fl.pNode = some n.addr)
    (hb : n.addr < bound) : FreeListInv fl bound := by
  refine ⟨⟨?_, ?_, ?_⟩, ?_, ?_, ?_, ?_, ?_⟩ <;> rw [hnodes]
  · intro m hm
    rw [mem_singleton.mp hm]
    exact hrange
  · exact pairwise_singleton _ _
  · exact nodup_singleton _
  · rw [hfree]
    rfl
  · exact hnum
  · exact hfirst
  · intro p hp'
    rw [hp] at hp'
    injection hp' with hp'
    simp [hp']
  · intro p hmem
    rw [mem_singleton.mp hmem]
    exact hb

variable {cpus numBlocks per : Nat}

/-- What a format does to one list. -/
theorem novaInitBlockmapList_eq (hempty : novaGetFreeList s j = .empty)
    (hres : s.reservedBlocks = RESERVED_BLOCKS) (hper : RESERVED_BLOCKS < s.perListBlocks) :
    ∃ fl, novaInitBlockmapList rb false s j
        = some (setFreeList { s with nextNode := s.nextNode + 1 } j fl)
      ∧ fl.nodes = [{ initNode s.perListBlocks j with addr := s.nextNode }]
      ∧ fl.numFreeBlocks = (initNode s.perListBlocks j).len
      ∧ fl.numBlocknode = 1 ∧ fl.firstNode = some s.nextNode ∧ fl.pNode = some s.nextNode := by
  have hend : ulongPred (s.perListBlocks * j + s.perListBlocks)
      = s.perListBlocks * j + s.perListBlocks - 1 := ulongPred_of_pos (by omega)
  unfold novaInitBlockmapList
  simp only [hempty, Bool.false_eq_true, if_false, novaAllocBlocknode, getD_some, hend]
  by_cases hj : j = 0
  · simp only [if_pos hj]
    refine ⟨_, rfl, ?_, ?_, rfl, rfl, rfl⟩
    · show (rb.insertColor _).toList = _
      rw [rb.toList_insertColor]
      simp only [initNode, if_pos hj, hres]
      rfl
    simp only [initNode, len, if_pos hj, hres]
    show _ - _ = _
    omega
  simp only [if_neg hj]
  refine ⟨_, rfl, ?_, ?_, rfl, rfl, rfl⟩
  · show (rb.insertColor _).toList = _
    rw [rb.toList_insertColor]
    simp only [initNode, if_neg hj]
    rfl
  · simp only [initNode, len, if_neg hj]
    omega

section

variable (hper : RESERVED_BLOCKS < per)
include hper

/-- A format builds one list after the other. -/
theorem novaInitBlockmapList_spec (h : Built cpus numBlocks per j s) (hj : j < cpus) :
    ∃ s', novaInitBlockmapList rb false s j = some s' ∧ Built cpus numBlocks per (j + 1) s' := by
  have hlt : j < s.cpus := h.cpus_eq ▸ hj
  have hempty : novaGetFreeList s j = .empty := by
    rw [novaGetFreeList, if_pos hlt]
    exact h.later j le_rfl
  obtain ⟨fl, heq, hnodes, hfree, hnum, hfirst, hp⟩ :=
    novaInitBlockmapList_eq rb hempty h.reserved (h.perList ▸ hper)
  rw [h.perList, h.nextNode_eq] at hnodes
  rw [h.perList] at hfree
  rw [h.nextNode_eq] at hfirst hp
  have hfl : FreeListInv fl (j + 1 + 1) := by
    refine freeListInv_singleton hnodes ?_ hfree hnum
      hfirst hp (Nat.lt_succ_self _)
    simp only [initNode]
    split <;> omega
  rw [heq, setFreeList, if_pos hlt]
  refine ⟨_, rfl, h.cpus_eq, h.numBlocks_eq, h.reserved, h.perList, ?_, ?_, ?_, h.shared⟩
  · show s.nextNode + 1 = _
    rw [h.nextNode_eq]
  · intro i hi
    by_cases hij : i = j
    · simp only [if_pos hij]
      exact ⟨hij ▸ hnodes, hfl⟩
    simp only [if_neg hij]
    obtain ⟨hn, hinv⟩ := h.built i (by omega)
    exact ⟨hn, hinv.mono (Nat.le_succ _)⟩
  intro i hi
  simp only [if_neg (show i ≠ j by omega)]
  exact h.later i (by omega)

/-- A format builds all lists. -/
theorem novaInitBlockmapLoop_spec (h : Built cpus numBlocks per 0 s) (hj : j ≤ cpus) :
    ∃ s', (List.range j).foldlM (novaInitBlockmapList rb false) s = some s'
      ∧ Built cpus numBlocks per j s' := by
  induction j with
  | zero => exact ⟨s, rfl, h⟩
  | succ j ih =>
    obtain ⟨s1, hs1, hb1⟩ := ih (by omega)
    obtain ⟨s2, hs2, hb2⟩ := novaInitBlockmapList_spec rb hper hb1 hj
    refine ⟨s2, ?_, hb2⟩
    rw [range_succ, foldlM_append, hs1]
    show (foldlM (novaInitBlockmapList rb false) s1 [j]) = some s2
    simp [hs2]

/-- The blocks of the initial nodes: list `i` gets the `i`-th share of
the device, list 0 without the reserved blocks. -/
theorem initNode_covers {i : Nat} : ((initNode per i).rangeLow ≤ b ∧ b ≤ (initNode per i).rangeHigh)
      ↔ RESERVED_BLOCKS ≤ b ∧ b / per = i := by
  have hpos : 0 < per := lt_of_le_of_lt (Nat.zero_le _) hper
  rw [Nat.div_eq_iff hpos]
  simp only [initNode]
  by_cases hi : i = 0
  · subst hi
    simp only [if_pos, Nat.mul_zero, Nat.zero_mul]
    omega
  rw [if_neg hi, Nat.mul_comm per i]
  have : per ≤ i * per := Nat.le_mul_of_pos_left per (Nat.pos_of_ne_zero hi)
  omega

/-- The lists of a format are safe, and this is free. -/
theorem Built.safe (h : Built cpus numBlocks per cpus s) :
    SafeState s s ∅ ∧ ∀ b, IsFree s b ↔ RESERVED_BLOCKS ≤ b ∧ b / per < cpus := by
  have hget : ∀ i ≤ s.cpus, FreeListInv (novaGetFreeList s i) s.nextNode
      ∧ ∀ b, Covers (novaGetFreeList s i).nodes b
          ↔ i < cpus ∧ RESERVED_BLOCKS ≤ b ∧ b / per = i := by
    intro i hi
    rw [novaGetFreeList, h.cpus_eq, h.nextNode_eq]
    by_cases hlt : i < cpus
    · obtain ⟨hnodes, hinv⟩ := h.built i hlt
      rw [if_pos hlt, hnodes]
      refine ⟨hinv, fun b => ?_⟩
      rw [covers_cons, initNode_covers hper]
      simp [hlt]
    rw [if_neg hlt, h.shared]
    refine ⟨freeListInv_empty _, fun b => ?_⟩
    simp [hlt, FreeList.nodes, FreeList.empty]
  refine ⟨⟨fun i hi => (hget i hi).1, ?_, ?_, ?_⟩, ?_⟩
  · intro i hi j hj hij b hb hb'
    have h1 := ((hget i hi).2 b).mp hb
    have h2 := ((hget j hj).2 b).mp hb'
    exact hij (h1.2.2.symm.trans h2.2.2)
  · simp
  · simp
  intro b
  constructor
  · rintro ⟨i, hi, hb⟩
    obtain ⟨hlt, hres, hdiv⟩ := ((hget i hi).2 b).mp hb
    exact ⟨hres, hdiv ▸ hlt⟩
  rintro ⟨hres, hdiv⟩
  have hi : b / per ≤ s.cpus := h.cpus_eq ▸ le_of_lt hdiv
  exact ⟨b / per, hi, ((hget _ hi).2 b).mpr ⟨hdiv, hres, rfl⟩⟩

end

/-- The range of the shared list does not matter. -/
theorem SafeState.sharedRange (h : SafeState s s ∅) (lo hi : Nat) :
    let s' := { s with sharedFreeList :=
      { s.sharedFreeList with blockStart := lo, blockEnd := hi } }
    SafeState s' s' ∅ ∧ ∀ b, IsFree s' b ↔ IsFree s b := by
  intro s'
  have hnodes : ∀ i, (novaGetFreeList s' i).nodes = (novaGetFreeList s i).nodes := by
    intro i
    unfold novaGetFreeList
    split <;> rfl
  have hfree : ∀ b, IsFree s' b ↔ IsFree s b := by
    intro b
    simp only [IsFree, hnodes]
    rfl
  refine ⟨⟨?_, ?_, by simp, by simp⟩, hfree⟩
  · intro i hi'
    have hl := h.lists i hi'
    unfold novaGetFreeList at hl ⊢
    split at hl
    · next hlt =>
      rw [if_pos hlt]
      exact hl
    next hlt =>
    rw [if_neg hlt]
    exact ⟨hl.nodesOk, hl.numFree, hl.numNodes, hl.first, hl.cursor, hl.addr_lt⟩
  intro i hi' j hj hij b
  rw [hnodes, hnodes]
  exact h.listsDisjoint i hi' j hj hij b

/-- A format ends with all lists built. -/
theorem novaInitBlockmap_built (hper : RESERVED_BLOCKS < numBlocks / cpus) :
    ∃ s1 lo hi, Built cpus numBlocks (numBlocks / cpus) cpus s1
      ∧ novaInitBlockmap rb (mountSbInfo cpus numBlocks) false = some { s1 with sharedFreeList :=
            { s1.sharedFreeList with blockStart := lo, blockEnd := hi } } := by
  have hstart : Built cpus numBlocks (numBlocks / cpus) 0
      { mountSbInfo cpus numBlocks with perListBlocks := numBlocks / cpus } :=
    ⟨rfl, rfl, rfl, rfl, rfl, fun i hi => absurd hi (Nat.not_lt_zero i), fun _ _ => rfl, rfl⟩
  obtain ⟨s1, hloop, hb⟩ := novaInitBlockmapLoop_spec rb hper hstart (le_refl cpus)
  unfold novaInitBlockmap
  simp only [mountSbInfo] at hloop ⊢
  rw [hloop]
  simp only [bind_eq_bind, bind_some]
  split
  · exact ⟨s1, _, _, hb, rfl⟩
  · exact ⟨s1, s1.sharedFreeList.blockStart, s1.sharedFreeList.blockEnd, hb, rfl⟩

/-- A format ends in a safe state. -/
theorem novaInitBlockmap_spec (hper : RESERVED_BLOCKS < numBlocks / cpus) :
    ∃ s₀, novaInitBlockmap rb (mountSbInfo cpus numBlocks) false = some s₀ ∧ SafeState s₀ s₀ ∅
      ∧ ∀ b, IsFree s₀ b ↔ RESERVED_BLOCKS ≤ b ∧ b / (numBlocks / cpus) < cpus := by
  obtain ⟨s1, lo, hi, hb, heq⟩ := novaInitBlockmap_built rb hper
  obtain ⟨hsafe, hfree⟩ := hb.safe hper
  obtain ⟨hsafe', hfree'⟩ := hsafe.sharedRange lo hi
  exact ⟨_, heq, hsafe', fun b => (hfree' b).trans (hfree b)⟩

-- === runs

/-- The states a run reaches from `s₀`, with the blocks held there:
allocations of any size on any CPU, and frees of any contiguous run of
held blocks, whichever allocations it came from. -/
inductive Reach (s₀ : NovaSbInfo) : NovaSbInfo → Finset Nat → Prop
  | start : Reach s₀ s₀ ∅
  | alloc {s : NovaSbInfo} {held : Finset Nat} (cpuid num : Nat)
      (atype : AllocType) (h : Reach s₀ s held) (hnum : 1 ≤ num) :
      Reach s₀ (novaNewBlocks rb s cpuid num .blk4K atype).sbi
        (held ∪ (novaNewBlocks rb s cpuid num .blk4K atype).blocks)
  | free {s : NovaSbInfo} {held : Finset Nat} (blocknr : Nat) (num : Int)
      (logPage : Bool) (h : Reach s₀ s held) (hnum : 0 < num)
      (hrun : Finset.Ico blocknr (blocknr + num.toNat) ⊆ held) :
      Reach s₀ (novaFreeBlocks rb s blocknr num .blk4K logPage false).2
        (held \ Finset.Ico blocknr (blocknr + num.toNat))

/-- Every state in reach is safe. -/
theorem Reach.safe (hstart : SafeState s₀ s₀ ∅) (hzero : ¬ IsFree s₀ 0)
    (h : Reach rb s₀ s held) : SafeState s₀ s held := by
  induction h with
  | start => exact hstart
  | alloc cpuid num atype _ hnum ih => exact (novaNewBlocks_spec rb ih hzero hnum cpuid atype).2
  | free blocknr num logPage _ hnum hrun ih => exact (novaFreeBlocks_spec rb ih hnum hrun logPage).2

/-- What the caller of `nova_new_blocks` gets in a state with the blocks
`held` handed out: a non-empty run of at most `num` blocks that were free
and that nobody holds, or `-ENOSPC` and an unchanged allocator. -/
structure AllocSafe (s : NovaSbInfo) (held : Finset Nat) (num : Nat)
    (r : NewBlocks) : Prop where
  onFailure : r.taken = none → r.ret = -ENOSPC ∧ r.sbi = s
  nonEmpty : ∀ b k, r.taken = some (b, k) → 0 < k ∧ k ≤ num
  returned : ∀ b k, r.taken = some (b, k) → num ≤ INT_MAX → r.ret = k
  wasFree : ∀ x ∈ r.blocks, IsFree s x
  notHeld : ∀ x ∈ r.blocks, x ∉ held
  notFree : ∀ x ∈ r.blocks, ¬ IsFree r.sbi x

/-- An allocation that keeps the state safe. -/
theorem AllocStep.safe {r : NewBlocks} (h : SafeState s₀ s held) (hstep : AllocStep s num r)
    (h' : SafeState s₀ r.sbi (held ∪ r.blocks)) : AllocSafe s held num r := by
  have hgone : ∀ x ∈ r.blocks, ¬ IsFree r.sbi x := fun x hx hfree =>
    h'.freeNotHeld x hfree (Finset.mem_union_right _ hx)
  cases hstep with
  | taken b k s' hb hk hle hfree =>
    have hwas : ∀ x ∈ Finset.Ico b (b + k), IsFree s x :=
      fun x hx => hfree x (inRun_iff_mem_Ico.mpr hx)
    refine ⟨fun hn => ?_, ?_, ?_, hwas, ?_, hgone⟩
    · cases hn
    · intro b' k' hr
      cases hr
      exact ⟨hk, hle⟩
    · intro b' k' hr
      cases hr
      intro hmax
      have hk := intOfUlong_of_le (le_trans hle hmax)
      dsimp only
      exact hk
    · exact fun x hx => h.freeNotHeld x (hwas x hx)
  | failed =>
    refine ⟨fun _ => ⟨rfl, rfl⟩, ?_, ?_, ?_, ?_, hgone⟩
    · intro b k hr
      cases hr
    · intro b k hr
      cases hr
    · intro x hx
      cases hx
    · intro x hx
      cases hx

/-- Allocator safety: mounted with more blocks per CPU than are
reserved, every reachable state keeps the lists' invariants and accounts
for every block; every allocation hands out blocks that were free and
held by nobody, and every free of held blocks succeeds. -/
theorem allocator_safe (cpus numBlocks : Nat) (hper : RESERVED_BLOCKS < numBlocks / cpus) :
    ∃ s₀, novaInitBlockmap rb (mountSbInfo cpus numBlocks) false = some s₀
      ∧ ∀ s held, Reach rb s₀ s held → SafeState s₀ s held
        ∧ (∀ cpuid num atype, 1 ≤ num →
            AllocSafe s held num (novaNewBlocks rb s cpuid num .blk4K atype))
        ∧ (∀ blocknr num logPage, 0 < num → Finset.Ico blocknr (blocknr + num.toNat) ⊆ held →
            (novaFreeBlocks rb s blocknr num .blk4K logPage false).1 = 0) := by
  obtain ⟨s₀, hinit, hstart, hfree⟩ := novaInitBlockmap_spec rb hper
  have hzero : ¬ IsFree s₀ 0 := fun h0 =>
    absurd ((hfree 0).mp h0).1 (by decide)
  refine ⟨s₀, hinit, fun s held hreach => ?_⟩
  have hsafe := hreach.safe rb hstart hzero
  refine ⟨hsafe, ?_, ?_⟩
  · intro cpuid num atype hnum
    obtain ⟨hstep, h'⟩ := novaNewBlocks_spec rb hsafe hzero hnum cpuid atype
    exact hstep.safe hsafe h'
  · intro blocknr num logPage hnum hrun
    exact (novaFreeBlocks_spec rb hsafe hnum hrun logPage).1

/-- Two CPUs sharing ten blocks. -/
theorem allocator_safe_ten_blocks :
    let rb := RbLib.spine addr
    RESERVED_BLOCKS < 10 / 2 ∧ ∃ s₀, novaInitBlockmap rb (mountSbInfo 2 10) false = some s₀
        ∧ ∀ s held, Reach rb s₀ s held → SafeState s₀ s held := by
  intro rb
  refine ⟨by decide, ?_⟩
  obtain ⟨s₀, hinit, hrun⟩ := allocator_safe rb 2 10 (by decide)
  exact ⟨s₀, hinit, fun s held hreach => (hrun s held hreach).1⟩

end Themis.Balloc
