/-
When `nova_new_blocks` runs out of space.

A request goes to the list of the calling CPU and then, up to three
times, to the list `nova_get_candidate_free_list` picks. That list is a
fullest one as long as the counts fit an `int` (`candidate_fullest`), so
the request fails only if no per-CPU list has enough blocks
(`new_blocks_complete`).
-/
import Themis.Proofs.Balloc.Superpage

namespace Themis.Balloc

open Lib

variable (rb : RbLib RangeNode.addr) {s₀ s : NovaSbInfo} {held : Finset Nat}

-- === the candidate

/-- What fits an `int` comes back. -/
theorem ulongOfInt_intOfUlong {x : Nat} (h : x ≤ INT_MAX) : ulongOfInt (intOfUlong x) = x := by
  rw [intOfUlong_of_le h, ulongOfInt]
  unfold INT_MAX at h
  omega

/-- The running maximum after the first `j` lists: the list it names has
the largest count so far. -/
structure Fullest (s : NovaSbInfo) (j : Nat) (acc : Nat × Int) : Prop where
  value : ulongOfInt acc.2 = (novaGetFreeList s acc.1).numFreeBlocks ∨ acc = (0, 0)
  bound : acc.1 < s.cpus
  largest : ∀ i < j, (novaGetFreeList s i).numFreeBlocks ≤ ulongOfInt acc.2

/-- The fullest list so far. -/
theorem fullest_foldl (hcpus : 0 < s.cpus)
    (hcount : ∀ i < s.cpus, (novaGetFreeList s i).numFreeBlocks ≤ INT_MAX) {j : Nat}
    (hj : j ≤ s.cpus) : Fullest s j ((List.range j).foldl (fun (acc : Nat × Int) i =>
      let fl := novaGetFreeList s i
      if fl.numFreeBlocks > ulongOfInt acc.2 then (i, intOfUlong fl.numFreeBlocks)
      else acc) (0, 0)) := by
  induction j with
  | zero => exact ⟨.inr rfl, hcpus, fun i hi => absurd hi (Nat.not_lt_zero i)⟩
  | succ j ih =>
    have hacc := ih (Nat.le_of_succ_le hj)
    have hconv := ulongOfInt_intOfUlong (hcount j hj)
    rw [List.range_succ, List.foldl_append, List.foldl_cons, List.foldl_nil]
    generalize (List.range j).foldl _ ((0, 0) : Nat × Int) = acc at hacc ⊢
    dsimp only
    split
    · next hgt =>
        refine ⟨.inl ?_, hj, fun i hi => ?_⟩ <;> dsimp only <;> rw [hconv]
        by_cases hij : i = j
        · rw [hij]
        · have := hacc.largest i (by omega)
          omega
    next hle =>
      refine ⟨hacc.value, hacc.bound, fun i hi => ?_⟩
      by_cases hij : i = j
      · rw [hij]
        exact Nat.le_of_not_lt hle
      · exact hacc.largest i (by omega)

/-- The candidate is a fullest list. -/
theorem candidate_fullest (hcpus : 0 < s.cpus)
    (hcount : ∀ i < s.cpus, (novaGetFreeList s i).numFreeBlocks ≤ INT_MAX) :
    novaGetCandidateFreeList s < s.cpus ∧ ∀ i < s.cpus, (novaGetFreeList s i).numFreeBlocks
        ≤ (novaGetFreeList s (novaGetCandidateFreeList s)).numFreeBlocks := by
  have h := fullest_foldl hcpus hcount (le_refl s.cpus)
  refine ⟨h.bound, fun i hi => ?_⟩
  have hle := h.largest i hi
  cases h.value with
  | inl hval => exact hval ▸ hle
  | inr hzero =>
    -- nothing was above zero
    rw [hzero] at hle
    exact le_trans hle (Nat.zero_le _)

-- === the result

/-- What a served 4K request does: `k` blocks in a row leave one per-CPU
list, and the other lists stay as they are. -/
structure Served (s : NovaSbInfo) (num : Nat) (r : NewBlocks) (c b k : Nat) : Prop where
  perCpu : c < s.cpus
  ret : r.ret = k
  run : r.taken = some (b, k)
  pos : 1 ≤ k
  le : k ≤ num
  takes : Takes (novaGetFreeList s c).nodes (novaGetFreeList r.sbi c).nodes b k
  count : (novaGetFreeList r.sbi c).numFreeBlocks + k
    = (novaGetFreeList s c).numFreeBlocks
  others : ∀ i ≤ s.cpus, i ≠ c → novaGetFreeList r.sbi i = novaGetFreeList s i

/-- A list that has enough serves the request. -/
theorem newBlocksFrom_served {c num p : Nat} {fl : FreeList} (atype : AllocType)
    (h : SafeState s₀ s held) (hzero : ¬ IsFree s₀ 0) (hnum : 0 < num)
    (hc : c < s.cpus) (hcount : (novaGetFreeList s c).numFreeBlocks ≤ INT_MAX)
    (hfl : FreeListInv fl s.nextNode) (hnodes : fl.nodes = (novaGetFreeList s c).nodes)
    (hp : fl.pNode = some p) :
    ∃ b k, Served s num (newBlocksFrom rb s c fl .blk4K num atype) c b k := by
  obtain ⟨b, k, fl', heq, hout⟩ := novaAllocBlocksInFreeList_spec rb hfl hnum hp
  obtain ⟨hres, -, -, -⟩ := newBlocksFrom_safe rb atype h hzero hfl hnodes heq
    hout.pos hout.takes hout.inv
  have hdiv : k / novaGetNumblocks .blk4K = k := Nat.div_one k
  have htotal := hout.takes.total hfl.nodesOk
  have hold : (novaGetFreeList s c).numFreeBlocks = totalBlocks fl.nodes := by
    rw [(h.list c).numFree, hnodes]
  have hlist : novaGetFreeList (setFreeList s c (countAlloc fl' atype k)) c
      = countAlloc fl' atype k := by
    rw [novaGetFreeList_setFreeList s c c _ (le_of_lt hc), listIndex,
      Nat.min_eq_left (le_of_lt hc), if_pos rfl]
  rw [hres, hdiv]
  refine ⟨b, k, hc, ?_, rfl, hout.pos, hout.le, ?_, ?_, ?_⟩
  · rw [intOfUlong_of_le (by omega)]
  · rw [hlist, countAlloc_nodes, ← hnodes]
    exact hout.takes
  · rw [hlist, (hout.inv.countAlloc atype k).numFree, countAlloc_nodes]
    omega
  intro i hi hic
  rw [novaGetFreeList_setFreeList s c i _ hi, listIndex, Nat.min_eq_left (le_of_lt hc), if_neg hic]

/-- A 4K request fails only for lack of space: in every state a run
reaches, with counts that fit an `int`, `nova_new_blocks` returns an
error exactly if no per-CPU list has `num` free blocks, and serves the
request from one per-CPU list otherwise. -/
theorem new_blocks_complete (hstart : SafeState s₀ s₀ ∅) (hzero : ¬ IsFree s₀ 0)
    (hrun : Runs rb s₀ s held) (hcount : ∀ i < s.cpus, (novaGetFreeList s i).numFreeBlocks < 2 ^ 31)
    {cpuid num : Nat} (hcpu : cpuid < s.cpus) (hnum : 1 ≤ num) (atype : AllocType) :
    ((novaNewBlocks rb s cpuid num .blk4K atype).ret < 0 ↔
        ∀ i < s.cpus, (novaGetFreeList s i).numFreeBlocks < num)
      ∧ ((∃ i < s.cpus, num ≤ (novaGetFreeList s i).numFreeBlocks) →
        ∃ c b k, Served s num (novaNewBlocks rb s cpuid num .blk4K atype) c b k) := by
  have h := hrun.safe rb hstart hzero
  have hmax : ∀ i < s.cpus, (novaGetFreeList s i).numFreeBlocks ≤ INT_MAX := by
    intro i hi
    have := hcount i hi
    unfold INT_MAX
    omega
  obtain ⟨hcand, hfullest⟩ := candidate_fullest (lt_of_le_of_lt (Nat.zero_le _) hcpu) hmax
  have heq : novaNewBlocks rb s cpuid num .blk4K atype
      = newBlocksRetry rb s .blk4K num atype 3 cpuid := by
    have hnb : num * novaGetNumblocks .blk4K = num := Nat.mul_one num
    unfold novaNewBlocks
    simp only [hnb, if_neg (Nat.ne_of_gt hnum)]
  rw [heq]
  cases newBlocksRetry_cases rb .blk4K atype h.list hnum 3 cpuid with
  | inl hfail =>
    obtain ⟨hret, -, hsmall⟩ := hfail
    have hnone : ∀ i < s.cpus, (novaGetFreeList s i).numFreeBlocks < num :=
      fun i hi => lt_of_le_of_lt (hfullest i hi) (hsmall (by decide))
    rw [hret]
    refine ⟨⟨fun _ => hnone, fun _ => (by decide : -ENOSPC < 0)⟩, fun hsome => ?_⟩
    obtain ⟨i, hi, hle⟩ := hsome
    exact absurd (hnone i hi) (not_lt.mpr hle)
  | inr hserved =>
    obtain ⟨c, fl, p, hc, hge, hfl, hnodes, hp, hret⟩ := hserved
    have hclt : c < s.cpus := by
      cases hc with
      | inl hc => exact hc ▸ hcpu
      | inr hc => exact hc ▸ hcand
    obtain ⟨b, k, hs⟩ := newBlocksFrom_served rb atype h hzero hnum hclt (hmax c hclt)
      hfl hnodes hp
    rw [hret]
    refine ⟨⟨fun hneg => ?_, fun hall => ?_⟩, fun _ => ⟨c, b, k, hs⟩⟩
    · rw [hs.ret] at hneg
      omega
    · exact absurd (hall c hclt) (not_lt.mpr hge)

/-- Ten blocks on two CPUs: CPU 1 has five of them and serves three. -/
theorem new_blocks_complete_ten_blocks :
    let rb := RbLib.spine RangeNode.addr
    ∃ s₀, novaInitBlockmap rb (mountSbInfo 2 10) false = some s₀
      ∧ (∀ i < s₀.cpus, (novaGetFreeList s₀ i).numFreeBlocks < 2 ^ 31)
      ∧ ∃ c b k, Served s₀ 3 (novaNewBlocks rb s₀ 0 3 .blk4K .data) c b k := by
  intro rb
  have hper : RESERVED_BLOCKS < 10 / 2 := by decide
  obtain ⟨s₀, hinit, hstart, hfree⟩ := novaInitBlockmap_spec rb hper
  have hs₀ : s₀ = (novaInitBlockmap rb (mountSbInfo 2 10) false).getD (mountSbInfo 2 10) := by
    rw [hinit]
    rfl
  have hcount : ∀ i < s₀.cpus, (novaGetFreeList s₀ i).numFreeBlocks < 2 ^ 31 := by
    rw [hs₀]
    decide
  have hzero : ¬ IsFree s₀ 0 := fun h0 => absurd ((hfree 0).mp h0).1 (by decide)
  have hcpus : s₀.cpus = 2 := by rw [hs₀]; rfl
  refine ⟨s₀, hinit, hcount, ?_⟩
  refine (new_blocks_complete rb hstart hzero .start hcount
    (by rw [hcpus]; decide) (by decide) .data).2 ⟨1, by rw [hcpus]; decide, ?_⟩
  rw [hs₀]
  decide

end Themis.Balloc
