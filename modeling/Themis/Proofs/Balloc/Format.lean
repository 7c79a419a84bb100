/-
Formatting: which blocks `nova_init_blockmap` puts in the free lists.

Each CPU gets `num_blocks / cpus` blocks, CPU 0 without the reserved
ones. The blocks behind the last share become the interval of the shared
list, but no node is made for them and they are not counted, so the
format is exact only if there are none of them (`format_exact_iff`).
-/
import Themis.Proofs.Balloc.Safety

namespace Themis.Balloc

open Lib

variable (rb : RbLib RangeNode.addr) {s : NovaSbInfo} {cpus numBlocks per : Nat}

/-- Every block of the device from the reserved ones on lies in one node
of one list, no reserved block lies in any, and the count says so. -/
structure FormatExact (s : NovaSbInfo) : Prop where
  covered : ∀ b, s.reservedBlocks ≤ b → b < s.numBlocks →
    ∃! p : Nat × RangeNode, p.1 ≤ s.cpus ∧ p.2 ∈ (novaGetFreeList s p.1).nodes
      ∧ p.2.rangeLow ≤ b ∧ b ≤ p.2.rangeHigh
  reserved : ∀ b < s.reservedBlocks, ¬ IsFree s b
  count : novaCountFreeBlocks s = s.numBlocks - s.reservedBlocks

/-- The lists after formatting: one node for each CPU, none in the
shared list. -/
structure Formatted (cpus per : Nat) (s : NovaSbInfo) : Prop where
  cpus_eq : s.cpus = cpus
  reserved_eq : s.reservedBlocks = RESERVED_BLOCKS
  perCpu : ∀ i < cpus, (novaGetFreeList s i).nodes = [initNode per i]
    ∧ (novaGetFreeList s i).numFreeBlocks = (initNode per i).len
  shared : ∀ i, cpus ≤ i → (novaGetFreeList s i).nodes = []
    ∧ (novaGetFreeList s i).numFreeBlocks = 0

/-- What a format leaves. -/
theorem Built.formatted (h : Built cpus numBlocks per cpus s) (lo hi : Nat) :
    Formatted cpus per { s with sharedFreeList :=
      { s.sharedFreeList with blockStart := lo, blockEnd := hi } } := by
  refine ⟨h.cpus_eq, h.reserved, fun i hi => ?_, fun i hi => ?_⟩
  · obtain ⟨hnodes, hinv⟩ := h.built i hi
    rw [novaGetFreeList, if_pos (h.cpus_eq ▸ hi)]
    refine ⟨hnodes, ?_⟩
    rw [hinv.numFree, hnodes]
    rfl
  rw [novaGetFreeList, if_neg (h.cpus_eq ▸ not_lt.mpr hi)]
  simp only [h.shared]
  exact ⟨rfl, rfl⟩

/-- The first list is shorter by the reserved blocks. -/
theorem len_initNode (hper : RESERVED_BLOCKS < per) (i : Nat) :
    (initNode per i).len = per - (if i = 0 then RESERVED_BLOCKS else 0) := by
  simp only [initNode, RangeNode.len]
  split <;> omega

/-- The sum over the lists. -/
theorem Formatted.count_perCpu (h : Formatted cpus per s)
    (hper : RESERVED_BLOCKS < per) {j : Nat} (hj : j < cpus) :
    (List.range (j + 1)).foldl (fun n i => n + (novaGetFreeList s i).numFreeBlocks) 0
      = per * (j + 1) - RESERVED_BLOCKS := by
  induction j with
  | zero =>
    show 0 + (novaGetFreeList s 0).numFreeBlocks = _
    rw [(h.perCpu 0 hj).2, len_initNode hper, if_pos rfl, Nat.zero_add, Nat.mul_one]
  | succ j ih =>
    rw [List.range_succ, List.foldl_append]
    show _ + (novaGetFreeList s (j + 1)).numFreeBlocks = _
    rw [(h.perCpu (j + 1) hj).2, len_initNode hper, if_neg (Nat.succ_ne_zero j),
      Nat.mul_succ per (j + 1)]
    have : per * 1 ≤ per * (j + 1) := Nat.mul_le_mul_left per (Nat.succ_pos j)
    omega

/-- The count of free blocks after a format. -/
theorem Formatted.count (h : Formatted cpus per s) (hper : RESERVED_BLOCKS < per)
    (hcpus : 0 < cpus) : novaCountFreeBlocks s = per * cpus - RESERVED_BLOCKS
      + (if cpus ≤ SHARED_CPU then 0 else per) := by
  have hsum := h.count_perCpu hper (Nat.sub_lt hcpus Nat.one_pos)
  rw [Nat.sub_add_cancel hcpus] at hsum
  rw [novaCountFreeBlocks, h.cpus_eq, hsum]
  by_cases hle : cpus ≤ SHARED_CPU
  · rw [if_pos hle, (h.shared _ hle).2]
  · rw [if_neg hle, (h.perCpu _ (Nat.lt_of_not_le hle)).2, len_initNode hper]
    rfl

/-- Every block behind the reserved ones is in one node. -/
theorem Formatted.exactlyOne (h : Formatted cpus per s) (hper : RESERVED_BLOCKS < per)
    {b : Nat} (hres : RESERVED_BLOCKS ≤ b) (hb : b / per < cpus) :
    ∃! p : Nat × RangeNode, p.1 ≤ s.cpus ∧ p.2 ∈ (novaGetFreeList s p.1).nodes
      ∧ p.2.rangeLow ≤ b ∧ b ≤ p.2.rangeHigh := by
  refine ⟨(b / per, initNode per (b / per)), ⟨?_, ?_, ?_⟩, ?_⟩
  · rw [h.cpus_eq]
    exact le_of_lt hb
  · rw [(h.perCpu _ hb).1]
    exact List.mem_singleton.mpr rfl
  · exact (initNode_covers hper).mpr ⟨hres, rfl⟩
  intro e hin
  obtain ⟨i, n⟩ := e
  obtain ⟨-, hn, hcov⟩ := hin
  dsimp only at hn hcov
  by_cases hi : i < cpus
  · rw [(h.perCpu i hi).1] at hn
    rw [List.mem_singleton.mp hn] at hcov ⊢
    rw [((initNode_covers hper).mp hcov).2]
  · rw [(h.shared i (Nat.le_of_not_lt hi)).1] at hn
    cases hn

/-- Formatting puts every block in a free list exactly if the CPUs'
shares use up the device (and `SHARED_CPU` is not one of the CPUs). -/
theorem format_exact_iff (hper : RESERVED_BLOCKS < numBlocks / cpus) :
    ∃ s₀, novaInitBlockmap rb (mountSbInfo cpus numBlocks) false = some s₀
      ∧ (FormatExact s₀ ↔ cpus ∣ numBlocks ∧ cpus ≤ SHARED_CPU) := by
  obtain ⟨s₁, lo, hi, hb, heq⟩ := novaInitBlockmap_built rb hper
  have hf := hb.formatted lo hi
  have hfree : ∀ b, IsFree _ b ↔ _ := fun b =>
    (((hb.safe hper).1.sharedRange lo hi).2 b).trans ((hb.safe hper).2 b)
  refine ⟨_, heq, ?_⟩
  have hnum : s₁.numBlocks = numBlocks := hb.numBlocks_eq
  have hpos : 0 < numBlocks / cpus := lt_of_le_of_lt (Nat.zero_le _) hper
  have hcpus : 0 < cpus := Nat.pos_of_ne_zero fun h0 => by
    rw [h0, Nat.div_zero] at hpos
    exact lt_irrefl 0 hpos
  have hle : numBlocks / cpus * cpus ≤ numBlocks := Nat.div_mul_le_self _ _
  have hcount := hf.count hper hcpus
  constructor
  · intro hx
    -- the last block of the device has a list
    have hlast : (numBlocks - 1) / (numBlocks / cpus) < cpus := by
      have hbig : numBlocks / cpus ≤ numBlocks := Nat.div_le_self _ _
      have hcov := hx.covered (numBlocks - 1) ?_ ?_
      · obtain ⟨⟨i, n⟩, ⟨hi, hn, hcov⟩, -⟩ := hcov
        exact ((hfree _).mp ⟨i, hi, n, hn, hcov⟩).2
      · show s₁.reservedBlocks ≤ _
        rw [hb.reserved]
        omega
      · show _ < s₁.numBlocks
        omega
    have hall : numBlocks ≤ cpus * (numBlocks / cpus) := by
      have := (Nat.div_lt_iff_lt_mul hpos).mp hlast
      omega
    have hdvd : cpus * (numBlocks / cpus) = numBlocks := Nat.le_antisymm (Nat.mul_div_le _ _) hall
    refine ⟨⟨_, hdvd.symm⟩, ?_⟩
    by_contra hshared
    have hcnt := hx.count
    rw [hcount, if_neg hshared] at hcnt
    have hc : numBlocks / cpus * cpus - RESERVED_BLOCKS + numBlocks / cpus
        = numBlocks - RESERVED_BLOCKS := by
      rw [hcnt]
      show s₁.numBlocks - s₁.reservedBlocks = _
      rw [hnum, hb.reserved]
    have hbig : numBlocks / cpus ≤ numBlocks / cpus * cpus := Nat.le_mul_of_pos_right _ hcpus
    rw [Nat.mul_comm] at hdvd
    omega
  intro hdiv
  obtain ⟨hdvd, hshared⟩ := hdiv
  have hall : numBlocks / cpus * cpus = numBlocks := Nat.div_mul_cancel hdvd
  refine ⟨?_, ?_, ?_⟩
  · intro b hres hlt
    refine hf.exactlyOne hper (hb.reserved ▸ hres) ?_
    refine (Nat.div_lt_iff_lt_mul hpos).mpr ?_
    rw [Nat.mul_comm, hall, ← hnum]
    exact hlt
  · intro b hres hfr
    have := ((hfree b).mp hfr).1
    rw [show _ = s₁.reservedBlocks from rfl, hb.reserved] at hres
    omega
  rw [hcount, if_pos hshared, hall]
  show _ = s₁.numBlocks - s₁.reservedBlocks
  rw [hnum, hb.reserved]
  rfl

/-- Two CPUs with five blocks each. -/
theorem format_exact_iff_ten_blocks :
    let rb := RbLib.spine RangeNode.addr
    RESERVED_BLOCKS < 10 / 2
      ∧ ∃ s₀, novaInitBlockmap rb (mountSbInfo 2 10) false = some s₀ ∧ FormatExact s₀ := by
  intro rb
  refine ⟨by decide, ?_⟩
  obtain ⟨s₀, hinit, hiff⟩ := format_exact_iff rb (show RESERVED_BLOCKS < 10 / 2 by decide)
  exact ⟨s₀, hinit, hiff.mpr ⟨by decide, by decide⟩⟩

/-- Two CPUs and eleven blocks: block 10 is in no list, and seven blocks
are counted free where eight are. -/
theorem format_loses_remainder :
    let rb := RbLib.spine RangeNode.addr
    ∃ s₀, novaInitBlockmap rb (mountSbInfo 2 11) false = some s₀ ∧ RESERVED_BLOCKS < 11 / 2
      ∧ (novaGetFreeList s₀ 0).nodes = [⟨1, 3, 4⟩] ∧ (novaGetFreeList s₀ 1).nodes = [⟨2, 5, 9⟩]
      ∧ (novaGetFreeList s₀ SHARED_CPU).nodes = [] ∧ (novaGetFreeList s₀ SHARED_CPU).blockStart = 10
      ∧ novaCountFreeBlocks s₀ = 7 ∧ s₀.numBlocks - s₀.reservedBlocks = 8 := by
  intro rb
  exact ⟨_, rfl, by decide, rfl, rfl, rfl, rfl, rfl, rfl⟩

end Themis.Balloc
