/-
The allocator of balloc.c below the files.

Logs, files and directories are proved over any `BlockAllocator`.
`nova_new_blocks` and `nova_free_blocks` are one: its laws hold in every
state with the invariant of the free lists, whichever CPU a call comes
from. So a file keeps its blocks out of the free lists of the source
(`live_blocks_not_free`).
-/
import Themis.Proofs.Balloc.Safety
import Themis.Proofs.File.Traverse

namespace Themis.Balloc

open Lib Log File RangeNode

variable (rb : RbLib addr) {s₀ s : NovaSbInfo} {held : Finset Nat} {numBlocks : Nat}

/-- The free lists, the blocks handed out from them, and the calls of
`nova_new_blocks` so far. -/
structure Lists (s₀ : NovaSbInfo) where
  sbi : NovaSbInfo
  held : Finset Nat
  calls : Nat
  safe : SafeState s₀ sbi held

section

variable (hzero : ¬ IsFree s₀ 0) (cpuOf : Nat → Nat)

include hzero in
/-- An allocation keeps the lists safe. -/
theorem SafeState.new (h : SafeState s₀ s held) (cpuid num : Nat) (t : AllocType) :
    SafeState s₀ (novaNewBlocks rb s cpuid num .blk4K t).sbi
      (held ∪ (novaNewBlocks rb s cpuid num .blk4K t).blocks) := by
  rcases Nat.eq_zero_or_pos num with rfl | hnum
  · have hnone : novaNewBlocks rb s cpuid 0 .blk4K t = ⟨-EINVAL, none, s⟩ := by simp [novaNewBlocks]
    rw [hnone]
    exact (Finset.union_empty held).symm ▸ h
  · exact (novaNewBlocks_spec rb h hzero hnum cpuid t).2

/-- An allocation on the CPU that `cpuOf` gives for the call. -/
def Lists.new (l : Lists s₀) (t : AllocType) (num : Nat) : Option (Nat × Nat) × Lists s₀ :=
  let r := novaNewBlocks rb l.sbi (cpuOf l.calls) num .blk4K t
  (r.taken, ⟨r.sbi, l.held ∪ r.blocks, l.calls + 1, l.safe.new rb hzero _ num t⟩)

/-- Blocks given back. Blocks that were not handed out stay where they
are: no caller gives them back. -/
def Lists.free (l : Lists s₀) (t : AllocType) (b k : Nat) : Lists s₀ :=
  if h : 0 < k ∧ Finset.Ico b (b + k) ⊆ l.held then
    ⟨(novaFreeBlocks rb l.sbi b k .blk4K (t = .log) false).2, l.held \ Finset.Ico b (b + k),
      l.calls, (novaFreeBlocks_spec rb l.safe (Int.natCast_pos.2 h.1) h.2 _).2⟩
  else l

/-- What an allocation gives. -/
theorem Lists.new_some {l : Lists s₀} {t : AllocType} {num b k : Nat}
    (h : (l.new rb hzero cpuOf t num).1 = some (b, k)) :
    0 < k ∧ k ≤ num ∧ (∀ x, b ≤ x → x < b + k → IsFree s₀ x ∧ x ∉ l.held) ∧
      (l.new rb hzero cpuOf t num).2.held = l.held ∪ Finset.Ico b (b + k) := by
  have htaken : (novaNewBlocks rb l.sbi (cpuOf l.calls) num .blk4K t).taken = some (b, k) := h
  have hblocks : (novaNewBlocks rb l.sbi (cpuOf l.calls) num .blk4K t).blocks
      = Finset.Ico b (b + k) := by rw [NewBlocks.blocks, htaken]
  have hnum : 0 < num := by
    apply Nat.pos_of_ne_zero
    rintro rfl
    simp [novaNewBlocks] at htaken
  obtain ⟨hstep, h'⟩ := novaNewBlocks_spec rb l.safe hzero hnum (cpuOf l.calls) t
  have hsafe := hstep.safe l.safe h'
  obtain ⟨hk, hle⟩ := hsafe.nonEmpty b k htaken
  refine ⟨hk, hle, fun x hx hxk => ?_, by rw [← hblocks]; rfl⟩
  have hmem := Finset.mem_Ico.2 ⟨hx, hxk⟩
  rw [← hblocks] at hmem
  exact ⟨(l.safe.conserved x).2 (.inl (hsafe.wasFree x hmem)), hsafe.notHeld x hmem⟩

/-- `nova_new_blocks` and `nova_free_blocks` as a `BlockAllocator`. -/
def allocator (hbound : ∀ b, IsFree s₀ b → b < numBlocks) : BlockAllocator where
  State := Lists s₀
  numBlocks := numBlocks
  newBlocks := Lists.new rb hzero cpuOf
  freeBlocks := Lists.free rb
  InUse l x := x ∈ l.held
  new_some := by
    intro l l' t num b k h
    obtain ⟨hk, hle, hrun, hheld⟩ := Lists.new_some rb hzero cpuOf (congrArg Prod.fst h)
    refine ⟨hk, hle, ?_, ?_, fun x hx hxk => (hrun x hx hxk).2, fun x => ?_⟩
    · apply Nat.pos_of_ne_zero
      rintro rfl
      exact hzero (hrun 0 (le_refl 0) (by omega)).1
    · have := hbound _ (hrun (b + k - 1) (by omega) (by omega)).1
      omega
    · have hl' : (Lists.new rb hzero cpuOf l t num).2 = l' := congrArg Prod.snd h
      rw [← hl', hheld, Finset.mem_union, Finset.mem_Ico]
  new_none := by
    intro l l' t num h x
    have hnone : (novaNewBlocks rb l.sbi (cpuOf l.calls) num .blk4K t).taken = none :=
      congrArg Prod.fst h
    have hl' : (Lists.new rb hzero cpuOf l t num).2 = l' := congrArg Prod.snd h
    rw [← hl']
    simp [Lists.new, NewBlocks.blocks, hnone]
  free_inUse := by
    intro l t b k hrun x
    rcases Nat.eq_zero_or_pos k with rfl | hk
    · simp [Lists.free]
    have hsub : Finset.Ico b (b + k) ⊆ l.held := fun x hx =>
      hrun x (Finset.mem_Ico.1 hx).1 (Finset.mem_Ico.1 hx).2
    rw [Lists.free, dif_pos ⟨hk, hsub⟩, Finset.mem_sdiff, Finset.mem_Ico]

end

/-- Whatever is done to a file on the allocator of balloc.c, no page of
its log and no block behind its pages lies in a free list. -/
theorem live_blocks_not_free {hzero : ¬ IsFree s₀ 0} {cpuOf : Nat → Nat}
    {hbound : ∀ b, IsFree s₀ b → b < numBlocks} {ino : Nat}
    {st : State (allocator rb hzero cpuOf hbound)} (h : FileRun ino st) :
    (∀ p ∈ logChain st ino, ¬ IsFree st.alloc.sbi (p / PAGE_SIZE)) ∧
      ∀ i x, pageMap st ino i = some x → ¬ IsFree st.alloc.sbi x := by
  have hnot : ∀ x, st.InUse x → ¬ IsFree st.alloc.sbi x := fun x hx hfree =>
    st.alloc.safe.freeNotHeld x hfree hx
  obtain ⟨⟨L, pages, hok⟩, -⟩ := h.ok
  rw [Traverse.chain_of_logAt hok.log]
  exact ⟨fun p hp => hnot _ (hok.log.inUse p hp),
    fun i x hi => hnot x (hok.file.owned.used i x hi).1⟩

/-- A new file, with two CPUs sharing ten blocks. -/
theorem live_blocks_not_free_new_file :
    let rb := RbLib.spine addr
    ∃ (s₀ : NovaSbInfo) (hzero : ¬ IsFree s₀ 0) (hbound : ∀ b, IsFree s₀ b → b < 10)
      (st : State (allocator rb hzero id hbound)),
      novaInitBlockmap rb (mountSbInfo 2 10) false = some s₀ ∧ FileRun 17 st ∧
        ∀ p ∈ logChain st 17, ¬ IsFree st.alloc.sbi (p / PAGE_SIZE) := by
  intro rb
  obtain ⟨s₀, hinit, hsafe, hfree⟩ :=
    novaInitBlockmap_spec rb (show RESERVED_BLOCKS < 10 / 2 by decide)
  have hzero : ¬ IsFree s₀ 0 := fun h => absurd ((hfree 0).1 h).1 (by decide)
  have hbound : ∀ b, IsFree s₀ b → b < 10 := by
    intro b h
    have := ((hfree b).1 h).2
    omega
  have hreg : isReg 0o100644 = true := by decide
  have hrun : FileRun 17 (⟨newFile.nv, newFile.data, ⟨s₀, ∅, 0, hsafe⟩, newFile.info, []⟩ :
      State (allocator rb hzero id hbound)) :=
    FileRun.fresh ⟨rfl, rfl⟩ (fun _ => rfl) rfl rfl hreg hreg
  exact ⟨s₀, hzero, hbound, _, hinit, hrun, (live_blocks_not_free rb hrun).1⟩

end Themis.Balloc
