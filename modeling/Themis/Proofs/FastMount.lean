/-
What a failed fast mount leaves behind.

`nova_can_skip_full_scan` loads the saved logs into the empty lists that
`nova_init_blockmap` has set up, and gives the pages of a log back whether
it could load it or not. That call faults, so once the fast path is tried
it does not come back (`canSkip_none`).

What it takes to load a log as a whole is `Accepted`, over the entries.
-/
import Themis.Proofs.RangeLog

namespace Themis.RangeLog

open Lib Balloc InodeList Option
open Log (isLastEntry blockOff entryLoc LAST_ENTRY)

variable (rb : RbLib RangeNode.addr) {fm : FastMount} {garbage : Int} {σ : Type}
variable {m : RangeMem} {tail rounds curr : Nat} {pi : Pi}
  {body : σ → Nat × Nat → ExceptT σ Option σ} {s s' : σ}

-- === loading a log

/-- A loop that ends at the tail took every entry. -/
theorem entries_of_rangeLoop (hrun : rangeLoop m tail body rounds curr s = some (.tail, s')) :
    ∃ L, rangeEntries m tail rounds curr = some L ∧ L.foldlM body s = pure s' := by
  induction rounds generalizing curr s with
  | zero => cases hrun
  | succ rounds ih =>
    rw [rangeLoop] at hrun
    rw [rangeEntries]
    by_cases hend : curr = tail
    · rw [if_pos hend] at hrun ⊢
      cases hrun
      exact ⟨[], rfl, rfl⟩
    rw [if_neg hend] at hrun ⊢
    dsimp only at hrun ⊢
    generalize (if isLastEntry curr ENTRY_SIZE then nextLogPage m curr else curr) = currP
      at hrun ⊢
    by_cases hp : currP = 0
    · rw [if_pos hp] at hrun
      cases hrun
    rw [if_neg hp] at hrun ⊢
    rcases hone : (body s (m.entry currP)).run with _ | s1 | s1 <;> rw [hone] at hrun
    · cases hrun
    · cases hrun
    · obtain ⟨L, hread, hfold⟩ := ih hrun
      refine ⟨m.entry currP :: L, by rw [hread]; rfl, ?_⟩
      rw [List.foldlM_cons, show body s (m.entry currP) = _ from hone]
      exact hfold

/-- A log can be read from its head to its tail, and no entry is refused
by the lists as the entries before it have left them. -/
def Accepted (m : RangeMem) (pi : Pi) (body : σ → Nat × Nat → ExceptT σ Option σ) (s : σ) : Prop :=
  pi.logHead ≠ 0 ∧ ∃ rounds L s', rangeEntries m pi.logTail rounds pi.logHead = some L
    ∧ L.foldlM body s = pure s'

/-- The loader comes to the end of its log. -/
def ReachesTail (m : RangeMem) (pi : Pi) (body : σ → Nat × Nat → ExceptT σ Option σ) (s : σ) :
    Prop :=
  pi.logHead ≠ 0 ∧ ∃ rounds s', rangeLoop m pi.logTail body rounds pi.logHead s
    = some (.tail, s')

/-- The tail is reached exactly if every entry is accepted. -/
theorem reachesTail_iff : ReachesTail m pi body s ↔ Accepted m pi body s := by
  constructor
  · rintro ⟨hhead, rounds, s', hrun⟩
    obtain ⟨L, hread, hfold⟩ := entries_of_rangeLoop hrun
    exact ⟨hhead, rounds, L, s', hread, hfold⟩
  · rintro ⟨hhead, rounds, L, s', hread, hfold⟩
    exact ⟨hhead, rounds, s', rangeLoop_of_entries hread hfold⟩

-- === the fast path

/-- Once it is tried, the fast path faults where it gives the pages of the
block list back. -/
theorem canSkip_none (hhead : fm.blocknode.logHead ≠ 0) (htail : fm.blocknode.logTail ≠ 0) :
    novaCanSkipFullScan rb rounds garbage fm = none := by
  have hfree : novaFreeInodeLog fm.blocknode = none := if_neg (not_or.mpr ⟨hhead, htail⟩)
  have hload : novaInitBlockmapFromInode rb rounds fm = none := by
    unfold novaInitBlockmapFromInode
    rw [if_neg hhead]
    split
    · rfl
    · rw [hfree, map_none]
  unfold novaCanSkipFullScan
  rw [if_neg (not_or.mpr ⟨hhead, htail⟩), hload]

/-- The free lists and the inode maps look alike. -/
structure SameLists (fm fm' : FastMount) : Prop where
  blocks : ∀ cpu,
    (novaGetFreeList fm'.sbi cpu).blockFreeTree = (novaGetFreeList fm.sbi cpu).blockFreeTree
      ∧ (novaGetFreeList fm'.sbi cpu).firstNode = (novaGetFreeList fm.sbi cpu).firstNode
      ∧ (novaGetFreeList fm'.sbi cpu).numBlocknode = (novaGetFreeList fm.sbi cpu).numBlocknode
      ∧ (novaGetFreeList fm'.sbi cpu).numFreeBlocks
        = (novaGetFreeList fm.sbi cpu).numFreeBlocks
  inodes : ∀ cpu, fm'.inodes.inodeMaps cpu = fm.inodes.inodeMaps cpu

/-- If one of the loaders does not get through its log, the mount falls
back to the full scan with lists as they were. -/
def FallsBack (garbage : Int) (fm : FastMount) : Prop :=
  ¬ (ReachesTail fm.log fm.blocknode (loadBlockEntry rb) fm.sbi
      ∧ ReachesTail fm.log fm.inodelist (loadInodeEntry rb)
          ({ fm.inodes with inodesUsedCount := 0 }, garbage)) →
    ∃ rounds fm', novaCanSkipFullScan rb rounds garbage fm = some (false, fm')
      ∧ SameLists fm fm'

/-- A mount on one CPU and ten blocks: a block list of two entries, the
first `[5, 2⁴⁰]`, and an inode list. -/
def twoEntries (second : Nat × Nat) : FastMount where
  log := ⟨fun a => if a = 4112 then second else (5, 2 ^ 40), fun _ => 0⟩
  blocknode := ⟨3, 4096, 4128⟩
  inodelist := ⟨4, 8192, 8208⟩
  sbi :=
    { mountSbInfo 1 10 with
      perListBlocks := 10
      freeLists := fun i => if i = 0 then { FreeList.empty with blockEnd := 9 } else .empty }
  inodes := mountInfo 1

end Themis.RangeLog
