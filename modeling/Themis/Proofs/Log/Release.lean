/-
The pages of a log from `nova_allocate_inode_log_pages` to
`nova_free_contiguous_log_blocks`.

The release walks the chain and regroups it into runs of adjacent blocks,
whatever the runs of the allocation were. The blocks of its calls, one call
after the other, are the chain itself (`release_spec`), so each page goes
back once and the count is that of the pages.
-/
import Themis.Proofs.Log.Abandon
import Themis.Proofs.Log.Validity

namespace Themis.Log

open Lib List

variable {al : BlockAllocator} {st st' : State al} {n num head : Nat}

/-- At most what was asked for. -/
theorem novaNewLogBlocks_le {st1 : State al} {b : Nat × Nat}
    (h : novaNewLogBlocks st num = (some b, st1)) : b.2 ≤ num := by
  simp only [novaNewLogBlocks, Prod.mk.injEq] at h
  exact (al.new_some (Prod.ext h.1 rfl)).2.1

/-- At most what was asked for, over all rounds. -/
theorem allocateRest_le (rounds : Nat) (st : State al) (num prev ret : Nat) :
    (allocateRest rounds st num prev ret).1 ≤ ret + num := by
  induction rounds generalizing st num prev ret with
  | zero => exact Nat.le_add_right ret num
  | succ rounds ih =>
    rw [allocateRest]
    split
    · exact Nat.le_add_right ret num
    cases hnew : novaNewLogBlocks st num with
    | mk r st1 =>
      cases r with
      | none => exact Nat.le_add_right ret num
      | some bk =>
        have hk := novaNewLogBlocks_le hnew
        have hrest := ih (novaCoalesceLogPages st1 prev bk.1 bk.2) (num - bk.2)
          (bk.1 + bk.2 - 1) (ret + bk.2)
        dsimp only
        omega

/-- From allocation to release: the pages are a chain of `n` distinct ones,
at most as many as asked for; the release ends, counts `n`, and gives back
their blocks, each once. -/
theorem log_pages_released (st : State al) (num : Nat)
    (h : novaAllocateInodeLogPages st num = (some (n, head), st')) :
    n ≤ num ∧ ∃ N : List Nat, N.length = n ∧ N.Nodup ∧ N.headD 0 = head
      ∧ Linked st'.nv.next N 0 ∧ (∀ p ∈ N, IsPage p)
      ∧ ∃ calls, releaseLoop st'.nv.next (pageLimit al) head 0 0 0 [] = some (n, calls)
        ∧ blocksOf calls = N.map (· / PAGE_SIZE) ∧ (blocksOf calls).Nodup
        ∧ novaFreeContiguousLogBlocks st' head = some (freeAll st' calls) := by
  obtain ⟨N, hN, hlen⟩ := novaAllocateInodeLogPages_some h
  have hle : n ≤ num := by
    unfold novaAllocateInodeLogPages at h
    cases hnew : novaNewLogBlocks st num with
    | mk r st₁ =>
      rw [hnew] at h
      cases r with
      | none => cases h
      | some bk =>
        have hk := novaNewLogBlocks_le hnew
        simp only [Prod.mk.injEq, Option.some.injEq] at h
        rw [← h.1.1]
        exact (allocateRest_le _ _ _ _ _).trans (by omega)
  obtain ⟨calls, hr, hblocks, hrun⟩ := release_spec (l := head :: N) hN.chain hN.isPage
    (length_lt_pageLimit hN.isPage hN.nodup hN.onDevice)
  refine ⟨hle, head :: N, hlen, hN.nodup, rfl, hN.chain, hN.isPage, calls, hlen ▸ hr, hblocks,
    ?_, hrun⟩
  rw [hblocks]
  exact nodup_blocks hN.isPage hN.nodup

/-- Two pages asked for one by one, of a device with three blocks left. -/
theorem log_pages_released_one_by_one : ∃ n head st',
    novaAllocateInodeLogPages (twoPageLog 7) 2 = (some (n, head), st') ∧
    n ≤ 2 ∧ ∃ N : List Nat, N.length = n ∧ N.Nodup ∧ N.headD 0 = head
      ∧ Linked st'.nv.next N 0 ∧ (∀ p ∈ N, IsPage p)
      ∧ ∃ calls, releaseLoop st'.nv.next (pageLimit (oneByOne 7)) head 0 0 0 [] = some (n, calls)
        ∧ blocksOf calls = N.map (· / PAGE_SIZE) ∧ (blocksOf calls).Nodup
        ∧ novaFreeContiguousLogBlocks st' head = some (freeAll st' calls) :=
  ⟨_, _, _, rfl, log_pages_released (twoPageLog 7) 2 rfl⟩

end Themis.Log
