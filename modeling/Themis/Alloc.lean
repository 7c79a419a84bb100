/-
The block allocator as its callers see it: a run of blocks that nobody
uses on the one side, a run given back on the other. `newBlocks` stands
for `nova_new_data_blocks` and `nova_new_log_blocks`, whose answer is at
most what was asked for and may be less; `none` is an error return.

The laws are what balloc.c keeps (`Themis.Proofs.Balloc.Safety`).
-/
import Themis.Basic

namespace Themis

/-- A block allocator. `InUse` are the blocks in no free list. -/
structure BlockAllocator where
  State : Type
  numBlocks : Nat
  newBlocks : State → AllocType → Nat → Option (Nat × Nat) × State
  freeBlocks : State → AllocType → Nat → Nat → State
  InUse : State → Nat → Prop
  /-- An allocation hands out between one and `n` unused blocks, none of
  them block 0, and puts exactly these in use. -/
  new_some : ∀ {s s' t n b k}, newBlocks s t n = (some (b, k), s') →
    0 < k ∧ k ≤ n ∧ 0 < b ∧ b + k ≤ numBlocks ∧
    (∀ x, b ≤ x → x < b + k → ¬ InUse s x) ∧
    ∀ x, InUse s' x ↔ InUse s x ∨ (b ≤ x ∧ x < b + k)
  /-- A failed allocation takes nothing. -/
  new_none : ∀ {s s' t n}, newBlocks s t n = (none, s') →
    ∀ x, InUse s' x ↔ InUse s x
  /-- Giving back blocks in use gives back exactly these. -/
  free_inUse : ∀ {s t b k}, (∀ x, b ≤ x → x < b + k → InUse s x) →
    ∀ x, InUse (freeBlocks s t b k) x ↔ InUse s x ∧ ¬ (b ≤ x ∧ x < b + k)

-- === ascending blocks

/-- Blocks up to `next` have been handed out at some time; those in
`returned` came back. -/
structure Ascending where
  next : Nat
  returned : Nat → Bool

/-- An allocator that hands out the whole run it is asked for, in
ascending order, and never reuses a block. Concrete runs are evaluated
on it. -/
def BlockAllocator.ascending (numBlocks : Nat) : BlockAllocator where
  State := Ascending
  numBlocks := numBlocks
  newBlocks s _ n :=
    if n = 0 ∨ numBlocks < s.next + 1 + n then (none, s)
    else
      (some (s.next + 1, n),
        { next := s.next + n
          returned := fun x => x ≤ s.next && s.returned x })
  freeBlocks s _ b k :=
    { s with returned := fun x => s.returned x || (b ≤ x && x < b + k) }
  InUse s x := x ≤ s.next ∧ s.returned x = false
  new_some := by
    intro s s' t n b k h
    split at h
    · cases h
    rename_i hfit
    cases h
    refine ⟨by omega, le_refl _, by omega, by omega, ?_, ?_⟩
    · intro x hx _ huse
      omega
    intro x
    by_cases hle : x ≤ s.next
    · have hin : ¬ (s.next + 1 ≤ x ∧ x < s.next + 1 + n) := by omega
      have hle' : x ≤ s.next + n := by omega
      simp only [hle, hle', hin, decide_true, or_false, Bool.true_and]
    simp only [hle, decide_false, Bool.false_and, and_true, false_and,
      false_or]
    omega
  new_none := by
    intro s s' t n h x
    split at h
    · cases h
      exact Iff.rfl
    · cases h
  free_inUse := by
    intro s t b k _ x
    simp only [Bool.or_eq_false_iff, Bool.and_eq_false_iff, decide_eq_false_iff_not]
    constructor
    · rintro ⟨hle, hret, hout⟩
      exact ⟨⟨hle, hret⟩, by omega⟩
    · rintro ⟨⟨hle, hret⟩, hout⟩
      exact ⟨hle, hret, by omega⟩

end Themis
