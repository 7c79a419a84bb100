/-
A thorough collection that is given up.

`nova_inode_log_thorough_gc` gives up before it starts when there is no
page to collect, and once more when `nova_allocate_inode_log_pages` comes
back with fewer pages than asked for. The pages it did get are a chain
that only this caller knows, and it drops them: nothing is lost exactly
if there was no page to drop (`abandoned_gc_iff`).
-/
import Themis.Proofs.Log.NewPages

namespace Themis.Log

open Lib

variable {al : BlockAllocator} {st st' : State al} {ino blocks : Nat}

/-- The log is empty or within one page. -/
def NothingToCollect (st : State al) (ino : Nat) : Prop :=
  (st.nv.logHead ino = 0 ∧ st.nv.logTail ino = 0) ∨
    st.nv.logHead ino / PAGE_SIZE = st.nv.logTail ino / PAGE_SIZE

/-- Nothing to collect, or not all pages at once. -/
def Abandoned (st : State al) (ino blocks : Nat) : Prop :=
  NothingToCollect st ino ∨
    ∀ newHead, (novaAllocateInodeLogPages st blocks).1 ≠ some (blocks, newHead)

/-- The free blocks, the log and its length are as before. -/
structure LeftAlone (st st' : State al) (ino : Nat) : Prop where
  inUse : ∀ x, st'.InUse x ↔ st.InUse x
  chain : logChain st' ino = logChain st ino
  logPages : (st'.info ino).logPages = (st.info ino).logPages

/-- A log is left alone by doing nothing. -/
theorem LeftAlone.refl (st : State al) (ino : Nat) : LeftAlone st st ino :=
  ⟨fun _ => Iff.rfl, rfl, rfl⟩

/-- Pages are refused by the allocator only. -/
theorem allocatePages_none_iff : (novaAllocateInodeLogPages st blocks).1 = none ↔
      (al.newBlocks st.alloc .log blocks).1 = none := by
  unfold novaAllocateInodeLogPages novaNewLogBlocks
  dsimp only
  cases (al.newBlocks st.alloc .log blocks).1 with
  | none => exact iff_of_true rfl rfl
  | some r => exact iff_of_false nofun nofun

/-- The state after a refusal. -/
theorem allocatePages_refused (h : (al.newBlocks st.alloc .log blocks).1 = none) :
    (novaAllocateInodeLogPages st blocks).2
      = { st with alloc := (al.newBlocks st.alloc .log blocks).2 } := by
  unfold novaAllocateInodeLogPages novaNewLogBlocks
  dsimp only
  rw [h]

/-- A page that is given is a change. -/
theorem not_leftAlone {n newHead : Nat}
    (h : novaAllocateInodeLogPages st blocks = (some (n, newHead), st')) :
    ¬ LeftAlone st st' ino := by
  intro hkept
  obtain ⟨N, hN, -⟩ := novaAllocateInodeLogPages_some h
  have huse : st'.InUse (newHead / PAGE_SIZE) :=
    (hN.inUse _).2 (.inr ⟨newHead, List.mem_cons_self, rfl⟩)
  exact hN.fresh newHead List.mem_cons_self ((hkept.inUse _).1 huse)

/-- A collection that is given up leaves everything as it was if and only
if it asked for no page or its first request was refused. -/
theorem abandoned_gc_iff (checkedPages : Nat) (h : Abandoned st ino blocks) :
    ∃ st', novaInodeLogThoroughGc st ino blocks checkedPages = some st' ∧
      (LeftAlone st st' ino ↔
        NothingToCollect st ino ∨ (al.newBlocks st.alloc .log blocks).1 = none) := by
  by_cases hnothing : NothingToCollect st ino
  · refine ⟨st, ?_, iff_of_true (.refl st ino) (.inl hnothing)⟩
    unfold novaInodeLogThoroughGc
    cases hnothing with
    | inl hempty => rw [if_pos hempty]
    | inr hpage =>
      dsimp only
      rw [if_pos hpage]
      split
      · rfl
      · rfl
  have hshort := h.resolve_left hnothing
  obtain ⟨hempty, hpage⟩ := not_or.1 hnothing
  have hres : novaInodeLogThoroughGc st ino blocks checkedPages
      = some (novaAllocateInodeLogPages st blocks).2 := by
    unfold novaInodeLogThoroughGc
    dsimp only
    rw [if_neg hempty, if_neg hpage]
    cases halloc : novaAllocateInodeLogPages st blocks with
    | mk r st₁ =>
      cases r with
      | none => rfl
      | some r =>
        obtain ⟨n, newHead⟩ := r
        have hne : n ≠ blocks := by
          intro heq
          apply hshort newHead
          rw [halloc, heq]
        exact if_pos hne
  refine ⟨_, hres, ?_⟩
  cases hfirst : (al.newBlocks st.alloc .log blocks).1 with
  | none =>
    refine iff_of_true ?_ (.inr rfl)
    rw [allocatePages_refused hfirst]
    refine ⟨fun x => ?_, rfl, rfl⟩
    exact al.new_none (Prod.ext hfirst rfl) x
  | some r =>
    refine iff_of_false ?_ (not_or.2 ⟨hnothing, nofun⟩)
    cases halloc : novaAllocateInodeLogPages st blocks with
    | mk r' st₁ =>
      cases r' with
      | none =>
        have hnone := allocatePages_none_iff.1 (congrArg Prod.fst halloc)
        rw [hfirst] at hnone
        cases hnone
      | some r' => exact not_leftAlone halloc

/-- An allocator of single blocks. -/
def oneByOne (numBlocks : Nat) : BlockAllocator where
  State := (BlockAllocator.ascending numBlocks).State
  numBlocks := numBlocks
  newBlocks s t n :=
    if n = 0 then (none, s) else (BlockAllocator.ascending numBlocks).newBlocks s t 1
  freeBlocks := (BlockAllocator.ascending numBlocks).freeBlocks
  InUse := (BlockAllocator.ascending numBlocks).InUse
  new_some := by
    intro s s' t n b k h
    by_cases hn : n = 0
    · rw [if_pos hn] at h
      cases h
    rw [if_neg hn] at h
    obtain ⟨hk, hk1, hrest⟩ := (BlockAllocator.ascending numBlocks).new_some h
    exact ⟨hk, by omega, hrest⟩
  new_none := by
    intro s s' t n h
    by_cases hn : n = 0
    · rw [if_pos hn] at h
      cases h
      exact fun _ => Iff.rfl
    · rw [if_neg hn] at h
      exact (BlockAllocator.ascending numBlocks).new_none h
  free_inUse := (BlockAllocator.ascending numBlocks).free_inUse

/-- A log of two pages on it. -/
def twoPageLog (numBlocks : Nat) : State (oneByOne numBlocks) where
  nv :=
    { slot := fun _ => .unknown 0
      invalid := fun _ => 0
      next := fun p => if p = 8192 then 12288 else 0
      logHead := fun _ => 8192
      logTail := fun _ => 12320
      record := fun _ => ⟨0, ⟨0o100644, 0, 0, 0, 0, 0⟩, 1, 0, 0⟩ }
  data := fun _ => 0
  alloc := (⟨3, fun _ => false⟩ : Ascending)
  info := fun _ => ⟨Radix.empty, 2, 0, 0, 0, 0, ⟨0o100644, 0, 0, 0, 0, 0⟩⟩
  trace := []

/-- On a full device the log stays as it was. -/
theorem abandoned_gc_iff_full :
    ∃ st', novaInodeLogThoroughGc (twoPageLog 4) 17 2 5 = some st' ∧
      LeftAlone (twoPageLog 4) st' 17 := by
  have hfull : Abandoned (twoPageLog 4) 17 2 := .inr fun _ h => by cases h
  obtain ⟨st', hrun, hiff⟩ := abandoned_gc_iff 5 hfull
  exact ⟨st', hrun, hiff.2 (.inr rfl)⟩

/-- With one block left of the two that are asked for, that block is
lost: in use, and on no log. -/
theorem abandoned_gc_loses_page :
    Abandoned (twoPageLog 5) 17 2 ∧ ∃ st', novaInodeLogThoroughGc (twoPageLog 5) 17 2 5 = some st' ∧
        st'.nv.logHead 17 = (twoPageLog 5).nv.logHead 17 ∧
        ¬ (twoPageLog 5).InUse 4 ∧ st'.InUse 4 ∧ ¬ LeftAlone (twoPageLog 5) st' 17 := by
  have hfree : ¬ (twoPageLog 5).InUse 4 := fun h => absurd h.1 (by decide)
  have hshort : Abandoned (twoPageLog 5) 17 2 := .inr fun _ h => by cases h
  refine ⟨hshort, _, rfl, rfl, hfree, ⟨by decide, rfl⟩, ?_⟩
  intro hkept
  exact hfree ((hkept.inUse 4).1 ⟨by decide, rfl⟩)

end Themis.Log
