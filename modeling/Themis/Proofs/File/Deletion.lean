/-
What `nova_delete_file_tree` gives back.

The runs that are collected and given back, the pending one last, are the
blocks of the pages in the order of the pages (`Collected`). So the loop
comes to its end with the blocks of all pages of the range
(`deleteLoop_collects`). The counts are `int` in the end;
`deletion_exact_iff` says up to which number that does no harm.
-/
import Themis.Deletion
import Themis.Proofs.File.Tree

namespace Themis.Deletion

open Lib Log List Option Function
open File (entryAt getNvmm setTree novaGetWriteEntry pageMap mapped pageMap_some pageMap_none
  mapped_taken mapped_first mapped_empty hole_skipped)

variable {al : BlockAllocator} {st st' : State al} {ino start last : Nat}
variable {first p q : Nat}

-- === the pages

/-- A page map that goes with the entries' `invalid_pages`; no block is
mapped twice. -/
structure PageMapOk (st : State al) (ino : Nat) : Prop where
  within : ∀ p a, (st.info ino).tree.get p = some a →
    (entryAt st.nv a).pgoff ≤ p ∧ p < (entryAt st.nv a).pgoff + (entryAt st.nv a).numPages
  counted : ∀ p a, (st.info ino).tree.get p = some a →
    st.nv.invalid a + mapped (st.info ino).tree.get a (entryAt st.nv a).pgoff
      ((entryAt st.nv a).pgoff + (entryAt st.nv a).numPages) = (entryAt st.nv a).numPages
  nonzero : ∀ p x, pageMap st ino p = some x → x ≠ 0
  distinct : ∀ p q x, pageMap st ino p = some x → pageMap st ino q = some x → p = q

/-- The blocks of some pages. -/
def blocksIn (st : State al) (ino first last : Nat) : List Nat :=
  (List.range' first (last + 1 - first)).filterMap (pageMap st ino)

/-- A block of one of the pages. -/
theorem mem_blocksIn {x : Nat} :
    x ∈ blocksIn st ino first last ↔ ∃ p, first ≤ p ∧ p ≤ last ∧ pageMap st ino p = some x := by
  simp only [blocksIn, mem_filterMap, mem_range'_1]
  constructor
  · rintro ⟨p, ⟨h1, h2⟩, h3⟩
    exact ⟨p, h1, by omega, h3⟩
  · rintro ⟨p, h1, h2, h3⟩
    exact ⟨p, ⟨h1, by omega⟩, h3⟩

/-- No block twice. -/
theorem PageMapOk.nodup_blocksIn (h : PageMapOk st ino) (first last : Nat) :
    (blocksIn st ino first last).Nodup := by
  apply List.Nodup.filterMap _ nodup_range'
  intro p q x hp hq
  exact h.distinct p q x hp hq

/-- The first page. -/
theorem blocksIn_first (hp : p ≤ last) :
    blocksIn st ino p last = (pageMap st ino p).toList ++ blocksIn st ino (p + 1) last := by
  unfold blocksIn
  rw [show last + 1 - p = (last + 1 - (p + 1)) + 1 by omega, range'_succ, filterMap_cons]
  cases pageMap st ino p <;> rfl

/-- A hole has no blocks. -/
theorem blocksIn_hole (hpq : p ≤ q)
    (hnone : ∀ i, p ≤ i → i < q → i ≤ last → pageMap st ino i = none) :
    blocksIn st ino p last = blocksIn st ino q last := by
  induction q, hpq using Nat.le_induction with
  | base => rfl
  | succ q hpq ih =>
    rw [ih fun i h1 h2 h3 => hnone i h1 (by omega) h3]
    by_cases hq : q ≤ last
    · rw [blocksIn_first hq, hnone q hpq (by omega) hq]
      rfl
    · simp [blocksIn, show last + 1 - q = 0 by omega, show last + 1 - (q + 1) = 0 by omega]

/-- Only the map matters. -/
theorem blocksIn_congr (h : ∀ p, first ≤ p → pageMap st' ino p = pageMap st ino p) :
    blocksIn st' ino first last = blocksIn st ino first last := by
  apply filterMap_congr
  intro p hp
  exact h p (mem_range'_1.1 hp).1

-- === one page gone

/-- One page is removed. -/
def dropPage (st : State al) (ino a p : Nat) : State al :=
  (setTree st ino ((st.info ino).tree.delete p)).store (.invalidPages a (st.nv.invalid a + 1))

section DropPage

variable {a p : Nat}

/-- The tree after it. -/
theorem dropPage_get (q : Nat) : ((dropPage st ino a p).info ino).tree.get q
      = if q = p then none else (st.info ino).tree.get q := by
  simp only [dropPage, State.store_info, File.setTree_tree, Radix.delete, update_apply]

/-- The counters after it. -/
theorem dropPage_invalid (b : Nat) :
    (dropPage st ino a p).nv.invalid b = st.nv.invalid b + if b = a then 1 else 0 := by
  simp only [dropPage, State.store_nv, Nvmm.apply, setTree, State.setInfo_nv, update_apply]
  split
  · rename_i hb
    rw [hb]
  · rfl

/-- The entries after it. -/
theorem dropPage_entryAt (b : Nat) : entryAt (dropPage st ino a p).nv b = entryAt st.nv b := rfl

/-- The map after it. -/
theorem dropPage_pageMap (q : Nat) :
    pageMap (dropPage st ino a p) ino q = if q = p then none else pageMap st ino q := by
  unfold pageMap
  rw [dropPage_get]
  split <;> rfl

/-- The pages of an entry after it. -/
theorem mapped_dropPage (hp : (st.info ino).tree.get p = some a) (b lo hi : Nat) :
    mapped ((dropPage st ino a p).info ino).tree.get b lo hi
        + (if b = a ∧ lo ≤ p ∧ p < hi then 1 else 0) = mapped (st.info ino).tree.get b lo hi := by
  have herase : (Finset.Ico lo hi).filter
        (fun i => ((dropPage st ino a p).info ino).tree.get i = some b)
      = ((Finset.Ico lo hi).filter fun i => (st.info ino).tree.get i = some b).erase p := by
    ext i
    simp only [Finset.mem_filter, Finset.mem_erase, dropPage_get]
    by_cases hi : i = p
    · simp [hi]
    · simp [hi]
  have hmem : p ∈ (Finset.Ico lo hi).filter (fun i => (st.info ino).tree.get i = some b) ↔
      b = a ∧ lo ≤ p ∧ p < hi := by
    simp only [Finset.mem_filter, Finset.mem_Ico, hp, some.injEq]
    constructor
    · rintro ⟨h1, rfl⟩
      exact ⟨rfl, h1⟩
    · rintro ⟨rfl, h1⟩
      exact ⟨h1, rfl⟩
  unfold mapped
  rw [herase]
  split
  · rename_i hin
    exact Finset.card_erase_add_one (hmem.2 hin)
  · rename_i hout
    rw [Finset.erase_eq_of_notMem (mt hmem.1 hout), Nat.add_zero]

/-- The map stays in order. -/
theorem PageMapOk.dropPage (h : PageMapOk st ino)
    (hp : (st.info ino).tree.get p = some a) : PageMapOk (dropPage st ino a p) ino := by
  have hback : ∀ q b, ((Deletion.dropPage st ino a p).info ino).tree.get q = some b →
      (st.info ino).tree.get q = some b := by
    intro q b hq
    rw [dropPage_get] at hq
    split at hq
    · cases hq
    · exact hq
  have hmap : ∀ q x, pageMap (Deletion.dropPage st ino a p) ino q = some x →
      pageMap st ino q = some x := by
    intro q x hq
    rw [dropPage_pageMap] at hq
    split at hq
    · cases hq
    · exact hq
  refine ⟨?_, ?_, ?_, ?_⟩
  · intro q b hq
    exact h.within q b (hback q b hq)
  · intro q b hq
    have hcount := h.counted q b (hback q b hq)
    rw [← mapped_dropPage hp] at hcount
    rw [dropPage_invalid, dropPage_entryAt]
    by_cases hba : b = a
    · have hin := h.within p a hp
      rw [← hba] at hin
      rw [if_pos ⟨hba, hin⟩] at hcount
      rw [if_pos hba]
      omega
    rw [if_neg fun hcon => hba hcon.1] at hcount
    rw [if_neg hba]
    exact hcount
  · intro q x hq
    exact h.nonzero q x (hmap q x hq)
  · intro q r x hq hr
    exact h.distinct q r x (hmap q x hq) (hmap r x hr)

/-- A mapped entry has a page to count. -/
theorem PageMapOk.not_exhausted (h : PageMapOk st ino) (hp : (st.info ino).tree.get p = some a) :
    ¬ (entryAt st.nv a).numPages < st.nv.invalid a + 1 := by
  have hcount := h.counted p a hp
  rw [← mapped_dropPage hp, if_pos ⟨rfl, h.within p a hp⟩] at hcount
  omega

/-- A page is freed. -/
theorem PageMapOk.free_page (h : PageMapOk st ino)
    (hp : (st.info ino).tree.get p = some a) (v : Vars) :
    novaFreeContiguousDataBlocks (setTree st ino ((st.info ino).tree.delete p)) a p 1 v
      = (Deletion.dropPage st ino a p, v.take (getNvmm st.nv a p) 1) := by
  exact if_neg (h.not_exhausted hp)

end DropPage

/-- A hole adds no page. -/
theorem mapped_hole {tree : Nat → Option Nat} (hpq : p ≤ q)
    (hnone : ∀ i, p ≤ i → i < q → tree i = none) (b hi : Nat) :
    mapped tree b q hi = mapped tree b p hi := by
  unfold mapped
  congr 1
  ext i
  simp only [Finset.mem_filter, Finset.mem_Ico]
  constructor
  · rintro ⟨h1, h2⟩
    exact ⟨⟨by omega, h1.2⟩, h2⟩
  rintro ⟨h1, h2⟩
  refine ⟨⟨?_, h1.2⟩, h2⟩
  by_contra hlt
  rw [hnone i h1.1 (by omega)] at h2
  cases h2

-- === the runs

/-- The runs given back, the pending one last, are the blocks `B`; the
numbers are those of the runs, as `int`. -/
structure Collected (v : Vars) (runs : List (Nat × Nat)) (B : List Nat) : Prop where
  calls : v.calls = runs.map fun c => (c.1, intOfUlong c.2)
  freed : v.freed = intOfUlong (runs.map Prod.snd).sum
  some_ : ∀ c ∈ runs, 0 < c.1 ∧ 0 < c.2
  pending : v.freeBlocknr = 0 ↔ v.numFree = 0
  blocks : runs.flatMap (fun c => List.range' c.1 c.2) ++ List.range' v.freeBlocknr v.numFree
    = B

/-- Nothing collected. -/
theorem Collected.initial : Collected ⟨0, 0, 0, []⟩ [] [] := ⟨rfl, rfl, by simp, by simp, rfl⟩

/-- The sum in an `int`. -/
theorem addInt_intOfUlong (m n : Nat) :
    addInt (intOfUlong m) (intOfUlong n) = intOfUlong (m + n) := by
  unfold addInt intOfUlong
  rw [Int.bmod_add_bmod, Int.add_bmod_bmod]
  rfl

/-- One more block is collected. -/
theorem Collected.take {v : Vars} {runs : List (Nat × Nat)} {B : List Nat}
    (h : Collected v runs B) {x : Nat} (hx : x ≠ 0) :
    ∃ runs', Collected (v.take x 1) runs' (B ++ [x]) := by
  unfold Vars.take
  by_cases h0 : v.freeBlocknr = 0
  · -- the first run
    rw [if_pos h0]
    refine ⟨runs, h.calls, h.freed, h.some_, by simp [hx], ?_⟩
    have hB := h.blocks
    rw [h.pending.1 h0] at hB
    simp only [range'_zero, append_nil] at hB
    rw [hB]
    rfl
  rw [if_neg h0]
  have hpos : v.numFree ≠ 0 := mt h.pending.2 h0
  by_cases hnext : x = v.freeBlocknr + v.numFree
  · -- the block behind the run
    rw [if_pos hnext]
    refine ⟨runs, h.calls, h.freed, h.some_, by simp [h0], ?_⟩
    rw [← h.blocks, append_assoc]
    congr 1
    rw [hnext]
    rw [range'_concat, Nat.one_mul]
  -- a new run
  rw [if_neg hnext]
  refine ⟨runs ++ [(v.freeBlocknr, v.numFree)], ?_, ?_, ?_, by simp [hx], ?_⟩
  · simp [h.calls]
  · simp only [h.freed, addInt_intOfUlong]
    simp
  · intro c hc
    rcases mem_append.1 hc with hc | hc
    · exact h.some_ c hc
    · rw [mem_singleton.1 hc]
      exact ⟨Nat.pos_of_ne_zero h0, Nat.pos_of_ne_zero hpos⟩
  · rw [← h.blocks]
    simp

/-- The loop collects all blocks. -/
theorem deleteLoop_collects {rounds pgoff : Nat} {v : Vars} {runs : List (Nat × Nat)}
    {B : List Nat} (h : PageMapOk st ino) (hv : Collected v runs B)
    (hrounds : last + 1 - pgoff < rounds) :
    ∃ st' v' runs', deleteLoop ino last true rounds st pgoff v = some (st', v') ∧
      Collected v' runs' (B ++ blocksIn st ino pgoff last) ∧ (∀ p, (st'.info ino).tree.get p
        = if pgoff ≤ p ∧ p ≤ last then none else (st.info ino).tree.get p) ∧ ∀ b, st'.nv.invalid b
        = st.nv.invalid b + mapped (st.info ino).tree.get b pgoff (last + 1) := by
  have hempty : ∀ (st : State al) (pgoff : Nat), (∀ p, pgoff ≤ p → p ≤ last →
      (st.info ino).tree.get p = none) → blocksIn st ino pgoff last = [] ∧
      (∀ p, (st.info ino).tree.get p
        = if pgoff ≤ p ∧ p ≤ last then none else (st.info ino).tree.get p) ∧
      ∀ b, mapped (st.info ino).tree.get b pgoff (last + 1) = 0 := by
    intro st pgoff hnone
    refine ⟨?_, ?_, ?_⟩
    · rw [eq_nil_iff_forall_not_mem]
      intro x hx
      obtain ⟨p, h1, h2, h3⟩ := mem_blocksIn.1 hx
      rw [pageMap_none (hnone p h1 h2)] at h3
      cases h3
    · intro p
      split
      · rename_i hp
        exact hnone p hp.1 hp.2
      · rfl
    intro b
    rw [mapped, Finset.card_eq_zero, Finset.filter_eq_empty_iff]
    intro p hp
    rw [Finset.mem_Ico] at hp
    rw [hnone p hp.1 (by omega)]
    simp
  induction rounds generalizing st pgoff v runs B with
  | zero => omega
  | succ rounds ih =>
    by_cases hin : pgoff ≤ last
    swap
    · -- behind the range
      obtain ⟨h1, h2, h3⟩ := hempty st pgoff fun p h1 h2 => by omega
      refine ⟨st, v, runs, by simp [deleteLoop, hin], ?_, h2, fun b => by rw [h3]; rfl⟩
      rw [h1, append_nil]
      exact hv
    cases hp : (st.info ino).tree.get pgoff with
    | some a =>
      obtain ⟨runs1, hv1⟩ := hv.take (h.nonzero pgoff _ (pageMap_some hp))
      obtain ⟨st', v', runs', hres, hcol, htree, hinv⟩ :=
        ih (h.dropPage hp) hv1 (by omega : last + 1 - (pgoff + 1) < rounds)
      refine ⟨st', v', runs', ?_, ?_, ?_, ?_⟩
      · simp only [deleteLoop, if_pos hin, novaGetWriteEntry, hp, if_true, h.free_page hp]
        exact hres
      · have hsame : blocksIn (dropPage st ino a pgoff) ino (pgoff + 1) last
            = blocksIn st ino (pgoff + 1) last := by
          apply blocksIn_congr
          intro p hle
          rw [dropPage_pageMap, if_neg (by omega)]
        rw [hsame] at hcol
        rw [blocksIn_first hin, pageMap_some hp, ← append_assoc]
        exact hcol
      · intro p
        rw [htree p, dropPage_get]
        by_cases h1 : p = pgoff
        · rw [if_neg (by omega), if_pos h1, if_pos (by omega)]
        by_cases h2 : pgoff ≤ p ∧ p ≤ last
        · rw [if_pos (by omega), if_pos h2]
        · rw [if_neg (by omega), if_neg h1, if_neg h2]
      intro b
      have hcount := mapped_dropPage hp b pgoff (last + 1)
      have hfirst := mapped_first ((dropPage st ino a pgoff).info ino).tree.get b
        (show pgoff < last + 1 by omega)
      rw [dropPage_get, if_neg (by simp), Nat.zero_add] at hfirst
      rw [hinv b, dropPage_invalid, ← hcount, hfirst]
      by_cases hba : b = a
      · rw [if_pos hba, if_pos ⟨hba, le_rfl, by omega⟩]
        omega
      · rw [if_neg hba, if_neg fun hcon => hba hcon.1]
        rfl
    | none =>
      cases hg : (st.info ino).tree.gangLookup pgoff with
      | none =>
        obtain ⟨h1, h2, h3⟩ := hempty st pgoff
          fun p h1 _ => Radix.gangLookup_eq_none hg h1
        refine ⟨st, v, runs, by simp [deleteLoop, hin, novaGetWriteEntry, hp, hg], ?_,
          h2, fun b => by rw [h3]; rfl⟩
        rw [h1, append_nil]
        exact hv
      | some a =>
        have hskip := hole_skipped (fun i b hi => (h.within i b hi).1) hp hg
        generalize hq : max (pgoff + 1) (entryAt st.nv a).pgoff = q at hskip
        have hpq : pgoff < q := by omega
        obtain ⟨st', v', runs', hres, hcol, htree, hinv⟩ :=
          ih h hv (by omega : last + 1 - q < rounds)
        refine ⟨st', v', runs', ?_, ?_, ?_, ?_⟩
        · simp only [deleteLoop, if_pos hin, novaGetWriteEntry, hp, hg, hq]
          exact hres
        · rw [blocksIn_hole hpq.le fun i h1 h2 _ => pageMap_none (hskip i h1 h2)]
          exact hcol
        · intro p
          rw [htree p]
          by_cases h1 : q ≤ p ∧ p ≤ last
          · rw [if_pos h1, if_pos ⟨by omega, h1.2⟩]
          rw [if_neg h1]
          split
          · rename_i h2
            exact hskip p h2.1 (by omega)
          · rfl
        · intro b
          rw [hinv b, mapped_hole hpq.le hskip]

-- === the end

/-- The range is gone from the tree, its blocks were handed to the
allocator, each once, every entry counts the pages it has lost, and the
number of blocks is returned. -/
structure DeletedExactly (st st' : State al) (ino start last : Nat) (calls : List (Nat × Int))
    (ret : Int) : Prop where
  tree : ∀ p, (st'.info ino).tree.get p
    = if start ≤ p ∧ p ≤ last then none else (st.info ino).tree.get p
  once : (calls.flatMap handed).Nodup
  blocks : ∀ x, x ∈ calls.flatMap handed ↔
    ∃ p, start ≤ p ∧ p ≤ last ∧ pageMap st ino p = some x
  invalid : ∀ a, st'.nv.invalid a
    = st.nv.invalid a + mapped (st.info ino).tree.get a start (last + 1)
  ret_eq : ret = (calls.flatMap handed).length

/-- The runs that are freed. -/
theorem novaDeleteFileTree_runs (h : PageMapOk st ino) (start last : Nat) :
    ∃ (st' : State al) (runs : List (Nat × Nat)), novaDeleteFileTree st ino start last true
        = some (st', runs.map (fun c => (c.1, intOfUlong c.2)),
            intOfUlong (blocksIn st ino start last).length) ∧ (∀ c ∈ runs, 0 < c.1 ∧ 0 < c.2) ∧
      runs.flatMap (fun c => List.range' c.1 c.2) = blocksIn st ino start last ∧
      (∀ p, (st'.info ino).tree.get p
        = if start ≤ p ∧ p ≤ last then none else (st.info ino).tree.get p) ∧ ∀ b, st'.nv.invalid b
        = st.nv.invalid b + mapped (st.info ino).tree.get b start (last + 1) := by
  have hsum : ∀ runs : List (Nat × Nat),
      (runs.flatMap fun c => range' c.1 c.2).length = (runs.map Prod.snd).sum := by
    intro runs
    simp [length_flatMap]
  obtain ⟨st', v, runs, hres, hcol, htree, hinv⟩ := deleteLoop_collects h Collected.initial
    (Nat.lt_succ_self (last + 1 - start))
  rw [nil_append] at hcol
  have hblocks := hcol.blocks
  by_cases h0 : v.freeBlocknr = 0
  · -- nothing was mapped
    rw [hcol.pending.1 h0, range'_zero, append_nil] at hblocks
    refine ⟨st', runs, ?_, hcol.some_, hblocks, htree, hinv⟩
    simp only [novaDeleteFileTree, hres, map_some, h0, ne_eq, not_true_eq_false,
      if_false, hcol.calls, hcol.freed, ← hblocks, hsum]
  have hpos : v.numFree ≠ 0 := mt hcol.pending.2 h0
  refine ⟨st', runs ++ [(v.freeBlocknr, v.numFree)], ?_, ?_, ?_, htree, hinv⟩
  · simp only [novaDeleteFileTree, hres, map_some, ne_eq, h0, not_false_eq_true,
      if_true, hcol.calls, hcol.freed, addInt_intOfUlong, ← hblocks, length_append,
      hsum, length_range', map_append, map_cons, map_nil]
  · intro c hc
    rcases mem_append.1 hc with hc | hc
    · exact hcol.some_ c hc
    · rw [mem_singleton.1 hc]
      exact ⟨Nat.pos_of_ne_zero h0, Nat.pos_of_ne_zero hpos⟩
  · rw [← hblocks]
    simp

/-- A value of an `int`. -/
theorem intOfUlong_lt (n : Nat) : intOfUlong n < 2 ^ 31 := by
  unfold intOfUlong
  rw [Int.bmod_def]
  split <;> omega

/-- `nova_delete_file_tree` frees exactly the mapped blocks, and says how
many, if and only if there are fewer than 2^31 of them. -/
theorem deletion_exact_iff (h : PageMapOk st ino) (start last : Nat) :
    (∃ st' calls ret, novaDeleteFileTree st ino start last true = some (st', calls, ret) ∧
      DeletedExactly st st' ino start last calls ret) ↔
    (blocksIn st ino start last).length < 2 ^ 31 := by
  obtain ⟨st', runs, hres, hsome, hblocks, htree, hinv⟩ := novaDeleteFileTree_runs h start last
  have hnodup := h.nodup_blocksIn start last
  constructor
  · rintro ⟨st₁, calls, ret, hres₁, hd⟩
    rw [hres, some.injEq, Prod.mk.injEq, Prod.mk.injEq] at hres₁
    have hlen : (calls.flatMap handed).length = (blocksIn st ino start last).length := by
      apply List.Perm.length_eq
      rw [perm_ext_iff_of_nodup hd.once hnodup]
      intro x
      rw [hd.blocks, mem_blocksIn]
    have hret := hd.ret_eq
    rw [← hres₁.2.2, hlen] at hret
    have hlt := intOfUlong_lt (blocksIn st ino start last).length
    omega
  intro hlt
  -- no run is longer than all of them
  have hshort : ∀ c ∈ runs, handed (c.1, intOfUlong c.2) = range' c.1 c.2 := by
    intro c hc
    have hle : c.2 ≤ (blocksIn st ino start last).length := by
      obtain ⟨X, Y, hXY⟩ := append_of_mem hc
      rw [← hblocks, hXY]
      simp only [flatMap_append, flatMap_cons, length_append, length_range']
      omega
    obtain ⟨h1, h2⟩ := hsome c hc
    have hint : intOfUlong c.2 = c.2 := intOfUlong_of_le (by unfold INT_MAX; omega)
    rw [handed, hint, if_neg (by omega), Int.toNat_natCast]
  have hall : (runs.map fun c => (c.1, intOfUlong c.2)).flatMap handed
      = blocksIn st ino start last := by
    rw [flatMap_map, ← hblocks]
    exact flatMap_congr hshort
  refine ⟨st', _, _, hres, htree, ?_, ?_, hinv, ?_⟩
  · rw [hall]
    exact hnodup
  · intro x
    rw [hall, mem_blocksIn]
  · rw [hall]
    exact intOfUlong_of_le (by unfold INT_MAX; omega)

/-- A file of `n` pages, each written on its own, to adjacent blocks. -/
def onePageEach (n : Nat) : State (BlockAllocator.ascending 64) where
  nv :=
    { slot := fun a => .fileWrite ⟨(a - 4096) / 40, 1, 9 + (a - 4096) / 40, 0, n * PAGE_SIZE⟩
      invalid := fun _ => 0
      next := fun _ => 0
      logHead := fun _ => 4096
      logTail := fun _ => 4136
      record := fun _ => ⟨n * PAGE_SIZE, ⟨0o100644, 0, 0, 0, 0, 0⟩, 1, 4096, 4136⟩ }
  data := fun _ => 0
  alloc := { next := 9, returned := fun _ => false }
  info := fun _ =>
    { tree := ⟨fun p => if p < n then some (4096 + 40 * p) else none, n, fun p hp => if_neg (by omega)⟩
      logPages := 1
      lastSetattr := 0
      lastLinkChange := 0
      sihSize := n * PAGE_SIZE
      iSize := n * PAGE_SIZE
      attrs := ⟨0o100644, 0, 0, 0, 0, 0⟩ }
  trace := []

/-- The tree of that file. -/
theorem onePageEach_get (n p : Nat) :
    ((onePageEach n).info 5).tree.get p = if p < n then some (4096 + 40 * p) else none := rfl

/-- The map of that file. -/
theorem onePageEach_pageMap (n p : Nat) :
    pageMap (onePageEach n) 5 p = if p < n then some (9 + p) else none := by
  unfold pageMap
  rw [onePageEach_get]
  split
  · show some (9 + (4096 + 40 * p - 4096) / 40 + p - (4096 + 40 * p - 4096) / 40) = _
    congr 1
    omega
  · rfl

/-- It is in order. -/
theorem onePageEach_ok (n : Nat) : PageMapOk (onePageEach n) 5 := by
  have hget : ∀ p a, ((onePageEach n).info 5).tree.get p = some a → p < n ∧ (a - 4096) / 40 = p := by
    intro p a hp
    rw [onePageEach_get, ite_none_right_eq_some, some.injEq] at hp
    exact ⟨hp.1, by omega⟩
  have hmap : ∀ p x, pageMap (onePageEach n) 5 p = some x → 9 + p = x := by
    intro p x hp
    rw [onePageEach_pageMap, ite_none_right_eq_some, some.injEq] at hp
    exact hp.2
  refine ⟨?_, ?_, ?_, ?_⟩
  · intro p a hp
    obtain ⟨-, ha⟩ := hget p a hp
    show (a - 4096) / 40 ≤ p ∧ p < (a - 4096) / 40 + 1
    omega
  · intro p a hp
    obtain ⟨-, ha⟩ := hget p a hp
    show 0 + mapped ((onePageEach n).info 5).tree.get a ((a - 4096) / 40) ((a - 4096) / 40 + 1) = 1
    rw [mapped, Finset.filter_true_of_mem]
    · simp
    intro q hq
    rw [Finset.mem_Ico] at hq
    rw [show q = p by omega, hp]
  · intro p x hp
    have := hmap p x hp
    omega
  intro p q x hp hq
  have h1 := hmap p x hp
  have h2 := hmap q x hq
  omega

/-- Its blocks. -/
theorem onePageEach_blocksIn (n : Nat) (hn : 0 < n) :
    blocksIn (onePageEach n) 5 0 (n - 1) = List.range' 9 n := by
  have hall : ∀ p ∈ range' 0 n, pageMap (onePageEach n) 5 p = (some ∘ fun p => 9 + p) p := by
    intro p hp
    rw [mem_range'_1] at hp
    rw [onePageEach_pageMap, if_pos (by omega)]
    rfl
  unfold blocksIn
  rw [show n - 1 + 1 - 0 = n by omega, filterMap_congr hall]
  apply ext_getElem
  · simp
  · intro i h1 h2
    simp

/-- Three pages: three blocks are given back. -/
theorem deletion_exact_iff_three :
    ∃ st' calls ret, novaDeleteFileTree (onePageEach 3) 5 0 2 true = some (st', calls, ret) ∧
      DeletedExactly (onePageEach 3) st' 5 0 2 calls ret := by
  apply (deletion_exact_iff (onePageEach_ok 3) 0 2).2
  decide

/-- 2^31 pages: the allocator is called with -2^31 blocks, and that is what
is returned. -/
theorem deletion_of_many_pages :
    PageMapOk (onePageEach (2 ^ 31)) 5 ∧
      (∃ st' calls, novaDeleteFileTree (onePageEach (2 ^ 31)) 5 0 (2 ^ 31 - 1) true
        = some (st', calls, -2 ^ 31)) ∧
      ¬ ∃ st' calls ret, novaDeleteFileTree (onePageEach (2 ^ 31)) 5 0 (2 ^ 31 - 1) true
          = some (st', calls, ret) ∧
        DeletedExactly (onePageEach (2 ^ 31)) st' 5 0 (2 ^ 31 - 1) calls ret := by
  obtain ⟨st', runs, hres, -⟩ := novaDeleteFileTree_runs (onePageEach_ok (2 ^ 31)) 0 (2 ^ 31 - 1)
  have hlen : (blocksIn (onePageEach (2 ^ 31)) 5 0 (2 ^ 31 - 1)).length = 2 ^ 31 := by
    rw [onePageEach_blocksIn _ (by decide), length_range']
  rw [hlen, show intOfUlong (2 ^ 31) = -2 ^ 31 by decide] at hres
  refine ⟨onePageEach_ok _, ⟨st', _, hres⟩, ?_⟩
  rintro ⟨st₁, calls, ret, hres₁, hd⟩
  rw [hres, some.injEq, Prod.mk.injEq, Prod.mk.injEq] at hres₁
  have hret := hd.ret_eq
  rw [← hres₁.2.2] at hret
  omega

end Themis.Deletion
