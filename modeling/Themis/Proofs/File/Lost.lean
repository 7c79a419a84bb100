/-
Reads after a crash that loses increments of `invalid_pages`.

The field is counted up in place and never flushed, so after a crash it
can be lower than it was. The page map does not suffer: the entries that a
rebuild replays in addition are hidden by later ones
(`FileOk.recover_lost`). The reader does: it copies a whole extent where
`invalid_pages` is 0. So every read takes every page from its block exactly
if no extent whose counter is back at 0 has given up a page behind one that
it still maps (`reads_after_crash_iff`).
-/
import Themis.Proofs.File.Content

namespace Themis.File

open Lib Log Option

variable {al : BlockAllocator} {st st' : State al} {ino : Nat} {L pages : List Nat}
variable {index isize len a p : Nat} {c : Chunk}

-- === what is read

/-- The chunk has bytes of page `p`. -/
def Chunk.Covers (c : Chunk) (p : Nat) : Prop :=
  c.index ≤ p ∧ c.offset < (p + 1 - c.index) * PAGE_SIZE ∧
    (p - c.index) * PAGE_SIZE < c.offset + c.nr

instance (c : Chunk) (p : Nat) : Decidable (c.Covers p) :=
  inferInstanceAs (Decidable (_ ∧ _ ∧ _))

/-- The block it reads page `p` from. -/
def Chunk.blockOf (c : Chunk) (p : Nat) : Option Nat := c.nvmm.map (· + (p - c.index))

/-- Every read takes page `p` from block `map p`. -/
def ReadsFrom (st : State al) (ino : Nat) (map : Nat → Option Nat) : Prop :=
  ∀ pos len, ∀ c ∈ (doDaxMappingRead st ino pos len true).2, ∀ p, c.Covers p →
    c.blockOf p = map p

/-- Where a counter of `inv` is 0, the pages of the extent behind a page
that it maps are at the blocks of the extent. -/
def TailsMapped (st : State al) (ino : Nat) (inv : Nat → Nat) : Prop :=
  ∀ q a, (st.info ino).tree.get q = some a → inv a = 0 →
    ∀ j, q ≤ j → j < (entryAt st.nv a).pgoff + (entryAt st.nv a).numPages →
      j < pagesFor (st.info ino).iSize → pageMap st ino j = some (getNvmm st.nv a j)

-- === one round

/-- Hole or entry, and the room there. -/
theorem readSource_cases {room : Nat} {nvmm : Option Nat}
    (h : readSource st ino index = some (nvmm, room)) :
    (nvmm = none ∧ (st.info ino).tree.get index = none ∧ room = 1 * PAGE_SIZE) ∨
      ∃ a n, (st.info ino).tree.get index = some a ∧
        nvmm = some (getNvmm st.nv a index) ∧ room = n * PAGE_SIZE ∧ 0 < n ∧
        (entryAt st.nv a).pgoff ≤ index ∧ n = if st.nv.invalid a = 0 then
          (entryAt st.nv a).numPages - (index - (entryAt st.nv a).pgoff) else 1 := by
  unfold readSource novaGetWriteEntry at h
  cases hget : (st.info ino).tree.get index with
  | none =>
    rw [hget] at h
    simp only [some.injEq, Prod.mk.injEq] at h
    exact .inl ⟨h.1.symm, rfl, by rw [← h.2, Nat.one_mul]⟩
  | some a =>
    rw [hget] at h
    simp only at h
    split at h
    · cases h
    simp only [some.injEq, Prod.mk.injEq] at h
    refine .inr ⟨a, _, rfl, h.1.symm, ?_, ?_, by omega, rfl⟩
    · rw [← h.2]
      split
      · rfl
      · rw [Nat.one_mul]
    split
    · omega
    · exact Nat.one_pos

/-- A chunk comes from the source at its index and lies in the file. -/
structure Chunk.From (c : Chunk) (st : State al) (ino isize : Nat) : Prop where
  offset : c.offset < PAGE_SIZE
  source : ∃ room, readSource st ino c.index = some (c.nvmm, room) ∧
    c.offset + c.nr ≤ room
  inside : c.index * PAGE_SIZE + c.offset + c.nr ≤ isize

/-- Where the chunks of the loop come from. -/
theorem mem_readLoop : ∀ rounds index offset copied, offset < PAGE_SIZE →
      index * PAGE_SIZE + offset + (len - copied) ≤ isize →
      c ∈ (readLoop st ino isize len rounds index offset copied).2 → c.From st ino isize := by
  intro rounds
  induction rounds with
  | zero =>
    intro index offset copied _ _ hc
    simp [readLoop] at hc
  | succ rounds ih =>
    intro index offset copied hoff hin hc
    unfold readLoop at hc
    simp only at hc
    split at hc
    · cases hc
    cases hsrc : readSource st ino index with
    | none =>
      rw [hsrc] at hc
      cases hc
    | some src =>
      obtain ⟨nvmm, room⟩ := src
      rw [hsrc] at hc
      simp only at hc
      have hroom : PAGE_SIZE ≤ room := by
        rcases readSource_cases hsrc with ⟨-, -, hr⟩ | ⟨a, n, -, -, hr, hn, -⟩
        · rw [hr, Nat.one_mul]
        · rw [hr]
          exact Nat.le_mul_of_pos_left _ hn
      generalize hnr : min (room - offset) (len - copied) = nr at hc
      have hfirst : (Chunk.mk index offset nr nvmm).From st ino isize := by
        refine ⟨hoff, ⟨room, hsrc, ?_⟩, ?_⟩
        · show offset + nr ≤ room
          omega
        · show index * PAGE_SIZE + offset + nr ≤ isize
          omega
      split at hc
      · rcases List.mem_cons.1 hc with rfl | hc
        · exact hfirst
        · apply ih _ _ _ (mod_page_lt _) _ hc
          rw [next_position]
          omega
      · rw [List.mem_singleton.1 hc]
        exact hfirst

/-- Where the chunks of a read come from. -/
theorem mem_doDaxMappingRead {pos : Nat} (hsize : (st.info ino).iSize < 2 ^ 63)
    (hc : c ∈ (doDaxMappingRead st ino pos len true).2) : c.From st ino (st.info ino).iSize := by
  unfold doDaxMappingRead at hc
  simp only [Bool.not_true, Bool.false_eq_true, if_false] at hc
  split at hc
  · cases hc
  split at hc
  · cases hc
  rename_i hlen
  have hmem : c ∈ (readLoop st ino (st.info ino).iSize (readLength len (st.info ino).iSize pos)
      (readLength len (st.info ino).iSize pos) (pos / PAGE_SIZE) (pos % PAGE_SIZE) 0).2 := by
    split at hc <;> exact hc
  by_cases hend : (st.info ino).iSize ≤ pos
  · -- behind the end
    obtain ⟨k, hk⟩ := Nat.exists_eq_succ_of_ne_zero hlen
    rw [hk, readLoop] at hmem
    rw [if_pos (at_end (by omega) hend)] at hmem
    cases hmem
  apply mem_readLoop _ _ _ _ (mod_page_lt _) _ hmem
  rw [Nat.div_add_mod', readLength_eq hsize (by omega)]
  omega

-- === blocks of a chunk

/-- Blocks of an entry are consecutive. -/
theorem getNvmm_add {nv : Nvmm} (h1 : (entryAt nv a).pgoff ≤ index) (h2 : index ≤ p) :
    getNvmm nv a index + (p - index) = getNvmm nv a p := by
  unfold getNvmm
  omega

/-- A page of the file. -/
theorem lt_pagesFor : p < pagesFor isize ↔ p * PAGE_SIZE < isize := by
  unfold pagesFor PAGE_SIZE
  omega

/-- The pages of a chunk. -/
theorem Chunk.From.page {n : Nat} (h : c.From st ino isize) (hp : c.Covers p)
    (hroom : c.offset + c.nr ≤ n * PAGE_SIZE) : p < c.index + n ∧ p < pagesFor isize := by
  obtain ⟨h1, -, h3⟩ := hp
  have hin := h.inside
  rw [lt_pagesFor]
  obtain ⟨k, rfl⟩ := Nat.exists_eq_add_of_le h1
  rw [Nat.add_sub_cancel_left] at h3
  have hk : k * PAGE_SIZE < n * PAGE_SIZE := by omega
  refine ⟨Nat.add_lt_add_left (Nat.lt_of_mul_lt_mul_right hk) _, ?_⟩
  rw [Nat.add_mul]
  omega

/-- The block of a chunk is that of the map. -/
theorem Chunk.From.blockOf_eq (h : c.From st ino (st.info ino).iSize) (hp : c.Covers p)
    (htails : TailsMapped st ino st.nv.invalid) : c.blockOf p = pageMap st ino p := by
  obtain ⟨room, hsrc, hroom⟩ := h.source
  have hle := hp.1
  rcases readSource_cases hsrc with ⟨hnv, hget, hr⟩ | ⟨a, n, hget, hnv, hr, -, hpgoff, hn⟩
  · rw [hr] at hroom
    have hpage : p = c.index := by
      have := (h.page hp hroom).1
      omega
    rw [Chunk.blockOf, hnv, hpage, pageMap_none hget]
    rfl
  rw [hr] at hroom
  obtain ⟨hlt, hsize⟩ := h.page hp hroom
  rw [Chunk.blockOf, hnv, map_some, getNvmm_add hpgoff hle]
  by_cases hinv : st.nv.invalid a = 0
  · rw [if_pos hinv] at hn
    exact (htails c.index a hget hinv p hle (by omega) hsize).symm
  rw [if_neg hinv] at hn
  have hpage : p = c.index := by omega
  rw [hpage]
  exact (pageMap_some hget).symm

/-- A read of one byte. -/
theorem doDaxMappingRead_one {q j : Nat} (hsize : (st.info ino).iSize < 2 ^ 63)
    (hget : (st.info ino).tree.get q = some a) (hinv : st.nv.invalid a = 0)
    (hpgoff : (entryAt st.nv a).pgoff ≤ q) (hqj : q ≤ j)
    (hj : j < (entryAt st.nv a).pgoff + (entryAt st.nv a).numPages)
    (hin : j < pagesFor (st.info ino).iSize) :
    ∃ c ∈ (doDaxMappingRead st ino (q * PAGE_SIZE) ((j - q) * PAGE_SIZE + 1) true).2,
      c.Covers j ∧ c.blockOf j = some (getNvmm st.nv a j) := by
  rw [lt_pagesFor] at hin
  obtain ⟨k, rfl⟩ := Nat.exists_eq_add_of_le hqj
  rw [Nat.add_sub_cancel_left]
  have hmul : (q + k) * PAGE_SIZE = q * PAGE_SIZE + k * PAGE_SIZE := Nat.add_mul _ _ _
  have hlen : readLength (k * PAGE_SIZE + 1) (st.info ino).iSize (q * PAGE_SIZE)
      = k * PAGE_SIZE + 1 := by
    rw [readLength_eq hsize (by omega)]
    omega
  have hsrc : readSource st ino q = some (some (getNvmm st.nv a q),
      ((entryAt st.nv a).numPages - (q - (entryAt st.nv a).pgoff)) * PAGE_SIZE) := by
    unfold readSource novaGetWriteEntry
    rw [hget]
    simp only
    rw [if_neg (by omega), if_pos hinv]
  have hroom : (k + 1) * PAGE_SIZE
      ≤ ((entryAt st.nv a).numPages - (q - (entryAt st.nv a).pgoff)) * PAGE_SIZE :=
    Nat.mul_le_mul_right _ (by omega)
  rw [Nat.add_mul] at hroom
  have hpage : 1 ≤ PAGE_SIZE := by decide
  have hq0 : q * PAGE_SIZE % PAGE_SIZE = 0 := Nat.mul_mod_left _ _
  have hqd : q * PAGE_SIZE / PAGE_SIZE = q := Nat.mul_div_cancel _ (by decide)
  have hloop : readLoop st ino (st.info ino).iSize (k * PAGE_SIZE + 1)
      (k * PAGE_SIZE + 1) q 0 0 = (0, [⟨q, 0, k * PAGE_SIZE + 1, some (getNvmm st.nv a q)⟩]) := by
    rw [readLoop]
    rw [if_neg (not_at_end (by omega) (by omega)), hsrc]
    simp only
    generalize ((entryAt st.nv a).numPages - (q - (entryAt st.nv a).pgoff)) * PAGE_SIZE = room at *
    have hnr : min (room - 0) (k * PAGE_SIZE + 1 - 0) = k * PAGE_SIZE + 1 := by omega
    rw [hnr, if_neg (by omega)]
  refine ⟨⟨q, 0, k * PAGE_SIZE + 1, some (getNvmm st.nv a q)⟩, ?_, ⟨hqj, ?_, ?_⟩, ?_⟩
  · unfold doDaxMappingRead
    simp only [Bool.not_true, Bool.false_eq_true, if_false, hlen, hq0, hqd]
    rw [if_neg (by omega), hloop]
    simp
  · show 0 < (q + k + 1 - q) * PAGE_SIZE
    exact Nat.mul_pos (by omega) hpage
  · show (q + k - q) * PAGE_SIZE < 0 + (k * PAGE_SIZE + 1)
    rw [Nat.add_sub_cancel_left]
    omega
  · show some (getNvmm st.nv a q + (q + k - q)) = _
    rw [getNvmm_add hpgoff hqj]

/-- When reads follow the map. -/
theorem readsFrom_iff (hsize : (st.info ino).iSize < 2 ^ 63) (hstarts : StartsOk st ino) :
    ReadsFrom st ino (pageMap st ino) ↔ TailsMapped st ino st.nv.invalid := by
  constructor
  · intro h q a hget hinv j hqj hj hin
    obtain ⟨c, hc, hcov, hblock⟩ :=
      doDaxMappingRead_one hsize hget hinv (hstarts q a hget) hqj hj hin
    rw [← hblock]
    exact (h _ _ c hc j hcov).symm
  · intro h pos len c hc p hp
    exact (mem_doDaxMappingRead hsize hc).blockOf_eq hp h

-- === after a crash

/-- The block that the entries `L` record for page `p`: that of the last
write that covers it, unless it was cut off behind that. -/
def recordedBlock (nv : Nvmm) (L : List Nat) (p : Nat) : Option Nat :=
  (lastEvent (pageEvent nv.slot p) L).join.map fun a => getNvmm nv a p

/-- The log records the blocks of the map. -/
theorem FileOk.recordedBlock_eq (h : FileOk st ino L pages) :
    recordedBlock st.nv L = pageMap st ino := by
  funext p
  rw [recordedBlock, ← h.file.replayable.map p]
  cases hget : (st.info ino).tree.get p with
  | none => exact (pageMap_none hget).symm
  | some a => exact (pageMap_some hget).symm

/-- After a crash that lowers counters, the file is read back, and reads
take each page from the block recorded for it, exactly if the extents with
counter 0 are whole behind the pages they map. -/
theorem reads_after_crash_iff (h : FileRun ino st) (hsize : (st.info ino).iSize < 2 ^ 63)
    {inv : Nat → Nat} (hle : ∀ a, inv a ≤ st.nv.invalid a) :
    ∃ L st', walkLog st ino = some L ∧ reload (withInvalid st inv) ino = some st' ∧
      (st'.info ino).iSize = (st.info ino).iSize ∧
      (ReadsFrom st' ino (recordedBlock st.nv L) ↔ TailsMapped st ino inv) := by
  obtain ⟨⟨L, pages, hok⟩, -⟩ := h.ok
  obtain ⟨st₁, hreb, hr⟩ := hok.recover_lost hle
  obtain ⟨r, hnv⟩ := hr.nv
  let st' := st₁.setInfo ino { st₁.info ino with
    iSize := (st₁.nv.record ino).iSize, attrs := (st₁.nv.record ino).attrs }
  have hres : reload (withInvalid st inv) ino = some st' := by
    have hreb' : novaRebuildFileInodeTree ((withInvalid st inv).setInfo ino
        (freshInfo ((withInvalid st inv).nv.record ino))) ino = some st₁ := hreb
    simp only [reload, hreb', bind_eq_bind, bind_some, Option.pure_def]
    rfl
  have htree : (st'.info ino).tree.get = (st.info ino).tree.get := by
    have htree₁ : (st₁.info ino).tree.get = (st.info ino).tree.get := hr.tree
    simpa [st', State.setInfo] using htree₁
  have hisize : (st'.info ino).iSize = (st.info ino).iSize := by
    have hsize₁ : (st₁.nv.record ino).iSize = (st.info ino).iSize := hr.size
    simpa [st', State.setInfo] using hsize₁
  have hslot : st'.nv.slot = st.nv.slot := by
    show st₁.nv.slot = st.nv.slot
    rw [hnv]
    rfl
  have hinv : st'.nv.invalid = inv := by
    show st₁.nv.invalid = inv
    rw [hnv]
    rfl
  have hentry : entryAt st'.nv = entryAt st.nv := by
    funext a
    simp only [entryAt, hslot]
  have hmap : pageMap st' ino = pageMap st ino := by
    funext i
    simp only [pageMap, htree, getNvmm, hentry]
  have hstarts : StartsOk st' ino := by
    intro i b hb
    rw [htree] at hb
    rw [hentry]
    exact hok.file.pagesInv.startsOk i b hb
  refine ⟨L, st', hok.walkLog_eq, hres, hisize, ?_⟩
  rw [hok.recordedBlock_eq, ← hmap, readsFrom_iff (by rw [hisize]; exact hsize) hstarts, hinv]
  simp only [TailsMapped, htree, hisize, hmap, getNvmm, hentry]

/-- A file of two pages. -/
def twoPages : State (BlockAllocator.ascending 64) :=
  ((novaCowFileWrite newFile 17 { someWrite with pos := 0, len := 8192 }).getD
    (0, newFile)).2

/-- Its second page written again. -/
def secondAgain : State (BlockAllocator.ascending 64) :=
  ((novaCowFileWrite twoPages 17 { someWrite with pos := 4096, len := 4096 }).getD
    (0, twoPages)).2

/-- The first write goes through. -/
theorem twoPages_eq : novaCowFileWrite newFile 17 { someWrite with pos := 0, len := 8192 }
    = some (8192, twoPages) := by
  have hret : (novaCowFileWrite newFile 17 { someWrite with pos := 0, len := 8192 }).map
      Prod.fst = some 8192 := by decide +kernel
  obtain ⟨⟨ret, st'⟩, hres, rfl⟩ := map_eq_some_iff.1 hret
  rw [twoPages, hres]
  rfl

/-- And so does the second. -/
theorem secondAgain_eq : novaCowFileWrite twoPages 17 { someWrite with pos := 4096, len := 4096 }
      = some (4096, secondAgain) := by
  have hret : (novaCowFileWrite twoPages 17 { someWrite with pos := 4096, len := 4096 }).map
      Prod.fst = some 4096 := by decide +kernel
  obtain ⟨⟨ret, st'⟩, hres, rfl⟩ := map_eq_some_iff.1 hret
  rw [secondAgain, hres]
  rfl

/-- Both files are runs. -/
theorem twoPages_run : FileRun 17 twoPages := newFile_run.write twoPages_eq (by decide)

/-- The second file is a run. -/
theorem secondAgain_run : FileRun 17 secondAgain := twoPages_run.write secondAgain_eq (by decide)

/-- As long as the counters survive, both pages are read from where they
are. -/
theorem reads_after_crash_two_pages :
    ∃ L st', walkLog twoPages 17 = some L ∧
      reload (withInvalid twoPages twoPages.nv.invalid) 17 = some st' ∧
      ReadsFrom st' 17 (recordedBlock twoPages.nv L) := by
  obtain ⟨L, st', hL, hres, -, hiff⟩ := reads_after_crash_iff twoPages_run
    (by decide +kernel) fun a => le_refl (twoPages.nv.invalid a)
  refine ⟨L, st', hL, hres, hiff.2 ?_⟩
  obtain ⟨⟨L', pages, hok⟩, -⟩ := twoPages_run.ok
  intro q a hget hinv j hqj hj hin
  obtain ⟨-, h1, -⟩ := hok.file.entry hget
  exact pageMap_some (hok.whole hget hinv (by omega) hj)

/-- The only store that is not durable is the increment for the old second
page. Without it, a read of both pages takes the second one from the old
block. -/
theorem reads_after_crash_stale :
    FileRun 17 secondAgain ∧ (pmem.exec ⟨newFile.nv, []⟩ secondAgain.trace).pending
        = [(.invalidPages 49152 1, false)] ∧
      (walkLog secondAgain 17).map (fun L => recordedBlock secondAgain.nv L 1) = some (some 13) ∧
      (reload (withInvalid secondAgain (Function.update secondAgain.nv.invalid 49152 0)) 17).map
        (fun st => (doDaxMappingRead st 17 0 8192 true).2.map
          fun c => (decide (c.Covers 1), c.blockOf 1)) = some [(true, some 11)] := by
  refine ⟨secondAgain_run, ?_⟩
  decide +kernel

end Themis.File
