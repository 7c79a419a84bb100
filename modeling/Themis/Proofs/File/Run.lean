/-
Whole runs of a regular file: any sequence of writes, attribute and size
changes, link changes and reloads, from the moment it is created.

Every state of a run is `FileOk` (`FileRun.ok`). What the log says about
the file and what the tree in memory says is then the same thing, however
often the log was collected: a rebuild gives the tree back
(`rebuild_eq_live`), and `invalid_pages` counts what the tree has taken
away (`extent_accounting`).
-/
import Mathlib.Data.Set.Card
import Themis.Proofs.File.Write

namespace Themis.File

open Lib Log List Option

variable {al : BlockAllocator} {st st' : State al} {ino size : Nat}
  {L P pages : List Nat}
variable {inv : Nat → Nat} {a : Nat}

attribute [local simp] State.setInfo

-- === rebuilding

/-- What a rebuild of a file from its log leaves. -/
structure Recovered (st st' : State al) (ino : Nat) (L pages : List Nat) :
    Prop where
  nv : ∃ r, st'.nv = { st.nv with record := Function.update st.nv.record ino r }
  data : st'.data = st.data
  alloc : st'.alloc = st.alloc
  tree : (st'.info ino).tree.get = (st.info ino).tree.get
  size : (st'.nv.record ino).iSize = (st.info ino).iSize
  sihSize : (st'.info ino).sihSize = (st.info ino).iSize
  logPages : (st'.info ino).logPages = pages.length
  owner : ownerOf st' ino
    = L.foldl (ownerStep st.nv.slot)
      { ownerOf st ino with last := 0 }

/-- The rebuilt file has the same blocks. -/
theorem Recovered.pageMap_eq (h : Recovered st st' ino L pages) :
    pageMap st' ino = pageMap st ino := by
  obtain ⟨r, hnv⟩ := h.nv
  funext i
  simp only [pageMap, h.tree, getNvmm, entryAt, hnv]

/-- The state with other invalid counters. -/
def withInvalid (st : State al) (inv : Nat → Nat) : State al :=
  { st with nv := { st.nv with invalid := inv } }

/-- An entry that looks dead is mapped nowhere. -/
theorem FileOk.dead_unmapped (h : FileOk st ino L pages) (hle : ∀ a, inv a ≤ st.nv.invalid a)
    (ha : a ∈ L) (hdead : deadWrite { st.nv with invalid := inv } a = true) :
    (∃ e, st.nv.slot a = .fileWrite e) ∧ ∀ i, (st.info ino).tree.get i ≠ some a := by
  unfold deadWrite at hdead
  cases hs : st.nv.slot a with
  | fileWrite e =>
    have hnum : e.numPages = inv a := by simpa [hs] using hdead
    have hcount := h.file.counted a ha e hs
    have hall : e.numPages = st.nv.invalid a := by
      have := hle a
      omega
    exact ⟨⟨e, rfl⟩, fun i => h.file.counted.unmapped ha hs hall (h.file.pagesInv.key hs)⟩
  | _ => simp [hs] at hdead

/-- A rebuild on a fresh header returns and finds the file as it is, even
where `invalid_pages` of entries is lower than it was. -/
theorem FileOk.recover_lost (h : FileOk st ino L pages) (hle : ∀ a, inv a ≤ st.nv.invalid a) :
    ∃ st', novaRebuildFileInodeTree
        ((withInvalid st inv).setInfo ino (freshInfo (st.nv.record ino))) ino = some st' ∧
      Recovered (withInvalid st inv) st' ino L pages := by
  have hinfo : ((withInvalid st inv).setInfo ino (freshInfo (st.nv.record ino))).info ino
      = freshInfo (st.nv.record ino) := by simp
  rcases readable_of_logAt h.log with ⟨hempty, rfl, rfl⟩ | ⟨F, T, rest, hr, rfl, rfl⟩
  · -- nothing was ever logged
    have hsize := h.start rfl
    have htree : (st.info ino).tree.get = fun _ => none := by
      funext i
      rw [h.file.replayable.map i]
      rfl
    have hrec : (st.nv.record ino).iSize = (st.info ino).iSize := h.file.replayable.start rfl
    refine ⟨(withInvalid st inv).setInfo ino (freshInfo (st.nv.record ino)), ?_,
      ⟨st.nv.record ino, by simp [withInvalid]⟩, rfl, rfl, ?_, hrec, ?_, by simp [freshInfo], ?_⟩
    · simp [novaRebuildFileInodeTree, withInvalid, hempty.head, hempty.tail]
    · rw [hinfo]
      exact htree.symm
    · rw [hinfo]
      exact hsize.symm
    · simp [ownerOf, freshInfo, withInvalid]
  have hr' : Readable
      ((withInvalid st inv).setInfo ino (freshInfo (st.nv.record ino))).nv
      al.numBlocks ino F T rest := ⟨⟨hr.log.chain, hr.log.nodup,
      fun w hw => (hr.log.full w hw).congr (fun _ _ => rfl) rfl,
      hr.log.last.congr fun _ _ => rfl, hr.log.spare⟩, hr.head, hr.tail, hr.used, hr.onDevice⟩
  obtain ⟨st', hres, hat, hsih, hpages, howner⟩ := rebuild_spec hr'
    h.file.replayable.ok (by rw [hinfo]; rfl)
  -- only entries that map nothing are skipped
  have hreplay : replay st.nv.slot (deadWrite { st.nv with invalid := inv })
      (st.nv.record ino).iSize (entsOf F ++ T.ents)
      = ((st.info ino).tree.get, (st.info ino).iSize) := by
    apply h.file.replayable.replay_eq
    intro a ha hdead
    exact h.dead_unmapped hle ha hdead
  have hreplay' : replay ((withInvalid st inv).setInfo ino (freshInfo (st.nv.record ino))).nv.slot
      (deadWrite ((withInvalid st inv).setInfo ino (freshInfo (st.nv.record ino))).nv)
      (((withInvalid st inv).setInfo ino (freshInfo (st.nv.record ino))).nv.record ino).iSize
      (entsOf F ++ T.ents) = ((st.info ino).tree.get, (st.info ino).iSize) := hreplay
  rw [hreplay'] at hat hsih
  refine ⟨st', hres, hat.nv, hat.data, hat.alloc, hat.tree, hat.size, hsih, ?_, ?_⟩
  · simp only [length_append, length_cons, basesOf, length_map]
    omega
  rw [howner]
  congr 1
  simp [ownerOf, freshInfo, withInvalid]

/-- A rebuild recovers the file. -/
theorem FileOk.recover (h : FileOk st ino L pages) :
    ∃ st', novaRebuildFileInodeTree (st.setInfo ino (freshInfo (st.nv.record ino))) ino = some st' ∧
      Recovered st st' ino L pages := h.recover_lost fun a => le_refl (st.nv.invalid a)

/-- Entries of a regular file leave a regular file. -/
theorem owner_mode {slot : Nat → LogEntry} (hok : ∀ a ∈ L, EntryOk (slot a))
    (o : Owner) (ho : isReg o.mode = true) : isReg (L.foldl (ownerStep slot) o).mode = true := by
  induction L generalizing o with
  | nil => exact ho
  | cons a L ih =>
    apply ih fun b hb => hok b (mem_cons_of_mem _ hb)
    have ha := hok a mem_cons_self
    unfold ownerStep
    cases hs : slot a with
    | setAttr e =>
      rw [hs] at ha
      exact ha
    | _ => exact ho

/-- A reload keeps the file. -/
theorem FileOk.reload (h : FileOk st ino L pages)
    (hreg : isReg (st.nv.record ino).attrs.mode = true) (hres : reload st ino = some st') :
    FileOk st' ino L pages ∧ fileByte st' ino = fileByte st ino ∧
      (st'.info ino).iSize = (st.info ino).iSize ∧ isReg (st'.nv.record ino).attrs.mode = true := by
  obtain ⟨st1, hreb, hr⟩ := h.recover
  simp only [File.reload, hreb, bind_eq_bind, bind_some, Option.pure_def, some.injEq] at hres
  obtain ⟨r, hnv⟩ := hr.nv
  have hmode : isReg (st1.nv.record ino).attrs.mode = true := by
    have hm := owner_mode h.file.replayable.ok { ownerOf st ino with last := 0 } hreg
    rw [← hr.owner] at hm
    exact hm
  have hnv' : st'.nv = st1.nv := by rw [← hres]; rfl
  have hdata : st'.data = st.data := by rw [← hres]; exact hr.data
  have halloc : st'.alloc = st.alloc := by rw [← hres]; exact hr.alloc
  have hinfo : st'.info ino = { st1.info ino with
      iSize := (st1.nv.record ino).iSize, attrs := (st1.nv.record ino).attrs } := by
    rw [← hres]
    simp
  have htree : (st'.info ino).tree.get = (st.info ino).tree.get := by
    rw [hinfo]
    exact hr.tree
  have hsize : (st'.info ino).iSize = (st.info ino).iSize := by
    rw [hinfo]
    exact hr.size
  have hslot : st'.nv.slot = st.nv.slot := by rw [hnv', hnv]
  have hinv : st'.nv.invalid = st.nv.invalid := by rw [hnv', hnv]
  have hmap : pageMap st' ino = pageMap st ino := by
    funext i
    simp only [pageMap, htree, getNvmm, entryAt, hslot]
  have huse : st'.InUse = st.InUse := by
    funext x
    rw [State.InUse, State.InUse, halloc]
  refine ⟨⟨?_, ⟨?_, ?_, ?_⟩, ?_, ?_, ?_⟩, fileByte_congr hmap hdata, hsize, ?_⟩
  · have htail : st'.nv.logTail = st.nv.logTail := by rw [hnv', hnv]
    rw [htail]
    apply h.log.recount hslot (by rw [hnv', hnv]) (by rw [hnv', hnv]) (by rw [htail])
    · intro p hp
      rw [huse]
      exact h.log.inUse p hp
    · rw [hinfo]
      exact hr.logPages.ge
  · rw [hslot, htree, hsize, hnv', hr.size]
    exact { h.file.replayable with start := fun _ => rfl }
  · intro a ha e he
    rw [hslot] at he
    rw [hinv, htree]
    exact h.file.counted a ha e he
  · rw [hmap, huse]
    exact h.file.owned
  · rw [hinfo]
    exact hmode
  · rw [hsize, fileByte_congr hmap hdata]
    exact h.zero
  · rw [hsize]
    exact h.start
  · rw [hnv']
    exact hmode

-- === runs

/-- The runs of a regular file. Calls that fail for want of space are left
out; so are attribute changes that make it something else. -/
inductive FileRun (ino : Nat) : State al → Prop
  /-- A file that was just created. -/
  | fresh {st : State al} (hlog : EmptyLog st ino)
      (htree : ∀ i, (st.info ino).tree.get i = none)
      (hsize : (st.info ino).iSize = 0) (hrec : (st.nv.record ino).iSize = 0)
      (hreg : isReg (st.info ino).attrs.mode = true)
      (hrecReg : isReg (st.nv.record ino).attrs.mode = true) : FileRun ino st
  | write {st st' : State al} {w : WriteReq} {ret : Int} (h : FileRun ino st)
      (hres : novaCowFileWrite st ino w = some (ret, st')) (hret : ret ≠ -ENOSPC) :
      FileRun ino st'
  | setattr {st st' : State al} {attr : Iattr} {changeOk ret : Int} {eofBlocks : Bool}
      {time : Nat} (h : FileRun ino st)
      (hmode : attr.valid.testBit 0 = true → isReg attr.mode = true)
      (hres : novaNotifyChange st ino attr changeOk eofBlocks time = some (ret, st')) :
      FileRun ino st'
  | links {st st' : State al} {e : LinkChangeEntry} (h : FileRun ino st)
      (hres : changeLinks st ino e = some (0, st')) : FileRun ino st'
  | reload {st st' : State al} (h : FileRun ino st)
      (hres : reload st ino = some st') : FileRun ino st'

/-- A new file. -/
theorem FileOk.fresh (hlog : EmptyLog st ino) (htree : ∀ i, (st.info ino).tree.get i = none)
    (hsize : (st.info ino).iSize = 0) (hrec : (st.nv.record ino).iSize = 0)
    (hreg : isReg (st.info ino).attrs.mode = true) : FileOk st ino [] [] := by
  have hget : (st.info ino).tree.get = fun _ => none := funext htree
  have hnone : ∀ i, pageMap st ino i = none := fun i => pageMap_none (htree i)
  have hne : ∀ i x, pageMap st ino i ≠ some x := by
    intro i x
    rw [hnone]
    simp
  refine ⟨.inl ⟨hlog, hlog.tail, rfl, rfl, rfl⟩, ⟨?_, ?_, ?_⟩, hreg, ?_, fun _ => hsize⟩
  · rw [hget, hsize, hrec]
    exact Replayable.nil _ 0
  · intro a ha
    cases ha
  · exact ⟨fun i x hi => absurd hi (hne i x), fun i j x hi _ => absurd hi (hne i x),
      fun x hx => hx.elim, fun i x hi => absurd hi (hne i x)⟩
  · intro q _
    exact fileByte_none (hnone _)

/-- Every state of a run is a file. -/
theorem FileRun.ok (h : FileRun ino st) :
    (∃ L pages, FileOk st ino L pages) ∧ isReg (st.nv.record ino).attrs.mode = true := by
  induction h with
  | fresh hlog htree hsize hrec hreg hrecReg =>
    exact ⟨⟨[], [], FileOk.fresh hlog htree hsize hrec hreg⟩, hrecReg⟩
  | write h hres hret ih =>
    obtain ⟨⟨L, pages, hok⟩, hreg⟩ := ih
    rcases hok.write hres hret with ⟨-, rfl⟩ | ⟨-, -, L', pages', hw⟩
    · exact ⟨⟨L, pages, hok⟩, hreg⟩
    · exact ⟨⟨L', pages', hw.ok⟩, by rw [hw.record]; exact hreg⟩
  | setattr h hmode hres ih =>
    obtain ⟨⟨L, pages, hok⟩, hreg⟩ := ih
    obtain ⟨L', pages', hok', -, hrec, -⟩ := hok.notifyChange hmode hres
    exact ⟨⟨L', pages', hok'⟩, by rw [hrec]; exact hreg⟩
  | links h hres ih =>
    obtain ⟨⟨L, pages, hok⟩, hreg⟩ := ih
    obtain ⟨L', pages', hok', -, -, hrec, -⟩ := hok.changeLinks hres rfl
    exact ⟨⟨L', pages', hok'⟩, by rw [hrec]; exact hreg⟩
  | reload h hres ih =>
    obtain ⟨⟨L, pages, hok⟩, hreg⟩ := ih
    obtain ⟨hok', -, -, hreg'⟩ := hok.reload hreg hres
    exact ⟨⟨L, pages, hok'⟩, hreg'⟩

/-- The log stands for the file: after any run, a rebuild from the log on
an empty tree returns, with the page map and the size that are live. -/
theorem rebuild_eq_live (h : FileRun ino st) :
    ∃ st', novaRebuildFileInodeTree (st.setInfo ino (freshInfo (st.nv.record ino))) ino = some st' ∧
      pageMap st' ino = pageMap st ino ∧ (st'.nv.record ino).iSize = (st.info ino).iSize ∧
      (st'.info ino).sihSize = (st.info ino).iSize := by
  obtain ⟨⟨L, pages, hok⟩, -⟩ := h.ok
  obtain ⟨st', hres, hr⟩ := hok.recover
  exact ⟨st', hres, hr.pageMap_eq, hr.size, hr.sihSize⟩

/-- A new file on a device of 64 blocks. -/
def newFile : State (BlockAllocator.ascending 64) where
  nv :=
    { slot := fun _ => .unknown 0
      invalid := fun _ => 0
      next := fun _ => 0
      logHead := fun _ => 0
      logTail := fun _ => 0
      record := fun _ => ⟨0, ⟨0o100644, 0, 0, 0, 0, 0⟩, 1, 0, 0⟩ }
  data := fun _ => 0
  alloc := { next := 9, returned := fun _ => false }
  info := fun _ => ⟨Radix.empty, 0, 0, 0, 0, 0, ⟨0o100644, 0, 0, 0, 0, 0⟩⟩
  trace := []

/-- A write of 5000 bytes at 100. -/
def someWrite : WriteReq where
  pos := 100
  len := 5000
  buf := fun i => UInt8.ofNat i
  append := false
  mapped := false
  accessOk := false
  removePrivs := 0
  time := 3

/-- The file after that write. -/
def writtenFile : State (BlockAllocator.ascending 64) :=
  ((novaCowFileWrite newFile 17 someWrite).getD (0, newFile)).2

/-- The new file is a run. -/
theorem newFile_run : FileRun 17 newFile :=
  FileRun.fresh ⟨rfl, rfl⟩ (fun _ => rfl) rfl rfl (by decide) (by decide)

/-- The write goes through. -/
theorem writtenFile_eq : novaCowFileWrite newFile 17 someWrite = some (5000, writtenFile) := by
  have hret : (novaCowFileWrite newFile 17 someWrite).map Prod.fst = some 5000 := by decide +kernel
  obtain ⟨⟨ret, st'⟩, hres, rfl⟩ := map_eq_some_iff.1 hret
  rw [writtenFile, hres]
  rfl

/-- The written file is a run. -/
theorem writtenFile_run : FileRun 17 writtenFile := newFile_run.write writtenFile_eq (by decide)

/-- A rebuild after one write finds its two pages. -/
theorem rebuild_eq_live_one_write :
    FileRun 17 writtenFile ∧
      ∃ st', novaRebuildFileInodeTree (writtenFile.setInfo 17
          (freshInfo (writtenFile.nv.record 17))) 17 = some st' ∧
        pageMap st' 17 0 = some 10 ∧ pageMap st' 17 1 = some 11 ∧
        (st'.nv.record 17).iSize = 5100 := by
  have hsome : pageMap writtenFile 17 0 = some 10 ∧ pageMap writtenFile 17 1 = some 11 ∧
      (writtenFile.info 17).iSize = 5100 := by decide +kernel
  obtain ⟨st', hres, hmap, hsize, -⟩ := rebuild_eq_live writtenFile_run
  rw [← hmap, ← hsize] at hsome
  exact ⟨writtenFile_run, st', hres, hsome⟩

-- === accounting

/-- The pages an entry stands under. -/
def pagesOf (st : State al) (ino a : Nat) : Set Nat :=
  {i | (st.info ino).tree.get i = some a}

/-- The pages of an entry, counted over its range. -/
theorem FileOk.ncard_pagesOf (h : FileOk st ino L pages) {e : FileWriteEntry}
    (he : st.nv.slot a = .fileWrite e) :
    (pagesOf st ino a).ncard = mapped (st.info ino).tree.get a e.pgoff (e.pgoff + e.numPages) := by
  rw [mapped, ← Set.ncard_coe_finset]
  congr 1
  ext i
  simp only [pagesOf, Set.mem_ofPred_eq, Finset.coe_filter, Finset.mem_Ico]
  constructor
  · intro hi
    obtain ⟨e', he', h1, h2⟩ := h.file.replayable.fileWrite hi
    rw [he, LogEntry.fileWrite.injEq] at he'
    subst he'
    exact ⟨⟨h1, h2⟩, hi⟩
  · exact fun hi => hi.2

/-- A mapped entry has a page left. -/
theorem FileOk.invalid_lt (h : FileOk st ino L pages) {i : Nat}
    (hi : (st.info ino).tree.get i = some a) : st.nv.invalid a < (entryAt st.nv a).numPages := by
  obtain ⟨he, h1, h2⟩ := h.file.entry hi
  have hcount := h.file.counted a (h.file.tree_mem i a hi) _ he
  have hpos : 0 < mapped (st.info ino).tree.get a (entryAt st.nv a).pgoff
      ((entryAt st.nv a).pgoff + (entryAt st.nv a).numPages) :=
    Finset.card_pos.2 ⟨i, Finset.mem_filter.2 ⟨Finset.mem_Ico.2 ⟨h1, h2⟩, hi⟩⟩
  omega

/-- The length of a hole is found. -/
theorem FileOk.hole (h : FileOk st ino L pages) {iblock : Nat}
    (hnone : (st.info ino).tree.get iblock = none) (maxBlocks : Nat) :
    holeBlocks st ino iblock maxBlocks ≠ none := by
  unfold holeBlocks
  cases hg : (st.info ino).tree.gangLookup iblock with
  | none => simp
  | some a =>
    obtain ⟨j, hj, hget, -⟩ := Radix.gangLookup_eq_some hg
    simp only
    rw [if_neg]
    · simp
    · intro hle
      exact h.file.replayable.front_mapped hget (h.file.entry hget).1 hle hj hnone

/-- `invalid_pages` is exact after any run: it counts the pages an entry
does not stand under. An entry has no hole in front of a page it stands
under, and nothing is mapped behind the size. So a cut gives back all its
blocks, the collector keeps every entry in use, and the space for a hole
can be told. -/
theorem extent_accounting (h : FileRun ino st) :
    ∃ L, walkLog st ino = some L ∧
      (∀ a ∈ L, ∀ e, st.nv.slot a = .fileWrite e →
        st.nv.invalid a + (pagesOf st ino a).ncard = e.numPages) ∧
      (∀ q a, (st.info ino).tree.get q = some a →
        ∀ p, (entryAt st.nv a).pgoff ≤ p → p ≤ q → (st.info ino).tree.get p ≠ none) ∧
      (∀ i, pagesFor (st.info ino).iSize ≤ i → (st.info ino).tree.get i = none) ∧
      (∀ i a, (st.info ino).tree.get i = some a →
        ¬ (entryAt st.nv a).numPages < st.nv.invalid a + 1 ∧
          (currLogEntryInvalid st.nv (st.info ino) a).1 = false) ∧
      (∀ first last i x, first ≤ i → i ≤ last → pageMap st ino i = some x →
        ¬ (novaDeleteFileTree st ino first last true).1.InUse x) ∧
      (∀ attr changeOk eofBlocks time ret st',
        (attr.valid.testBit 0 = true → isReg attr.mode = true) →
        novaNotifyChange st ino attr changeOk eofBlocks time = some (ret, st') →
        ∀ i x, pageMap st ino i = some x → pageMap st' ino i = none → ¬ st'.InUse x) ∧
      ∀ iblock maxBlocks time, novaGetWriteEntry st ino iblock = none →
        holeBlocks (touch st ino time) ino iblock maxBlocks ≠ none := by
  obtain ⟨⟨L, pages, hok⟩, -⟩ := h.ok
  refine ⟨L, hok.walkLog_eq, ?_, ?_, ?_, ?_, ?_, ?_, ?_⟩
  · intro a ha e he
    rw [hok.ncard_pagesOf he]
    exact hok.file.counted a ha e he
  · intro q a hq p h1 h2
    exact hok.file.replayable.front_mapped hq (hok.file.entry hq).1 h1 h2
  · intro i hi
    by_contra hne
    have := hok.file.replayable.inside hne
    omega
  · intro i a hi
    have hlt := hok.invalid_lt hi
    refine ⟨by omega, ?_⟩
    rw [currLogEntryInvalid, (hok.file.entry hi).1]
    simp only [Bool.not_eq_false', bne_iff_ne, ne_eq]
    omega
  · intro first last i x h1 h2 hx hu
    have hd := novaDeleteFileTree_free (hok.file.pagesInv.removable first last)
    exact ((hd.inUse x).1 hu).2 i h1 h2 hx
  · intro attr changeOk eofBlocks time ret st' hmode hres
    obtain ⟨-, -, -, -, -, -, hfreed, -⟩ := hok.notifyChange hmode hres
    exact hfreed
  intro iblock maxBlocks time hnone
  apply (hok.of_touch time).hole
  simpa [touch, novaGetWriteEntry] using hnone

/-- One write of two pages: its entry counts both, and a block may go
into the hole behind it. -/
theorem extent_accounting_one_write :
    FileRun 17 writtenFile ∧ walkLog writtenFile 17 = some [49152] ∧
      (pagesOf writtenFile 17 49152).ncard = 2 ∧
      holeBlocks (touch writtenFile 17 0) 17 2 8 ≠ none := by
  have heval : walkLog writtenFile 17 = some [49152] ∧ writtenFile.nv.invalid 49152 = 0 ∧
      writtenFile.nv.slot 49152 = .fileWrite ⟨0, 2, 10, 3, 5100⟩ ∧
      novaGetWriteEntry writtenFile 17 2 = none := by decide +kernel
  obtain ⟨hwalk, hinv, hslot, hhole⟩ := heval
  obtain ⟨L, hL, hcount, -, -, -, -, -, hdax⟩ := extent_accounting writtenFile_run
  rw [hwalk, some.injEq] at hL
  refine ⟨writtenFile_run, hwalk, ?_, hdax 2 8 0 hhole⟩
  have hc := hcount 49152 (by rw [← hL]; simp) _ hslot
  rw [hinv] at hc
  simpa using hc

end Themis.File
