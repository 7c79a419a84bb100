/-
A write that fails on the way.

The exit of `nova_cow_file_write` is meant to give back what the call
has allocated, but it asks `ret < 0` of a `size_t`, so the cleanup never
runs. `takenRuns` lists the blocks that the extent loop is handed, as
far as it gets. None of them comes back (`extentLoop_keeps`): a run is
held for its entry from then on, and an append that fails takes pages
but frees none (`novaGetAppendHead_failed`).
-/
import Themis.Proofs.File.Run

namespace Themis.File

open Lib Log Option Function

variable {al : BlockAllocator} {st st' : State al} {ino : Nat} {L P pages : List Nat}
variable {tail : Nat} {w : WriteReq} {v : WriteVars}

-- === a failed append

/-- An extension gives a page, or frees nothing. -/
theorem novaExtendInodeLog_cases {currP p : Nat}
    (hres : novaExtendInodeLog ino st currP = some (p, st')) :
    IsPage p ∨ (p = 0 ∧ ∀ x, st.InUse x → st'.InUse x) := by
  -- what the allocation of any number of pages can do
  have hnone : ∀ {n : Nat} {st1 : State al}, novaAllocateInodeLogPages st n = (none, st1) →
      some (0, st1) = some (p, st') → p = 0 ∧ ∀ x, st.InUse x → st'.InUse x := by
    intro n st1 halloc hend
    injection hend with hend
    injection hend with hp hst
    rw [← hst]
    exact ⟨hp.symm, fun x hx => ((novaAllocateInodeLogPages_none halloc).2 x).mpr hx⟩
  unfold novaExtendInodeLog at hres
  by_cases h0 : currP = 0
  · rw [if_pos h0] at hres
    cases halloc : novaAllocateInodeLogPages st 1 with
    | mk r st1 =>
      rw [halloc] at hres
      cases r with
      | none => exact .inr (hnone halloc hres)
      | some nb =>
        obtain ⟨n, newBlock⟩ := nb
        obtain ⟨N, hN, -⟩ := novaAllocateInodeLogPages_some halloc
        dsimp only at hres
        by_cases hn : n ≠ 1
        · rw [if_pos hn] at hres
          injection hres with hres
          injection hres with hp hst
          rw [← hst]
          exact .inr ⟨hp.symm, fun x hx => (hN.inUse x).mpr (.inl hx)⟩
        rw [if_neg hn] at hres
        injection hres with hres
        injection hres with hp _
        rw [← hp]
        exact .inl (hN.isPage newBlock List.mem_cons_self)
  rw [if_neg h0] at hres
  dsimp only at hres
  cases halloc : novaAllocateInodeLogPages st
      (if (st.info ino).logPages ≥ EXTEND_THRESHOLD then EXTEND_THRESHOLD
        else (st.info ino).logPages) with
  | mk r st1 =>
    rw [halloc] at hres
    cases r with
    | none => exact .inr (hnone halloc hres)
    | some nb =>
      obtain ⟨n, newBlock⟩ := nb
      obtain ⟨N, hN, -⟩ := novaAllocateInodeLogPages_some halloc
      obtain ⟨st2, -, hres⟩ := bind_eq_some_iff.mp hres
      injection hres with hres
      injection hres with hp _
      rw [← hp]
      exact .inl (hN.isPage newBlock List.mem_cons_self)

/-- A position that is not found frees nothing. -/
theorem novaGetAppendHead_failed {size : Nat} (hsize : size ≤ LAST_ENTRY)
    (hres : novaGetAppendHead st ino tail size = some (0, st')) :
    ∀ x, st.InUse x → st'.InUse x := by
  obtain ⟨ext, hres⟩ := novaGetAppendHead_eq hres
  generalize (if tail ≠ 0 then tail else st.nv.logTail ino) = currP at hres
  have hflag : ∀ (s : State al) (c : Nat) (x : Nat),
      s.InUse x → (novaSetNextPageFlag s c).InUse x := by
    intro s c x hx
    unfold State.InUse
    rw [(novaSetNextPageFlag_frame s c).alloc]
    exact hx
  by_cases hfull : currP = 0 ∨ (isLastEntry currP size ∧ nextLogPage st.nv currP = 0)
  · simp only [appendHeadWith, if_pos hfull, bind_eq_bind, bind_some] at hres
    obtain ⟨⟨p1, st1⟩, hext, hres⟩ := bind_eq_some_iff.mp hres
    cases novaExtendInodeLog_cases hext with
    | inl hpage =>
      -- the new page has room
      have hne : p1 ≠ 0 := Nat.ne_of_gt hpage.2
      have hroom : isLastEntry p1 size = false := by
        unfold isLastEntry
        rw [show entryLoc p1 = 0 from hpage.1, Nat.zero_add]
        exact decide_eq_false (not_lt.mpr hsize)
      rw [if_neg hne, hroom] at hres
      injection hres with hres
      injection hres with hzero _
      exact absurd hzero hne
    | inr hfailed =>
      rw [if_pos hfailed.1] at hres
      injection hres with hres
      injection hres with _ hres
      injection hres with _ hst'
      rw [← hst']
      intro x hx
      refine hfailed.2 x ?_
      split
      · exact hflag st currP x hx
      · exact hx
  obtain ⟨hne, hnext⟩ := not_or.mp hfull
  simp only [appendHeadWith, if_neg hfull, bind_eq_bind, bind_some, if_neg hne] at hres
  by_cases hlast : isLastEntry currP size = true
  · -- the next page is there
    rw [if_pos hlast] at hres
    injection hres with hres
    injection hres with hzero _
    rw [nextLogPage, (novaSetNextPageFlag_frame st currP).next] at hzero
    exact absurd ⟨hlast, hzero⟩ hnext
  rw [if_neg hlast] at hres
  injection hres with hres
  injection hres with hzero _
  exact absurd hzero hne

/-- A failed append frees nothing. -/
theorem novaAppendFileWriteEntry_failed {e : FileWriteEntry}
    (hres : novaAppendFileWriteEntry st ino e tail = some (0, st')) :
    ∀ x, st.InUse x → st'.InUse x := by
  obtain ⟨⟨p, st1⟩, hget, hres⟩ := bind_eq_some_iff.mp hres
  dsimp only at hres
  by_cases hp : p = 0
  · rw [if_pos hp] at hres
    injection hres with hres
    injection hres with _ hst
    rw [← hst]
    rw [hp] at hget
    exact novaGetAppendHead_failed (by decide) hget
  rw [if_neg hp] at hres
  injection hres with hres
  injection hres with hzero _
  exact absurd hzero hp

/-- A failed allocation changes nothing in use. -/
theorem novaNewDataBlocks_none {n : Nat} (h : novaNewDataBlocks st n = (none, st')) :
    ∀ x, st'.InUse x ↔ st.InUse x := by
  injection h with hr hst
  rw [← hst]
  exact al.new_none (Prod.ext hr rfl)

/-- Filling blocks changes nothing in use. -/
theorem fillExtent_inUse (st : State al) (ino : Nat) (w : WriteReq) (v : WriteVars)
    (b bytes x : Nat) : (fillExtent st ino w v b bytes).InUse x ↔ st.InUse x := by
  obtain ⟨d, hd⟩ := fillExtent_data st ino w v b bytes
  rw [hd]
  exact Iff.rfl

-- === the extent loop

/-- The runs of blocks the loop takes. -/
def takenRuns (ino : Nat) (w : WriteReq) : Nat → State al → WriteVars → List (Nat × Nat)
  | 0, _, _ => []
  | rounds + 1, st, v =>
    if v.numBlocks = 0 then []
    else
      match novaNewDataBlocks st v.numBlocks with
      | (none, _) => []
      | (some (blocknr, allocated), st) =>
        let bytes := min (PAGE_SIZE * allocated - v.pos % PAGE_SIZE) v.count
        let e := extentEntry st ino w v blocknr allocated bytes
        let st := fillExtent st ino w v blocknr bytes
        (blocknr, allocated) ::
          match novaAppendFileWriteEntry st ino e v.tempTail with
          | none => []
          | some (currEntry, st) =>
            if currEntry = 0 then []
            else
              takenRuns ino w rounds st
                { pos := v.pos + bytes
                  written := v.written + bytes
                  count := v.count - bytes
                  numBlocks := v.numBlocks - allocated
                  tempTail := currEntry + 40
                  beginTail :=
                    if v.beginTail = 0 then currEntry else v.beginTail }

/-- A block of one of the runs. -/
def InTaken (runs : List (Nat × Nat)) (x : Nat) : Prop :=
  ∃ r ∈ runs, r.1 ≤ x ∧ x < r.1 + r.2

/-- A failed loop leaves all its blocks in use. -/
theorem extentLoop_keeps {st0 : State al} {pos : Nat} :
    ∀ (rounds : Nat) {st : State al} {v : WriteVars} {L P pages : List Nat} {ret : Int},
      WritingAt st0 st ino w pos v L P pages → extentLoop ino w rounds st v = some (.out ret st') →
      ret = -ENOSPC ∧
        ∀ x, Held st.nv P x ∨ InTaken (takenRuns ino w rounds st v) x → st'.InUse x := by
  intro rounds
  induction rounds with
  | zero =>
    intro st v L P pages ret h hres
    cases hres
  | succ rounds ih =>
    intro st v L P pages ret h hres
    have hused : ∀ x, Held st.nv P x → st.InUse x := fun x hx => (h.file.owned.hold x hx).1
    rcases extentLoop_cases hres with ⟨-, hr⟩ | ⟨st1, h0, hnew, hr⟩ |
      ⟨b, k, p, st1, st2, hround, hend⟩
    · cases hr
    · injection hr with hret hst
      simp only [takenRuns, if_neg h0, hnew]
      refine ⟨hret, fun x hx => ?_⟩
      cases hx with
      | inl hx =>
        rw [hst]
        exact (novaNewDataBlocks_none hnew x).mpr (hused x hx)
      | inr hx =>
        obtain ⟨r, hr, -⟩ := hx
        cases hr
    have happ := hround.entry
    have hrun := novaNewDataBlocks_spec hround.new
    unfold WriteVars.bytesIn at happ
    simp only [takenRuns, if_neg hround.more, hround.new, happ]
    rcases hend with ⟨hp, hr⟩ | ⟨hp, hres⟩
    · -- the entry finds no place
      injection hr with hret hst
      rw [if_pos hp]
      refine ⟨hret, fun x hx => ?_⟩
      rw [hst]
      rw [hp] at happ
      refine novaAppendFileWriteEntry_failed happ x ?_
      rw [fillExtent_inUse, hrun.inUse]
      cases hx with
      | inl hx => exact .inl (hused x hx)
      | inr hx =>
        obtain ⟨r, hr, hin⟩ := hx
        rw [List.mem_singleton.mp hr] at hin
        exact .inr hin
    rw [if_neg hp]
    obtain ⟨L', pages', h', hheld⟩ := h.extent hround hp
    obtain ⟨hret, hkeep⟩ := ih h' hres
    refine ⟨hret, fun x hx => hkeep x ?_⟩
    rw [hheld]
    cases hx with
    | inl hx => exact .inl (.inl hx)
    | inr hx =>
      obtain ⟨r, hr, hin⟩ := hx
      cases List.mem_cons.mp hr with
      | inl hr =>
        rw [hr] at hin
        exact .inl (.inr hin)
      | inr hr => exact .inr ⟨r, hr, hin⟩

/-- The allocator refuses the first extent. -/
theorem extentLoop_refused (rounds : Nat) (h0 : v.numBlocks ≠ 0)
    (hnew : (novaNewDataBlocks st v.numBlocks).1 = none) :
    extentLoop ino w (rounds + 1) st v = some (.out (-ENOSPC) (novaNewDataBlocks st v.numBlocks).2)
      ∧ takenRuns ino w (rounds + 1) st v = [] := by
  have heq : novaNewDataBlocks st v.numBlocks
      = (none, (novaNewDataBlocks st v.numBlocks).2) := Prod.ext hnew rfl
  rw [extentLoop, takenRuns, if_neg h0, if_neg h0, heq]
  exact ⟨rfl, rfl⟩

/-- The first run taken. -/
theorem mem_takenRuns {b k : Nat} (rounds : Nat) (h0 : v.numBlocks ≠ 0)
    (hnew : (novaNewDataBlocks st v.numBlocks).1 = some (b, k)) :
    (b, k) ∈ takenRuns ino w (rounds + 1) st v := by
  have heq : novaNewDataBlocks st v.numBlocks
      = (some (b, k), (novaNewDataBlocks st v.numBlocks).2) := Prod.ext hnew rfl
  rw [takenRuns, if_neg h0, heq]
  exact List.mem_cons_self

-- === the whole call

/-- A failed write as it should be: an error is returned, the file is as
before, and the blocks `runs` are free. -/
structure GaveBack (st st' : State al) (ino : Nat) (ret : Int) (runs : List (Nat × Nat)) :
    Prop where
  error : ret < 0
  pageMap : pageMap st' ino = pageMap st ino
  size : (st'.info ino).iSize = (st.info ino).iSize
  logTail : st'.nv.logTail ino = st.nv.logTail ino
  free : ∀ x, InTaken runs x → ¬ st'.InUse x

/-- The blocks that a write is handed. -/
def WriteReq.taken (w : WriteReq) (st : State al) (ino : Nat) : List (Nat × Nat) :=
  takenRuns ino w (w.start st ino).numBlocks (touch st ino w.time) (w.start st ino)

/-- The extents of a write, up to the commit. -/
def WriteReq.extents (w : WriteReq) (st : State al) (ino : Nat) : Option (WriteEnd al) :=
  extentLoop ino w (w.start st ino).numBlocks (touch st ino w.time) (w.start st ino)

/-- A write that gets no block. -/
theorem WriteReq.extents_refused
    (hnew : (al.newBlocks st.alloc .data (w.start st ino).numBlocks).1 = none) :
    w.extents st ino = some (.out (-ENOSPC)
        (novaNewDataBlocks (touch st ino w.time) (w.start st ino).numBlocks).2)
      ∧ w.taken st ino = [] := extentLoop_refused _ (Nat.succ_ne_zero _) hnew

/-- A write with a failed loop fails. -/
theorem novaCowFileWrite_out {ret : Int} (hadm : w.Admitted)
    (hfail : w.extents st ino = some (.out ret st')) :
    novaCowFileWrite st ino w = some (ret, st') := by
  obtain ⟨hlen, hmap, hacc, hpriv⟩ := hadm
  have hloop : extentLoop ino w (w.start st ino).numBlocks (touch st ino w.time)
      { pos := if w.append then (st.info ino).iSize else w.pos
        written := 0
        count := w.len
        numBlocks := (w.start st ino).numBlocks
        tempTail := (touch st ino w.time).nv.logTail ino
        beginTail := 0 } = some (.out ret st') := hfail
  unfold novaCowFileWrite
  rw [if_neg hlen, hmap, if_neg Bool.false_ne_true, hacc, if_neg Bool.false_ne_true,
    if_neg (fun h => h hpriv)]
  exact bind_eq_some_iff.mpr ⟨_, hloop, rfl⟩

/-- A write whose extents fail, at whichever block allocation or append,
gives back its blocks only if it was never handed any. -/
theorem failed_write_gives_back_iff {w : WriteReq} {ret : Int} (h : FileOk st ino L pages)
    (hadm : w.Admitted) (hfail : w.extents st ino = some (.out ret st')) :
    novaCowFileWrite st ino w = some (ret, st')
      ∧ (GaveBack st st' ino ret (w.taken st ino)
        ↔ (al.newBlocks st.alloc .data (w.start st ino).numBlocks).1 = none) := by
  refine ⟨novaCowFileWrite_out hadm hfail, ?_⟩
  have hwriting : WritingAt (touch st ino w.time) (touch st ino w.time) ino w
      (w.place st ino) (w.start st ino) L [] pages := (h.of_touch w.time).writingAt hadm.1
  obtain ⟨hret, hkeep⟩ := extentLoop_keeps _ hwriting hfail
  constructor
  · intro hgave
    cases hnew : (al.newBlocks st.alloc .data (w.start st ino).numBlocks).1 with
    | none => rfl
    | some bk =>
      obtain ⟨b, k⟩ := bk
      have hmem : (b, k) ∈ w.taken st ino := mem_takenRuns _ (Nat.succ_ne_zero _) hnew
      have hpos : 0 < k := (al.new_some (Prod.ext hnew rfl)).1
      have hin : InTaken (w.taken st ino) b :=
        ⟨(b, k), hmem, le_refl b, Nat.lt_add_of_pos_right hpos⟩
      exact absurd (hkeep b (.inr hin)) (hgave.free b hin)
  intro hnew
  obtain ⟨hout, hnone⟩ := WriteReq.extents_refused hnew
  have hst : (novaNewDataBlocks (touch st ino w.time) (w.start st ino).numBlocks).2 = st' := by
    have heq := hout.symm.trans hfail
    injection heq with heq
    injection heq
  rw [← hst]
  refine ⟨by rw [hret]; decide, ?_, ?_, rfl, fun x hx => ?_⟩
  · funext i
    simp only [File.pageMap, novaNewDataBlocks, touch, State.setInfo, update_self]
  · simp only [novaNewDataBlocks, touch, State.setInfo, update_self]
  obtain ⟨r, hr, -⟩ := hx
  rw [hnone] at hr
  cases hr

/-- A write of `n` pages. -/
def pageWrite (n : Nat) : WriteReq := { someWrite with pos := 0, len := n * PAGE_SIZE }

/-- The new file is a file. -/
theorem newFile_ok : FileOk newFile 17 [] [] :=
  FileOk.fresh ⟨rfl, rfl⟩ (fun _ => rfl) rfl rfl (by decide)

/-- More pages than the device has: the first allocation fails. -/
theorem failed_write_gives_back_iff_no_room :
    ∃ st', novaCowFileWrite newFile 17 (pageWrite 60) = some (-ENOSPC, st')
      ∧ GaveBack newFile st' 17 (-ENOSPC) ((pageWrite 60).taken newFile 17) := by
  have hnew : ((BlockAllocator.ascending 64).newBlocks newFile.alloc .data
      ((pageWrite 60).start newFile 17).numBlocks).1 = none := by decide
  have hadm : (pageWrite 60).Admitted := ⟨by decide, rfl, rfl, rfl⟩
  have hall := failed_write_gives_back_iff newFile_ok hadm (WriteReq.extents_refused hnew).1
  exact ⟨_, hall.1, hall.2.mpr hnew⟩

/-- All blocks that are left go to the data, so there is none for the
log: the write fails, and its 54 blocks stay in use. -/
theorem failed_write_keeps_blocks :
    (pageWrite 54).taken newFile 17 = [(10, 54)]
      ∧ ∃ st', novaCowFileWrite newFile 17 (pageWrite 54) = some (-ENOSPC, st')
        ∧ ¬ newFile.InUse 10 ∧ st'.InUse 10
        ∧ ¬ GaveBack newFile st' 17 (-ENOSPC) ((pageWrite 54).taken newFile 17) := by
  have htaken : (pageWrite 54).taken newFile 17 = [(10, 54)] := by decide +kernel
  have hrun : (novaCowFileWrite newFile 17 (pageWrite 54)).map (fun r =>
      (r.1, Ascending.next r.2.alloc, Ascending.returned r.2.alloc 10))
        = some (-ENOSPC, 63, false) := by decide +kernel
  obtain ⟨⟨ret, st'⟩, hres, hval⟩ := map_eq_some_iff.mp hrun
  injection hval with hret hval
  injection hval with hnext hback
  have huse : st'.InUse 10 := ⟨hnext ▸ (by decide), hback⟩
  have hfree : ¬ newFile.InUse 10 := fun hold => absurd hold.1 (by decide)
  rw [show ret = -ENOSPC from hret] at hres
  refine ⟨htaken, st', hres, hfree, huse, fun hgave => ?_⟩
  refine hgave.free 10 ?_ huse
  rw [htaken]
  exact ⟨(10, 54), List.mem_singleton.mpr rfl, by decide, by decide⟩

end Themis.File
