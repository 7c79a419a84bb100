/-
Filling holes for `mmap` (`nova_dax_get_blocks`) beside writes and size
changes.

A hole may be filled behind the end of the file, so `FileOk` (nothing is
mapped behind the size) does not hold here. What `nova_dax_get_blocks` and
`nova_fsync` rely on is less: an entry has no hole in front of a page it
stands under (`GapFree`). A cut keeps that exactly if no entry reaches over
its end (`CutOk`); `nova_truncate_file_blocks` cuts up to the old size
only, so a filled hole can reach over it.
-/
import Themis.Proofs.File.Run
import Themis.Proofs.Fsync

namespace Themis.HoleFill

open Lib Log File Option

variable {al : BlockAllocator} {st st' : State al} {ino : Nat}
  {L P pages : List Nat} {R : Nat → Prop}
variable {last p first b k iblock : Nat} {ret : Int} {w : WriteReq}

attribute [local simp] State.setInfo

-- === no gaps

/-- From its first page up to any page it stands under, an entry has no
hole. -/
def GapFree (st : State al) (ino : Nat) : Prop :=
  ∀ i a, (st.info ino).tree.get i = some a →
    ∀ q, (entryAt st.nv a).pgoff ≤ q → q ≤ i → (st.info ino).tree.get q ≠ none

/-- An entry with pages behind the cut begins behind it. -/
def CutOk (st : State al) (ino last : Nat) : Prop :=
  ∀ i a, (st.info ino).tree.get i = some a → last < i → last < (entryAt st.nv a).pgoff

/-- Only slots and tree matter. -/
theorem GapFree.congr (h : GapFree st ino) (hslot : st'.nv.slot = st.nv.slot)
    (htree : (st'.info ino).tree = (st.info ino).tree) : GapFree st' ino := by
  intro i a hi q hq
  rw [htree] at hi ⊢
  rw [entryAt, hslot] at hq
  exact h i a hi q hq

/-- Only slots and tree matter. -/
theorem CutOk.congr (h : CutOk st ino last) (hslot : st'.nv.slot = st.nv.slot)
    (htree : (st'.info ino).tree = (st.info ino).tree) : CutOk st' ino last := by
  intro i a hi
  rw [htree] at hi
  rw [entryAt, hslot]
  exact h i a hi

/-- Moved entries. -/
theorem GapFree.moved {kept : List (Nat × Nat)} (h : GapFree st ino)
    (hp : PagesInv st ino L pages R) (hm : Moves st st' ino L kept) : GapFree st' ino := by
  intro i b hi q h1 h2
  obtain ⟨a, ha, -, hentry⟩ := hp.moved hm hi
  rw [hentry] at h1
  have hq := h i a ha q h1 h2
  rw [hm.tree q]
  intro hnone
  exact hq (map_eq_none_iff.1 hnone)

/-- Assigned pages. -/
theorem GapFree.assigned {num : Nat} (h : GapFree st ino)
    (ha : Assigned st st' ino p (entryAt st.nv p).pgoff num) : GapFree st' ino := by
  have hmore : ∀ q, (st.info ino).tree.get q ≠ none → (st'.info ino).tree.get q ≠ none := by
    intro q hq
    rw [ha.tree q]
    split
    · simp
    · exact hq
  intro i b hi q h1 h2
  rw [ha.only.entryAt] at h1
  rw [ha.tree i] at hi
  split at hi
  · obtain rfl := some.inj hi
    rw [ha.tree q, if_pos (by omega)]
    simp
  · exact hmore q (h i b hi q h1 h2)

/-- When a cut keeps it. -/
theorem GapFree.deleted_iff (h : GapFree st ino) (hd : Deleted st st' ino first last)
    (hle : first ≤ last) : GapFree st' ino ↔ CutOk st ino last := by
  constructor
  · intro h' i a hi hlast
    by_contra hover
    have hi' : (st'.info ino).tree.get i = some a := by
      rw [hd.tree i, if_neg (by omega)]
      exact hi
    refine h' i a hi' last ?_ (by omega) ?_
    · rw [hd.only.entryAt]
      omega
    · rw [hd.tree last, if_pos ⟨hle, le_rfl⟩]
  intro hcut i a hi q h1 h2
  rw [hd.only.entryAt] at h1
  rw [hd.tree i] at hi
  split at hi
  · cases hi
  rw [hd.tree q, if_neg]
  · exact h i a hi q h1 h2
  intro hin
  have := hcut i a hi (by omega)
  omega

-- === entries behind the tail

/-- The file between two calls. -/
structure HoleInv (st : State al) (ino : Nat) (L pages : List Nat) : Prop where
  log : LogAt st ino 0 (st.nv.logTail ino) L [] pages
  base : PagesInv st ino L pages fun _ => False
  gapFree : GapFree st ino

section

variable (h : HoleInv st ino L pages)
include h

/-- Only these parts matter. -/
theorem HoleInv.congr (hnv : st'.nv = st.nv)
    (halloc : st'.alloc = st.alloc) (htree : (st'.info ino).tree = (st.info ino).tree)
    (hpages : (st'.info ino).logPages = (st.info ino).logPages) : HoleInv st' ino L pages := by
  refine ⟨?_, h.base.congr (by rw [hnv]) (by rw [hnv]) halloc htree,
    h.gapFree.congr (by rw [hnv]) htree⟩
  rw [hnv]
  refine h.log.congr (by rw [hnv]) (by rw [hnv]) (by rw [hnv]) (by rw [hnv]) ?_ hpages
  intro p hp
  rw [State.InUse, halloc]
  exact h.log.inUse p hp

/-- A new time. -/
theorem HoleInv.touch (time : Nat) : HoleInv (touch st ino time) ino L pages :=
  h.congr rfl rfl (by simp [File.touch]) (by simp [File.touch])

/-- Nothing is pending. -/
theorem HoleInv.pending : Pending st ino (st.nv.logTail ino) L [] pages :=
  ⟨h.log.retune 40, h.base.held_congr (by simp [Held]), List.Pairwise.nil, by simp, h.log.nodup⟩

end

/-- One more extent. -/
theorem GapFree.extent {st1 st2 : State al} {cur p b k n : Nat} {e : FileWriteEntry}
    {d : Nat → UInt8} (hgap : GapFree st ino) (h : Pending st ino cur L P pages)
    (hrun : NewRun st st1 b k n) (hfill : st2 = { st1 with data := d }) (hb : e.block = b)
    (hk : e.numPages = k) (happ : novaAppendFileWriteEntry st2 ino e cur = some (p, st'))
    (hp : p ≠ 0) :
    ∃ L' pages', Pending st' ino (p + 40) L' (P ++ [p]) pages' ∧ GapFree st' ino := by
  obtain ⟨L', pages', kept, hpend, hg, hbase2, -⟩ := h.extent hrun hfill hb hk happ hp
  refine ⟨L', pages', hpend, GapFree.moved ?_ hbase2 hg.moves⟩
  obtain ⟨s, rfl⟩ := hrun.only
  exact hgap.congr (by rw [hfill]) (by rw [hfill])

/-- All entries are assigned. -/
theorem GapFree.assign_all (h : Waiting st ino L P pages) (hgap : GapFree st ino) :
    let st' := P.foldl (fun st a => novaAssignWriteEntry st ino a true) st
    PagesInv st' ino (L ++ P) pages (fun _ => False) ∧ GapFree st' ino ∧ TreeOnly ino st st' ∧
      ∀ x, LogBlock pages x → st.InUse x → st'.InUse x := by
  induction P generalizing st L with
  | nil =>
    refine ⟨?_, hgap, TreeOnly.refl _ _, fun _ _ hu => hu⟩
    rw [List.append_nil]
    exact h.base.held_congr (by simp [Held])
  | cons p P ih =>
    obtain ⟨h1, hass, -, huse⟩ := h.assign
    have hgap1 := hgap.assigned hass
    have honly := hass.only
    rw [List.foldl_cons]
    generalize novaAssignWriteEntry st ino p true = st1 at *
    obtain ⟨hbase', hgap', honly', huse'⟩ := ih h1 hgap1
    refine ⟨by simpa using hbase', hgap', honly.trans honly', ?_⟩
    exact fun x hx hu => huse' x hx (huse x hx hu)

/-- Commit, and reassign the pages. -/
theorem GapFree.commit {cur : Nat} (hgap : GapFree st ino) (h : Pending st ino cur L P pages)
    (hP : P ≠ []) :
    ∃ st2, novaReassignFileTree (novaUpdateTail st ino cur) ino (P.headD 0) = some (0, st2) ∧
      HoleInv st2 ino (L ++ P) pages := by
  obtain ⟨hloop, hwait, hlog⟩ := h.reassign hP
  have hgap1 : GapFree (novaUpdateTail st ino cur) ino := hgap.congr rfl rfl
  obtain ⟨hbase, hgap', honly, huse⟩ := GapFree.assign_all hwait hgap1
  exact ⟨_, hloop, hlog _ honly huse, hbase, hgap'⟩

-- === the operations

/-- Blocks that are allocated and left. -/
theorem HoleInv.leak {n : Nat} (h : HoleInv st ino L pages) (hn : NewRun st st' b k n) :
    HoleInv st' ino L pages := by
  have hbase := h.base.take h.log.inUse hn
  have hlog := hn.logAt h.log
  obtain ⟨s, rfl⟩ := hn.only
  exact ⟨hlog, hbase.drop fun _ hx => hx.elim, h.gapFree⟩

/-- `nova_dax_get_blocks`. -/
theorem HoleInv.dax {maxBlocks time : Nat} {create : Bool} (h : HoleInv st ino L pages)
    (hres : novaDaxGetBlocks st ino iblock maxBlocks create time = some (ret, b, st'))
    (hret : ret ≠ -ENOSPC) : ∃ L' pages', HoleInv st' ino L' pages' := by
  unfold novaDaxGetBlocks at hres
  by_cases h0 : maxBlocks = 0
  · simp only [if_pos h0, some.injEq, Prod.mk.injEq] at hres
    obtain ⟨-, -, rfl⟩ := hres
    exact ⟨L, pages, h⟩
  rw [if_neg h0] at hres
  cases hget : novaGetWriteEntry st ino iblock with
  | some a =>
    simp only [hget, some.injEq, Prod.mk.injEq] at hres
    obtain ⟨-, -, rfl⟩ := hres
    exact ⟨L, pages, h⟩
  | none =>
    simp only [hget] at hres
    cases create with
    | false =>
      obtain ⟨-, -, rfl⟩ := hres
      exact ⟨L, pages, h⟩
    | true =>
      obtain ⟨num, -, hres⟩ := bind_eq_some_iff.1 hres
      have htouch := h.touch time
      generalize File.touch st ino time = st0 at *
      cases hnew : novaNewDataBlocks st0 num with
      | mk r st1 =>
        rw [hnew] at hres
        cases r with
        | none =>
          simp only [Option.pure_def, some.injEq, Prod.mk.injEq] at hres
          exact absurd hres.1.symm hret
        | some bk =>
          obtain ⟨blocknr, allocated⟩ := bk
          have hrun := novaNewDataBlocks_spec hnew
          dsimp only at hres
          by_cases hneg : intOfUlong allocated ≤ 0
          · -- the count does not fit: the blocks are lost
            simp only [if_pos hneg, Option.pure_def, some.injEq, Prod.mk.injEq] at hres
            obtain ⟨-, -, rfl⟩ := hres
            exact ⟨L, pages, htouch.leak hrun⟩
          rw [if_neg hneg] at hres
          obtain ⟨⟨p, st3⟩, happ, hres⟩ := bind_eq_some_iff.1 hres
          by_cases hp : p = 0
          · simp only [if_pos hp, Option.pure_def, some.injEq, Prod.mk.injEq] at hres
            exact absurd hres.1.symm hret
          rw [if_neg hp] at hres
          have htail : (fill st1 (blocknr * PAGE_SIZE) (allocated * PAGE_SIZE)
              fun _ => 0).nv.logTail ino = st0.nv.logTail ino := by
            obtain ⟨s, rfl⟩ := hrun.only
            rfl
          rw [htail] at happ
          obtain ⟨L', pages', hpend, hgap⟩ :=
            htouch.gapFree.extent htouch.pending hrun rfl rfl rfl happ hp
          obtain ⟨st4, hre, hok⟩ := hgap.commit hpend (by simp)
          rw [List.nil_append, List.headD_cons] at hre
          simp only [hre, bind_eq_bind, bind_some, ne_eq,
            not_true_eq_false, if_false, Option.pure_def, some.injEq, Prod.mk.injEq] at hres
          obtain ⟨-, -, rfl⟩ := hres
          exact ⟨_, _, hok⟩

/-- A write on its way. -/
def Extending (ino : Nat) (st : State al) (v : WriteVars) : Prop :=
  ∃ L P pages, Pending st ino v.tempTail L P pages ∧ GapFree st ino ∧
    v.beginTail = P.headD 0 ∧ (P = [] → v.numBlocks ≠ 0)

/-- One more extent. -/
theorem Extending.next {v : WriteVars} {st1 : State al} (h : Extending ino st v)
    (hround : Round ino w st v b k p st1 st') (hp : p ≠ 0) : Extending ino st' (v.next k p) := by
  obtain ⟨L, P, pages, hpend, hgap, hbegin, -⟩ := h
  obtain ⟨d, hd⟩ := fillExtent_data st1 ino w v b (v.bytesIn k)
  obtain ⟨L', pages', hpend', hgap'⟩ :=
    hgap.extent hpend (novaNewDataBlocks_spec hround.new) hd rfl rfl hround.entry hp
  refine ⟨L', P ++ [p], pages', hpend', hgap', ?_, fun hnil => absurd hnil (by simp)⟩
  rw [← hpend.headD_snoc, ← hbegin]
  rfl

/-- A write. -/
theorem HoleInv.write (h : HoleInv st ino L pages)
    (hres : novaCowFileWrite st ino w = some (ret, st')) (hret : ret ≠ -ENOSPC) :
    ∃ L' pages', HoleInv st' ino L' pages' := by
  rcases novaCowFileWrite_cases hres with ⟨-, rfl⟩ | ⟨-, r, hloop, hend⟩
  · exact ⟨L, pages, h⟩
  have hstart : Extending ino (File.touch st ino w.time) (w.start st ino) :=
    ⟨L, [], pages, (h.touch w.time).pending, (h.touch w.time).gapFree, rfl,
      fun _ => Nat.succ_ne_zero _⟩
  rcases extentLoop_induct Extending.next _ hstart le_rfl hloop with
    ⟨st2, rfl⟩ | ⟨st2, v, rfl, ⟨L', P', pages', hp, hgap, hbegin, hmore⟩, h0⟩
  · rcases hend with hout | ⟨st3, v, hdone, -⟩
    · cases hout
      exact absurd rfl hret
    · cases hdone
  rcases hend with hout | ⟨st3, v', hdone, hcommit⟩
  · cases hout
  cases hdone
  obtain ⟨st4, hre, hok⟩ := hgap.commit hp fun hP => hmore hP h0
  rw [← hbegin] at hre
  simp only [commitWrite, hre, bind_eq_bind, bind_some, ne_eq,
    not_true_eq_false, if_false, Option.pure_def, some.injEq, Prod.mk.injEq] at hcommit
  obtain ⟨-, rfl⟩ := hcommit
  refine ⟨L' ++ P', pages', ?_⟩
  split
  · exact hok.congr rfl rfl (by simp [setSize])
      (by simp [setSize])
  · exact hok

/-- No entry reaches over the last page of the old size, if pages are cut
off at all. -/
def TruncateOk (st : State al) (ino new : Nat) : Prop :=
  (st.info ino).iSize ≠ 0 → pagesFor new ≤ ((st.info ino).iSize - 1) / PAGE_SIZE →
    CutOk st ino (((st.info ino).iSize - 1) / PAGE_SIZE)

/-- A cut. -/
theorem HoleInv.cut (h : HoleInv st ino L pages) (hle : first ≤ last) (hcut : CutOk st ino last) :
    HoleInv (novaDeleteFileTree st ino first last true).1 ino L pages := by
  have hd := novaDeleteFileTree_free (h.base.removable first last)
  refine ⟨?_, h.base.deleted hd, (h.gapFree.deleted_iff hd hle).2 hcut⟩
  rw [hd.only.logTail]
  refine h.log.congr hd.only.slot hd.only.next ?_ ?_ ?_ ?_
  · rw [hd.only.logHead]
  · rw [hd.only.logTail]
  · intro p hp
    refine (hd.inUse _).2 ⟨h.log.inUse p hp, ?_⟩
    intro i _ _ hi
    refine (h.base.owned.used i _ hi).2.2 ?_
    rw [LogBlock, div_mul_page (h.log.isPage p hp)]
    exact hp
  · rw [hd.only.self]

/-- Clearing the tail of a page changes data only. -/
theorem novaClearLastPageTail_only (st : State al) (ino new : Nat) :
    ∃ d, novaClearLastPageTail st ino new = { st with data := d } := by
  unfold novaClearLastPageTail
  dsimp only
  split
  · exact ⟨st.data, rfl⟩
  split
  · exact ⟨st.data, rfl⟩
  · exact ⟨_, rfl⟩

section

variable (h : HoleInv st ino L pages)
include h

/-- A new size. -/
theorem HoleInv.setsize {new : Nat} (hcut : TruncateOk st ino new)
    (time : Nat) : HoleInv (novaSetsize st ino (st.info ino).iSize new time) ino L pages := by
  unfold novaSetsize
  split
  · exact h
  obtain ⟨d, hd⟩ := novaClearLastPageTail_only st ino new
  -- the size is set; log and tree are as before
  obtain ⟨st1, hst1, hnv, halloc, htree, hpages⟩ : ∃ st1, st1 = (if new ≠ (st.info ino).iSize
        then setSize (novaClearLastPageTail st ino new) ino new else st) ∧
      st1.nv = st.nv ∧ st1.alloc = st.alloc ∧ (st1.info ino).tree = (st.info ino).tree ∧
      (st1.info ino).logPages = (st.info ino).logPages := by
    refine ⟨_, rfl, ?_⟩
    split
    · rw [hd]
      simp [setSize]
    · exact ⟨rfl, rfl, rfl, rfl⟩
  rw [← hst1]
  have h1 : HoleInv st1 ino L pages := h.congr hnv halloc htree hpages
  have h2 := h1.touch time
  unfold novaTruncateFileBlocks
  dsimp only
  split
  · exact h2
  rename_i h0
  split
  · exact h2
  refine h2.cut (by omega) ?_
  refine (hcut h0 (by omega)).congr ?_ ?_
  · rw [show (File.touch st1 ino time).nv = st1.nv from rfl, hnv]
  · simp [File.touch, htree]

-- === what it is good for

/-- The next entry is behind the hole. -/
theorem HoleInv.next_entry {a : Nat} (hnone : (st.info ino).tree.get iblock = none)
    (hnext : (st.info ino).tree.gangLookup iblock = some a) : iblock < (entryAt st.nv a).pgoff := by
  obtain ⟨j, hj, hget, -⟩ := Radix.gangLookup_eq_some hnext
  by_contra hle
  exact h.gapFree j a hget iblock (by omega) hj hnone

/-- The length of a hole is found. -/
theorem HoleInv.holeBlocks_ne_none
    (hnone : (st.info ino).tree.get iblock = none) (maxBlocks : Nat) :
    holeBlocks st ino iblock maxBlocks ≠ none := by
  unfold holeBlocks
  cases hg : (st.info ino).tree.gangLookup iblock with
  | none => simp
  | some a =>
    have := h.next_entry hnone hg
    dsimp only
    rw [if_neg (by omega)]
    simp

/-- Such a file can be synced. -/
theorem HoleInv.syncFile : Fsync.SyncFile st ino := by
  refine ⟨fun p a hp => (h.base.entry p a hp).2, h.gapFree, ?_⟩
  intro p a hp
  exact h.base.counted a (h.base.member p a hp) _ (h.base.entry p a hp).1

end

-- === runs

/-- The runs of a file with holes filled. Left out are calls that fail for
want of space and cuts that an entry reaches over. -/
inductive HoleRun (ino : Nat) : State al → Prop
  /-- A file that was just created. -/
  | fresh {st : State al} (hlog : EmptyLog st ino)
      (htree : ∀ i, (st.info ino).tree.get i = none) : HoleRun ino st
  | write {st st' : State al} {w : WriteReq} {ret : Int} (h : HoleRun ino st)
      (hres : novaCowFileWrite st ino w = some (ret, st')) (hret : ret ≠ -ENOSPC) :
      HoleRun ino st'
  | setsize {st : State al} {new time : Nat} (h : HoleRun ino st)
      (hcut : TruncateOk st ino new) :
      HoleRun ino (novaSetsize st ino (st.info ino).iSize new time)
  | dax {st st' : State al} {iblock maxBlocks time b : Nat} {create : Bool} {ret : Int}
      (h : HoleRun ino st)
      (hres : novaDaxGetBlocks st ino iblock maxBlocks create time = some (ret, b, st'))
      (hret : ret ≠ -ENOSPC) : HoleRun ino st'

/-- A new file. -/
theorem HoleInv.fresh (hlog : EmptyLog st ino)
    (htree : ∀ i, (st.info ino).tree.get i = none) : HoleInv st ino [] [] := by
  have hno : ∀ i a, (st.info ino).tree.get i ≠ some a := by
    intro i a
    rw [htree]
    simp
  have hmap : ∀ i x, pageMap st ino i ≠ some x := by
    intro i x
    rw [pageMap_none (htree i)]
    simp
  refine ⟨.inl ⟨hlog, hlog.tail, rfl, rfl, rfl⟩, ⟨?_, ?_, ?_, ?_⟩, ?_⟩
  · exact fun i a hi => absurd hi (hno i a)
  · exact fun i a hi => absurd hi (hno i a)
  · intro a ha
    cases ha
  · exact ⟨fun i x hi => absurd hi (hmap i x), fun i j x hi _ => absurd hi (hmap i x),
      fun x hx => hx.elim, fun i x hi => absurd hi (hmap i x)⟩
  · exact fun i a hi => absurd hi (hno i a)

/-- Every state of a run keeps the invariant. -/
theorem HoleRun.inv (h : HoleRun ino st) : ∃ L pages, HoleInv st ino L pages := by
  induction h with
  | fresh hlog htree => exact ⟨[], [], HoleInv.fresh hlog htree⟩
  | write h hres hret ih =>
    obtain ⟨L, pages, hok⟩ := ih
    exact hok.write hres hret
  | setsize h hcut ih =>
    obtain ⟨L, pages, hok⟩ := ih
    exact ⟨L, pages, hok.setsize hcut _⟩
  | dax h hres hret ih =>
    obtain ⟨L, pages, hok⟩ := ih
    exact hok.dax hres hret

/-- In every state of a run in which no entry reaches over the end of a
cut, a hole can be filled: the next entry behind an unmapped block starts
behind it, so that `nova_dax_get_blocks` does not stop in its `BUG()`,
however many blocks are asked for; and `nova_fsync` of any range ends. -/
theorem hole_filling_usable (h : HoleRun ino st) :
    (∀ iblock a, (st.info ino).tree.get iblock = none →
      (st.info ino).tree.gangLookup iblock = some a → iblock < (entryAt st.nv a).pgoff) ∧
    (∀ iblock maxBlocks time, novaGetWriteEntry st ino iblock = none →
      holeBlocks (touch st ino time) ino iblock maxBlocks ≠ none) ∧
    ((st.info ino).iSize < 2 ^ 63 → ∀ mapped start end_, ∃ R, ∀ rounds, R ≤ rounds →
        Fsync.novaFsync st ino mapped start end_ rounds ≠ none) := by
  obtain ⟨L, pages, hok⟩ := h.inv
  refine ⟨?_, ?_, ?_⟩
  · intro iblock a hnone hnext
    exact hok.next_entry hnone hnext
  · intro iblock maxBlocks time hnone
    apply (hok.touch time).holeBlocks_ne_none
    simpa [File.touch, novaGetWriteEntry] using hnone
  · intro hsize mapped start end_
    exact hok.syncFile.returns hsize mapped start end_

/-- A file of two pages, all of it a hole. -/
def sparseFile : State (BlockAllocator.ascending 64) := novaSetsize newFile 17 0 8192 1

/-- Its pages filled through a fault. -/
def filledFile : State (BlockAllocator.ascending 64) :=
  ((novaDaxGetBlocks sparseFile 17 0 4 true 2).getD (0, 0, sparseFile)).2.2

/-- The fault goes through. -/
theorem filledFile_eq :
    ∃ b, novaDaxGetBlocks sparseFile 17 0 4 true 2 = some (4, b, filledFile) := by
  have hret : (novaDaxGetBlocks sparseFile 17 0 4 true 2).map Prod.fst = some 4 := by decide +kernel
  obtain ⟨⟨ret, b, st'⟩, hres, rfl⟩ := map_eq_some_iff.1 hret
  refine ⟨b, ?_⟩
  rw [filledFile, hres]
  rfl

/-- It is a run. -/
theorem filledFile_run : HoleRun 17 filledFile := by
  obtain ⟨b, hfilled⟩ := filledFile_eq
  have hsparse : HoleRun 17 sparseFile :=
    (HoleRun.fresh ⟨rfl, rfl⟩ fun _ => rfl).setsize fun h0 => absurd rfl h0
  exact hsparse.dax hfilled (by decide)

/-- The pages behind the size do no harm by themselves. -/
theorem hole_filling_usable_four_pages :
    HoleRun 17 filledFile ∧ novaGetWriteEntry filledFile 17 4 = none ∧
      holeBlocks (touch filledFile 17 3) 17 4 (2 ^ 40) ≠ none ∧ ∃ R, ∀ rounds, R ≤ rounds →
        Fsync.novaFsync filledFile 17 true 0 8191 rounds ≠ none := by
  have hnone : novaGetWriteEntry filledFile 17 4 = none := by decide +kernel
  have hsize : (filledFile.info 17).iSize < 2 ^ 63 := by decide +kernel
  obtain ⟨-, hdax, hsync⟩ := hole_filling_usable filledFile_run
  exact ⟨filledFile_run, hnone, hdax 4 (2 ^ 40) 3 hnone, hsync hsize true 0 8191⟩

/-- The file cut to one page: the entry of the four pages loses the second
one only. -/
def cutFile : State (BlockAllocator.ascending 64) :=
  novaSetsize filledFile 17 8192 4096 3

/-- A file cut and grown again. -/
def regrownFile : State (BlockAllocator.ascending 64) :=
  novaSetsize cutFile 17 4096 16384 4

/-- A sync of it does not return. -/
theorem novaFsync_regrownFile (rounds : Nat) :
    Fsync.novaFsync regrownFile 17 true 0 16383 rounds = none := by
  have hjump : ∀ start, start = 0 ∨ start = 4096 →
      Fsync.jumpHole regrownFile 17 16384 start = some (57344, 0) := by
    rintro start (rfl | rfl) <;> decide +kernel
  have heval : Fsync.outside regrownFile.nv 57344 0 = false ∧
      Fsync.nrFlushBytes regrownFile.nv 16384 57344 0 = 4096 := by decide +kernel
  obtain ⟨hin, hnr⟩ := heval
  have hless : ((0 + 4096 : Nat) : Int) < 16384 := by decide
  have hloop : ∀ start calls, start = 0 ∨ start = 4096 →
      Fsync.fsyncLoop regrownFile 17 16384 rounds start calls = none := by
    induction rounds with
    | zero => exact fun _ _ _ => rfl
    | succ rounds ih =>
      intro start calls hstart
      simp only [Fsync.fsyncLoop, hjump start hstart, Nat.zero_div, hin, Bool.false_eq_true,
        if_false, hnr, if_pos hless]
      exact ih _ _ (.inr rfl)
  have hsize : (regrownFile.info 17).iSize = 16384 := by decide +kernel
  rw [Fsync.novaFsync, hsize]
  exact hloop 0 [] (.inl rfl)

/-- 8 KiB, four pages filled from the start, a cut to 4 KiB: a fault on
the second page stops in the `BUG()`, and once the file is 16 KiB large,
`nova_fsync` of it never ends. -/
theorem cut_under_filled_pages :
    (sparseFile.info 17).iSize = 8192 ∧
      (∃ b, novaDaxGetBlocks sparseFile 17 0 4 true 2 = some (4, b, filledFile)) ∧
      (cutFile.info 17).iSize = 4096 ∧ novaGetWriteEntry cutFile 17 1 = none ∧
      holeBlocks (touch cutFile 17 4) 17 1 1 = none ∧
      novaDaxGetBlocks cutFile 17 1 1 true 4 = none ∧ (regrownFile.info 17).iSize = 16384 ∧
      ∀ rounds, Fsync.novaFsync regrownFile 17 true 0 16383 rounds = none := by
  have hsizes : (sparseFile.info 17).iSize = 8192 ∧ (cutFile.info 17).iSize = 4096 ∧
      (regrownFile.info 17).iSize = 16384 := by decide +kernel
  have heval : novaGetWriteEntry cutFile 17 1 = none ∧
      holeBlocks (touch cutFile 17 4) 17 1 1 = none ∧
      (novaDaxGetBlocks cutFile 17 1 1 true 4).isNone = true := by decide +kernel
  obtain ⟨hnone, hhole, hdax⟩ := heval
  exact ⟨hsizes.1, filledFile_eq, hsizes.2.1, hnone, hhole, isNone_iff_eq_none.1 hdax,
    hsizes.2.2, novaFsync_regrownFile⟩

end Themis.HoleFill
