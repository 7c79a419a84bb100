/-
The records of "." and ".." at the head of a directory's log.

# A new directory

The page of a new log is not cleared, and the two records are written
without their `invalid` byte. The directory is well formed exactly if the
byte was 0 in both places (`new_directory_iff`).

# Renames

A rename that moves a directory to another parent changes its ".." record
in place, at a fixed distance from the head of the log. Collections keep
the first two records live and next to each other (`Heads`), so that this
is the record the tree holds (`rename_updates_parent`).
-/
import Themis.Proofs.Dir.Run

namespace Themis.Dir

open Lib Log File List Function

variable {al : BlockAllocator} {U : Set (List UInt8)} {st st' : State al}
  {dir newParent : Nat} {L pages : List Nat} {d : Dentry}

-- === a new directory

/-- A new directory is well formed exactly if the bytes that its log page
held before did not mark one of the two records. -/
theorem new_directory_iff {selfIno parentIno now : Nat} (hself : selfIno ≠ 0)
    (hparent : parentIno ≠ 0) (hmode : isReg (st.nv.record dir).attrs.mode = false)
    (hinit : novaAppendDirInitEntries st dir selfIno parentIno now = (0, st')) :
    (∃ st₂, Dir.reload st' dir = some st₂ ∧
      ∀ name, lookup st₂ dir name = if bkdrHash name = bkdrHash dot then some selfIno
        else if bkdrHash name = bkdrHash dotdot then some parentIno else none) ↔
    st.nv.invalid (st'.nv.logHead dir) = 0 ∧ st.nv.invalid (st'.nv.logHead dir + 32) = 0 := by
  obtain ⟨b, hi⟩ := novaAppendDirInitEntries_spec hinit
  rw [hi.head, ← hi.invalid]
  constructor
  · rintro ⟨st₂, hres, hlook⟩
    have hdot : st'.nv.invalid b = 0 := by
      by_contra hmark
      rw [hi.reload_none hself hmark] at hres
      cases hres
    refine ⟨hdot, ?_⟩
    obtain ⟨st₃, hres', hl⟩ := hi.reloaded (U := ∅) hself hdot hmode
    rw [hres', Option.some.injEq] at hres
    subst hres
    have hdd := hlook dotdot
    rw [if_neg (by decide), if_pos rfl] at hdd
    cases hget : (st₃.info dir).tree.get (bkdrHash dotdot) with
    | none =>
      rw [lookup_none hget] at hdd
      cases hdd
    | some a =>
      obtain ⟨ha, hv⟩ := (hl.tree _ a).1 hget
      obtain ⟨d, hd, -, hclean, hhash⟩ := (hl.valid _ _).1 hv
      rcases mem_cons.1 ha with rfl | ha
      · -- the record of "." has another name
        obtain ⟨d₁, hs₁, hn₁, -⟩ := hi.self
        rw [hs₁, LogEntry.dirLog.injEq] at hd
        rw [← hd, hn₁] at hhash
        exact absurd hhash (by decide)
      · rw [mem_singleton.1 ha] at hclean
        exact hclean
  intro hclean
  obtain ⟨st₂, hres, hl⟩ := hi.reloaded (U := ∅) hself hclean.1 hmode
  exact ⟨st₂, hres, hi.lookup hself hparent hclean hl⟩

/-- Pages that held other entries before; two of the counters are 0. -/
def usedDir : State (BlockAllocator.ascending 64) :=
  { newDir with nv := { newDir.nv with
      slot := fun _ => .nextPage
      invalid := fun a => if a = 40960 ∨ a = 40992 then 0 else 7 } }

/-- A page with old bytes. -/
theorem new_directory_iff_used_page :
    ∃ st₂, Dir.reload (novaAppendDirInitEntries usedDir 18 18 1 0).2 18 = some st₂ ∧
      ∀ name, lookup st₂ 18 name = if bkdrHash name = bkdrHash dot then some 18
        else if bkdrHash name = bkdrHash dotdot then some 1 else none := by
  have hinit : (novaAppendDirInitEntries usedDir 18 18 1 0).1 = 0 := by decide +kernel
  exact (new_directory_iff (by decide) (by decide) (by decide) (Prod.ext hinit rfl)).2
    ⟨by decide +kernel, by decide +kernel⟩

/-- The first free page held something with a byte 1 in the place of the
second record's `invalid`. -/
def usedPage : State (BlockAllocator.ascending 64) :=
  { newDir with nv := { newDir.nv with invalid := fun a => if a = 40992 then 1 else 0 } }

/-- The new directory has no parent. -/
theorem new_directory_without_parent :
    (novaAppendDirInitEntries usedPage 18 18 1 0).1 = 0 ∧
      (Dir.reload (novaAppendDirInitEntries usedPage 18 18 1 0).2 18).map
        (fun st => (lookup st 18 dot, lookup st 18 dotdot)) = some (some 18, none) := by
  decide +kernel

-- === the ".." record

/-- The first entry is at the head. -/
theorem headD_of_ents {nv : Nvmm} {F : List Page} {T : Page} {rest Y : List Nat} {a : Nat}
    (h : OpenLog nv F T rest) (hL : entsOf F ++ T.ents = a :: Y) :
    (basesOf F ++ [T.base]).headD 0 = a := by
  have hfirst : ∀ w : Page, w.Holds nv → ∀ Z, w.ents = a :: Z → w.base = a := by
    intro w hw Z hZ
    have hseg := hw.seg
    rw [hZ] at hseg
    exact hseg.1.symm
  cases F with
  | nil => exact hfirst T h.last Y hL
  | cons w F =>
    have hw := h.full w mem_cons_self
    obtain ⟨x, Z, hZ⟩ := exists_cons_of_ne_nil hw.nonempty
    rw [entsOf_cons, hZ, cons_append, cons_append, List.cons.injEq] at hL
    exact hfirst w hw.toHolds Z (by rw [hZ, hL.1])

/-- The second record is that of "..". -/
theorem DirOk.father (h : DirOk U st dir L pages) :
    fatherEntry st dir ∈ L ∧ ValidAt st.nv (bkdrHash dotdot) (fatherEntry st dir) := by
  obtain ⟨a, Y, hL, -, hdd, -⟩ := h.dirAt.heads
  obtain ⟨F, T, rest, hr, -, hents, -⟩ := h.readable
  have hplace : fatherEntry st dir = a + 32 := by
    unfold fatherEntry
    rw [hr.head, headD_of_ents hr.log (hents.symm.trans hL)]
    rfl
  rw [hplace, hL]
  exact ⟨by simp, hdd⟩

/-- Only the inode number of the record changes. -/
structure Fathered (st st' : State al) (dir newParent : Nat) (d : Dentry) : Prop where
  old : st.nv.slot (fatherEntry st dir) = .dirLog d
  new : st'.nv.slot (fatherEntry st dir) = .dirLog { d with ino := newParent }
  slot : ∀ a, a ≠ fatherEntry st dir → st'.nv.slot a = st.nv.slot a
  invalid : st'.nv.invalid = st.nv.invalid
  next : st'.nv.next = st.nv.next
  logHead : st'.nv.logHead = st.nv.logHead
  logTail : st'.nv.logTail = st.nv.logTail
  record : st'.nv.record = st.nv.record
  data : st'.data = st.data
  alloc : st'.alloc = st.alloc
  info : st'.info = st.info

/-- What the store does. -/
theorem storeFather_spec (newParent : Nat) (hd : st.nv.slot (fatherEntry st dir) = .dirLog d) :
    ∃ st', storeFather st dir newParent = some st' ∧ Fathered st st' dir newParent d := by
  have hres : storeFather st dir newParent
      = some ((st.store (.slot (fatherEntry st dir) (.dirLog { d with ino := newParent })
        (st.nv.invalid (fatherEntry st dir)))).flush
          (.bytes (fatherEntry st dir) (novaDirLogRecLen 2)) false) := by
    simp only [storeFather, hd]
  refine ⟨_, hres, hd, ?_, ?_, ?_, rfl, rfl, rfl, rfl, rfl, rfl, rfl⟩
  · simp [State.store, State.flush, Nvmm.apply]
  · intro a ha
    simp [State.store, State.flush, Nvmm.apply, ha]
  · simp [State.store, State.flush, Nvmm.apply]

namespace Fathered

variable (h : Fathered st st' dir newParent d)
include h

/-- Entries after the store. -/
theorem entry (a : Nat) : st'.nv.slot a = st.nv.slot a ∨
      st.nv.slot a = .dirLog d ∧ st'.nv.slot a = .dirLog { d with ino := newParent } := by
  by_cases ha : a = fatherEntry st dir
  · rw [ha]
    exact .inr ⟨h.old, h.new⟩
  · exact .inl (h.slot a ha)

/-- Valid records stay so. -/
theorem validAt_iff (hold : d.ino ≠ 0)
    (hnew : newParent ≠ 0) (i a : Nat) : ValidAt st'.nv i a ↔ ValidAt st.nv i a := by
  rcases h.entry a with hs | ⟨hs, hs'⟩
  · simp only [ValidAt, hs, h.invalid]
  · simp [ValidAt, hs, hs', h.invalid, hold, hnew]

/-- Names stay. -/
theorem namedAt_iff (i a : Nat) : NamedAt st'.nv i a ↔ NamedAt st.nv i a := by
  rcases h.entry a with hs | ⟨hs, hs'⟩
  · simp only [NamedAt, hs]
  · simp [NamedAt, hs, hs']

/-- Records stay. -/
theorem isRecord_iff (a : Nat) : IsRecord st'.nv a ↔ IsRecord st.nv a := by
  rcases h.entry a with hs | ⟨hs, hs'⟩
  · simp only [IsRecord, hs]
  · simp [IsRecord, hs, hs']

/-- Sizes stay. -/
theorem size_eq (a : Nat) : (st'.nv.slot a).size = (st.nv.slot a).size := by
  rcases h.entry a with hs | ⟨hs, hs'⟩
  · rw [hs]
  · rw [hs, hs']
    rfl

/-- Entries stay allowed. -/
theorem dirEntryOk {a : Nat}
    (hok : DirEntryOk U (st.nv.slot a)) : DirEntryOk U (st'.nv.slot a) := by
  rcases h.entry a with hs | ⟨hs, hs'⟩
  · rw [hs]
    exact hok
  rw [hs] at hok
  rw [hs']
  exact hok

/-- Pages hold their entries. -/
theorem holds {w : Page} (hw : w.Holds st.nv) :
    w.Holds st'.nv := ⟨hw.isPage, hw.seg.resize fun a _ => h.size_eq a⟩

/-- The log stays. -/
theorem openLog {F : List Page} {T : Page} {rest : List Nat} (hlog : OpenLog st.nv F T rest) :
    OpenLog st'.nv F T rest where
  chain := by
    rw [h.next]
    exact hlog.chain
  nodup := hlog.nodup
  full w hw := by
    have hS := hlog.full w hw
    refine ⟨h.holds hS.toHolds, hS.nonempty, ?_⟩
    rcases hS.mark with hend | hmark
    · exact .inl hend
    -- the record is not a mark
    refine .inr ((h.slot w.stop ?_).trans hmark)
    intro heq
    rw [heq, h.old] at hmark
    cases hmark
  last := h.holds hlog.last
  spare := hlog.spare

/-- The log stays, with its pages. -/
theorem logAt {m cur : Nat} {P : List Nat}
    (hlog : LogAt st dir m cur L P pages) : LogAt st' dir m cur L P pages := by
  rcases hlog with ⟨⟨h1, h2⟩, hrest⟩ | ⟨A, B, T, rest, C, hcur, hf⟩
  · exact .inl ⟨⟨by rw [h.logHead]; exact h1, by rw [h.logTail]; exact h2⟩, hrest⟩
  refine .inr ⟨A, B, T, rest, C, hcur, ⟨h.openLog hf.log.log, ?_, ?_, ?_, hf.log.onDevice, ?_⟩,
    hf.used, hf.split, hf.committed, hf.pages, hf.clean, hf.tight, ?_⟩
  · rw [h.logHead]
    exact hf.log.head
  · rw [h.logTail]
    exact hf.log.tail
  · intro p hp
    rw [State.InUse, h.alloc]
    exact hf.log.inUse p hp
  · rw [h.info]
    exact hf.log.count
  · rw [h.logTail]
    exact hf.onTail

/-- The entries stay listed. -/
theorem listed (hold : d.ino ≠ 0) (hnew : newParent ≠ 0)
    (hlisted : Listed U st.nv L) : Listed U st'.nv L := by
  refine ⟨fun a ha => h.dirEntryOk (hlisted.ok a ha), ?_, ?_⟩
  · apply hlisted.once.imp
    intro x y hxy i hv hn
    exact hxy i ((h.validAt_iff hold hnew i x).1 hv) ((h.namedAt_iff i y).1 hn)
  obtain ⟨a, ha, hv, hfirst⟩ := hlisted.first
  refine ⟨a, ha, (h.validAt_iff hold hnew _ a).2 hv, hfirst.imp ?_⟩
  intro x y hxy heq hrec
  exact hxy heq ((h.isRecord_iff x).1 hrec)

/-- The directory stays one. -/
theorem dirOk (hok : DirOk U st dir L pages) (hnew : newParent ≠ 0) : DirOk U st' dir L pages := by
  have hold : d.ino ≠ 0 := by
    obtain ⟨-, d', hd', h0, -⟩ := hok.father
    rw [h.old, LogEntry.dirLog.injEq] at hd'
    rw [hd']
    exact h0
  refine ⟨⟨?_, h.listed hold hnew hok.dirAt.listed, ?_, ?_⟩, ?_, ?_⟩
  · rw [h.logTail]
    exact h.logAt hok.dirAt.log
  · intro i a
    rw [h.info, h.validAt_iff hold hnew]
    exact hok.dirAt.tree i a
  · exact hok.dirAt.heads.weaken (fun a _ => h.size_eq a)
      fun a _ i _ hv => (h.validAt_iff hold hnew i a).2 hv
  · rw [h.info]
    exact hok.mode
  · rw [h.record]
    exact hok.recordMode

/-- Only ".." changes. -/
theorem lookup_eq (hok : DirOk U st dir L pages) (name : List UInt8) : lookup st' dir name
      = if bkdrHash name = bkdrHash dotdot then some newParent else lookup st dir name := by
  obtain ⟨hmem, hv⟩ := hok.father
  have hdd := (hok.dirAt.tree _ _).2 ⟨mem_append_left [] hmem, hv⟩
  split
  · rename_i hhash
    refine lookup_some ?_ h.new
    rw [h.info, hhash]
    exact hdd
  rename_i hhash
  have hne : ∀ a, (st.info dir).tree.get (bkdrHash name) = some a → a ≠ fatherEntry st dir := by
    rintro a hget rfl
    exact hhash (((hok.dirAt.tree _ _).1 hget).2.hash_eq hv)
  cases hget : (st.info dir).tree.get (bkdrHash name) with
  | none => rw [lookup_none hget, lookup_none (by rw [h.info]; exact hget)]
  | some a =>
    simp only [Dir.lookup, novaFindDentry, h.info, hget, Option.bind_some, h.slot a (hne a hget)]

end Fathered

-- === runs with renames

/-- The runs of a directory that is itself moved from parent to parent. -/
inductive MovedRun (U : Set (List UInt8)) (dir : Nat) : State al → NameMap → Prop
  | start {st : State al} {m : NameMap} (h : DirRun U dir st m) : MovedRun U dir st m
  | ops {st st' : State al} {m : NameMap} {ops : List DirOp} {newTail : Nat}
      (h : MovedRun U dir st m) (hops : ∀ op ∈ ops, op.Allowed U) (hne : ops ≠ [])
      (hres : runOps dir ops st 0 = some (0, newTail, st')) :
      MovedRun U dir (novaUpdateTail st' dir newTail) (ops.foldl NameMap.step m)
  | setattr {st st' : State al} {m : NameMap} {attr : Iattr} {changeOk ret : Int}
      {eofBlocks : Bool} {time : Nat} (h : MovedRun U dir st m)
      (hmode : attr.valid.testBit 0 = true → isReg attr.mode = false)
      (hres : novaNotifyChange st dir attr changeOk eofBlocks time = some (ret, st')) :
      MovedRun U dir st' m
  | links {st st' : State al} {m : NameMap} {e : LinkChangeEntry} (h : MovedRun U dir st m)
      (hres : changeLinks st dir e = some (0, st')) : MovedRun U dir st' m
  | reload {st st' : State al} {m : NameMap} (h : MovedRun U dir st m)
      (hres : Dir.reload st dir = some st') : MovedRun U dir st' m
  | father {st st' : State al} {m : NameMap} {newParent : Nat} (h : MovedRun U dir st m)
      (hnew : newParent ≠ 0) (hres : storeFather st dir newParent = some st') :
      MovedRun U dir st' (Function.update m dotdot (some newParent))

/-- The names after a move. -/
theorem Fathered.agrees {m : NameMap} (h : Fathered st st' dir newParent d) (hU : Names U)
    (hok : DirOk U st dir L pages) (hm : Agrees U st dir m) :
    Agrees U st' dir (update m dotdot (some newParent)) := by
  intro name hk
  rw [h.lookup_eq hok name]
  by_cases hname : name = dotdot
  · rw [hname, if_pos rfl, update_self]
  have hhash : bkdrHash name ≠ bkdrHash dotdot := fun heq =>
    hname (hU.inj _ _ hk (.inr (.inr rfl)) heq)
  rw [if_neg hhash, update_of_ne hname]
  exact hm name hk

/-- Every state of a run is a directory. -/
theorem MovedRun.ok {m : NameMap} (hU : Names U) (h : MovedRun U dir st m) :
    (∃ L pages, DirOk U st dir L pages) ∧ Agrees U st dir m := by
  induction h with
  | start h => exact h.ok hU
  | ops h hops hne hres ih =>
    obtain ⟨⟨L, pages, hok⟩, hm⟩ := ih
    exact hok.runOps hU hops hne hm hres
  | setattr h hmode hres ih =>
    obtain ⟨⟨L, pages, hok⟩, hm⟩ := ih
    obtain ⟨⟨L', pages', hok', -⟩, hlook⟩ := hok.notifyChange_links hmode hres
    exact ⟨⟨L', pages', hok'⟩, fun name hk => by rw [hlook]; exact hm name hk⟩
  | links h hres ih =>
    obtain ⟨⟨L, pages, hok⟩, hm⟩ := ih
    obtain ⟨hok', hlook⟩ := hok.changeLinks hres
    exact ⟨hok', fun name hk => by rw [hlook]; exact hm name hk⟩
  | reload h hres ih =>
    obtain ⟨⟨L, pages, hok⟩, hm⟩ := ih
    obtain ⟨st2, hres', hok', hlook⟩ := hok.reload
    rw [hres', Option.some.injEq] at hres
    rw [← hres]
    exact ⟨⟨L, pages, hok'⟩, fun name hk => by rw [hlook]; exact hm name hk⟩
  | father h hnew hres ih =>
    obtain ⟨⟨L, pages, hok⟩, hm⟩ := ih
    obtain ⟨-, d, hd, -⟩ := hok.father
    obtain ⟨st2, hres', hf⟩ := storeFather_spec _ hd
    rw [hres', Option.some.injEq] at hres
    rw [← hres]
    exact ⟨⟨L, pages, hf.dirOk hok hnew⟩, hf.agrees hU hok hm⟩

/-- The record a rename changes in place is that of "..", the one the tree
holds, and the change is one of the recorded parent only. -/
theorem rename_updates_parent {m : NameMap} (hU : Names U) (h : MovedRun U dir st m)
    (newParent : Nat) :
    ∃ d, st.nv.slot (fatherEntry st dir) = .dirLog d ∧ d.name = dotdot ∧ m dotdot = some d.ino ∧
      (st.info dir).tree.get (bkdrHash dotdot) = some (fatherEntry st dir) ∧
      ∃ st', storeFather st dir newParent = some st' ∧ Fathered st st' dir newParent d ∧
        ∀ name, lookup st' dir name
          = if bkdrHash name = bkdrHash dotdot then some newParent else lookup st dir name := by
  obtain ⟨⟨L, pages, hok⟩, hm⟩ := h.ok hU
  obtain ⟨hmem, hv⟩ := hok.father
  obtain ⟨d, hd, -, -, hhash⟩ := id hv
  have htree := (hok.dirAt.tree _ _).2 ⟨mem_append_left [] hmem, hv⟩
  have hname : d.name = dotdot := by
    have hent := hok.dirAt.listed.ok _ (mem_append_left [] hmem)
    rw [hd] at hent
    exact hU.inj _ _ hent.2 (.inr (.inr rfl)) hhash
  obtain ⟨st', hres, hf⟩ := storeFather_spec newParent hd
  refine ⟨d, hd, hname, ?_, htree, st', hres, hf, hf.lookup_eq hok⟩
  rw [← hm dotdot (.inr (.inr rfl))]
  exact lookup_some htree hd

/-- After a run with a rename in it. -/
theorem rename_updates_parent_renamed :
    Names {[97], [98]} ∧ (∃ m, DirRun {[97], [98]} 18 renamedDir m) ∧
      ∃ st', storeFather renamedDir 18 40 = some st' ∧
        lookup st' 18 dotdot = some 40 ∧ lookup st' 18 [98] = some 33 := by
  refine ⟨names_ab, renamedDir_run, ?_⟩
  obtain ⟨m, hm⟩ := renamedDir_run
  obtain ⟨d, -, -, -, -, st', hres, -, hlook⟩ := rename_updates_parent names_ab (.start hm) 40
  have hb : lookup renamedDir 18 [98] = some 33 := by decide +kernel
  exact ⟨st', hres, by rw [hlook, if_pos rfl], by rw [hlook, if_neg (by decide), hb]⟩

end Themis.Dir
