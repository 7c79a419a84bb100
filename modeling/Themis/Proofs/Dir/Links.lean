/-
The link count of a directory, in memory and in its log.

# Where it is kept

`i_nlink` is in DRAM. Every record of the log carries the count that the
operation left, and a rebuild ends with that of the last record, whether or
not the name in it still stands.

# When it survives

A record that is appended carries the count of the moment
(`DirOk.name_links`). A collection may take it if it is a removal, or
marked, once entries of another kind follow it. As long as attributes are
changed only while the last record is one of a name that stands, the
rebuild gives `i_nlink` (`link_count_survives`); otherwise it may give an
older count (`link_count_reverts`).
-/
import Themis.Proofs.Dir.Lost

namespace Themis.Dir

open Lib Log File Option Function

variable {al : BlockAllocator} {U : Set (List UInt8)} {st st' : State al}
  {dir cur tail n k newTail : Nat} {L P pages : List Nat}

-- === one record

/-- One operation, with the link count it logs. -/
theorem DirAt.run_links {op : DirOp} (h : DirAt U st dir cur L P pages) (hU : Names U)
    (hop : op.Allowed U) (hcur : AtCursor st dir tail cur)
    (hres : op.run st dir tail = some (0, newTail, st')) :
    ∃ L' P' pages', Stepped U st st' dir newTail L' P' pages' ∧
      EndsWith st'.nv P' (linksCount op.req.nlink op.linkChange) := by
  cases op with
  | add ino req inc => exact (h.add_links hU hop.1 hop.2 hcur hres).1
  | remove req dec => exact (h.remove_links hU hop hcur hres).1

/-- The last count logged. -/
theorem EndsWith.lastEvent_eq {nv : Nvmm} (h : EndsWith nv P k) (L : List Nat) :
    lastEvent (linksEvent nv) (L ++ P) = some k := by
  obtain ⟨P0, p, d, rfl, hd, rfl⟩ := h
  rw [← List.append_assoc, lastEvent_snoc]
  simp [linksEvent, hd]

/-- The sum fits the field. -/
theorem linksCount_eq {m : Nat} {change : Int} (hm : (n : Int) + change = m)
    (hn : n ≤ NOVA_LINK_MAX) (hmax : m ≤ NOVA_LINK_MAX) : linksCount n change = m := by
  have hlim : NOVA_LINK_MAX = 32000 := rfl
  unfold linksCount
  rw [if_neg (by omega)]
  omega

/-- The logged count is the new count. -/
theorem linksCount_dirOp {op : NameOp} (hn : n ≤ NOVA_LINK_MAX) (hop : op.permitted n) :
    linksCount (op.dirOp n).req.nlink (op.dirOp n).linkChange = op.nlink n ∧
      op.nlink n ≤ NOVA_LINK_MAX := by
  cases op with
  | mkdir ino name time =>
    have hlt : n < NOVA_LINK_MAX := by simpa [NameOp.permitted] using hop
    refine ⟨?_, hlt⟩
    show linksCount n 1 = n + 1
    exact linksCount_eq rfl hn hlt
  | rmdir name time =>
    have hle : n - 1 ≤ NOVA_LINK_MAX := (Nat.sub_le n 1).trans hn
    refine ⟨?_, hle⟩
    show linksCount n (-1) = n - 1
    cases n with
    | zero => rfl
    | succ n => exact linksCount_eq (by omega) hn hle
  | _ => exact ⟨linksCount_eq (Int.add_zero _) hn hn, hn⟩

/-- A name operation, with its link count. -/
theorem DirOk.name_links {op : NameOp} (h : DirOk U st dir L pages) (hU : Names U)
    (hn : n ≤ NOVA_LINK_MAX) (hop : (op.dirOp n).Allowed U) (hmax : op.permitted n)
    (hres : Dir.runOps dir [op.dirOp n] st 0 = some (0, newTail, st')) :
    ∃ L' pages', DirOk U (novaUpdateTail st' dir newTail) dir L' pages' ∧
      lastEvent (linksEvent (novaUpdateTail st' dir newTail).nv) L' = some (op.nlink n) := by
  simp only [Dir.runOps, bind_eq_bind] at hres
  rw [bind_eq_some_iff] at hres
  obtain ⟨⟨err, tail1, st1⟩, hrun, hres⟩ := hres
  by_cases herr : err = 0
  · simp only [herr, ne_eq, not_true_eq_false, if_false, some.injEq, Prod.mk.injEq,
      true_and] at hres
    obtain ⟨rfl, rfl⟩ := hres
    rw [herr] at hrun
    have hcur : AtCursor st dir 0 (st.nv.logTail dir) := by simp [AtCursor]
    obtain ⟨L', P', pages', hs, hend⟩ := h.dirAt.run_links hU hop hcur hrun
    rw [(linksCount_dirOp hn hmax).1] at hend
    exact ⟨L' ++ P', pages', h.stepped hs, hend.lastEvent_eq L'⟩
  simp only [ne_eq, herr, not_false_eq_true, if_true, Option.pure_def,
    some.injEq, Prod.mk.injEq] at hres
  exact hres.1.elim

-- === a new directory

/-- The link count of an initial record. -/
theorem storeInitEntry_links (st : State al) (p : Nat) (d : Dentry) :
    linksEvent (storeInitEntry st p d).nv p = some d.linksCount := by
  unfold storeInitEntry
  cases hs : st.nv.slot p with
  | _ => simp [linksEvent, State.store, State.flush, Nvmm.apply]

/-- The link count of the second initial record. -/
theorem novaAppendDirInitEntries_links {selfIno parentIno now : Nat}
    (hres : novaAppendDirInitEntries st dir selfIno parentIno now = (0, st')) :
    linksEvent st'.nv (st'.nv.logHead dir + 32) = some 2 := by
  unfold novaAppendDirInitEntries at hres
  split at hres
  · have herr : -EINVAL = 0 := congrArg Prod.fst hres
    exact absurd herr (by decide)
  split at hres
  · have herr : -ENOMEM = 0 := congrArg Prod.fst hres
    exact absurd herr (by decide)
  split at hres
  · have herr : -ENOMEM = 0 := congrArg Prod.fst hres
    exact absurd herr (by decide)
  rename_i b st1 _ _
  rw [Prod.mk.injEq] at hres
  rw [← hres.2]
  have hlen : novaDirLogRecLen 1 = 32 := rfl
  simp only [hlen]
  generalize hst2 : ((st1.store (.logHead dir b)).store (.logTail dir b)).flush
    (.inode dir) false = st2
  have ho1 := storeInitEntry_only st2 b ⟨dot, 0, 32, 1, now, selfIno, PAGE_SIZE⟩
  generalize storeInitEntry st2 b ⟨dot, 0, 32, 1, now, selfIno, PAGE_SIZE⟩ = st3 at *
  have ho2 := storeInitEntry_only st3 (b + 32)
    ⟨dotdot, 0, novaDirLogRecLen 2, 2, now, parentIno, PAGE_SIZE⟩
  have hlinks := storeInitEntry_links st3 (b + 32)
    ⟨dotdot, 0, novaDirLogRecLen 2, 2, now, parentIno, PAGE_SIZE⟩
  generalize storeInitEntry st3 (b + 32)
    ⟨dotdot, 0, novaDirLogRecLen 2, 2, now, parentIno, PAGE_SIZE⟩ = st4 at *
  have hhead : st4.nv.logHead dir = b := by
    rw [ho2.logHead, ho1.logHead, ← hst2]
    simp [State.store, State.flush, Nvmm.apply]
  show linksEvent st4.nv (st4.nv.logHead dir + 32) = some 2
  rw [hhead]
  exact hlinks

-- === runs

/-- The runs of a directory with its `i_nlink`. Attributes are changed in
states with `calm` only. -/
inductive LinkRun (U : Set (List UInt8)) (dir : Nat) (calm : State al → Prop) :
    State al → Nat → Prop
  /-- A new directory, as for `DirRun`. -/
  | init {st st₁ st₂ : State al} {selfIno parentIno now : Nat}
      (hmode : isReg (st.nv.record dir).attrs.mode = false) (hself : selfIno ≠ 0)
      (hparent : parentIno ≠ 0)
      (hinit : novaAppendDirInitEntries st dir selfIno parentIno now = (0, st₁))
      (hclean : st₁.nv.invalid (st₁.nv.logHead dir) = 0 ∧
        st₁.nv.invalid (st₁.nv.logHead dir + 32) = 0)
      (hres : Dir.reload st₁ dir = some st₂) : LinkRun U dir calm st₂ 2
  | name {st st' : State al} {n newTail : Nat} {op : NameOp}
      (h : LinkRun U dir calm st n) (hop : (op.dirOp n).Allowed U)
      (hmax : op.permitted n)
      (hres : Dir.runOps dir [op.dirOp n] st 0 = some (0, newTail, st')) :
      LinkRun U dir calm (novaUpdateTail st' dir newTail) (op.nlink n)
  | setattr {st st' : State al} {n time : Nat} {attr : Iattr} {changeOk ret : Int}
      {eofBlocks : Bool} (h : LinkRun U dir calm st n) (hcalm : calm st)
      (hmode : attr.valid.testBit 0 = true → isReg attr.mode = false)
      (hres : novaNotifyChange st dir attr changeOk eofBlocks time = some (ret, st')) :
      LinkRun U dir calm st' n

/-- The last link count cannot be collected. -/
def Settled (dir : Nat) (st : State al) : Prop :=
  ∀ L, walkLog st dir = some L → LastLive st.nv L

/-- Along every run the link count is logged. -/
theorem LinkRun.ok (hU : Names U) (h : LinkRun U dir (Settled dir) st n) :
    (∃ L pages, DirOk U st dir L pages ∧ lastEvent (linksEvent st.nv) L = some n) ∧
      n ≤ NOVA_LINK_MAX := by
  induction h with
  | init hmode hself hparent hinit hclean hres =>
    obtain ⟨b, hi⟩ := novaAppendDirInitEntries_spec hinit
    have hlinks := novaAppendDirInitEntries_links hinit
    rw [hi.head] at hclean hlinks
    obtain ⟨st2, hres', hl⟩ := hi.reloaded (U := U) hself hclean.1 hmode
    rw [hres', some.injEq] at hres
    rw [← hres]
    refine ⟨⟨_, _, hl.ok (hi.heads hself hparent hclean), ?_⟩, by decide⟩
    show lastEvent _ ([b] ++ [b + 32]) = some 2
    rw [lastEvent_snoc]
    simp only [linksEvent, hl.slot] at hlinks ⊢
    rw [hlinks]
    rfl
  | name h hop hmax hres ih =>
    obtain ⟨⟨L, pages, hok, -⟩, hn⟩ := ih
    exact ⟨hok.name_links hU hn hop hmax hres, (linksCount_dirOp hn hmax).2⟩
  | setattr h hcalm hmode hres ih =>
    obtain ⟨⟨L, pages, hok, hlast⟩, hn⟩ := ih
    obtain ⟨⟨L', pages', hok', hkeep⟩, -⟩ := hok.notifyChange_links hmode hres
    refine ⟨⟨L', pages', hok', ?_⟩, hn⟩
    rw [hkeep (hcalm L hok.walkLog_eq), hlast]

/-- The rebuild of a directory gives its `i_nlink` back, if attributes are
changed only while the last record of the log is one of a name that
stands. -/
theorem link_count_survives (hU : Names U) (h : LinkRun U dir (Settled dir) st n) :
    ∃ st', novaRebuildDirInodeTree
        (st.setInfo dir (freshInfo (st.nv.record dir))) dir = some (st', false) ∧
      (st'.nv.record dir).links = n := by
  obtain ⟨⟨L, pages, hok, hlast⟩, -⟩ := h.ok hU
  obtain ⟨st', hres, -, hlinks⟩ := hok.rebuild
  refine ⟨st', hres, ?_⟩
  rw [hlinks, hlast]
  rfl

-- === two small runs

/-- A name operation with its commit. -/
def commitName (n : Nat) (op : NameOp) (st : State (BlockAllocator.ascending 64)) :
    State (BlockAllocator.ascending 64) :=
  commitOne (op.dirOp n) st

/-- A new mode for a directory. -/
def chmod : Iattr := { valid := 1, mode := 0o040755, uid := 0, gid := 0, size := 0,
                       atime := 0, mtime := 0, ctime := 0 }

/-- The directory after it. -/
def chmodDir (st : State (BlockAllocator.ascending 64)) :
    State (BlockAllocator.ascending 64) :=
  match novaNotifyChange st 18 chmod 0 false 1 with
  | some (_, st') => st'
  | none => st

section

variable {calm : State (BlockAllocator.ascending 64) → Prop}
  {st : State (BlockAllocator.ascending 64)}

/-- The first directory has two links. -/
theorem firstDir_links : LinkRun U 18 calm firstDir 2 := by
  obtain ⟨hinit, hres⟩ := firstDir_made
  refine LinkRun.init (by decide) (by decide) (by decide) hinit ?_ hres
  decide +kernel

section

variable (h : LinkRun U 18 calm st n)
include h

/-- A name operation is a step. -/
theorem LinkRun.commitName (op : NameOp) (hop : (op.dirOp n).Allowed U) (hmax : op.permitted n)
    (hdone : (runOps 18 [op.dirOp n] st 0).map (·.1) = some 0) :
    LinkRun U 18 calm (commitName n op st) (op.nlink n) := by
  obtain ⟨⟨err, newTail, st'⟩, hres, herr⟩ := map_eq_some_iff.1 hdone
  have herr' : err = 0 := herr
  rw [herr'] at hres
  have hcommit : Dir.commitName n op st = novaUpdateTail st' 18 newTail := by
    simp only [Dir.commitName, commitOne, hres]
  rw [hcommit]
  exact h.name hop hmax hres

/-- A name operation that keeps the count. -/
theorem LinkRun.commitSame (op : NameOp)
    (hop : (op.dirOp n).Allowed U) (hmax : op.permitted n) (hsame : op.nlink n = n) :
    LinkRun U 18 calm (Dir.commitName n op st) n := by
  unfold Dir.commitName commitOne
  split
  · rename_i hres
    rw [← hsame]
    exact h.name hop hmax hres
  · exact h

/-- A new mode is a step. -/
theorem LinkRun.chmodDir (hcalm : calm st) : LinkRun U 18 calm (chmodDir st) n := by
  unfold Dir.chmodDir
  split
  · rename_i hres
    exact h.setattr hcalm (fun _ => by decide) hres
  · exact h

end

/-- A name comes and goes. -/
def passing (n : Nat) (st : State (BlockAllocator.ascending 64)) :
    State (BlockAllocator.ascending 64) :=
  commitName n (.unlink longName 1) (commitName n (.create 34 longName 1) st)

/-- Names that come and go are steps. -/
theorem LinkRun.passing (m : Nat) (h : LinkRun {[97], longName} 18 calm st n) :
    LinkRun {[97], longName} 18 calm (Nat.iterate (passing n) m st) n := by
  induction m with
  | zero => exact h
  | succ m ih =>
    rw [iterate_succ_apply']
    have hname : longName ∈ ({[97], longName} : Set (List UInt8)) := .inr rfl
    exact (ih.commitSame (.create 34 longName 1) ⟨hname, by decide⟩ rfl rfl).commitSame
      (.unlink longName 1) hname rfl rfl

end

/-- A subdirectory is made. -/
def withSubdir : State (BlockAllocator.ascending 64) :=
  commitName 2 (.mkdir 33 [97] 1) firstDir

/-- The directory then has three links. -/
theorem withSubdir_links {calm : State (BlockAllocator.ascending 64) → Prop} :
    LinkRun {[97], longName} 18 calm withSubdir 3 :=
  firstDir_links.commitName (.mkdir 33 [97] 1) ⟨.inl rfl, by decide⟩ rfl
    (by decide +kernel)

/-- Then the mode of the directory is changed. -/
theorem link_count_survives_mkdir :
    LinkRun {[97], longName} 18 (Settled 18) (chmodDir withSubdir) 3 ∧
      ∃ st', novaRebuildDirInodeTree ((chmodDir withSubdir).setInfo 18
          (freshInfo ((chmodDir withSubdir).nv.record 18))) 18 = some (st', false) ∧
        (st'.nv.record 18).links = 3 := by
  have hlog : walkLog withSubdir 18 = some [40960, 40992, 41024] := by decide +kernel
  have hlive : ∀ a ∈ [40960, 40992, 41024], ¬ Expendable withSubdir.nv a := by decide +kernel
  have hsettled : Settled 18 withSubdir := by
    intro L hL X a Y hsplit _ _
    rw [hlog, some.injEq] at hL
    exact hlive a (by rw [hL, hsplit]; simp)
  have hrun := withSubdir_links.chmodDir hsettled
  exact ⟨hrun, link_count_survives names_long hrun⟩

/-- "a" is removed again, with the record on the second page. Files come
and go until the fourth page is next. -/
def withoutSubdir : State (BlockAllocator.ascending 64) :=
  Nat.iterate (passing 2) 13
    (commitName 3 (.rmdir [97] 1) (Nat.iterate (passing 3) 7 withSubdir))

/-- The fourth page is filled with changes of the mode, and the second and
third one are collected. -/
def reverted : State (BlockAllocator.ascending 64) :=
  Nat.iterate chmodDir 140 withoutSubdir

/-- New modes are steps. -/
theorem chmodDir_links (m : Nat) {st : State (BlockAllocator.ascending 64)}
    (h : LinkRun U 18 (fun _ => True) st n) :
    LinkRun U 18 (fun _ => True) (Nat.iterate chmodDir m st) n := by
  induction m with
  | zero => exact h
  | succ m ih =>
    rw [iterate_succ_apply']
    exact ih.chmodDir trivial

/-- The directory has two links, and three after a rebuild. -/
theorem link_count_reverts :
    LinkRun {[97], longName} 18 (fun _ => True) reverted 2 ∧
      (novaRebuildDirInodeTree (reverted.setInfo 18 (freshInfo (reverted.nv.record 18))) 18).map
        (fun r => ((r.1.nv.record 18).links, r.2)) = some (3, false) := by
  constructor
  · apply chmodDir_links
    apply LinkRun.passing
    exact (withSubdir_links.passing 7).commitName (.rmdir [97] 1) (.inl rfl) rfl
      (by decide +kernel)
  · decide +kernel

end Themis.Dir
