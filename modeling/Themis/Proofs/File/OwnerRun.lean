/-
Mode, owner and group of a file over whole runs.

As long as every call meets `SetattrSafe` when it begins, `last_setattr`
is the last SET_ATTR entry of the log after every call, and a rebuild
brings back what the last change of attributes set
(`attributes_survive`).

Without that a collection can leave `last_setattr` behind (`staleRun`): it
takes the last size change it copies for the last SET_ATTR entry.
-/
import Themis.Proofs.File.Run

namespace Themis.File

open Lib Log Function Option

variable {al : BlockAllocator} {st st' : State al} {ino : Nat} {L pages : List Nat}

/-- `SetattrSafe` for the log as it is walked. -/
def Safe (st : State al) (ino : Nat) : Prop :=
  ∀ L, walkLog st ino = some L → SetattrSafe st ino L

/-- The runs of a regular file whose calls all begin in states that meet
the condition. -/
inductive OwnerRun (ino : Nat) : State al → Prop
  /-- A file that was just created. -/
  | fresh {st : State al} (hlog : EmptyLog st ino)
      (htree : ∀ i, (st.info ino).tree.get i = none)
      (hsize : (st.info ino).iSize = 0) (hrec : (st.nv.record ino).iSize = 0)
      (hreg : isReg (st.info ino).attrs.mode = true)
      (howner : ownerTriple (st.info ino).attrs = ownerTriple (st.nv.record ino).attrs) :
      OwnerRun ino st
  | write {st st' : State al} {w : WriteReq} {ret : Int} (h : OwnerRun ino st)
      (hsafe : Safe st ino)
      (hres : novaCowFileWrite st ino w = some (ret, st')) (hret : ret ≠ -ENOSPC) :
      OwnerRun ino st'
  | setattr {st st' : State al} {attr : Iattr} {changeOk ret : Int} {eofBlocks : Bool}
      {time : Nat} (h : OwnerRun ino st) (hsafe : Safe st ino)
      (hmode : attr.valid.testBit 0 = true → isReg attr.mode = true)
      (hres : novaNotifyChange st ino attr changeOk eofBlocks time = some (ret, st')) :
      OwnerRun ino st'
  | links {st st' : State al} {e : LinkChangeEntry} (h : OwnerRun ino st)
      (hsafe : Safe st ino)
      (hres : changeLinks st ino e = some (0, st')) : OwnerRun ino st'
  | reload {st st' : State al} (h : OwnerRun ino st) (hsafe : Safe st ino)
      (hres : reload st ino = some st') : OwnerRun ino st'

/-- Such a run is a run of the file. -/
theorem OwnerRun.fileRun (h : OwnerRun ino st) : FileRun ino st := by
  induction h with
  | fresh hlog htree hsize hrec hreg howner =>
    refine .fresh hlog htree hsize hrec hreg ?_
    have hmode := congrArg Prod.fst howner
    simp only [ownerTriple] at hmode
    rw [← hmode]
    exact hreg
  | write h hsafe hres hret ih => exact ih.write hres hret
  | setattr h hsafe hmode hres ih => exact ih.setattr hmode hres
  | links h hsafe hres ih => exact ih.links hres
  | reload h hsafe hres ih => exact ih.reload hres

/-- The owner after a rebuild is the logged one. -/
theorem Recovered.ownerTriple (h : Recovered st st' ino L pages) :
    File.ownerTriple (st'.nv.record ino).attrs = loggedOwner st ino L ∧
      (st'.info ino).lastSetattr = (lastSetattrIn st.nv.slot L).getD 0 := by
  obtain ⟨hlast, howner⟩ := foldl_ownerStep st.nv.slot { ownerOf st ino with last := 0 } L
  rw [← h.owner] at hlast howner
  exact ⟨howner, hlast⟩

/-- A reload gives a logged owner. -/
theorem OwnerOk.of_reload (hok : FileOk st ino L pages)
    (hres : File.reload st ino = some st') : OwnerOk st' ino L := by
  obtain ⟨st1, hreb, hr⟩ := hok.recover
  simp only [File.reload, hreb, bind_eq_bind, bind_some, Option.pure_def, some.injEq] at hres
  obtain ⟨howner, hlast⟩ := hr.ownerTriple
  obtain ⟨r, hnv⟩ := hr.nv
  have hslot : st'.nv.slot = st.nv.slot := by
    rw [← hres]
    show st1.nv.slot = st.nv.slot
    rw [hnv]
  have hinfo : st'.info ino = { st1.info ino with
      iSize := (st1.nv.record ino).iSize, attrs := (st1.nv.record ino).attrs } := by
    rw [← hres]
    simp [State.setInfo]
  have hrec : st'.nv.record ino = st1.nv.record ino := by
    rw [← hres]
    rfl
  refine ⟨?_, ?_⟩
  · intro a ha
    rw [hslot] at ha
    rw [hinfo]
    show (st1.info ino).lastSetattr = a
    rw [hlast, ha]
    rfl
  rw [hinfo]
  show File.ownerTriple (st1.nv.record ino).attrs = _
  rw [loggedOwner, hslot, hrec, howner, loggedOwner]
  cases lastAttrs st.nv.slot L with
  | none => rfl
  | some e => rfl

/-- Along every run the owner is the logged one. -/
theorem OwnerRun.owner (h : OwnerRun ino st) :
    ∃ L pages, FileOk st ino L pages ∧ OwnerOk st ino L := by
  induction h with
  | fresh hlog htree hsize hrec hreg howner =>
    refine ⟨[], [], FileOk.fresh hlog htree hsize hrec hreg, ?_, howner⟩
    intro a ha
    cases ha
  | write h hsafe hres hret ih =>
    obtain ⟨L, pages, hok, how⟩ := ih
    rcases hok.write hres hret with ⟨-, rfl⟩ | ⟨-, -, L', pages', hw⟩
    · exact ⟨L, pages, hok, how⟩
    · have hL := hok.walkLog_eq
      exact ⟨L', pages', hw.ok, hw.owner L hL (hsafe L hL) how⟩
  | setattr h hsafe hmode hres ih =>
    obtain ⟨L, pages, hok, how⟩ := ih
    obtain ⟨L', pages', hok', -, -, -, -, hown⟩ := hok.notifyChange hmode hres
    exact ⟨L', pages', hok', hown how⟩
  | links h hsafe hres ih =>
    obtain ⟨L, pages, hok, how⟩ := ih
    obtain ⟨L', pages', hok', -, -, -, hown⟩ := hok.changeLinks hres rfl
    exact ⟨L', pages', hok', hown (hsafe L hok.walkLog_eq) how⟩
  | reload h hsafe hres ih =>
    obtain ⟨L, pages, hok, -⟩ := ih
    obtain ⟨-, hreg⟩ := h.fileRun.ok
    obtain ⟨hok', -⟩ := hok.reload hreg hres
    exact ⟨L, pages, hok', OwnerOk.of_reload hok hres⟩

/-- Attributes survive collections: in every state of a run whose calls
all meet the condition, `last_setattr` is the SET_ATTR entry that is last
in log order, and a rebuild gives the record the mode, owner and group of
the inode. -/
theorem attributes_survive (h : OwnerRun ino st) :
    ∃ L, walkLog st ino = some L ∧
      (∀ a, lastSetattrIn st.nv.slot L = some a → (st.info ino).lastSetattr = a) ∧
      ∃ st', novaRebuildFileInodeTree
          (st.setInfo ino (freshInfo (st.nv.record ino))) ino = some st' ∧
        (st'.nv.record ino).attrs.mode = (st.info ino).attrs.mode ∧
        (st'.nv.record ino).attrs.uid = (st.info ino).attrs.uid ∧
        (st'.nv.record ino).attrs.gid = (st.info ino).attrs.gid := by
  obtain ⟨L, pages, hok, how⟩ := h.owner
  obtain ⟨st', hres, hr⟩ := hok.recover
  have hsame : ownerTriple (st'.nv.record ino).attrs = ownerTriple (st.info ino).attrs := by
    rw [hr.ownerTriple.1, how.owner]
  simp only [ownerTriple, Prod.mk.injEq] at hsame
  exact ⟨L, hok.walkLog_eq, how.pointed, st', hres, hsame⟩

/-- States of a small device. -/
abbrev Small : Type := State (BlockAllocator.ascending 64)

/-- A new mode, and nothing else. -/
def chmodTo (mode : Nat) : Iattr := ⟨1, mode, 0, 0, 0, 0, 0, 0⟩

/-- The state after it. -/
def chmod (mode : Nat) (st : Small) : Small :=
  match novaNotifyChange st 17 (chmodTo mode) 0 false 0 with
  | some (_, st') => st'
  | none => st

/-- A file whose mode was changed once. -/
theorem attributes_survive_chmod :
    OwnerRun 17 (chmod 0o100600 newFile) ∧
      ∃ st', novaRebuildFileInodeTree ((chmod 0o100600 newFile).setInfo 17
          (freshInfo ((chmod 0o100600 newFile).nv.record 17))) 17 = some st' ∧
        (st'.nv.record 17).attrs.mode = 0o100600 := by
  have hfresh : OwnerRun 17 newFile := .fresh ⟨rfl, rfl⟩ (fun _ => rfl) rfl rfl (by decide) rfl
  have hsafe : Safe newFile 17 := by
    intro L hL
    have hnil : walkLog newFile 17 = some [] := by decide +kernel
    rw [hnil, some.injEq] at hL
    subst hL
    left
    intro a ha
    cases ha
  have hrun : OwnerRun 17 (chmod 0o100600 newFile) := by
    unfold chmod
    split
    · rename_i hres
      exact hfresh.setattr hsafe (by decide) hres
    · exact hfresh
  have hmode : ((chmod 0o100600 newFile).info 17).attrs.mode = 0o100600 := by decide +kernel
  obtain ⟨L, -, -, st', hres, hm, -⟩ := attributes_survive hrun
  exact ⟨hrun, st', hres, hm.trans hmode⟩

-- === a run that fails

/-- A cut to size 0. -/
def truncate (st : Small) : Small :=
  match novaNotifyChange st 17 ⟨8, 0, 0, 0, 0, 0, 0, 0⟩ 0 false 0 with
  | some (_, st') => st'
  | none => st

/-- Ten bytes are written. -/
def writeTen (st : Small) : Small :=
  match novaCowFileWrite st 17 { someWrite with len := 10 } with
  | some (10, st') => st'
  | _ => st

/-- A new mode is a step. -/
theorem FileRun.chmod {st : Small} (h : FileRun 17 st) {mode : Nat}
    (hmode : isReg mode = true) : FileRun 17 (File.chmod mode st) := by
  unfold File.chmod
  split
  · rename_i hres
    exact h.setattr (fun _ => hmode) hres
  · exact h

/-- A cut is a step. -/
theorem FileRun.truncate {st : Small} (h : FileRun 17 st) : FileRun 17 (File.truncate st) := by
  unfold File.truncate
  split
  · rename_i hres
    refine h.setattr ?_ hres
    intro hbit
    cases hbit
  · exact h

/-- A write is a step. -/
theorem FileRun.writeTen {st : Small} (h : FileRun 17 st) : FileRun 17 (File.writeTen st) := by
  unfold File.writeTen
  split
  · rename_i hres
    exact h.write hres (by decide)
  · exact h

/-- The stores of one new mode. -/
def chmodEvents (p : Nat) (e : LogEntry) (n : Nat) : List (Event Store Flush) :=
  [.store (.slot p e n), .flush (.bytes p 32), .fence, .store (.logTail 17 (p + 32)),
    .flush (.inode 17), .fence]

/-- The stores of `n` of them. -/
def chmodTrace (st : Small) (e : LogEntry) : Nat → List (Event Store Flush)
  | 0 => st.trace
  | n + 1 =>
    chmodTrace st e n ++ chmodEvents (st.nv.logTail 17 + 32 * n) e
      (st.nv.invalid (st.nv.logTail 17 + 32 * n))

/-- The entry of a new mode. -/
def chmodEntry (mode : Nat) (st : Small) : LogEntry :=
  .setAttr (novaUpdateSetattrEntry (st.info 17) (chmodTo mode))

/-- The state after `n` equal modes. -/
def filled (mode : Nat) (st : Small) (n : Nat) : Small where
  nv :=
    { st.nv with
      slot := fun a =>
        if st.nv.logTail 17 ≤ a ∧ a < st.nv.logTail 17 + 32 * n ∧
            (a - st.nv.logTail 17) % 32 = 0 then chmodEntry mode st
        else st.nv.slot a
      logTail := Function.update st.nv.logTail 17 (st.nv.logTail 17 + 32 * n) }
  data := st.data
  alloc := st.alloc
  info := Function.update st.info 17
    { st.info 17 with
      lastSetattr :=
        if n = 0 then (st.info 17).lastSetattr else st.nv.logTail 17 + 32 * (n - 1) }
  trace := chmodTrace st (chmodEntry mode st) n

/-- After none of them. -/
theorem filled_zero (mode : Nat) (st : Small) : filled mode st 0 = st := by
  unfold filled
  simp only [Nat.mul_zero, Nat.add_zero, if_true, update_eq_self]
  cases st with
  | mk nv data alloc info trace =>
    simp only [chmodTrace, State.mk.injEq, and_true]
    cases nv with
    | mk slot invalid next logHead logTail record =>
      simp only [Nvmm.mk.injEq, and_true]
      funext a
      rw [if_neg (by omega)]

/-- There is room for one more. -/
theorem isLastEntry_room {t n : Nat} (hroom : entryLoc t + 32 * (n + 1) ≤ LAST_ENTRY) :
    isLastEntry (t + 32 * n) 32 = false := by
  refine decide_eq_false ?_
  simp only [entryLoc, LAST_ENTRY, PAGE_SIZE] at *
  omega

/-- One more of them. -/
theorem chmod_filled {mode n : Nat} {st : Small} (hmode : (st.info 17).attrs.mode = mode)
    (h0 : st.nv.logTail 17 ≠ 0) (hroom : entryLoc (st.nv.logTail 17) + 32 * (n + 1) ≤ LAST_ENTRY) :
    chmod mode (filled mode st n) = filled mode st (n + 1) := by
  have hcopy : copyAttrs (filled mode st n) 17 (chmodTo mode) = filled mode st n := by
    have hattrs : setattrCopy (st.info 17).attrs (chmodTo mode) = (st.info 17).attrs := by
      have hbit : ∀ k < 7, k ≠ 0 → Nat.testBit 1 k = false := by decide
      simp [setattrCopy, chmodTo, ← hmode, hbit]
    simp [copyAttrs, filled, State.setInfo, hattrs]
  have htail : (filled mode st n).nv.logTail 17 = st.nv.logTail 17 + 32 * n := by simp [filled]
  have hplace : novaGetAppendHead (filled mode st n) 17 0 32
      = some (st.nv.logTail 17 + 32 * n, filled mode st n) := by
    apply novaGetAppendHead_fits
    · rw [if_neg (by omega), htail]
    · omega
    · exact isLastEntry_room hroom
  have hentry : novaUpdateSetattrEntry ((filled mode st n).info 17) (chmodTo mode)
      = novaUpdateSetattrEntry (st.info 17) (chmodTo mode) := by
    simp [novaUpdateSetattrEntry, filled]
  have hmask : ¬ (chmodTo mode).valid &&& attrMask = 0 := by simp [chmodTo, attrMask]
  have hset : (chmodTo mode).setsSize = false := by
    show Nat.testBit 1 3 = false
    decide
  have hp0 : ¬ st.nv.logTail 17 + 32 * n = 0 := by omega
  unfold chmod novaNotifyChange
  simp only [ne_eq, not_true_eq_false, if_false, hcopy, hmask, novaAppendSetattrEntry,
    hplace, bind_eq_bind, bind_some, hp0, hentry, hset, Bool.false_eq_true,
    false_and, Option.pure_def]
  unfold filled
  simp only [storeEntry, State.store, State.flush, State.fence, State.setInfo,
    novaUpdateTail, Nvmm.apply, update_idem, update_self, Bool.false_eq_true, if_false, if_true]
  rw [State.mk.injEq]
  refine ⟨?_, rfl, rfl, ?_, ?_⟩
  · rw [Nvmm.mk.injEq]
    refine ⟨?_, ?_, rfl, rfl, ?_, rfl⟩
    · funext a
      by_cases ha : a = st.nv.logTail 17 + 32 * n
      · rw [ha, update_self, if_pos (by omega)]
        rfl
      rw [update_of_ne ha]
      by_cases hin : st.nv.logTail 17 ≤ a ∧ a < st.nv.logTail 17 + 32 * n ∧
          (a - st.nv.logTail 17) % 32 = 0
      · rw [if_pos hin, if_pos (by omega)]
      · rw [if_neg hin, if_neg (by omega)]
    · exact update_eq_self _ _
    · congr 1
  · congr 1
  · simp [chmodTrace, chmodEvents, chmodEntry]

/-- `n` new modes, in closed form. -/
theorem iterate_chmod {mode n : Nat} {st : Small} (hmode : (st.info 17).attrs.mode = mode)
    (h0 : st.nv.logTail 17 ≠ 0) (hroom : entryLoc (st.nv.logTail 17) + 32 * n ≤ LAST_ENTRY) :
    Nat.iterate (chmod mode) n st = filled mode st n := by
  induction n with
  | zero => exact (filled_zero mode st).symm
  | succ n ih =>
    rw [iterate_succ_apply', ih (by omega)]
    exact chmod_filled hmode h0 hroom

/-- A page of changes to one mode: the first of them may have to open the
page. -/
def modes (n : Nat) (st : Small) : Small :=
  Nat.iterate (chmod 0o100600) n (chmod 0o100600 st)

/-- Three pages that begin with a size change, one that does not, and the
write that has to extend the log. -/
def staleRun : Small :=
  writeTen (modes 126 (modes 125 (truncate (modes 125 (truncate
    (modes 125 (truncate newFile)))))))

/-- `n` new modes in closed form. -/
def modesFilled (n : Nat) (st : Small) : Small :=
  filled 0o100600 (chmod 0o100600 st) n

/-- The modes fit the page. -/
def Fills (st : Small) (n : Nat) : Bool :=
  (st.info 17).attrs.mode = 0o100600 ∧ st.nv.logTail 17 ≠ 0 ∧
    entryLoc (st.nv.logTail 17) + 32 * n ≤ LAST_ENTRY

/-- The closed form, where they fit. -/
theorem modes_eq {n : Nat} {st : Small} (h : Fills (chmod 0o100600 st) n = true) :
    modes n st = modesFilled n st := by
  obtain ⟨hmode, h0, hroom⟩ := of_decide_eq_true h
  exact iterate_chmod hmode h0 hroom

/-- The run in closed form. -/
theorem staleRun_eq :
    staleRun = writeTen (modesFilled 126 (modesFilled 125 (truncate (modesFilled 125
      (truncate (modesFilled 125 (truncate newFile))))))) := by
  have hfirst : modes 125 (truncate newFile) = modesFilled 125 (truncate newFile) :=
    modes_eq (by decide +kernel)
  unfold staleRun
  rw [hfirst, modes_eq (by decide +kernel), modes_eq (by decide +kernel),
    modes_eq (by decide +kernel)]

/-- New modes are steps. -/
theorem FileRun.modes {st : Small} (h : FileRun 17 st) (n : Nat) :
    FileRun 17 (File.modes n st) := by
  unfold File.modes
  induction n with
  | zero => exact h.chmod (by decide)
  | succ n ih =>
    rw [iterate_succ_apply']
    exact ih.chmod (by decide)

/-- After the collection the pointer is at the copy of a size change, and
not at the last SET_ATTR entry of the log. -/
theorem attributes_can_be_lost :
    FileRun 17 staleRun ∧ (staleRun.info 17).lastSetattr = 77888 ∧
      (walkLog staleRun 17).bind (lastSetattrIn staleRun.nv.slot) = some 57280 := by
  refine ⟨?_, ?_⟩
  · exact ((((((newFile_run.truncate.modes 125).truncate).modes 125).truncate).modes
      125).modes 126).writeTen
  · rw [staleRun_eq]
    decide +kernel

end Themis.File
