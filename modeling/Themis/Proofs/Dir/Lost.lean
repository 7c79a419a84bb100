/-
A directory after a crash between two operations.

The stores of an operation are flushed before it commits, all but one: the
mark that a removal leaves in the record it removes. A crash may lose marks
(`inv`), and then the rebuild replays records that were removed.

As long as the log still holds the removal behind such a record, and the
name was not added again in between, the removal is replayed too
(`committed_crash`). But a collection relies on marks that are in the cache
only. With the removal gone, the name comes back
(`removed_name_reappears`).
-/
import Themis.Proofs.Dir.Run
import Themis.Proofs.File.Run

namespace Themis.Dir

open Lib Log File List Function LogEntry

variable {al : BlockAllocator} {U : Set (List UInt8)} {nv : Nvmm} {st st' : State al}
  {dir i a : Nat} {inv : Nat → Nat} {L pages : List Nat}

/-- Behind every record whose mark is lost, the log holds a removal of its
name, and before that no record that adds the name. -/
def Withdrawn (nv : Nvmm) (inv : Nat → Nat) (L : List Nat) : Prop :=
  ∀ X a Y i, L = X ++ a :: Y → ValidAt { nv with invalid := inv } i a → nv.invalid a ≠ 0 →
    ∃ Y₁ r Y₂, Y = Y₁ ++ r :: Y₂ ∧ RemovesAt nv i r ∧
      ∀ y ∈ Y₁, ¬ ValidAt { nv with invalid := inv } i y

/-- Valid before, or by a lost mark. -/
theorem validAt_or_lost (h : ValidAt { nv with invalid := inv } i a) :
    ValidAt nv i a ∨ nv.invalid a ≠ 0 := by
  obtain ⟨d, hd, h0, -, hi⟩ := h
  by_cases hv : nv.invalid a = 0
  · exact .inl ⟨d, hd, h0, hv, hi⟩
  · exact .inr hv

/-- Losing marks keeps valid records valid. -/
theorem validAt_withInvalid (hinv : ∀ a, inv a = nv.invalid a ∨ inv a = 0)
    (h : ValidAt nv i a) : ValidAt { nv with invalid := inv } i a := by
  obtain ⟨d, hd, h0, hv, hi⟩ := h
  refine ⟨d, hd, h0, ?_, hi⟩
  show inv a = 0
  rcases hinv a with heq | heq
  · rw [heq, hv]
  · exact heq

/-- Losing marks keeps removals. -/
theorem nameEvent_removesAt_withInvalid (h : RemovesAt nv i a) :
    nameEvent { nv with invalid := inv } i a = some none := by
  obtain ⟨d, hd, h0, hi⟩ := h
  exact nameEvent_of_removesAt ⟨d, hd, h0, hi⟩

/-- A valid record removes nothing. -/
theorem ValidAt.not_removesAt (h : ValidAt nv i a) : ¬ RemovesAt nv i a := by
  rintro ⟨d', hd', h0', -⟩
  obtain ⟨d, hd, h0, -⟩ := h
  rw [hd, dirLog.injEq] at hd'
  exact h0 (hd' ▸ h0')

/-- In front of a valid record the name is free. -/
theorem Withdrawn.free (h : Withdrawn nv inv L) (hlisted : Listed U nv L)
    {X Y : List Nat} (hL : L = X ++ a :: Y) (hv : ValidAt { nv with invalid := inv } i a) :
    heldAt { nv with invalid := inv } X i = none := by
  cases hheld : heldAt { nv with invalid := inv } X i with
  | none => rfl
  | some b =>
    obtain ⟨X1, X2, rfl, hb, hquiet⟩ := heldAt_some hheld
    subst hL
    rcases validAt_or_lost hb with hvalid | hlost
    · -- behind a valid record there is no other one with its hash
      have honce := (pairwise_append.1 hlisted.once).2.2 b (by simp) a
        mem_cons_self
      obtain ⟨d, hd, -, -, hi⟩ := hv
      exact absurd ⟨d, hd, hi⟩ (honce i hvalid)
    obtain ⟨Y1, r, Y2, hsplit, hr, hnone⟩ := h X1 b (X2 ++ a :: Y) i (by simp) hb hlost
    -- the removal stands in front of `a`
    rcases append_eq_append_iff.1 hsplit with ⟨Z, hZ, hrest⟩ | ⟨Z, hZ, hrest⟩
    · cases Z with
      | nil =>
        obtain rfl : a = r := by simpa using congrArg (head?) hrest
        exact (hv.not_removesAt hr).elim
      | cons z Z =>
        have haz : a = z := by simpa using congrArg (head?) hrest
        exact absurd hv (hnone a (by rw [hZ, haz]; simp))
    cases Z with
    | nil =>
      obtain rfl : a = r := by simpa using (congrArg (head?) hrest).symm
      exact (hv.not_removesAt hr).elim
    | cons z Z =>
      have hrz : r = z := by simpa using congrArg (head?) hrest
      have hquietr := hquiet r (by rw [hZ, hrz]; simp)
      rw [nameEvent_removesAt_withInvalid hr] at hquietr
      cases hquietr

/-- Such a log can be replayed. -/
theorem Withdrawn.replayable (h : Withdrawn nv inv L) (hlisted : Listed U nv L)
    (hinv : ∀ a, inv a = nv.invalid a ∨ inv a = 0) : Replayable U { nv with invalid := inv } L := by
  refine ⟨hlisted.ok, ?_, ?_⟩
  · intro X a Y i hL hv
    exact h.free hlisted hL hv
  · obtain ⟨f, hf, hv, hfirst⟩ := hlisted.first
    exact ⟨f, hf, validAt_withInvalid hinv hv, hfirst⟩

/-- What the replay leaves. -/
theorem Withdrawn.heldAt_iff (h : Withdrawn nv inv L) (hlisted : Listed U nv L)
    (hinv : ∀ a, inv a = nv.invalid a ∨ inv a = 0) :
    heldAt { nv with invalid := inv } L i = some a ↔ a ∈ L ∧ ValidAt nv i a := by
  constructor
  · intro hheld
    obtain ⟨X, Y, rfl, hv, hquiet⟩ := heldAt_some hheld
    refine ⟨by simp, ?_⟩
    rcases validAt_or_lost hv with hvalid | hlost
    · exact hvalid
    obtain ⟨Y1, r, Y2, rfl, hr, -⟩ := h X a Y i rfl hv hlost
    have hquietr := hquiet r (by simp)
    rw [nameEvent_removesAt_withInvalid hr] at hquietr
    cases hquietr
  rintro ⟨ha, hv⟩
  obtain ⟨X, Y, rfl⟩ := append_of_mem ha
  apply heldAt_of_last (validAt_withInvalid hinv hv)
  intro y hy
  have honce := (pairwise_append.1 hlisted.once).2.1
  apply nameEvent_of_not_namedAt
  exact (pairwise_cons.1 honce).1 y hy i hv

/-- The walk reads the log. -/
theorem DirOk.walkLog_eq (h : DirOk U st dir L pages) : walkLog st dir = some L := by
  obtain ⟨F, T, rest, hr, -, rfl, -⟩ := h.readable
  unfold walkLog
  rw [hr.tail, hr.head]
  exact walkLoop_eq _ (hr.log.walk hr.used) (ents_lt_walkLimit hr.log hr.onDevice)

/-- A crash between two operations that loses marks of removed records,
all of them withdrawn by the log: the rebuild gives the map of the last
operation. -/
theorem committed_crash {m : NameMap} (hU : Names U) (h : DirRun U dir st m)
    (hinv : ∀ a, inv a = st.nv.invalid a ∨ inv a = 0)
    (hlost : ∀ L, walkLog st dir = some L → Withdrawn st.nv inv L) :
    ∃ st', novaRebuildDirInodeTree
        ((withInvalid st inv).setInfo dir (freshInfo (st.nv.record dir))) dir = some (st', false) ∧
      lookup st' dir = lookup st dir ∧ ∀ name, Known U name → lookup st' dir name = m name := by
  obtain ⟨⟨L, pages, hok⟩, hm⟩ := h.ok hU
  have hw := hlost L hok.walkLog_eq
  obtain ⟨F, T, rest, hr, hne, rfl, rfl⟩ := hok.readable
  have hlisted := hok.dirAt.listed
  rw [append_nil] at hlisted
  have hr' : Readable { st.nv with invalid := inv } al.numBlocks dir F T rest := hr.withInvalid inv
  have hempty : (((withInvalid st inv).setInfo dir (freshInfo (st.nv.record dir))).info
      dir).tree.get = fun _ => none := by
    simp [State.setInfo, freshInfo]
    rfl
  have hspec : ∃ st', novaRebuildDirInodeTree
      ((withInvalid st inv).setInfo dir (freshInfo (st.nv.record dir))) dir = some (st', false) ∧
      ReplayedAt ((withInvalid st inv).setInfo dir (freshInfo (st.nv.record dir))) st' dir _ ∧
      _ := rebuildDir_links hr' (hw.replayable hlisted hinv) hok.recordMode hempty
  obtain ⟨st', hres, hat, -⟩ := hspec
  have htree : (st'.info dir).tree.get = (st.info dir).tree.get := by
    funext i
    apply Option.ext
    intro a
    rw [hat.tree i, hok.dirAt.tree i a, append_nil]
    exact hw.heldAt_iff hlisted hinv
  have hslot : st'.nv.slot = st.nv.slot := hat.slot
  have hlook : lookup st' dir = lookup st dir := by
    funext name
    simp only [lookup, novaFindDentry, htree, hslot]
  refine ⟨st', hres, hlook, ?_⟩
  intro name hk
  rw [hlook]
  exact hm name hk

/-- A record of a name with its number. -/
def RecordAt (nv : Nvmm) (a : Nat) (name : List UInt8) (ino : Nat) : Prop :=
  ∃ d, nv.slot a = .dirLog d ∧ d.name = name ∧ d.ino = ino

instance (nv : Nvmm) (a : Nat) (name : List UInt8) (ino : Nat) :
    Decidable (RecordAt nv a name ino) :=
  match h : nv.slot a with
  | .dirLog d =>
    if hd : d.name = name ∧ d.ino = ino then isTrue ⟨d, h, hd.1, hd.2⟩
    else isFalse fun ⟨d', h', hn, hi⟩ => hd (by
      rw [h, dirLog.injEq] at h'
      rw [h']
      exact ⟨hn, hi⟩)
  | .fileWrite _ => isFalse fun ⟨_, h', _⟩ => by rw [h] at h'; cases h'
  | .setAttr _ => isFalse fun ⟨_, h', _⟩ => by rw [h] at h'; cases h'
  | .linkChange _ => isFalse fun ⟨_, h', _⟩ => by rw [h] at h'; cases h'
  | .nextPage => isFalse fun ⟨_, h', _⟩ => by rw [h] at h'; cases h'
  | .unknown _ => isFalse fun ⟨_, h', _⟩ => by rw [h] at h'; cases h'

/-- The mark of "a" is lost. -/
def forgetful : Nat → Nat := Function.update renamedDir.nv.invalid 41024 0

/-- "a" was renamed to "b" and the mark of its record is lost. The removal
is still there. -/
theorem committed_crash_rename :
    renamedDir.nv.invalid 41024 = 1 ∧
      ∃ st', novaRebuildDirInodeTree ((withInvalid renamedDir forgetful).setInfo 18
          (freshInfo (renamedDir.nv.record 18))) 18 = some (st', false) ∧
        lookup st' 18 [97] = none ∧ lookup st' 18 [98] = some 33 := by
  have hlog : walkLog renamedDir 18 = some ([40960, 40992] ++ 41024 :: [41056, 41088]) := by
    decide +kernel
  have hmarks : ∀ a ∈ [40960, 40992] ++ 41024 :: [41056, 41088], a ≠ 41024 →
      renamedDir.nv.invalid a = 0 := by decide +kernel
  have hlook : lookup renamedDir 18 [97] = none ∧ lookup renamedDir 18 [98] = some 33 := by
    decide +kernel
  obtain ⟨d₁, hd₁, hn₁, -⟩ : RecordAt renamedDir.nv 41024 [97] 33 := by decide +kernel
  obtain ⟨d₂, hd₂, hn₂, -⟩ : RecordAt renamedDir.nv 41056 [98] 33 := by decide +kernel
  obtain ⟨d₃, hd₃, hn₃, hi₃⟩ : RecordAt renamedDir.nv 41088 [97] 0 := by decide +kernel
  have hinv : ∀ a, forgetful a = renamedDir.nv.invalid a ∨ forgetful a = 0 := by
    intro a
    by_cases ha : a = 41024
    · exact .inr (by simp [forgetful, ha])
    · exact .inl (by simp [forgetful, ha])
  have hlost : ∀ L, walkLog renamedDir 18 = some L → Withdrawn renamedDir.nv forgetful L := by
    intro L hL X a Y i hsplit hv hmark
    rw [hlog, Option.some.injEq] at hL
    have ha : a = 41024 := by
      by_contra hne
      exact hmark (hmarks a (by rw [hL, hsplit]; simp) hne)
    rw [← hL, ha, append_cons_inj_of_notMem (by decide) (by decide)] at hsplit
    obtain ⟨-, -, rfl⟩ := hsplit
    have hi : i = bkdrHash [97] := by
      obtain ⟨d, hd, -, -, rfl⟩ := hv
      rw [ha] at hd
      have hdd : dirLog d = .dirLog d₁ := hd.symm.trans hd₁
      rw [dirLog.injEq] at hdd
      rw [hdd, hn₁]
    refine ⟨[41056], 41088, [], rfl, ⟨d₃, hd₃, hi₃, by rw [hn₃, hi]⟩, ?_⟩
    rintro y hy ⟨d, hd, -, -, hh⟩
    rw [mem_singleton.1 hy] at hd
    have hdd : dirLog d = .dirLog d₂ := hd.symm.trans hd₂
    rw [dirLog.injEq] at hdd
    rw [hdd, hn₂, hi] at hh
    exact absurd hh (by decide)
  obtain ⟨m, hm⟩ := renamedDir_run
  obtain ⟨st', hres, heq, -⟩ := committed_crash names_ab hm hinv hlost
  rw [← heq] at hlook
  exact ⟨by decide +kernel, st', hres, hlook⟩

-- === names come back

/-- One operation with its commit. -/
def commitOne (op : DirOp) (st : State (BlockAllocator.ascending 64)) :
    State (BlockAllocator.ascending 64) :=
  match runOps 18 [op] st 0 with
  | some (0, tail, st') => novaUpdateTail st' 18 tail
  | _ => st

/-- It is a step. -/
theorem commitOne_run {op : DirOp} {st : State (BlockAllocator.ascending 64)}
    (hop : op.Allowed U) (h : ∃ m, DirRun U 18 st m) : ∃ m, DirRun U 18 (commitOne op st) m := by
  obtain ⟨m, hm⟩ := h
  unfold commitOne
  split
  · rename_i hres
    exact ⟨_, hm.ops (by simpa using hop) (by simp) hres⟩
  · exact ⟨m, hm⟩

/-- A name of 255 bytes. -/
def longName : List UInt8 := List.replicate 255 120

/-- Its hash is no other name's. -/
theorem names_long : Names {[97], longName} := by
  have hknown : ∀ n, Known {[97], longName} n → n ∈ [[97], longName, dot, dotdot] := by
    rintro n ((rfl | rfl) | rfl | rfl) <;> simp
  have hinj : ∀ m ∈ [[97], longName, dot, dotdot], ∀ n ∈ [[97], longName, dot, dotdot],
      bkdrHash m = bkdrHash n → m = n := by decide +kernel
  refine ⟨?_, ?_, ?_, fun m n hm hn => hinj m (hknown m hm) n (hknown n hn)⟩
  · rintro n (rfl | rfl) <;> decide +kernel
  · rintro n (rfl | rfl) <;> decide +kernel
  refine ⟨?_, ?_⟩
  · rintro (h | h) <;> exact absurd h (by decide +kernel)
  · rintro (h | h) <;> exact absurd h (by decide +kernel)

/-- The long name comes and goes. -/
def comeAndGo (st : State (BlockAllocator.ascending 64)) :
    State (BlockAllocator.ascending 64) :=
  commitOne (.remove ⟨longName, 2, 1⟩ 0) (commitOne (.add 34 ⟨longName, 2, 1⟩ 0) st)

/-- "a" is created on the first page of the log and removed on the second
one. The log then grows until the second page is collected. -/
def outgrown : State (BlockAllocator.ascending 64) :=
  Nat.iterate comeAndGo 21 (commitOne (.remove ⟨[97], 2, 1⟩ 0)
    (Nat.iterate comeAndGo 7 (commitOne (.add 33 ⟨[97], 2, 1⟩ 0) firstDir)))

/-- That is a run. -/
theorem comeAndGo_run (n : Nat) {st : State (BlockAllocator.ascending 64)}
    (h : ∃ m, DirRun {[97], longName} 18 st m) :
    ∃ m, DirRun {[97], longName} 18 (Nat.iterate comeAndGo n st) m := by
  induction n with
  | zero => exact h
  | succ n ih =>
    rw [iterate_succ_apply']
    have hname : longName ∈ ({[97], longName} : Set (List UInt8)) := .inr rfl
    exact commitOne_run hname (commitOne_run ⟨hname, by decide⟩ ih)

/-- The stores of that run in the cache. -/
def outgrownCache : Pmem.Cache Nvmm Store := pmem.exec ⟨newDir.nv, []⟩ outgrown.trace

/-- No mark reaches the device. -/
def unmarked : Nvmm :=
  ((outgrownCache.pending.map (·.1)).filter (· ≠ .invalidByte 41024 1)).foldl pmem.apply
    outgrownCache.durable

/-- "a" was removed and the removal committed, but after the crash it is
there again. -/
theorem removed_name_reappears :
    (∃ m, DirRun {[97], longName} 18 outgrown m) ∧ pmem.Image outgrownCache unmarked ∧
      lookup outgrown 18 [97] = none ∧
      (novaRebuildDirInodeTree ({ outgrown with nv := unmarked }.setInfo 18
          (freshInfo (unmarked.record 18))) 18).map
        (fun r => (lookup r.1 18 [97], r.2)) = some (some 33, false) := by
  have hadd : (DirOp.add 33 ⟨[97], 2, 1⟩ 0).Allowed {[97], longName} := ⟨.inl rfl, by decide⟩
  have hremove : (DirOp.remove ⟨[97], 2, 1⟩ 0).Allowed {[97], longName} := .inl rfl
  refine ⟨?_, Pmem.image_filter _ _ _, ?_⟩
  · apply comeAndGo_run
    apply commitOne_run hremove
    apply comeAndGo_run
    exact commitOne_run hadd ⟨_, firstDir_run⟩
  · decide +kernel

end Themis.Dir
