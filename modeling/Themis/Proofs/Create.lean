/-
What a create leaves in the records when the page of the new record may
move under it.

Both pointers that `nova_create` keeps are right as long as the hook in
`nova_new_vfs_inode` does not move the page. If it does, the transaction at
the end goes to the old page: the new inode is not marked valid where it is
found from then on, and the tail of the directory is lost as well if the
directory's record shares the page. And if no VFS inode is made the result
is 0 although nothing was committed. There is nothing else that can go
wrong (`create_kept_iff`).
-/
import Themis.Create
import Themis.Proofs.TailRace
import Themis.Proofs.InodePages

namespace Themis.Create

open InodeTables TailRace Option

variable {ans : Answers} {t t' : InodeTables} {dir : DirInode} {ino j page a pidir : Nat}

-- === lookups

/-- An address in a page. -/
def InPage (page a : Nat) : Prop := page ≤ a ∧ a < page + PAGE_SIZE

/-- A record is in its page. -/
theorem recordAt_inPage (t : InodeTables) (ino page : Nat) : InPage page (recordAt t ino page) := by
  have hlt := TailRace.inodeIndex_lt t ino
  unfold InPage recordAt
  omega

/-- A number with an address has a page. -/
theorem slotOf_ne_zero (h : t.novaGetInodeAddress ino = some a) : t.slotOf ino ≠ 0 := by
  unfold novaGetInodeAddress at h
  dsimp only at h
  split at h
  · rename_i hall
    rw [List.all_eq_true] at hall
    have hlast := hall (t.superpageCount ino) (by simp)
    rw [bne_iff_ne] at hlast
    exact hlast
  · cases h

/-- Two numbers of one page. -/
def SamePage (t : InodeTables) (i j : Nat) : Prop :=
  t.cpuOf i = t.cpuOf j ∧ t.superpageCount i = t.superpageCount j

instance (t : InodeTables) (i j : Nat) : Decidable (SamePage t i j) :=
  inferInstanceAs (Decidable (_ ∧ _))

/-- A switch of another page. -/
theorem novaGetInodeAddress_switchSlot_other (h : t.novaGetInodeAddress ino = some a)
    (hpage : page ≠ 0) (hother : ¬ SamePage t j ino) :
    (t.switchSlot j page).novaGetInodeAddress ino = some a := by
  unfold novaGetInodeAddress at h ⊢
  dsimp only at h ⊢
  split at h
  · rename_i hall
    rw [if_pos]
    · rw [← h]
      have hslot : (t.switchSlot j page).mappingTable (t.cpuOf ino) (t.superpageCount ino)
          = t.mappingTable (t.cpuOf ino) (t.superpageCount ino) := by
        unfold switchSlot
        dsimp only
        rw [if_neg]
        rintro ⟨hcpu, hsp⟩
        exact hother ⟨hcpu.symm, hsp.symm⟩
      show some ((t.switchSlot j page).mappingTable (t.cpuOf ino) (t.superpageCount ino) + _) = _
      rw [hslot]
      rfl
    rw [List.all_eq_true] at hall ⊢
    intro k hk
    have hold := hall k hk
    show ((t.switchSlot j page).mappingTable (t.cpuOf ino) k != 0) = true
    unfold switchSlot
    dsimp only
    split
    · simpa using hpage
    · exact hold
  · cases h

/-- The record of the directory. -/
theorem novaGetInode_some (h : novaGetInode t dir = some pidir) :
    ∃ a, t.novaGetInodeAddress dir.ino = some a ∧
      pidir = if dir.ino < NOVA_NORMAL_INODE_START then dir.piAddr else a := by
  unfold novaGetInode at h
  cases ha : t.novaGetInodeAddress dir.ino with
  | none =>
    rw [ha] at h
    cases h
  | some a =>
    rw [ha, some.injEq] at h
    exact ⟨a, rfl, h.symm⟩

-- === the assumptions

/-- What the called functions guarantee: numbers that are not reserved,
found at the offset they are returned with; pages on page boundaries and in
one slot each; a block for the migration that is in no slot; reserved
records in no inode page; a tail behind the one that is committed. -/
structure Sound (ans : Answers) (t : InodeTables) (dir : DirInode) : Prop where
  found : ans.tables.novaGetInodeAddress ans.ino = some ans.piAddr
  normal : NOVA_NORMAL_INODE_START ≤ ans.ino
  new : ans.ino ≠ dir.ino
  kept : ∀ a, t.novaGetInodeAddress dir.ino = some a →
    ans.tables.novaGetInodeAddress dir.ino = some a
  aligned : ∀ c k, PAGE_SIZE ∣ ans.tables.mappingTable c k
  inj : ∀ c k c' k', ans.tables.mappingTable c k ≠ 0 →
    ans.tables.mappingTable c k = ans.tables.mappingTable c' k' → c = c' ∧ k = k'
  block : ∀ b, ans.blocknr = some b →
    b ≠ 0 ∧ ∀ c k, ans.tables.mappingTable c k ≠ b * PAGE_SIZE
  reserved : dir.ino < NOVA_NORMAL_INODE_START →
    (∀ c k, ans.tables.mappingTable c k ≠ 0 →
      ¬ InPage (ans.tables.mappingTable c k) dir.piAddr) ∧
    ∀ b, ans.blocknr = some b → ¬ InPage (b * PAGE_SIZE) dir.piAddr
  moves : ans.dirTail ≠ ans.tail

/-- The tables of the byte model meet the assumptions: those that
`nova_get_inode_address` leaves when it is asked for the new number, and any
block that is not in use. -/
theorem sound_of_pages {al : BlockAllocator} {s s' : InodePages.State al}
    (h : InodePages.TablesOk s) (htables : ans.tables = s'.maps)
    (hget : InodePages.novaGetInodeAddress s ans.ino true = (.ok ans.piAddr, s'))
    (hnormal : NOVA_NORMAL_INODE_START ≤ ans.ino) (hnew : ans.ino ≠ dir.ino)
    (hblock : ∀ b, ans.blocknr = some b → 0 < b ∧ ¬ al.InUse s'.alloc b)
    (hreserved : dir.ino < NOVA_NORMAL_INODE_START →
      (∀ b, al.InUse s'.alloc b ∧ b ≠ 0 → ¬ InPage (b * PAGE_SIZE) dir.piAddr) ∧
      ∀ b, ans.blocknr = some b → ¬ InPage (b * PAGE_SIZE) dir.piAddr)
    (hmoves : ans.dirTail ≠ ans.tail) : Sound ans s.maps dir := by
  have hext := InodePages.novaGetInodeAddress_extended h ans.ino true
  rw [hget] at hext
  have hok : InodePages.TablesOk s' := hext.ok
  refine ⟨?_, hnormal, hnew, ?_, ?_, ?_, ?_, ?_, hmoves⟩
  · rw [htables, ← InodePages.resolve_eq_maps hok]
    exact InodePages.resolve_of_novaGetInodeAddress h hget
  · intro a ha
    rw [← InodePages.resolve_eq_maps h] at ha
    rw [htables, ← InodePages.resolve_eq_maps hok]
    exact hext.resolve h ha
  · intro c k
    rw [htables]
    show PAGE_SIZE ∣ s'.table c k
    by_cases hz : s'.table c k = 0
    · rw [hz]
      exact Nat.dvd_zero _
    obtain ⟨b, hb, -⟩ := hok.page c k hz
    rw [hb]
    exact Nat.dvd_mul_left _ _
  · rw [htables]
    exact hok.inj
  · intro b hb
    obtain ⟨hpos, hfree⟩ := hblock b hb
    refine ⟨by omega, ?_⟩
    intro c k heq
    rw [htables] at heq
    have hslot : s'.table c k = b * PAGE_SIZE := heq
    obtain ⟨b', hb', huse⟩ := hok.page c k (by
      rw [hslot]
      exact Nat.mul_ne_zero (by omega) (by decide))
    rw [hslot] at hb'
    have hbb : b = b' := Nat.eq_of_mul_eq_mul_right (by decide) hb'
    exact hfree (hbb ▸ huse)
  intro hres
  refine ⟨?_, (hreserved hres).2⟩
  intro c k hk
  rw [htables] at hk ⊢
  obtain ⟨b, hb, huse⟩ := hok.page c k hk
  have hslot : s'.maps.mappingTable c k = b * PAGE_SIZE := hb
  rw [hslot]
  apply (hreserved hres).1 b ⟨huse, ?_⟩
  rintro rfl
  exact hk hslot

namespace Sound

variable (h : Sound ans t dir)

include h

/-- Where the new record is. -/
theorem piAddr_eq : ans.piAddr = recordAt ans.tables ans.ino (ans.tables.slotOf ans.ino) :=
  novaGetInodeAddress_eq h.found

/-- Root or an inode of the tables. -/
theorem pidir_cases (hdir : novaGetInode t dir = some pidir) :
    (dir.ino < NOVA_NORMAL_INODE_START ∧ pidir = dir.piAddr) ∨
      (¬ dir.ino < NOVA_NORMAL_INODE_START ∧
        pidir = recordAt ans.tables dir.ino (ans.tables.slotOf dir.ino)) := by
  obtain ⟨a, ha, hpidir⟩ := novaGetInode_some hdir
  by_cases hres : dir.ino < NOVA_NORMAL_INODE_START
  · rw [if_pos hres] at hpidir
    exact .inl ⟨hres, hpidir⟩
  rw [if_neg hres] at hpidir
  rw [hpidir]
  exact .inr ⟨hres, novaGetInodeAddress_eq (h.kept a ha)⟩

/-- The record of the directory stays. -/
theorem dir_found (hdir : novaGetInode t dir = some pidir) :
    novaGetInode ans.tables dir = some pidir := by
  obtain ⟨a, ha, hpidir⟩ := novaGetInode_some hdir
  unfold novaGetInode
  rw [h.kept a ha, hpidir]

/-- Two pages are different. -/
theorem slotOf_ne {i j : Nat} (hi : ans.tables.slotOf i ≠ 0) (hother : ¬ SamePage ans.tables i j) :
    ans.tables.slotOf i ≠ ans.tables.slotOf j := by
  intro heq
  exact hother (h.inj _ _ _ _ hi heq)

/-- The two records are different. -/
theorem pidir_ne (hdir : novaGetInode t dir = some pidir) : pidir ≠ ans.piAddr := by
  have hslot := slotOf_ne_zero h.found
  rw [h.piAddr_eq]
  rcases h.pidir_cases hdir with ⟨hres, hpidir⟩ | ⟨-, hpidir⟩
  · rw [hpidir]
    intro heq
    apply (h.reserved hres).1 _ _ hslot
    rw [heq]
    exact recordAt_inPage _ _ _
  rw [hpidir]
  intro heq
  by_cases hsame : SamePage ans.tables ans.ino dir.ino
  · -- one page, so one index
    have hslots : ans.tables.slotOf ans.ino = ans.tables.slotOf dir.ino := by
      unfold slotOf
      rw [hsame.1, hsame.2]
    unfold recordAt at heq
    have hindex : ans.tables.inodeIndex ans.ino = ans.tables.inodeIndex dir.ino := by
      simp only [NOVA_INODE_SIZE] at heq
      omega
    exact h.new (InodePages.ino_eq_of_parts _ hsame.1 hsame.2 hindex)
  have hne := h.slotOf_ne hslot hsame
  have hout : ¬ InPage (ans.tables.slotOf ans.ino)
      (recordAt ans.tables dir.ino (ans.tables.slotOf dir.ino)) :=
    recordAt_outside (h.aligned _ _) (h.aligned _ _) (Ne.symm hne)
  apply hout
  rw [heq]
  exact recordAt_inPage _ _ _

/-- A new block holds neither record. -/
theorem outside_block (hdir : novaGetInode t dir = some pidir) {b : Nat}
    (hb : ans.blocknr = some b) :
    ¬ InPage (b * PAGE_SIZE) ans.piAddr ∧ ¬ InPage (b * PAGE_SIZE) pidir := by
  obtain ⟨-, hfree⟩ := h.block b hb
  have hdvd : PAGE_SIZE ∣ b * PAGE_SIZE := Nat.dvd_mul_left _ _
  constructor
  · rw [h.piAddr_eq]
    exact recordAt_outside (h.aligned _ _) hdvd (hfree _ _)
  rcases h.pidir_cases hdir with ⟨hres, hpidir⟩ | ⟨-, hpidir⟩
  · rw [hpidir]
    exact (h.reserved hres).2 b hb
  · rw [hpidir]
    exact recordAt_outside (h.aligned _ _) hdvd (hfree _ _)

end Sound

-- === the result

/-- The new inode is valid where it is found, and the directory's record
has the tail behind the new name. -/
def Kept (ans : Answers) (t : InodeTables) (dir : DirInode) : Prop :=
  (∃ a, t.novaGetInodeAddress ans.ino = some a ∧ (t.record a).valid = 1) ∧
    ∃ a, novaGetInode t dir = some a ∧ (t.record a).logTail = ans.tail

/-- The hook moves the page of the new record. -/
def Migrates (ans : Answers) : Prop :=
  ans.shouldMigrate (ans.piAddr / PAGE_SIZE) = true ∧ ans.blocknr ≠ none

instance (ans : Answers) : Decidable (Migrates ans) :=
  inferInstanceAs (Decidable (_ ∧ _))

/-- A valid new inode, and a directory elsewhere. -/
def Spared (ans : Answers) (dir : DirInode) : Prop :=
  (ans.tables.record ans.piAddr).valid = 1 ∧
    (dir.ino < NOVA_NORMAL_INODE_START ∨ ¬ SamePage ans.tables ans.ino dir.ino)

/-- The tables after both stores. -/
def filled (ans : Answers) (pidir : Nat) : InodeTables :=
  setRecord (setRecord ans.tables pidir fun r =>
    { r with logHead := ans.dirHead, logTail := ans.dirTail }) ans.piAddr fun r =>
      { r with logHead := 0, logTail := 0, novaIno := ans.ino }

/-- The mark of the new inode. -/
theorem filled_valid (ans : Answers) (pidir : Nat) :
    ((filled ans pidir).record ans.piAddr).valid = (ans.tables.record ans.piAddr).valid := by
  simp only [filled, setRecord, if_true]
  split
  · rfl
  · rfl

/-- The tail of the directory. -/
theorem filled_tail (hne : pidir ≠ ans.piAddr) :
    ((filled ans pidir).record pidir).logTail = ans.dirTail := by simp [filled, setRecord, hne]

/-- Another tail is not kept. -/
theorem not_kept_of_tail (hdir : novaGetInode t dir = some pidir)
    (htail : (t.record pidir).logTail ≠ ans.tail) : ¬ Kept ans t dir := by
  rintro ⟨-, a, ha, hkept⟩
  rw [hdir, some.injEq] at ha
  rw [ha] at htail
  exact htail hkept

/-- Without a migration both are kept. -/
theorem transaction_kept (hino : t.novaGetInodeAddress ans.ino = some ans.piAddr)
    (hdir : novaGetInode t dir = some pidir) :
    Kept ans (novaLiteTransactionForNewInode t ans.piAddr pidir ans.tail) dir := by
  refine ⟨⟨ans.piAddr, hino, ?_⟩, pidir, hdir, ?_⟩
  · simp [novaLiteTransactionForNewInode, setRecord]
  simp only [novaLiteTransactionForNewInode, setRecord, if_true]
  split
  · rfl
  · rfl

/-- The tables after a migration. -/
def moved (ans : Answers) (pidir b : Nat) : InodeTables :=
  ((filled ans pidir).copyPage (b * PAGE_SIZE) (ans.tables.slotOf ans.ino)).switchSlot
    ans.ino (b * PAGE_SIZE)

/-- When a migration keeps both. -/
theorem transaction_moved (h : Sound ans t dir) (hdir : novaGetInode t dir = some pidir)
    {b : Nat} (hb : ans.blocknr = some b) :
    Kept ans (novaLiteTransactionForNewInode (moved ans pidir b) ans.piAddr pidir ans.tail)
      dir ↔ Spared ans dir := by
  generalize hW : novaLiteTransactionForNewInode (moved ans pidir b) ans.piAddr pidir
    ans.tail = W
  obtain ⟨hb0, -⟩ := h.block b hb
  have hpage : b * PAGE_SIZE ≠ 0 := Nat.mul_ne_zero hb0 (by decide)
  obtain ⟨houtPi, houtDir⟩ := h.outside_block hdir hb
  -- a record in the new page is a copy, which the transaction does not reach
  have hcopy : ∀ i, W.record (recordAt ans.tables i (b * PAGE_SIZE))
      = (filled ans pidir).record (recordAt ans.tables i (ans.tables.slotOf ans.ino)) := by
    intro i
    have hin := recordAt_inPage ans.tables i (b * PAGE_SIZE)
    have hne1 : recordAt ans.tables i (b * PAGE_SIZE) ≠ ans.piAddr := by
      intro heq
      exact houtPi (heq ▸ hin)
    have hne2 : recordAt ans.tables i (b * PAGE_SIZE) ≠ pidir := by
      intro heq
      exact houtDir (heq ▸ hin)
    rw [← hW]
    simp only [novaLiteTransactionForNewInode, setRecord, if_neg hne1, if_neg hne2]
    exact copyPage_inside (filled ans pidir) i _ _
  -- the new inode
  have hino : W.novaGetInodeAddress ans.ino
      = some (recordAt ans.tables ans.ino (b * PAGE_SIZE)) := by
    rw [← hW]
    exact novaGetInodeAddress_switchSlot (m := (filled ans pidir).copyPage _ _)
      h.found hpage rfl rfl
  have hvalid : (W.record (recordAt ans.tables ans.ino (b * PAGE_SIZE))).valid
      = (ans.tables.record ans.piAddr).valid := by rw [hcopy, ← h.piAddr_eq, filled_valid]
  have hfirst : (∃ a, W.novaGetInodeAddress ans.ino = some a ∧ (W.record a).valid = 1) ↔
      (ans.tables.record ans.piAddr).valid = 1 := by
    rw [hino, ← hvalid]
    simp
  -- the directory
  have hsecond : (∃ a, novaGetInode W dir = some a ∧ (W.record a).logTail = ans.tail) ↔
      (dir.ino < NOVA_NORMAL_INODE_START ∨ ¬ SamePage ans.tables ans.ino dir.ino) := by
    obtain ⟨a, ha, -⟩ := novaGetInode_some (h.dir_found hdir)
    have htail : (W.record pidir).logTail = ans.tail := by
      rw [← hW]
      simp only [novaLiteTransactionForNewInode, setRecord, if_true]
      split
      · rfl
      · rfl
    by_cases hsame : SamePage ans.tables ans.ino dir.ino
    · have hlook : W.novaGetInodeAddress dir.ino
          = some (recordAt ans.tables dir.ino (b * PAGE_SIZE)) := by
        rw [← hW]
        exact novaGetInodeAddress_switchSlot (m := (filled ans pidir).copyPage _ _)
          ha hpage hsame.1 hsame.2
      rcases h.pidir_cases hdir with ⟨hres, hpidir⟩ | ⟨hres, hpidir⟩
      · have hget : novaGetInode W dir = some pidir := by
          unfold novaGetInode
          rw [hlook, hpidir]
          simp [hres]
        rw [hget]
        simp [htail, hres]
      have hget : novaGetInode W dir = some (recordAt ans.tables dir.ino (b * PAGE_SIZE)) := by
        unfold novaGetInode
        rw [hlook]
        simp [hres]
      have hslots : ans.tables.slotOf ans.ino = ans.tables.slotOf dir.ino := by
        unfold slotOf
        rw [hsame.1, hsame.2]
      have hold : (W.record (recordAt ans.tables dir.ino (b * PAGE_SIZE))).logTail
          = ans.dirTail := by rw [hcopy, hslots, ← hpidir, filled_tail (h.pidir_ne hdir)]
      rw [hget]
      simp [hold, h.moves, hres, hsame]
    have hlook : W.novaGetInodeAddress dir.ino = some a := by
      rw [← hW]
      exact novaGetInodeAddress_switchSlot_other
        (t := (filled ans pidir).copyPage _ _) ha hpage hsame
    have hget : novaGetInode W dir = some pidir := by
      rw [← h.dir_found hdir]
      unfold novaGetInode
      rw [hlook, ha]
    rw [hget]
    simp [htail, hsame]
  unfold Kept Spared
  rw [hfirst, hsecond]

/-- The hook in closed form. -/
theorem hook_eq (h : Sound ans t dir) :
    inodePageCountIncreaseWithMigrate ans (filled ans pidir) ans.piAddr = match ans.blocknr with
        | none => filled ans pidir
        | some b =>
          if ans.shouldMigrate (ans.piAddr / PAGE_SIZE) then moved ans pidir b
          else filled ans pidir := by
  have hino : ((filled ans pidir).record ans.piAddr).novaIno = ans.ino := by
    simp [filled, setRecord]
  have hslot : (filled ans pidir).slotOf ans.ino ≠ 0 := slotOf_ne_zero h.found
  have hnormal := h.normal
  unfold inodePageCountIncreaseWithMigrate migrateInodePage
  simp only [hino, if_neg (not_lt.2 hnormal), if_neg hslot]
  cases ans.blocknr with
  | none => simp
  | some b => rfl

/-- Creating an inode that returned 0 keeps what it did if and only if the
VFS inode was made, and the hook left the page alone or spared both
records. -/
theorem createInode_kept_iff (h : Sound ans t dir)
    (hres : createInode ans t dir = some (0, ans.ino, t')) :
    Kept ans t' dir ↔ ans.newInode = true ∧ ans.inserted = true ∧
      (Migrates ans → Spared ans dir) := by
  have hnormal := h.normal
  have hino : ans.ino ≠ 0 := by
    simp only [NOVA_NORMAL_INODE_START] at hnormal
    omega
  unfold createInode at hres
  cases hdir : novaGetInode t dir with
  | none =>
    rw [hdir] at hres
    simp only [some.injEq, Prod.mk.injEq] at hres
    exact absurd hres.2.1.symm hino
  | some pidir =>
    rw [hdir] at hres
    simp only [if_neg hino] at hres
    by_cases herr : ans.err = 0
    swap
    · rw [if_pos herr] at hres
      simp only [some.injEq, Prod.mk.injEq] at hres
      exact absurd hres.1 herr
    rw [if_neg (not_not.2 herr), herr] at hres
    have hne := h.pidir_ne hdir
    -- the tables after the name was added
    generalize hT : setRecord ans.tables pidir (fun r =>
      { r with logHead := ans.dirHead, logTail := ans.dirTail }) = T at hres
    have hdirT : novaGetInode T dir = some pidir := by
      rw [← hT]
      exact h.dir_found hdir
    have hfoundT : T.novaGetInodeAddress ans.ino = some ans.piAddr := by
      rw [← hT]
      exact h.found
    have hpi : lookAgain T ans.piAddr ans.ino = some ans.piAddr := by
      unfold lookAgain
      split
      · exact hfoundT
      · rfl
    have hfill : setRecord T ans.piAddr (fun r =>
        { r with logHead := 0, logTail := 0, novaIno := ans.ino }) = filled ans pidir := by
      rw [← hT]
      rfl
    unfold novaNewVfsInode at hres
    cases hnew : ans.newInode with
    | false =>
      simp only [hnew, Bool.not_false, if_true, bind_eq_bind, bind_some,
        Option.pure_def, some.injEq, Prod.mk.injEq, true_and] at hres
      subst hres
      have htail : (T.record pidir).logTail ≠ ans.tail := by
        rw [← hT]
        simpa [setRecord] using h.moves
      simp [not_kept_of_tail hdirT htail]
    | true =>
      simp only [hnew, Bool.not_true, Bool.false_eq_true, if_false, hdirT,
        bind_eq_bind, hpi, bind_some, hfill] at hres
      cases hins : ans.inserted with
      | false =>
        simp only [hins, Bool.not_false, if_true, Option.pure_def, bind_some,
          some.injEq, Prod.mk.injEq, true_and] at hres
        subst hres
        have htail : ((filled ans pidir).record pidir).logTail ≠ ans.tail := by
          rw [filled_tail hne]
          exact h.moves
        have hget : novaGetInode (filled ans pidir) dir = some pidir := h.dir_found hdir
        simp [not_kept_of_tail hget htail]
      | true =>
        simp only [hins, Bool.not_true, Bool.false_eq_true, if_false, Option.pure_def,
          bind_some, some.injEq, Prod.mk.injEq, true_and, hook_eq h] at hres
        have hstay : Kept ans (novaLiteTransactionForNewInode (filled ans pidir)
            ans.piAddr pidir ans.tail) dir := transaction_kept h.found (h.dir_found hdir)
        subst hres
        cases hb : ans.blocknr with
        | none => simp [Migrates, hb, hstay]
        | some b =>
          cases hshould : ans.shouldMigrate (ans.piAddr / PAGE_SIZE) with
          | false => simp [Migrates, hshould, hstay]
          | true =>
            simp only [if_true, transaction_moved h hdir hb]
            simp [Migrates, hshould, hb]

/-- One CPU with one page of inodes, in block 5. Inode 17 is a directory
with tail 100. -/
def onePage : InodeTables where
  cpus := 1
  mappingTable := fun c k => if c = 0 ∧ k = 0 then 5 * PAGE_SIZE else 0
  record := fun a =>
    if a = 5 * PAGE_SIZE + 17 * NOVA_INODE_SIZE then ⟨1, 17, 64, 100⟩ else ⟨0, 0, 0, 0⟩

/-- Directory 17. -/
def dir17 : DirInode := ⟨17, 5 * PAGE_SIZE + 17 * NOVA_INODE_SIZE⟩

/-- Inode 18 is created; `hot` tells whether its page has been written
too often. Block 9 is free. -/
def create18 (hot : Bool) : Answers where
  ino := 18
  piAddr := 5 * PAGE_SIZE + 18 * NOVA_INODE_SIZE
  tables := onePage
  err := 0
  tail := 132
  dirHead := 64
  dirTail := 100
  newInode := true
  inserted := true
  shouldMigrate := fun b => hot && b = 5
  blocknr := some 9

/-- The answers for inode 18 are sound. -/
theorem create18_sound (hot : Bool) : Sound (create18 hot) onePage dir17 := by
  have hslots : ∀ c k, onePage.mappingTable c k ≠ 0 → c = 0 ∧ k = 0 := by
    intro c k hk
    by_contra hne
    exact hk (if_neg hne)
  refine ⟨?_, ?_, ?_, fun a ha => ha, ?_, ?_, ?_, ?_, ?_⟩
  · show onePage.novaGetInodeAddress 18 = some (5 * PAGE_SIZE + 18 * NOVA_INODE_SIZE)
    decide
  · show NOVA_NORMAL_INODE_START ≤ 18
    decide
  · show 18 ≠ 17
    decide
  · intro c k
    show PAGE_SIZE ∣ if c = 0 ∧ k = 0 then 5 * PAGE_SIZE else 0
    split
    · exact Nat.dvd_mul_left _ _
    · exact Nat.dvd_zero _
  · intro c k c' k' hk heq
    obtain ⟨rfl, rfl⟩ := hslots c k hk
    obtain ⟨rfl, rfl⟩ := hslots c' k' (heq ▸ hk)
    exact ⟨rfl, rfl⟩
  · intro b hb
    have hb9 : b = 9 := by simpa [create18] using hb.symm
    subst hb9
    refine ⟨by decide, ?_⟩
    intro c k heq
    obtain ⟨rfl, rfl⟩ := hslots c k (by
      intro hz
      rw [show (create18 hot).tables = onePage from rfl, hz] at heq
      exact absurd heq (by decide))
    have hfive : 5 * PAGE_SIZE = 9 * PAGE_SIZE := heq
    exact absurd hfive (by decide)
  · intro hres
    exact absurd hres (by decide)
  · show 100 ≠ 132
    decide

end Themis.Create
