/-
The next mount does not see what an unmount has saved.

The format stores 3 as the number of the block list's record, so the
save function does not store head and tail of the new log there but in
the record that the mapping tables give for inode 3 (`lookup_above`). The
fixed one, which the next mount reads, keeps the `log_head` of the format,
which is 0 (`Untouched`).
-/
import Themis.Unmount
import Themis.Proofs.Mount

namespace Themis.Unmount

open Lib InodePages Mount RangeLog Option

variable {al : BlockAllocator} {s s' : State al} {m m' : Mounted al}
variable {p b x ino pi : Nat} {mem : Nat → UInt8}

-- === block 0

/-- No page of a table is page 0. -/
def Above (table : Nat → Nat → Nat) : Prop := ∀ c k, table c k ≠ 0 → PAGE_SIZE ≤ table c k

/-- A step that leaves block 0 alone and puts no part of it into a
table. -/
structure KeepsLow (s s' : State al) : Prop where
  mem : ∀ x, x < PAGE_SIZE → s'.mem x = s.mem x
  above : Above s.table → Above s'.table

/-- Nothing changed. -/
theorem KeepsLow.refl (s : State al) : KeepsLow s s := ⟨fun _ _ => rfl, fun h => h⟩

/-- One change after another. -/
theorem KeepsLow.trans {s'' : State al} (h : KeepsLow s s') (h' : KeepsLow s' s'') :
    KeepsLow s s'' :=
  ⟨fun x hx => (h'.mem x hx).trans (h.mem x hx), fun ha => h'.above (h.above ha)⟩

/-- A state that did not change. -/
theorem KeepsLow.of_unchanged (h : Unchanged s s') : KeepsLow s s' := by
  refine ⟨fun x _ => ?_, fun ha => ?_⟩
  · rw [h.mem]
  · rw [h.table]
    exact ha

/-- A new page is not page 0. -/
theorem page_le (h : NewPage s s' p b) : PAGE_SIZE ≤ p := by
  rw [h.off]
  exact Nat.le_mul_of_pos_left PAGE_SIZE h.pos

/-- An allocation writes nothing. -/
theorem KeepsLow.of_newPage (h : NewPage s s' p b) : KeepsLow s s' := by
  refine ⟨fun x hx => h.mem x (.inl (lt_of_lt_of_le hx (page_le h))), fun ha => ?_⟩
  rw [h.table]
  exact ha

/-- A slot is set. -/
theorem KeepsLow.setSlot {cpu k p : Nat} (hp : PAGE_SIZE ≤ p) : KeepsLow s (s.setSlot cpu k p) := by
  refine ⟨fun _ _ => rfl, fun ha c i hne => ?_⟩
  simp only [State.setSlot] at hne ⊢
  by_cases hck : c = cpu ∧ i = k
  · rw [if_pos hck]
    exact hp
  · rw [if_neg hck] at hne ⊢
    exact ha c i hne

/-- A first page is entered. -/
theorem KeepsLow.firstPage {cpu p : Nat} (hp : PAGE_SIZE ≤ p) : KeepsLow s (firstPage s cpu p) := by
  refine ⟨fun x hx => ?_, fun ha c k hne => ?_⟩
  · refine writeLE_outside (.inl ?_)
    unfold inodeTableAt
    omega
  simp only [InodePages.firstPage] at hne ⊢
  by_cases hc : c = cpu
  · by_cases hk : k = 0
    · rw [if_pos hc, if_pos hk]
      exact hp
    · rw [if_pos hc, if_neg hk] at hne
      exact absurd rfl hne
  · rw [if_neg hc] at hne ⊢
    exact ha c k hne

/-- The format loop. -/
theorem initLoop_low {cpus : List Nat} {ret : Int} (h : initLoop s cpus = (ret, s')) :
    KeepsLow s s' := by
  induction cpus generalizing s with
  | nil =>
    cases h
    exact .refl _
  | cons cpu rest ih =>
    cases initLoop_cons h with
    | noBlock _ hsame => exact .of_unchanged hsame
    | newPage hp hrest =>
      exact (KeepsLow.of_newPage hp).trans
        ((KeepsLow.firstPage (page_le hp)).trans (ih hrest))

/-- The extension loop. -/
theorem extendLoop_low {cpu : Nat} {ext : Bool} {L : List Nat} {e : Option Int}
    (h : extendLoop cpu ext s L = (e, s')) : KeepsLow s s' := by
  induction L generalizing s with
  | nil =>
    cases h
    exact .refl _
  | cons i rest ih =>
    cases extendLoop_cons h with
    | stop _ hsame => exact .of_unchanged hsame
    | newPage _ hp hrest =>
      exact (KeepsLow.of_newPage hp).trans
        ((KeepsLow.setSlot (page_le hp)).trans (ih hrest))
    | filled _ hrest => exact ih hrest

/-- A lookup. -/
theorem getInodeAddress_low (ino : Nat) (ext : Bool) :
    KeepsLow s (InodePages.novaGetInodeAddress s ino ext).2
      ∧ ∀ a, Above s.table → (InodePages.novaGetInodeAddress s ino ext).1 = .ok a →
        PAGE_SIZE ≤ a := by
  unfold InodePages.novaGetInodeAddress
  by_cases hfirst : s.table (s.maps.cpuOf ino) 0 = 0
  · rw [if_pos hfirst]
    exact ⟨.refl s, fun a _ h => by cases h⟩
  rw [if_neg hfirst]
  cases hrun : extendLoop (s.maps.cpuOf ino) ext s (List.range (s.maps.superpageCount ino)) with
  | mk e s1 =>
    have hlow := extendLoop_low hrun
    cases e with
    | some e => exact ⟨hlow, fun a _ h => by cases h⟩
    | none =>
      refine ⟨hlow, fun a ha h => ?_⟩
      rw [List.range_eq_range'] at hrun
      have hlast := extendLoop_last hfirst hrun
      rw [Nat.zero_add] at hlast
      injection h with h
      rw [← h]
      exact le_trans (hlow.above ha _ _ hlast) (Nat.le_add_right _ _)

/-- A migration. -/
theorem migrateInodePage_low (ino : Nat) : KeepsLow s (migrateInodePage s ino).2 := by
  unfold migrateInodePage
  by_cases hcurr : s.table (s.maps.cpuOf ino) (s.maps.superpageCount ino) = 0
  · rw [if_pos hcurr]
    exact .refl s
  rw [if_neg hcurr]
  cases hnew : novaNewLogBlock s with
  | mk r s1 =>
    cases r with
    | none => exact .of_unchanged (novaNewLogBlock_none hnew)
    | some p =>
      obtain ⟨b, hp⟩ := novaNewLogBlock_some hnew
      have hcopy : ∀ src,
          KeepsLow s1 { s1 with mem := copyBytes s1.mem p src PAGE_SIZE } := fun src =>
        ⟨fun x hx => copyBytes_outside (.inl (lt_of_lt_of_le hx (page_le hp))), fun ha => ha⟩
      exact (KeepsLow.of_newPage hp).trans ((hcopy _).trans (.setSlot (page_le hp)))

-- === the record

/-- The record of the block list is as the format left it, and the tables
lead behind block 0. -/
structure Untouched (m : Mounted al) : Prop where
  novaIno : (listRecord m.mem NOVA_BLOCKNODE_INO).novaIno = NOVA_BLOCKNODE_INO
  logHead : (listRecord m.mem NOVA_BLOCKNODE_INO).logHead = 0
  above : ∀ table, m.tables = some table → Above table

/-- A byte of the record a mount reads. -/
def InRecord (x : Nat) : Prop :=
  basicInodeAt NOVA_BLOCKNODE_INO ≤ x ∧ x < basicInodeAt NOVA_BLOCKNODE_INO + NOVA_INODE_SIZE

/-- It is on page 0. -/
theorem InRecord.lt_page (h : InRecord x) : x < PAGE_SIZE := lt_trans h.2 (by decide)

/-- Only the bytes of the record matter. -/
theorem listRecord_congr {mem' : Nat → UInt8} (h : ∀ x, InRecord x → mem' x = mem x) :
    listRecord mem' NOVA_BLOCKNODE_INO = listRecord mem NOVA_BLOCKNODE_INO := by
  have hword : ∀ off, off + 8 ≤ NOVA_INODE_SIZE →
      readLE mem' (basicInodeAt NOVA_BLOCKNODE_INO + off) 8
        = readLE mem (basicInodeAt NOVA_BLOCKNODE_INO + off) 8 := by
    intro off hoff
    refine readLE_congr fun x hlo hhi => h x ⟨?_, ?_⟩
    · exact le_trans (Nat.le_add_right _ _) hlo
    · omega
  unfold listRecord inodeAt
  rw [hword 64 (by decide), hword 72 (by decide), hword 80 (by decide)]

/-- Only the record and the tables matter. -/
theorem Untouched.congr (h : Untouched m) (hmem : ∀ x, InRecord x → m'.mem x = m.mem x)
    (habove : ∀ table, m'.tables = some table → Above table) : Untouched m' := by
  refine ⟨?_, ?_, habove⟩
  · rw [listRecord_congr hmem]
    exact h.novaIno
  · rw [listRecord_congr hmem]
    exact h.logHead

/-- What keeps page 0. -/
theorem Untouched.low {s s' : State al} (h : Untouched (.ofState s)) (hlow : KeepsLow s s') :
    Untouched (.ofState s') := by
  refine h.congr (fun x hx => hlow.mem x hx.lt_page) fun table htable => ?_
  injection htable with htable
  rw [← htable]
  exact hlow.above (h.above s.table rfl)

/-- The record after a format. -/
theorem novaInit_untouched {s0 : State al} (h : novaInit s0 = (0, s)) : Untouched (.ofState s) := by
  unfold novaInit at h
  dsimp only at h
  cases hinit : novaInitInodeTable { s0 with
      mem := fillBytes s0.mem 0 (RESERVED_BLOCKS * PAGE_SIZE) fun _ => 0 } with
  | mk ret s1 =>
    rw [hinit] at h
    by_cases hret : ret < 0
    · rw [if_pos hret] at h
      injection h with herr _
      exact absurd herr (by decide)
    rw [if_neg hret] at h
    injection h with _ hs
    have hlow := initLoop_low hinit
    have hzero : ∀ x, InRecord x → s1.mem x = 0 := by
      intro x hx
      rw [hlow.mem x hx.lt_page]
      refine if_pos ⟨Nat.zero_le x, lt_of_lt_of_le hx.lt_page ?_⟩
      decide
    rw [← hs]
    refine ⟨?_, ?_, fun table htable => ?_⟩
    · show readLE (writeLE (writeLE _ _ _ _) _ _ _) (basicInodeAt NOVA_BLOCKNODE_INO + 64) 8
        = NOVA_BLOCKNODE_INO
      rfl
    · show readLE (writeLE (writeLE _ _ _ _) _ _ _) (basicInodeAt NOVA_BLOCKNODE_INO + 72) 8 = 0
      rw [readLE_writeLE_of_disjoint (by decide), readLE_writeLE_of_disjoint (by decide)]
      have hword : readLE s1.mem (basicInodeAt NOVA_BLOCKNODE_INO + 72) 8
          = readLE (fun _ => 0) (basicInodeAt NOVA_BLOCKNODE_INO + 72) 8 := by
        refine readLE_congr fun x hlo hhi => hzero x ⟨?_, ?_⟩
        · exact le_trans (Nat.le_add_right _ _) hlo
        · exact lt_of_lt_of_le hhi (by decide)
      rw [hword]
      decide
    injection htable with htable
    rw [← htable]
    exact hlow.above fun c k hne => absurd rfl hne

-- === saving

/-- Lookups do not give page 0. -/
theorem lookup_above (h : Untouched m) {a : Nat} (hlook : novaGetInodeByInoOrPiAddr m ino = some a) :
    PAGE_SIZE ≤ a := by
  unfold novaGetInodeByInoOrPiAddr Mount.novaGetInodeAddress at hlook
  cases hlocks : m.locks with
  | none =>
    rw [hlocks] at hlook
    cases hlook
  | some u =>
    cases htables : m.tables with
    | none =>
      rw [hlocks, htables] at hlook
      cases hlook
    | some table =>
      rw [hlocks, htables] at hlook
      have hfound := (getInodeAddress_low
        (s := (⟨m.cpus, table, m.mem, m.alloc⟩ : State al)) ino false).2
      cases hres : (InodePages.novaGetInodeAddress
          (⟨m.cpus, table, m.mem, m.alloc⟩ : State al) ino false).1 with
      | error e => simp [hres] at hlook
      | ok b =>
        simp [hres] at hlook
        rw [← hlook]
        exact hfound b (h.above table htables) hres

/-- A record outside the one a mount reads. -/
def Elsewhere (pi : Nat) : Prop :=
  PAGE_SIZE ≤ pi ∨ pi = basicInodeAt NOVA_INODELIST1_INO

/-- A store there leaves it alone. -/
theorem Elsewhere.outside {off : Nat} (h : Elsewhere pi) (hx : InRecord x) : x < pi + off := by
  cases h with
  | inl hpage => exact lt_of_lt_of_le hx.lt_page (le_trans hpage (Nat.le_add_right _ _))
  | inr hlist =>
    have hend : basicInodeAt NOVA_BLOCKNODE_INO + NOVA_INODE_SIZE
        ≤ basicInodeAt NOVA_INODELIST1_INO := by decide
    have := hx.2
    omega

section

variable (h : Untouched m)
include h

/-- Both list inodes are elsewhere. -/
theorem specialInode_elsewhere (hino : ino = NOVA_INODELIST1_INO ∨ ino = NOVA_BLOCKNODE_INO)
    (hspecial : specialInode m ino = some pi) : Elsewhere pi := by
  unfold specialInode at hspecial
  by_cases hbig : (inodeAt m.mem (basicInodeAt ino)).novaIno > 1
  · rw [if_pos hbig] at hspecial
    exact .inl (lookup_above h hspecial)
  rw [if_neg hbig] at hspecial
  injection hspecial with hpi
  cases hino with
  | inl hlist =>
    rw [← hpi, hlist]
    exact .inr rfl
  | inr hblock =>
    have hthree : (inodeAt m.mem (basicInodeAt ino)).novaIno = NOVA_BLOCKNODE_INO := by
      rw [hblock]
      exact h.novaIno
    rw [hthree] at hbig
    exact absurd (by decide) hbig

/-- One store. -/
theorem Untouched.store (hpi : Elsewhere pi) (off v : Nat) :
    Untouched { m with mem := writeLE m.mem (pi + off) 8 v } :=
  h.congr (fun _ hx => writeLE_outside (.inl (hpi.outside hx))) h.above

/-- A new tail. -/
theorem Untouched.updateTail {tail : Nat} (hpi : Elsewhere pi)
    (hres : novaUpdateTailWwb m pi tail = some m') : Untouched m' := by
  obtain ⟨pi', hlook, hres⟩ := map_eq_some_iff.mp hres
  have hpi' : Elsewhere pi' := by
    split at hlook
    · exact .inl (lookup_above h hlook)
    injection hlook with heq
    rw [← heq]
    exact hpi
  rw [← hres]
  exact h.store hpi' 80 tail

/-- A list is saved. -/
theorem Untouched.save {log : SavedLog al}
    (hino : ino = NOVA_INODELIST1_INO ∨ ino = NOVA_BLOCKNODE_INO)
    (hres : saveToLog m ino log = some (pi, m')) : Untouched m' := by
  obtain ⟨pi, hspecial, hres⟩ := bind_eq_some_iff.mp hres
  obtain ⟨m1, htail, hres⟩ := bind_eq_some_iff.mp hres
  injection hres with hres
  injection hres with _ hm
  rw [← hm]
  have hpi := specialInode_elsewhere h hino hspecial
  have hhead : Untouched { m with mem := writeLE m.mem (pi + 72) 8 log.newBlock } :=
    h.store hpi 72 log.newBlock
  have hpages : ∀ x, InRecord x → (log.append (writeLE m.mem (pi + 72) 8 log.newBlock)).1 x
      = writeLE m.mem (pi + 72) 8 log.newBlock x := fun x hx => log.inside _ x hx.lt_page
  generalize log.append (writeLE m.mem (pi + 72) 8 log.newBlock) = r at htail hpages
  have hlog : Untouched { m with mem := r.1, alloc := log.alloc } := hhead.congr hpages h.above
  exact hlog.updateTail hpi htail

/-- The page counts. -/
theorem Untouched.countIncrease {migrate : Nat → Bool}
    (hres : inodePageCountIncreaseWithMigrate migrate m pi = some m') : Untouched m' := by
  unfold inodePageCountIncreaseWithMigrate at hres
  dsimp only at hres
  split at hres
  · injection hres with hres
    rw [← hres]
    exact h
  split at hres
  · obtain ⟨_, _, hres⟩ := bind_eq_some_iff.mp hres
    obtain ⟨table, htable, hres⟩ := bind_eq_some_iff.mp hres
    injection hres with hres
    have hstate : Untouched (.ofState (⟨m.cpus, table, m.mem, m.alloc⟩ : State al)) := by
      refine h.congr (fun _ _ => rfl) fun table' htable' => ?_
      injection htable' with htable'
      rw [← htable']
      exact h.above table htable
    rw [← hres]
    exact hstate.low (migrateInodePage_low _)
  injection hres with hres
  rw [← hres]
  exact h

/-- Both lists are saved. -/
theorem Untouched.saveLists {migrate : Nat → Bool}
    {inodes blocks : SavedLog al} (hres : saveLists migrate m inodes blocks = some m') :
    Untouched m' := by
  unfold Unmount.saveLists novaSaveInodeListToLog novaSaveBlocknodeMappingsToLog at hres
  obtain ⟨m1, hinodes, hres⟩ := bind_eq_some_iff.mp hres
  obtain ⟨⟨pi, m2⟩, hfirst, hmigrate⟩ := bind_eq_some_iff.mp hinodes
  obtain ⟨⟨pi', m3⟩, hblocks, hres⟩ := bind_eq_some_iff.mp hres
  injection hres with hres
  rw [← hres]
  have hinode : Untouched m1 := (h.save (.inl rfl) hfirst).countIncrease hmigrate
  exact hinode.save (.inr rfl) hblocks

end

-- === runs

/-- The states from a format on: lookups and migrations of inode pages,
other code, unmounts, and mounts of what is on the device. -/
inductive Reachable : Mounted al → Prop
  | format {s₀ s : State al} (h : novaInit s₀ = (0, s)) : Reachable (.ofState s)
  | lookup {s : State al} (h : Reachable (.ofState s)) (ino : Nat) (extendable : Bool) :
      Reachable (.ofState (InodePages.novaGetInodeAddress s ino extendable).2)
  | migrate {s : State al} (h : Reachable (.ofState s)) (ino : Nat) :
      Reachable (.ofState (migrateInodePage s ino).2)
  | other {m m' : Mounted al} (h : Reachable m) (hmem : ∀ x, InRecord x → m'.mem x = m.mem x)
      (htables : m'.tables = m.tables) : Reachable m'
  | unmount {m m' : Mounted al} {migrate : Nat → Bool} {inodes blocks : SavedLog al}
      (h : Reachable m) (hres : saveLists migrate m inodes blocks = some m') : Reachable m'
  | mount {m m' : Mounted al} {cpus : Nat} {canSkip : Bool} {alloc : al.State}
      (h : Reachable m) (hres : novaFillSuper cpus m.mem canSkip alloc = some m') :
      Reachable m'

/-- The record is never written. -/
theorem Reachable.untouched (h : Reachable m) : Untouched m := by
  induction h with
  | format h => exact novaInit_untouched h
  | lookup _ ino ext ih => exact ih.low (getInodeAddress_low ino ext).1
  | migrate _ ino ih => exact ih.low (migrateInodePage_low ino)
  | other _ hmem htables ih =>
    refine ih.congr hmem ?_
    rw [htables]
    exact ih.above
  | unmount _ hres ih => exact ih.saveLists hres
  | @mount m m' cpus canSkip alloc _ hres ih =>
    have hnone : Untouched (⟨cpus, none, none, m.mem, alloc⟩ : Mounted al) :=
      ih.congr (fun _ _ => rfl) fun table htable => by cases htable
    unfold novaFillSuper at hres
    split at hres
    · injection hres with hres
      rw [← hres]
      exact hnone
    -- the record is looked up through NULL
    obtain ⟨pi, hspecial, -⟩ := bind_eq_some_iff.mp hres
    unfold specialInode at hspecial
    dsimp only at hspecial
    split at hspecial
    · cases hspecial
    next hsmall =>
    refine absurd ?_ hsmall
    have hthree := hnone.novaIno
    exact Nat.lt_of_lt_of_eq (by decide) hthree.symm

/-- The next mount takes the normal path: whatever else it finds, both
lists are loaded from the records on the device. -/
def Recognised (rb : RbLib Balloc.RangeNode.addr) (mem : Nat → UInt8) : Prop :=
  ∃ rounds garbage fm fm', fm.blocknode = listRecord mem NOVA_BLOCKNODE_INO
    ∧ fm.inodelist = listRecord mem NOVA_INODELIST1_INO
    ∧ novaCanSkipFullScan rb rounds garbage fm = some (true, fm')

/-- An empty list is not recognised. -/
theorem not_recognised (rb : RbLib Balloc.RangeNode.addr)
    (hhead : (listRecord mem NOVA_BLOCKNODE_INO).logHead = 0) : ¬ Recognised rb mem := by
  intro h
  obtain ⟨rounds, garbage, fm, fm', hrec, -, hskip⟩ := h
  rw [← hrec] at hhead
  unfold novaCanSkipFullScan at hskip
  rw [if_pos (.inl hhead)] at hskip
  injection hskip with hskip
  injection hskip with hfalse _
  cases hfalse

/-- No unmount is recognised: in every state that is reached, if the
lists are saved at all, the next mount goes for failure recovery. -/
theorem unmount_never_recognised (rb : RbLib Balloc.RangeNode.addr) (h : Reachable m)
    (migrate : Nat → Bool) (inodes blocks : SavedLog al) :
    ¬ ∃ m', saveLists migrate m inodes blocks = some m' ∧ Recognised rb m'.mem := by
  intro hclean
  obtain ⟨m', hsave, hrec⟩ := hclean
  exact not_recognised rb (h.untouched.saveLists hsave).logHead hrec

/-- A log of one entry. -/
def oneEntry (b low high : Nat) : SavedLog (.ascending 100) where
  newBlock := (b + 1) * PAGE_SIZE
  alloc := ⟨b + 2, fun _ => false⟩
  append mem :=
    (writeLE (writeLE mem ((b + 1) * PAGE_SIZE) 8 low) ((b + 1) * PAGE_SIZE + 8) 8 high,
      (b + 1) * PAGE_SIZE + RangeLog.ENTRY_SIZE)
  inside mem x hx := by
    have hpage : PAGE_SIZE ≤ (b + 1) * PAGE_SIZE := Nat.le_mul_of_pos_left _ (Nat.succ_pos b)
    show writeLE (writeLE mem _ 8 low) _ 8 high x = mem x
    rw [writeLE_outside (.inl (by omega)), writeLE_outside (.inl (by omega))]

/-- A formatted device with one CPU. -/
def freshSystem : State (.ascending 100) := (novaInit (blankDevice 1)).2

/-- It was formatted. -/
theorem novaInit_freshSystem : novaInit (blankDevice 1) = (0, freshSystem) :=
  Prod.ext (by decide) rfl

/-- An unmount of that device. -/
theorem unmount_never_recognised_fresh :
    ¬ ∃ m', saveLists (fun _ => false) (.ofState freshSystem) (oneEntry 4 0 16)
        (oneEntry 5 7 99) = some m' ∧ Recognised (RbLib.spine Balloc.RangeNode.addr) m'.mem :=
  unmount_never_recognised _ (.format novaInit_freshSystem) _ _ _

/-- The log of the block list is at block 6. Its head goes to the record
of inode 3 in the page of the inode table, and the next mount finds 0. -/
theorem saved_list_not_found :
    Reachable (.ofState freshSystem)
      ∧ resolve freshSystem 3 = some (4 * PAGE_SIZE + 3 * NOVA_INODE_SIZE)
      ∧ ∃ m', saveLists (fun _ => false) (.ofState freshSystem) (oneEntry 4 0 16)
          (oneEntry 5 7 99) = some m'
        ∧ (inodeAt m'.mem (4 * PAGE_SIZE + 3 * NOVA_INODE_SIZE)).logHead = 6 * PAGE_SIZE
        ∧ listRecord m'.mem NOVA_BLOCKNODE_INO = ⟨3, 0, 0⟩
        ∧ ¬ Recognised (RbLib.spine Balloc.RangeNode.addr) m'.mem := by
  have hsave : (saveLists (fun _ => false) (.ofState freshSystem) (oneEntry 4 0 16)
      (oneEntry 5 7 99)).map
      (fun m' => ((inodeAt m'.mem (4 * PAGE_SIZE + 3 * NOVA_INODE_SIZE)).logHead,
        listRecord m'.mem NOVA_BLOCKNODE_INO)) = some (6 * PAGE_SIZE, ⟨3, 0, 0⟩) := by
    decide +kernel
  refine ⟨.format novaInit_freshSystem, by decide, ?_⟩
  obtain ⟨m', hres, hval⟩ := map_eq_some_iff.mp hsave
  injection hval with hhead hrecord
  refine ⟨m', hres, hhead, hrecord, not_recognised _ ?_⟩
  rw [hrecord]

end Themis.Unmount
