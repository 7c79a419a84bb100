/-
`nova_rebuild_dir_inode_tree`. It replays the records in order and skips
the additions that are marked. What the tree holds at a hash afterwards is
decided by the last record there that is not skipped (`heldAt`).

# One record

An addition stops the rebuild if its hash is taken, and a marked addition
reads `ret`, which only an earlier record sets. Neither happens on a log
that is `Replayable`, as that of a directory is (`Listed.replayable`).
-/
import Themis.Proofs.Dir.Step

namespace Themis.Dir

open Lib Log File List Function

variable {al : BlockAllocator} {U : Set (List UInt8)} {nv : Nvmm} {st st₀ st' : State al}
  {dir i a b : Nat} {L pages : List Nat}
variable {X Y : List Nat}

-- === the last record

/-- What a record does to hash `i`. -/
def nameEvent (nv : Nvmm) (i a : Nat) : Option (Option Nat) :=
  match nv.slot a with
  | .dirLog d =>
    if bkdrHash d.name = i then
      if d.ino = 0 then some none
      else if nv.invalid a = 0 then some (some a) else none
    else none
  | _ => none

/-- A valid record sets it. -/
theorem nameEvent_of_validAt (h : ValidAt nv i a) : nameEvent nv i a = some (some a) := by
  obtain ⟨d, hd, h0, hv, hi⟩ := h
  simp [nameEvent, hd, h0, hv, hi]

/-- A removal clears it. -/
theorem nameEvent_of_removesAt (h : RemovesAt nv i a) : nameEvent nv i a = some none := by
  obtain ⟨d, hd, h0, hi⟩ := h
  simp [nameEvent, hd, h0, hi]

/-- Other entries leave it. -/
theorem nameEvent_of_not_namedAt (h : ¬ NamedAt nv i a) : nameEvent nv i a = none := by
  unfold nameEvent
  split
  · rename_i d hd
    rw [if_neg fun hi => h ⟨d, hd, hi⟩]
  · rfl

/-- Only a valid record sets it. -/
theorem validAt_of_nameEvent (h : nameEvent nv i a = some (some b)) : b = a ∧ ValidAt nv i a := by
  unfold nameEvent at h
  split at h
  · rename_i d hd
    split at h
    · rename_i hi
      split at h
      · cases h
      rename_i h0
      split at h
      · rename_i hv
        cases h
        exact ⟨rfl, d, hd, h0, hv, hi⟩
      · cases h
    · cases h
  · cases h

/-- What a replay leaves at hash `i`. -/
def heldAt (nv : Nvmm) (L : List Nat) (i : Nat) : Option Nat :=
  (lastEvent (nameEvent nv i) L).join

/-- It is the last valid record. -/
theorem heldAt_some (h : heldAt nv L i = some a) :
    ∃ X Y, L = X ++ a :: Y ∧ ValidAt nv i a ∧ ∀ y ∈ Y, nameEvent nv i y = none := by
  rw [heldAt, Option.join_eq_some_iff] at h
  obtain ⟨X, x, Y, hL, hx, hY⟩ := exists_of_lastEvent h
  obtain ⟨rfl, hv⟩ := validAt_of_nameEvent hx
  exact ⟨X, Y, hL, hv, hY⟩

/-- The last valid record is left. -/
theorem heldAt_of_last (h : ValidAt nv i a) (hY : ∀ y ∈ Y, nameEvent nv i y = none) :
    heldAt nv (X ++ a :: Y) i = some a := by
  have hnone : lastEvent (nameEvent nv i) Y = none := lastEvent_eq_none.2 hY
  simp [heldAt, lastEvent_append, lastEvent, hnone, nameEvent_of_validAt h]

/-- A log that the rebuild can replay to its end. -/
structure Replayable (U : Set (List UInt8)) (nv : Nvmm) (L : List Nat) : Prop where
  ok : ∀ a ∈ L, DirEntryOk U (nv.slot a)
  free : ∀ X a Y i, L = X ++ a :: Y → ValidAt nv i a → heldAt nv X i = none
  first : ∃ a ∈ L, ValidAt nv (bkdrHash dot) a ∧
    L.Pairwise fun x y => y = a → ¬ IsRecord nv x

/-- A listed log can be replayed. -/
theorem Listed.replayable (h : Listed U nv L) : Replayable U nv L := by
  refine ⟨h.ok, ?_, h.first⟩
  rintro X a Y i rfl hv
  cases hheld : heldAt nv X i with
  | none => rfl
  | some b =>
    obtain ⟨X1, X2, rfl, hb, -⟩ := heldAt_some hheld
    have honce := (pairwise_append.1 h.once).2.2 b (by simp) a mem_cons_self
    exact absurd hv.namedAt (honce i hb)

/-- In a listed log it is the one valid record. -/
theorem Listed.heldAt_iff (h : Listed U nv L) :
    heldAt nv L i = some a ↔ a ∈ L ∧ ValidAt nv i a := by
  constructor
  · intro hheld
    obtain ⟨X, Y, rfl, hv, -⟩ := heldAt_some hheld
    exact ⟨by simp, hv⟩
  rintro ⟨ha, hv⟩
  obtain ⟨X, Y, rfl⟩ := append_of_mem ha
  apply heldAt_of_last hv
  intro y hy
  have honce := (pairwise_append.1 h.once).2.1
  exact nameEvent_of_not_namedAt ((pairwise_cons.1 honce).1 y hy i hv)

-- === one record

/-- A rebuild that started in `st₀` has replayed the entries `X`. -/
structure ReplayedAt (st₀ st : State al) (dir : Nat) (X : List Nat) : Prop where
  nv : ∃ r, st.nv = { st₀.nv with record := Function.update st₀.nv.record dir r } ∧
    isReg r.attrs.mode = false
  data : st.data = st₀.data
  alloc : st.alloc = st₀.alloc
  others : ∀ j, j ≠ dir → st.info j = st₀.info j
  tree : ∀ i, (st.info dir).tree.get i = heldAt st₀.nv X i

namespace ReplayedAt

variable {X : List Nat}
variable {e : SetattrEntry} {d : Dentry}

section

variable (h : ReplayedAt st₀ st dir X)
include h

/-- The entries stay. -/
theorem slot : st.nv.slot = st₀.nv.slot := by
  obtain ⟨r, hr, -⟩ := h.nv
  rw [hr]

/-- The marks stay. -/
theorem invalid : st.nv.invalid = st₀.nv.invalid := by
  obtain ⟨r, hr, -⟩ := h.nv
  rw [hr]

/-- The links stay. -/
theorem next : st.nv.next = st₀.nv.next := by
  obtain ⟨r, hr, -⟩ := h.nv
  rw [hr]

/-- The tail stays. -/
theorem logTail : st.nv.logTail = st₀.nv.logTail := by
  obtain ⟨r, hr, -⟩ := h.nv
  rw [hr]

/-- The directory stays one. -/
theorem recordMode : isReg (st.nv.record dir).attrs.mode = false := by
  obtain ⟨r, hr, hmode⟩ := h.nv
  rw [hr]
  simpa using hmode

/-- Only the tree matters. -/
theorem setInfo {i : InodeInfo}
    (hi : i.tree.get = (st.info dir).tree.get) : ReplayedAt st₀ (st.setInfo dir i) dir X := by
  refine ⟨h.nv, h.data, h.alloc, ?_, ?_⟩
  · intro j hj
    simp only [State.setInfo, update_of_ne hj]
    exact h.others j hj
  intro j
  simp only [State.setInfo, update_self, hi]
  exact h.tree j

/-- Only the mode matters. -/
theorem setRecord {r : Record}
    (hr : isReg r.attrs.mode = false) : ReplayedAt st₀ (setRecord st dir r) dir X := by
  refine ⟨⟨r, ?_, hr⟩, h.data, h.alloc, h.others, h.tree⟩
  obtain ⟨r0, hr0, -⟩ := h.nv
  simp only [File.setRecord, hr0, update_idem]

/-- An entry without a name. -/
theorem skip (ha : ∀ i, nameEvent st₀.nv i a = none) : ReplayedAt st₀ st dir (X ++ [a]) := by
  refine ⟨h.nv, h.data, h.alloc, h.others, ?_⟩
  intro i
  rw [h.tree i]
  simp [heldAt, ha i]

end

/-- A directory's pages are not cut. -/
theorem cutTree_eq (he : isReg e.mode = false) : cutTree st dir e = st := by simp [cutTree, he]

variable (h : ReplayedAt st₀ st dir X)
include h

/-- An attribute entry. -/
theorem setattr (hs : st₀.nv.slot a = .setAttr e) (he : isReg e.mode = false) :
    ReplayedAt st₀ (novaApplySetattrEntry st dir e) dir (X ++ [a]) := by
  have hnot : ∀ i, nameEvent st₀.nv i a = none := by
    intro i
    simp [nameEvent, hs]
  unfold novaApplySetattrEntry
  simp only [cutTree_eq he]
  exact ((h.skip hnot).setRecord he).setInfo rfl

/-- A link change entry. -/
theorem linkChange {e : LinkChangeEntry} (hs : st₀.nv.slot a = .linkChange e) :
    ReplayedAt st₀ (novaApplyLinkChangeEntry st dir e) dir (X ++ [a]) := by
  have hnot : ∀ i, nameEvent st₀.nv i a = none := by
    intro i
    simp [nameEvent, hs]
  exact (h.skip hnot).setRecord h.recordMode

/-- A removal record. -/
theorem remove (hs : st₀.nv.slot a = .dirLog d) (h0 : d.ino = 0) :
    ReplayedAt st₀ (novaRemoveDirRadixTree st dir d.name true).2 dir (X ++ [a]) := by
  unfold novaRemoveDirRadixTree setTree
  simp only [if_true]
  refine ⟨h.nv, h.data, h.alloc, ?_, ?_⟩
  · intro j hj
    simp only [State.setInfo, update_of_ne hj]
    exact h.others j hj
  intro i
  simp only [State.setInfo, update_self]
  by_cases hi : i = bkdrHash d.name
  · have hev : nameEvent st₀.nv i a = some none := nameEvent_of_removesAt ⟨d, hs, h0, hi.symm⟩
    rw [hi, ← hi]
    simp [heldAt, hev]
  have hev : nameEvent st₀.nv i a = none := by simp [nameEvent, hs, Ne.symm hi]
  rw [Radix.get_delete_of_ne _ hi, h.tree i]
  simp [heldAt, hev]

/-- A valid record. -/
theorem add (hs : st₀.nv.slot a = .dirLog d) (h0 : d.ino ≠ 0)
    (hinv : st₀.nv.invalid a = 0) (hlen : 0 < d.name.length)
    (hfree : heldAt st₀.nv X (bkdrHash d.name) = none) : (novaReplayAddDentry st dir a d).1 = 0 ∧
      ReplayedAt st₀ (novaReplayAddDentry st dir a d).2 dir (X ++ [a]) := by
  have hget : (st.info dir).tree.get (bkdrHash d.name) = none := (h.tree _).trans hfree
  have hadd : novaReplayAddDentry st dir a d
      = (0, setTree st dir ((st.info dir).tree.set (bkdrHash d.name) a)) := by
    unfold novaReplayAddDentry novaInsertDirRadixTree
    rw [if_neg (by omega)]
    simp only [hget]
  rw [hadd]
  refine ⟨rfl, h.nv, h.data, h.alloc, ?_, ?_⟩
  · intro j hj
    simp only [setTree, State.setInfo, update_of_ne hj]
    exact h.others j hj
  intro i
  simp only [setTree, State.setInfo, update_self]
  by_cases hi : i = bkdrHash d.name
  · have hev : nameEvent st₀.nv i a = some (some a) :=
      nameEvent_of_validAt ⟨d, hs, h0, hinv, hi.symm⟩
    rw [hi, ← hi]
    simp [heldAt, hev]
  have hev : nameEvent st₀.nv i a = none := by simp [nameEvent, hs, Ne.symm hi]
  rw [Radix.get_set_of_ne _ _ hi, h.tree i]
  simp [heldAt, hev]

end ReplayedAt

-- === the link count

/-- The link count an entry logs. -/
def linksEvent (nv : Nvmm) (a : Nat) : Option Nat :=
  match nv.slot a with
  | .dirLog d => some d.linksCount
  | .linkChange e => some e.links
  | _ => none

/-- The link count of a record is taken over. -/
theorem links_novaRebuildDirTimeAndSize (st : State al) (dir : Nat) (d : Dentry) :
    ((novaRebuildDirTimeAndSize st dir d).nv.record dir).links = d.linksCount := by
  simp [novaRebuildDirTimeAndSize, setRecord]

-- === the walk

/-- The result, as far as the loop has come. -/
def RetOk (nv : Nvmm) (X : List Nat) (ret : Option Int) : Prop :=
  ret = some 0 ∨ (ret = none ∧ ∀ x ∈ X, ¬ IsRecord nv x)

/-- One record is replayed. -/
theorem replayDentry_spec {d : Dentry} {ret : Option Int} (hL : Replayable U st₀.nv (X ++ a :: Y))
    (h : ReplayedAt st₀ st dir X) (hret : RetOk st₀.nv X ret) (hs : st₀.nv.slot a = .dirLog d) :
    (replayDentry st dir a d ret).1 = some 0 ∧
      ReplayedAt st₀ (replayDentry st dir a d ret).2 dir (X ++ [a]) := by
  have hok := hL.ok a (by simp)
  rw [hs] at hok
  unfold replayDentry
  by_cases h0 : d.ino > 0
  · rw [if_pos h0, h.invalid]
    by_cases hinv : st₀.nv.invalid a = 0
    · rw [if_pos hinv]
      have hv : ValidAt st₀.nv (bkdrHash d.name) a := ⟨d, hs, by omega, hinv, rfl⟩
      obtain ⟨hzero, hadd⟩ := h.add hs (by omega) hinv hok.1 (hL.free X a Y _ rfl hv)
      exact ⟨by simp only [hzero], hadd⟩
    rw [if_neg hinv]
    have hnot : ∀ i, ¬ ValidAt st₀.nv i a := by
      rintro i ⟨d', -, -, hv, -⟩
      exact hinv hv
    refine ⟨?_, h.skip fun i => by simp [nameEvent, hs, hinv, show d.ino ≠ 0 by omega]⟩
    rcases hret with hret | ⟨-, hnone⟩
    · exact hret
    -- the record of "." comes first
    obtain ⟨f, hf, hv, hfirst⟩ := hL.first
    rcases mem_append.1 hf with hfX | hfY
    · exact absurd hv.isRecord (hnone f hfX)
    rcases mem_cons.1 hfY with rfl | hfY
    · exact absurd hv (hnot _)
    · have hpair := (pairwise_append.1 hfirst).2.1
      exact absurd ⟨d, hs⟩ ((pairwise_cons.1 hpair).1 f hfY rfl)
  rw [if_neg h0]
  have hz : d.ino = 0 := by omega
  exact ⟨rfl, h.remove hs hz⟩

/-- The loop replays the log. -/
theorem rebuildDirLoop_walk {t e : Nat} : ∀ (Y : List Nat) {X : List Nat} {c rounds : Nat}
    {st : State al} {ret : Option Int}, Replayable U st₀.nv (X ++ Y) →
    ReplayedAt st₀ st dir X → RetOk st₀.nv X ret → st₀.nv.logTail dir = t →
    WalkTo st₀.nv t c Y e → e = t → Y.length < rounds →
    ∃ st', rebuildDirLoop dir rounds st c ret = some (st', t, false) ∧
      ReplayedAt st₀ st' dir (X ++ Y) ∧
      (st'.info dir).logPages = (st.info dir).logPages + jumps st₀.nv c Y ∧
      (st'.nv.record dir).links
        = (lastEvent (linksEvent st₀.nv) Y).getD (st.nv.record dir).links := by
  intro Y
  induction Y with
  | nil =>
    intro X c rounds st ret _ h _ htail hwalk he hr
    have hec : e = c := hwalk
    obtain ⟨n, rfl⟩ := Nat.exists_eq_add_of_lt hr
    refine ⟨st, ?_, by rw [append_nil]; exact h, rfl, rfl⟩
    rw [rebuildDirLoop, if_pos]
    · rw [← hec, he]
    · rw [h.logTail, htail, ← hec, he]
  | cons a Y ih =>
    intro X c rounds st ret hL h hret htail hwalk he hr
    obtain ⟨hct, hc0, ha, ha0, hsize, hpage, hrest⟩ := hwalk
    obtain ⟨n, rfl⟩ := Nat.exists_eq_add_of_lt hr
    have hgo : gotoNextPage st.nv c = gotoNextPage st₀.nv c := by simp [gotoNextPage, h.slot]
    rw [rebuildDirLoop, if_neg (by rw [h.logTail, htail]; exact hct), if_neg hc0]
    simp only [hgo]
    generalize hst1 : (if gotoNextPage st₀.nv c = true then
      st.setInfo dir { st.info dir with
        logPages := (st.info dir).logPages + 1 } else st) = st1
    have h1 : ReplayedAt st₀ st1 dir X := by
      rw [← hst1]
      split
      · exact h.setInfo rfl
      · exact h
    have hpages1 : (st1.info dir).logPages = (st.info dir).logPages
        + if gotoNextPage st₀.nv c then 1 else 0 := by
      rw [← hst1]
      split
      · simp [State.setInfo]
      · rfl
    have hlinks1 : (st1.nv.record dir).links = (st.nv.record dir).links := by
      rw [← hst1]
      split
      · rfl
      · rfl
    have hcurr : (if gotoNextPage st₀.nv c = true then nextLogPage st1.nv c else c) = a := by
      rw [ha, land]
      simp [nextLogPage, h1.next]
    have hlt : Y.length < (a :: Y).length + n := by
      rw [length_cons]
      omega
    have hL' : Replayable U st₀.nv ((X ++ [a]) ++ Y) := by
      rw [append_assoc]
      exact hL
    have happ : X ++ a :: Y = (X ++ [a]) ++ Y := by simp
    have hok := hL.ok a (by simp)
    rw [hcurr, if_neg ha0, h1.slot]
    -- the rest of the log
    have hgoOn : ∀ {st2 : State al} {ret' : Option Int},
        ReplayedAt st₀ st2 dir (X ++ [a]) → RetOk st₀.nv (X ++ [a]) ret' →
        (st2.info dir).logPages = (st1.info dir).logPages → (st2.nv.record dir).links
          = (linksEvent st₀.nv a).getD (st1.nv.record dir).links →
        ∃ st', rebuildDirLoop dir ((a :: Y).length + n) st2
            (a + (st₀.nv.slot a).size) ret' = some (st', t, false) ∧
          ReplayedAt st₀ st' dir (X ++ a :: Y) ∧ (st'.info dir).logPages
            = (st.info dir).logPages + jumps st₀.nv c (a :: Y) ∧ (st'.nv.record dir).links
            = (lastEvent (linksEvent st₀.nv) (a :: Y)).getD
              (st.nv.record dir).links := by
      intro st2 ret' h2 hret' hpages2 hlinks2
      obtain ⟨st', hrun, h', hpages', hlinks'⟩ := ih hL' h2 hret' htail hrest he hlt
      refine ⟨st', hrun, by rw [happ]; exact h', ?_, ?_⟩
      · simp only [jumps]
        omega
      rw [hlinks', hlinks2, hlinks1]
      simp only [lastEvent]
      cases lastEvent (linksEvent st₀.nv) Y with
      | none => rfl
      | some n => rfl
    have hkeep : ∀ {ret' : Option Int}, ¬ IsRecord st₀.nv a → RetOk st₀.nv X ret' →
        RetOk st₀.nv (X ++ [a]) ret' := by
      intro ret' hnot hret'
      rcases hret' with hret' | ⟨hret', hX⟩
      · exact .inl hret'
      refine .inr ⟨hret', ?_⟩
      intro x hx
      rcases mem_append.1 hx with hx | hx
      · exact hX x hx
      · rw [mem_singleton.1 hx]
        exact hnot
    cases hs : st₀.nv.slot a with
    | setAttr e' =>
      have hmode : isReg e'.mode = false := by
        rw [hs] at hok
        exact hok
      have hnot : ¬ IsRecord st₀.nv a := by
        rintro ⟨d, hd⟩
        rw [hs] at hd
        cases hd
      rw [hs] at hgoOn
      refine hgoOn ?_ (hkeep hnot hret) ?_ ?_
      · exact (h1.setattr hs hmode).setInfo rfl
      · simp [novaApplySetattrEntry, ReplayedAt.cutTree_eq hmode, setRecord, State.setInfo]
      · simp [linksEvent, hs, novaApplySetattrEntry, ReplayedAt.cutTree_eq hmode,
          setRecord, State.setInfo]
    | linkChange e' =>
      have hnot : ¬ IsRecord st₀.nv a := by
        rintro ⟨d, hd⟩
        rw [hs] at hd
        cases hd
      rw [hs] at hgoOn
      refine hgoOn ?_ (hkeep hnot hret) ?_ ?_
      · exact (h1.linkChange hs).setInfo rfl
      · simp [novaApplyLinkChangeEntry, setRecord, State.setInfo]
      · simp [linksEvent, hs, novaApplyLinkChangeEntry, setRecord, State.setInfo]
    | dirLog d =>
      obtain ⟨hzero, h2⟩ := replayDentry_spec hL h1 hret hs
      simp only [hzero, ne_eq, not_true_eq_false, if_false]
      rw [hs] at hgoOn
      apply hgoOn
      · exact h2.setRecord h2.recordMode
      · exact .inl rfl
      · show ((replayDentry st1 dir a d ret).2.info dir).logPages = _
        unfold replayDentry novaReplayAddDentry novaReplayRemoveDentry
          novaInsertDirRadixTree novaRemoveDirRadixTree
        simp only [if_true]
        split
        · split
          · split
            · rfl
            · split
              · rfl
              · simp [setTree, State.setInfo]
          · rfl
        · simp [setTree, State.setInfo]
      · rw [links_novaRebuildDirTimeAndSize]
        simp [linksEvent, hs]
    | _ =>
      rw [hs] at hok
      cases hok

/-- The rebuilt link count is the last logged. -/
theorem rebuildDir_links {F : List Page} {T : Page} {rest : List Nat}
    (h : Readable st.nv al.numBlocks dir F T rest) (hlog : Replayable U st.nv (entsOf F ++ T.ents))
    (hmode : isReg (st.nv.record dir).attrs.mode = false)
    (hempty : (st.info dir).tree.get = fun _ => none) :
    ∃ st', novaRebuildDirInodeTree st dir = some (st', false) ∧
      ReplayedAt st st' dir (entsOf F ++ T.ents) ∧
      (st'.info dir).logPages = F.length + 1 + rest.length ∧
      (st'.nv.record dir).links = (lastEvent (linksEvent st.nv)
        (entsOf F ++ T.ents)).getD (st.nv.record dir).links := by
  have hhead := h.logHead_ne_zero
  have h0 : ReplayedAt st (st.setInfo dir { st.info dir with logPages := 1 }) dir [] := by
    refine ⟨⟨st.nv.record dir, by simp [State.setInfo], hmode⟩, rfl, rfl, ?_, ?_⟩
    · intro j hj
      simp [State.setInfo, hj]
    · intro i
      simp [State.setInfo, hempty, heldAt]
  have hwalk := h.log.walk h.used
  rw [← h.tail] at hwalk
  rw [← h.head] at hwalk
  obtain ⟨st1, hloop, h1, hpages1, hlinks1⟩ := rebuildDirLoop_walk (entsOf F ++ T.ents)
    (by rw [nil_append]; exact hlog) h0 (.inr ⟨rfl, by simp⟩) rfl hwalk rfl
    (ents_lt_walkLimit h.log h.onDevice)
  rw [h.head, jumps_pages F h.log.full h.log.last h.used] at hpages1
  let st2 := st1.setInfo dir
    { st1.info dir with sihSize := (st1.nv.record dir).iSize }
  have h2 : ReplayedAt st st2 dir _ := h1.setInfo rfl
  refine ⟨st2.setInfo dir { st2.info dir with logPages := (st2.info dir).logPages + rest.length },
    ?_, h2.setInfo rfl, ?_, hlinks1⟩
  · have hcount2 : countPages st2.nv (pageLimit al)
        (blockOff (st.nv.logTail dir)) (st2.info dir).logPages
        = some ((st2.info dir).logPages + rest.length) := h.count h2.next _
    simp only [novaRebuildDirInodeTree, if_neg hhead, Option.bind_eq_bind, hloop, Option.bind_some]
    rw [hcount2]
    rfl
  · simp only [st2, State.setInfo, update_self] at hpages1 ⊢
    omega

end Themis.Dir
