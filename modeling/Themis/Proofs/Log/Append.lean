/-
Appending to an open log: seal a page, move on to the next one, link new
pages behind the last one, put an entry at the cursor.

The three ways through `nova_get_append_head` (the entry fits, the next
page is there already, more pages are needed) are one lemma each;
`appendOne_spare` puts them together for the log the thorough collector
builds.
-/
import Themis.Proofs.Log.Validity

namespace Themis.Log

open Lib List Option Function

variable {al : BlockAllocator}
variable {st st' : State al} {p : Nat}

-- === frames

/-- Only pages in `P` (and the allocator and DRAM) differ. -/
structure Within (P : Nat → Prop) (st st' : State al) : Prop where
  slot : ∀ a, ¬ P (blockOff a) → st'.nv.slot a = st.nv.slot a
  invalid : ∀ a, ¬ P (blockOff a) → st'.nv.invalid a = st.nv.invalid a
  next : ∀ b, ¬ P b → st'.nv.next b = st.nv.next b
  logHead : st'.nv.logHead = st.nv.logHead
  logTail : st'.nv.logTail = st.nv.logTail
  record : st'.nv.record = st.nv.record
  data : st'.data = st.data

namespace Within

variable {P Q : Nat → Prop} {st st' st'' : State al}

/-- Nothing was done. -/
theorem refl (st : State al) : Within P st st :=
  ⟨fun _ _ => rfl, fun _ _ => rfl, fun _ _ => rfl, rfl, rfl, rfl, rfl⟩

/-- One after the other. -/
theorem trans (h : Within P st st') (h' : Within P st' st'') : Within P st st'' where
  slot a ha := (h'.slot a ha).trans (h.slot a ha)
  invalid a ha := (h'.invalid a ha).trans (h.invalid a ha)
  next b hb := (h'.next b hb).trans (h.next b hb)
  logHead := h'.logHead.trans h.logHead
  logTail := h'.logTail.trans h.logTail
  record := h'.record.trans h.record
  data := h'.data.trans h.data

/-- More pages. -/
theorem mono (h : Within P st st') (hPQ : ∀ b, P b → Q b) : Within Q st st' where
  slot a ha := h.slot a fun hp => ha (hPQ _ hp)
  invalid a ha := h.invalid a fun hp => ha (hPQ _ hp)
  next b hb := h.next b fun hp => hb (hPQ _ hp)
  logHead := h.logHead
  logTail := h.logTail
  record := h.record
  data := h.data

end Within

/-- Links of pages are within the pages. -/
theorem LinksOnly.within {N : List Nat} (h : LinksOnly N st st') : Within (· ∈ N) st st' where
  slot a _ := by rw [h.slot]
  invalid a _ := by rw [h.invalid]
  next := h.next
  logHead := h.logHead
  logTail := h.logTail
  record := h.record
  data := h.data

/-- Only the slot at `p` differs. -/
structure SlotOnly (p : Nat) (st st' : State al) : Prop where
  slot : ∀ a, a ≠ p → st'.nv.slot a = st.nv.slot a
  invalid : ∀ a, a ≠ p → st'.nv.invalid a = st.nv.invalid a
  next : st'.nv.next = st.nv.next
  logHead : st'.nv.logHead = st.nv.logHead
  logTail : st'.nv.logTail = st.nv.logTail
  record : st'.nv.record = st.nv.record
  data : st'.data = st.data
  alloc : st'.alloc = st.alloc
  info : st'.info = st.info

/-- Besides log pages only the inode itself changes, and neither its sizes
nor its attributes. -/
structure OwnerOnly (ino : Nat) (st st' : State al) : Prop where
  logHead : ∀ j, j ≠ ino → st'.nv.logHead j = st.nv.logHead j
  record : st'.nv.record = st.nv.record
  data : st'.data = st.data
  others : ∀ j, j ≠ ino → st'.info j = st.info j
  sihSize : (st'.info ino).sihSize = (st.info ino).sihSize
  iSize : (st'.info ino).iSize = (st.info ino).iSize
  attrs : (st'.info ino).attrs = (st.info ino).attrs

namespace OwnerOnly

variable {ino : Nat} {st1 : State al}

/-- Nothing was done. -/
theorem refl (ino : Nat) (st : State al) : OwnerOnly ino st st :=
  ⟨fun _ _ => rfl, rfl, rfl, fun _ _ => rfl, rfl, rfl, rfl⟩

variable (h : OwnerOnly ino st st1)
include h

/-- One after the other. -/
theorem trans (h' : OwnerOnly ino st1 st') : OwnerOnly ino st st' where
  logHead j hj := (h'.logHead j hj).trans (h.logHead j hj)
  record := h'.record.trans h.record
  data := h'.data.trans h.data
  others j hj := (h'.others j hj).trans (h.others j hj)
  sihSize := h'.sihSize.trans h.sihSize
  iSize := h'.iSize.trans h.iSize
  attrs := h'.attrs.trans h.attrs

/-- The inodes are as they were. -/
theorem of_info (hhead : ∀ j, j ≠ ino → st'.nv.logHead j = st.nv.logHead j)
    (hrecord : st'.nv.record = st.nv.record) (hdata : st'.data = st.data)
    (hinfo : st'.info = st1.info) : OwnerOnly ino st st' := by
  refine ⟨hhead, hrecord, hdata, ?_, ?_, ?_, ?_⟩
  all_goals rw [hinfo]
  · exact h.others
  · exact h.sihSize
  · exact h.iSize
  · exact h.attrs

/-- The header of the inode changes, but not its sizes. -/
theorem setInfo (sih : InodeInfo)
    (hs : sih.sihSize = (st1.info ino).sihSize ∧ sih.iSize = (st1.info ino).iSize ∧
      sih.attrs = (st1.info ino).attrs) : OwnerOnly ino st (st1.setInfo ino sih) := by
  apply h.trans
  refine ⟨fun _ _ => rfl, rfl, rfl, ?_, ?_, ?_, ?_⟩
  · intro j hj
    rw [State.setInfo_info, update_of_ne hj]
  all_goals rw [State.setInfo_info, update_self]
  · exact hs.1
  · exact hs.2.1
  · exact hs.2.2

end OwnerOnly

/-- Links of pages are nobody's sizes. -/
theorem LinksOnly.owner {N : List Nat} (h : LinksOnly N st st') (ino : Nat) : OwnerOnly ino st st' :=
  (OwnerOnly.refl ino st).of_info (fun j _ => congrFun h.logHead j) h.record h.data h.info

/-- A slot is nobody's size. -/
theorem SlotOnly.owner (h : SlotOnly p st st') (ino : Nat) : OwnerOnly ino st st' :=
  (OwnerOnly.refl ino st).of_info (fun j _ => congrFun h.logHead j) h.record h.data h.info

/-- A slot is within its page. -/
theorem SlotOnly.within (h : SlotOnly p st st') : Within (· = blockOff p) st st' where
  slot a ha := h.slot a fun he => ha (congrArg blockOff he)
  invalid a ha := h.invalid a fun he => ha (congrArg blockOff he)
  next b _ := by rw [h.next]
  logHead := h.logHead
  logTail := h.logTail
  record := h.record
  data := h.data

/-- A slot allocates nothing. -/
theorem SlotOnly.inUse (h : SlotOnly p st st') (x : Nat) : st'.InUse x ↔ st.InUse x := by
  rw [State.InUse, h.alloc]
  exact Iff.rfl

/-- A mark is one slot. -/
theorem novaSetNextPageFlag_frame (st : State al) (p : Nat) :
    SlotOnly p st (novaSetNextPageFlag st p) := by
  unfold novaSetNextPageFlag
  split
  · exact ⟨fun _ _ => rfl, fun _ _ => rfl, rfl, rfl, rfl, rfl, rfl, rfl, rfl⟩
  refine ⟨?_, ?_, ?_, ?_, ?_, ?_, ?_, ?_, ?_⟩
  · intro a ha
    simp [Nvmm.apply, ha]
  · intro a ha
    simp [Nvmm.apply]
  all_goals simp [Nvmm.apply]

/-- A mark is set where there is room. -/
theorem novaSetNextPageFlag_mark (st : State al) (p : Nat) :
    LAST_ENTRY ≤ entryLoc p ∨ (novaSetNextPageFlag st p).nv.slot p = .nextPage := by
  unfold novaSetNextPageFlag
  split
  · rename_i h
    exact .inl h
  · right
    simp [Nvmm.apply]

-- === open logs

namespace OpenLog

variable {nv nv' : Nvmm} {F : List Page} {T : Page} {rest : List Nat}

/-- No entry stands at the cursor. -/
theorem stop_notMem (h : OpenLog nv F T rest) : ∀ a ∈ entsOf F ++ T.ents, a ≠ T.stop := by
  intro a ha heq
  rcases mem_append.1 ha with ha | ha
  · obtain ⟨w, hw, haw⟩ := mem_entsOf.1 ha
    have h1 := (h.full w hw).toHolds.blockOff_ent haw
    have h2 := h.last.blockOff_stop
    rw [heq, h2] at h1
    exact h.base_ne hw h1.symm
  · have := h.last.seg.lt_stop ha
    omega

/-- What is stored at the cursor is not part of the log. -/
theorem of_cursor (h : OpenLog nv F T rest) (hn : nv'.next = nv.next)
    (hs : ∀ a, a ≠ T.stop → nv'.slot a = nv.slot a) : OpenLog nv' F T rest := by
  apply h.congr
  · intro p _
    rw [hn]
  · intro w hw a ha
    apply hs
    intro heq
    rw [heq, h.last.blockOff_stop] at ha
    exact h.base_ne hw ha.symm
  intro a ha
  apply hs
  have := h.last.seg.lt_stop ha
  omega

/-- On to the next page. -/
theorem advance {q : Nat} (h : OpenLog nv F T (q :: rest))
    (hT : T.Sealed nv) : OpenLog nv (F ++ [T]) ⟨q, [], q⟩ rest where
  chain := by simpa using h.chain
  nodup := by simpa using h.nodup
  full w hw := by
    rcases mem_append.1 hw with hw | hw
    · exact h.full w hw
    · rw [mem_singleton.1 hw]
      exact hT
  last := ⟨h.spare q mem_cons_self, rfl⟩
  spare p hp := h.spare p (mem_cons_of_mem _ hp)

/-- New pages are linked behind the last one. -/
theorem link {N : List Nat} (h : OpenLog nv F T [])
    (hchain : Linked nv'.next N 0) (hnodup : N.Nodup) (hpages : ∀ p ∈ N, IsPage p)
    (hdisj : ∀ p ∈ basesOf F ++ [T.base], p ∉ N) (hnext : nv'.next T.base = N.headD 0)
    (hlinks : ∀ p ∈ basesOf F, nv'.next p = nv.next p)
    (hs : ∀ a, blockOff a ∈ basesOf F ++ [T.base] → nv'.slot a = nv.slot a) :
    OpenLog nv' F T N where
  chain := by
    have hc := h.chain
    rw [Linked.append_iff] at hc ⊢
    refine ⟨?_, hnext, hchain⟩
    exact hc.1.congr hlinks
  nodup := by
    have hn := h.nodup
    rw [← singleton_append, ← append_assoc, nodup_append]
    refine ⟨by simpa using hn, hnodup, ?_⟩
    intro p hp q hq heq
    rw [← heq] at hq
    exact hdisj p hp hq
  full w hw := by
    apply (h.full w hw).of_page
    intro a ha
    apply hs
    rw [ha]
    exact mem_append_left _ (mem_basesOf.2 ⟨w, hw, rfl⟩)
  last := by
    apply h.last.of_page
    intro a ha
    apply hs
    rw [ha]
    simp
  spare := hpages

/-- An entry is added at the cursor. -/
theorem push {e : LogEntry} (h : OpenLog nv F T rest)
    (hn : nv'.next = nv.next) (hs : ∀ a, a ≠ T.stop → nv'.slot a = nv.slot a)
    (he : nv'.slot T.stop = e) (hsize : 32 ≤ e.size)
    (hfit : T.stop + e.size ≤ T.base + LAST_ENTRY) :
    OpenLog nv' F ⟨T.base, T.ents ++ [T.stop], T.stop + e.size⟩ rest := by
  have h' := h.of_cursor hn hs
  refine ⟨h'.chain, h'.nodup, h'.full, ⟨h'.last.isPage, ?_⟩, h'.spare⟩
  have hseg := h'.last.seg.snoc (by rw [he]; exact hsize) (by rw [he]; exact hfit)
  rw [he] at hseg
  exact hseg

end OpenLog

-- === the append head

section appendHead

variable {st : State al} {F : List Page} {T : Page} {rest : List Nat}
  {extend : State al → Nat → Option (Nat × State al)} {size : Nat}

/-- When an entry does not fit. -/
theorem isLastEntry_stop (hT : T.Holds st.nv) (size : Nat) :
    isLastEntry T.stop size = true ↔ T.base + LAST_ENTRY < T.stop + size := by
  have h1 := hT.base_le_stop
  simp only [isLastEntry, hT.entryLoc_stop, decide_eq_true_eq]
  omega

/-- The entry fits. -/
theorem appendHead_fits (hT : T.Holds st.nv) (hfit : T.stop + size ≤ T.base + LAST_ENTRY) :
    appendHeadWith extend st T.stop size = some (T.stop, false, st) := by
  have hlast : isLastEntry T.stop size = false := by
    rw [← Bool.not_eq_true, isLastEntry_stop hT]
    omega
  have h0 := hT.stop_ne_zero
  simp [appendHeadWith, hlast, h0]

/-- The entry fits behind the tail. -/
theorem novaGetAppendHead_fits {ino tail cur : Nat}
    (hcur : (if tail ≠ 0 then tail else st.nv.logTail ino) = cur) (h0 : cur ≠ 0)
    (hroom : isLastEntry cur size = false) :
    novaGetAppendHead st ino tail size = some (cur, st) := by
  simp [novaGetAppendHead, hcur, appendHeadWith, h0, hroom]

/-- The next page is there already. -/
theorem appendHead_spare {q : Nat} (h : OpenLog st.nv F T (q :: rest))
    (hfit : T.base + LAST_ENTRY < T.stop + size) :
    appendHeadWith extend st T.stop size = some (q, false, novaSetNextPageFlag st T.stop) := by
  have hlast : isLastEntry T.stop size = true := (isLastEntry_stop h.last size).2 hfit
  have h0 := h.last.stop_ne_zero
  have hnext : nextLogPage st.nv T.stop = q := by
    rw [nextLogPage, h.last.blockOff_stop, h.next_last]
    rfl
  have hq : q ≠ 0 := by
    have := (h.spare q mem_cons_self).2
    omega
  have hnext' : nextLogPage (novaSetNextPageFlag st T.stop).nv T.stop = q := by
    rw [nextLogPage, (novaSetNextPageFlag_frame st T.stop).next]
    exact hnext
  simp [appendHeadWith, hlast, h0, hnext, hq, hnext']

/-- A page has to be added. -/
theorem appendHead_extend (h : OpenLog st.nv F T []) (hfit : T.base + LAST_ENTRY < T.stop + size) :
    appendHeadWith extend st T.stop size
      = (extend (novaSetNextPageFlag st T.stop) T.stop).bind fun r =>
          if r.1 = 0 then some (0, true, r.2) else if isLastEntry r.1 size then
            some (nextLogPage (novaSetNextPageFlag r.2 r.1).nv r.1, true,
              novaSetNextPageFlag r.2 r.1) else some (r.1, true, r.2) := by
  have hlast : isLastEntry T.stop size = true := (isLastEntry_stop h.last size).2 hfit
  have hnext : nextLogPage st.nv T.stop = 0 := by
    rw [nextLogPage, h.last.blockOff_stop, h.next_last]
    rfl
  simp only [appendHeadWith, hlast, hnext, and_self, or_true, if_true, bind_eq_bind]
  cases extend (novaSetNextPageFlag st T.stop) T.stop with
  | none => rfl
  | some r => rfl

/-- A page that has no room has entries. -/
theorem ents_ne_nil (hT : T.Holds st.nv) (hsize : size ≤ LAST_ENTRY)
    (hfit : T.base + LAST_ENTRY < T.stop + size) : T.ents ≠ [] := by
  intro hnil
  have hseg := hT.seg
  rw [hnil] at hseg
  have : T.stop = T.base := hseg
  omega

/-- A mark seals the page. -/
theorem sealed_of_flag (hT : T.Holds st.nv) (hne : T.ents ≠ []) :
    T.Sealed (novaSetNextPageFlag st T.stop).nv := by
  have hframe := novaSetNextPageFlag_frame st T.stop
  refine ⟨?_, hne, ?_⟩
  · apply hT.congr
    intro a ha
    apply hframe.slot
    have := hT.seg.lt_stop ha
    omega
  rcases novaSetNextPageFlag_mark st T.stop with h | h
  · left
    rw [hT.entryLoc_stop] at h
    have := hT.base_le_stop
    omega
  · exact .inr h

end appendHead

-- === the log of the collector

/-- What an append to the log under construction leaves: the same
entries, room at the cursor, and `M` the page added, if any. -/
structure AppendedOne (st st' : State al) (F : List Page) (T : Page)
    (rest : List Nat) (size p : Nat) (F' : List Page) (T' : Page)
    (rest' M : List Nat) : Prop where
  log : OpenLog st'.nv F' T' rest'
  stop : T'.stop = p
  fits : p + size ≤ T'.base + LAST_ENTRY
  ents : entsOf F' ++ T'.ents = entsOf F ++ T.ents
  pages : basesOf F' ++ T'.base :: rest' = basesOf F ++ T.base :: rest ++ M
  frame : Within (fun b => b = T.base ∨ b ∈ M) st st'
  slots : ∀ a, a ≠ T.stop → st'.nv.slot a = st.nv.slot a
  invalid : ∀ a, a ≠ T.stop → st'.nv.invalid a = st.nv.invalid a
  info : st'.info = st.info
  fresh : ∀ b ∈ M, ¬ st.InUse (b / PAGE_SIZE)
  onDevice : ∀ b ∈ M, b / PAGE_SIZE < al.numBlocks
  inUse : ∀ x, st'.InUse x ↔ st.InUse x ∨ ∃ b ∈ M, b / PAGE_SIZE = x

/-- One more page, linked behind the cursor's. -/
theorem novaAppendOneLogPage_some {currP : Nat} (hcur : currP ≠ 0)
    (hres : novaAppendOneLogPage st currP = some (p, st')) (hp : p ≠ 0) :
    ∃ newBlock st2, NewPages st st2 [newBlock] ∧ p = currP ∧
      st' = novaSetNextPageAddress st2 (blockOff currP) newBlock true := by
  unfold novaAppendOneLogPage at hres
  cases halloc : novaAllocateInodeLogPages st 1 with
  | mk r st2 =>
    rw [halloc] at hres
    cases r with
    | none =>
      simp only [some.injEq, Prod.mk.injEq] at hres
      exact absurd hres.1.symm hp
    | some nb =>
      obtain ⟨n, newBlock⟩ := nb
      obtain ⟨N, hN, hlen⟩ := novaAllocateInodeLogPages_some halloc
      simp only [] at hres
      split at hres
      · simp only [some.injEq, Prod.mk.injEq] at hres
        exact absurd hres.1.symm hp
      rename_i hn1
      rw [not_not.1 hn1, length_cons, Nat.add_eq_right, length_eq_zero_iff] at hlen
      simp only [some.injEq, Prod.mk.injEq] at hres
      rw [hlen] at hN
      exact ⟨newBlock, st2, hN, hres.1.symm, hres.2.symm⟩

/-- `nova_get_append_head` without an inode, as the thorough collector
calls it: a position behind the entries so far, on the same pages or on
one more, which is only taken when no spare page is left. -/
theorem appendOne_spare {F : List Page} {T : Page} {rest : List Nat} {size : Nat} {ext : Bool}
    (h : OpenLog st.nv F T rest)
    (hown : ∀ b ∈ basesOf F ++ T.base :: rest, st.InUse (b / PAGE_SIZE)) (hsize : size ≤ LAST_ENTRY)
    (hres : appendHeadWith novaAppendOneLogPage st T.stop size = some (p, ext, st')) (hp : p ≠ 0) :
    ∃ F' T' rest' M, AppendedOne st st' F T rest size p F' T' rest' M ∧
      (M.length = if ext then 1 else 0) ∧ (ext = true → rest' = []) ∧ (rest = [] → rest' = []) := by
  by_cases hfit : T.stop + size ≤ T.base + LAST_ENTRY
  · -- the entry fits
    rw [appendHead_fits h.last hfit] at hres
    obtain ⟨rfl, rfl, rfl⟩ := hres
    refine ⟨F, T, rest, [], ⟨h, rfl, hfit, rfl, by simp, Within.refl st,
      fun _ _ => rfl, fun _ _ => rfl, rfl, by simp, by simp, by simp⟩, rfl, by simp, id⟩
  rw [not_le] at hfit
  have hne := ents_ne_nil h.last hsize hfit
  have hmark := novaSetNextPageFlag_frame st T.stop
  have hmarkW : Within (fun b => b = T.base) st
      (novaSetNextPageFlag st T.stop) := by
    have := hmark.within
    rw [h.last.blockOff_stop] at this
    exact this
  have hsealed := sealed_of_flag h.last hne
  cases rest with
  | cons q rest =>
    -- the next page is there
    rw [appendHead_spare h hfit] at hres
    simp only [some.injEq, Prod.mk.injEq] at hres
    obtain ⟨rfl, rfl, rfl⟩ := hres
    have hadv := (h.of_cursor hmark.next hmark.slot).advance hsealed
    refine ⟨F ++ [T], ⟨q, [], q⟩, rest, [], ⟨hadv, rfl, by simp only []; omega, by simp, by simp,
      hmarkW.mono fun b hb => .inl hb, hmark.slot, hmark.invalid,
      hmark.info, by simp, by simp, ?_⟩, rfl, by simp, by simp⟩
    intro x
    rw [hmark.inUse x]
    simp
  | nil =>
    -- one more page
    rw [appendHead_extend h hfit, bind_eq_some_iff] at hres
    obtain ⟨⟨p1, st1⟩, hext, hres⟩ := hres
    have h₀ := h.of_cursor hmark.next hmark.slot
    have hT0 := h.last.stop_ne_zero
    have hp1 : p1 ≠ 0 := by
      intro h0
      simp only [h0, if_true, some.injEq, Prod.mk.injEq] at hres
      exact hp hres.1.symm
    obtain ⟨newBlock, st2, hN, rfl, rfl⟩ := novaAppendOneLogPage_some hT0 hext hp1
    rw [h.last.blockOff_stop] at hres
    have hsetL := LinksOnly.setNext st2 T.base newBlock true
    have hlinks := hN.links.trans hsetL
    -- the page being filled is in use, the new page was not
    have hTnew : ∀ b ∈ basesOf F ++ [T.base], b ≠ newBlock := by
      intro b hb heq
      have huse := hown b hb
      rw [heq] at huse
      exact hN.fresh newBlock mem_cons_self
        ((hmark.inUse _).2 huse)
    have hlog : OpenLog
        (novaSetNextPageAddress st2 T.base newBlock true).nv F T
        [newBlock] := by
      apply h₀.link
      · refine ⟨?_, trivial⟩
        have hc := hN.chain.1
        have hne' : newBlock ≠ T.base := (hTnew T.base (by simp)).symm
        simp only [novaSetNextPageAddress_nv, Nvmm.apply]
        rw [update_of_ne hne']
        exact hc
      · simp
      · exact hN.isPage
      · intro b hb
        simpa using hTnew b hb
      · simp [Nvmm.apply]
      · intro b hb
        apply hlinks.next
        have h1 : b ≠ newBlock := hTnew b (by simp [hb])
        have h2 : b ≠ T.base := by
          obtain ⟨w, hw, rfl⟩ := mem_basesOf.1 hb
          exact h.base_ne hw
        simp [h1, h2]
      · intro a _
        rw [hlinks.slot]
    have hlast : isLastEntry T.stop size = true := (isLastEntry_stop h.last size).2 hfit
    simp only [if_neg hT0, hlast, if_true, some.injEq, Prod.mk.injEq] at hres
    obtain ⟨hpq, rfl, rfl⟩ := hres
    have hmark2 := novaSetNextPageFlag_frame
      (novaSetNextPageAddress st2 T.base newBlock true) T.stop
    have hlog2 := hlog.of_cursor hmark2.next hmark2.slot
    have hsealed3 := sealed_of_flag hlog.last hne
    have hadv := hlog2.advance hsealed3
    have hpnew : newBlock = p := by
      rw [← hpq, nextLogPage, hlog2.last.blockOff_stop, hlog2.next_last]
      rfl
    subst hpnew
    refine ⟨F ++ [T], ⟨newBlock, [], newBlock⟩, [], [newBlock],
      ⟨hadv, rfl, by simp only []; omega, by simp, by simp,
      ?_, ?_, ?_, ?_, ?_, hN.onDevice, ?_⟩, rfl, fun _ => rfl, id⟩
    · have h1 := hmarkW.mono
        (Q := fun b => b = T.base ∨ b ∈ [newBlock])
        fun b hb => .inl hb
      have h2 := hlinks.within.mono
        (Q := fun b => b = T.base ∨ b ∈ [newBlock]) (by
          intro b hb
          simp only [mem_append, mem_singleton] at hb ⊢
          tauto)
      have h3 : Within (fun b => b = T.base ∨ b ∈ [newBlock]) _ _ := hmark2.within.mono (by
          intro b hb
          rw [hlog.last.blockOff_stop] at hb
          exact .inl hb)
      exact (h1.trans h2).trans h3
    · intro a ha
      rw [hmark2.slot a ha, hlinks.slot, hmark.slot a ha]
    · intro a ha
      rw [hmark2.invalid a ha, hlinks.invalid, hmark.invalid a ha]
    · rw [hmark2.info, hlinks.info, hmark.info]
    · intro b hb huse
      exact hN.fresh b hb ((hmark.inUse _).2 huse)
    intro x
    rw [hmark2.inUse, ← hmark.inUse x, ← hN.inUse x, State.InUse]
    exact Iff.rfl

end Themis.Log
