/-
`nova_reassign_file_tree`: the entries of a write, once committed, are
walked and mapped one after another.

# The walk

It steps by the length of a write entry and needs no next-page mark:
between two entries of one write a page was left only because the next
entry did not fit (`Filled.tight`).

# What is mapped

The entries stand for adjacent runs of pages (`Chained`), and their
blocks are held and apart (`Apart`). Each entry mapped gives back the
blocks its pages had.
-/
import Themis.Proofs.File.Extent

namespace Themis.File

open Lib Log List

variable {al : BlockAllocator} {st st' : State al} {ino size : Nat}
  {L P pages : List Nat} {R : Nat → Prop}

-- === the walk

/-- The walk of the reassigning loop, by entries of 40 bytes. -/
def WalkBy (nv : Nvmm) (t : Nat) : Nat → List Nat → Prop
  | c, [] => c = t
  | c, a :: P =>
    c ≠ t ∧ (if isLastEntry c 40 then nextLogPage nv c else c) = a ∧ a ≠ 0 ∧
      WalkBy nv t (a + 40) P

section walk

variable {nv : Nvmm} {t b c e : Nat}

/-- The walk depends on the links. -/
theorem WalkBy.congr {nv' : Nvmm} (h : WalkBy nv t c P)
    (hn : nv'.next = nv.next) : WalkBy nv' t c P := by
  induction P generalizing c with
  | nil => exact h
  | cons a P ih =>
    obtain ⟨h1, h2, h3, h4⟩ := h
    refine ⟨h1, ?_, h3, ih h4⟩
    simp only [nextLogPage, hn]
    exact h2

/-- A walk over a segment. -/
theorem walkBy_seg {M : List Nat} (hb : IsPage b) (hbc : b ≤ c)
    (h : Seg nv b c P e) (h40 : ∀ a ∈ P, (nv.slot a).size = 40)
    (ht : t < c ∨ e ≤ t) (h' : WalkBy nv t e M) : WalkBy nv t c (P ++ M) := by
  induction P generalizing c with
  | nil =>
    have hec : e = c := h
    rw [← hec]
    exact h'
  | cons a P ih =>
    obtain ⟨rfl, hsize, hfit, hrest⟩ := h
    have ha := h40 a mem_cons_self
    rw [ha] at hfit hrest
    have hle := hrest.le
    have hpos := hb.2
    have hloc : entryLoc a = a - b := by
      apply entryLoc_eq hb hbc
      simp only [LAST_ENTRY, PAGE_SIZE] at *
      omega
    have hlast : isLastEntry a 40 = false := by
      simp only [isLastEntry, hloc, decide_eq_false_iff_not]
      omega
    refine ⟨by omega, by simp [hlast], by omega, ?_⟩
    exact ih (by omega) hrest
      (fun x hx => h40 x (mem_cons_of_mem _ hx)) (by omega)

/-- A walk that begins at the end of a page. -/
theorem walkBy_jump {w : Page} (hw : w.Holds nv)
    (htight : w.base + LAST_ENTRY < w.stop + 40) (ht : w.stop ≠ t)
    {a : Nat} {M : List Nat} (hnext : nv.next w.base = a)
    (h : WalkBy nv t a (a :: M)) : WalkBy nv t w.stop (a :: M) := by
  obtain ⟨-, -, ha, hrest⟩ := h
  have hlast : isLastEntry w.stop 40 = true := by
    simp only [isLastEntry, hw.entryLoc_stop, decide_eq_true_eq]
    omega
  refine ⟨ht, ?_, ha, hrest⟩
  simp only [hlast, if_true, nextLogPage, hw.blockOff_stop]
  exact hnext

/-- The first entry stands at the first page. -/
theorem head_ents {F : List Page} {T : Page} (hF : ∀ w ∈ F, w.Sealed nv)
    (hT : T.Holds nv) (hne : T.ents ≠ []) :
    ∃ M, entsOf F ++ T.ents = (basesOf F ++ [T.base]).headD 0 :: M := by
  have hfirst : ∀ w : Page, w.Holds nv → w.ents ≠ [] → ∃ M, w.ents = w.base :: M := by
    intro w hw hne
    obtain ⟨a, M, hents⟩ := exists_cons_of_ne_nil hne
    have hseg := hw.seg
    rw [hents] at hseg
    rw [hents, hseg.1]
    exact ⟨M, rfl⟩
  cases F with
  | nil =>
    obtain ⟨M, hM⟩ := hfirst T hT hne
    exact ⟨M, by simpa using hM⟩
  | cons w F =>
    have hw := hF w mem_cons_self
    obtain ⟨M, hM⟩ := hfirst w hw.toHolds hw.nonempty
    exact ⟨M ++ (entsOf F ++ T.ents), by simp [hM]⟩

/-- A walk over pages. -/
theorem walkBy_pages : ∀ (B : List Page) {T : Page} {C : List Nat} {z a : Nat}
    {M : List Nat}, Linked nv.next (basesOf B ++ [T.base]) z →
    (basesOf B ++ [T.base]).Nodup → (∀ w ∈ B, w.Sealed nv) →
    (∀ w ∈ B, w.base + LAST_ENTRY < w.stop + 40) → T.Holds nv → T.ents ≠ [] →
    entsOf B ++ T.ents = C ++ a :: M →
    (∀ x ∈ a :: M, (nv.slot x).size = 40) → WalkBy nv T.stop a (a :: M) := by
  intro B
  induction B with
  | nil =>
    intro T C z a M _ _ _ _ hT _ hC h40
    have hseg := hT.seg
    rw [entsOf_nil, nil_append] at hC
    rw [hC, Seg.append_iff] at hseg
    obtain ⟨d, hd, hseg⟩ := hseg
    have hda : a = d := hseg.1
    subst hda
    have := walkBy_seg (M := []) hT.isPage hd.le hseg h40 (.inr le_rfl) rfl
    simpa using this
  | cons w B ih =>
    intro T C z a M hchain hnd hF htight hT hne hC h40
    have hw := hF w mem_cons_self
    have hF' : ∀ x ∈ B, x.Sealed nv := fun x hx => hF x (mem_cons_of_mem _ hx)
    have hnext : nv.next w.base = (basesOf B ++ [T.base]).headD 0 := by
      have h1 := hchain.1
      cases B with
      | nil => simpa using h1
      | cons x B => simpa using h1
    rw [basesOf_cons, cons_append, nodup_cons] at hnd
    have hout : T.base ≠ w.base := by
      intro heq
      apply hnd.1
      rw [← heq]
      simp
    have hstop : blockOff T.stop ≠ w.base := by
      rw [hT.blockOff_stop]
      exact hout
    have hwt : w.stop ≠ T.stop := by
      intro heq
      apply hstop
      rw [← heq]
      exact hw.toHolds.blockOff_stop
    rw [entsOf_cons, append_assoc] at hC
    rcases append_eq_append_iff.1 hC with ⟨C', hC', hrest⟩ | ⟨P1, hw1, hrest⟩
    · -- all entries of the page are in front
      exact ih hchain.2 hnd.2 hF'
        (fun x hx => htight x (mem_cons_of_mem _ hx)) hT hne hrest h40
    obtain ⟨M', hM'⟩ := head_ents hF' hT hne
    -- the pages behind this one
    have hbehind : WalkBy nv T.stop ((basesOf B ++ [T.base]).headD 0)
        (entsOf B ++ T.ents) := by
      rw [hM']
      apply ih hchain.2 hnd.2 hF'
        (fun x hx => htight x (mem_cons_of_mem _ hx)) hT hne
        (C := []) hM'
      intro x hx
      apply h40
      rw [hrest, hM']
      exact mem_append_right _ hx
    have hjump : WalkBy nv T.stop w.stop (entsOf B ++ T.ents) := by
      rw [hM'] at hbehind ⊢
      exact walkBy_jump hw.toHolds (htight w mem_cons_self) hwt hnext hbehind
    cases P1 with
    | nil =>
      rw [hrest]
      rw [hM'] at hrest hbehind
      obtain ⟨rfl, -⟩ := List.cons.inj hrest
      rw [hM']
      exact hbehind
    | cons a' P1 =>
      obtain ⟨rfl, -⟩ := List.cons.inj hrest
      have hseg := hw.seg
      rw [hw1, Seg.append_iff] at hseg
      obtain ⟨d, hd, hseg⟩ := hseg
      have hda : a = d := hseg.1
      subst hda
      rw [hrest]
      apply walkBy_seg hw.isPage hd.le hseg _ _ hjump
      · intro x hx
        apply h40
        rw [hrest]
        exact mem_append_left _ hx
      by_contra hcon
      have hle := hw.toHolds.stop_le
      have hbase := hd.le
      apply hstop
      apply blockOff_eq hw.isPage (by omega)
      simp only [LAST_ENTRY, PAGE_SIZE] at *
      omega

end walk

/-- The entries written behind the committed ones can be walked by their
length, and there are not too many of them. -/
theorem walkBy_pending {cur a : Nat} {M : List Nat} (h : LogAt st ino 40 cur L (a :: M) pages)
    (h40 : ∀ x ∈ a :: M, (st.nv.slot x).size = 40) :
    WalkBy st.nv cur a (a :: M) ∧ (a :: M).length < walkLimit al := by
  rcases h with ⟨-, -, -, hnil, -⟩ | ⟨A, B, T, rest, C, rfl, h⟩
  · cases hnil
  have hlog := h.log.log
  have hall : Linked st.nv.next (basesOf A ++ ((basesOf B ++ [T.base]) ++ rest)) 0 := by
    simpa using hlog.chain
  have hchain := (Linked.append_iff.1 (Linked.append_iff.1 hall).2).1
  have hnd : (basesOf B ++ [T.base]).Nodup := by
    have hn : (basesOf A ++ ((basesOf B ++ [T.base]) ++ rest)).Nodup := by simpa using hlog.nodup
    exact (nodup_append.1 (nodup_append.1 hn).2.1).1
  refine ⟨walkBy_pages B hchain hnd
    (fun w hw => hlog.full w (mem_append_right _ hw)) h.tight hlog.last
    h.used h.split h40, ?_⟩
  have hlt := ents_lt_walkLimit hlog (by
    intro p hp
    apply h.log.onDevice
    rw [← LogInv.pages_eq]
    exact hp)
  have hlen := congrArg length h.split
  simp only [entsOf_append, length_append, length_cons] at hlt hlen ⊢
  omega

-- === the mapping

/-- A block of an entry. -/
def InRun (nv : Nvmm) (a x : Nat) : Prop :=
  (entryAt nv a).block ≤ x ∧ x < (entryAt nv a).block + (entryAt nv a).numPages

/-- A block of a pending entry. -/
def Held (nv : Nvmm) (P : List Nat) (x : Nat) : Prop := ∃ a ∈ P, InRun nv a x

/-- Pending entries have different blocks. -/
def Apart (nv : Nvmm) (P : List Nat) : Prop :=
  P.Pairwise fun a b => ∀ x, InRun nv a x → ¬ InRun nv b x

/-- The entries are unused write entries for adjacent runs of pages, from
page `f` to page `f'`; the sizes they carry grow from `s` to `s'`. -/
def Chained (nv : Nvmm) : Nat → Nat → List Nat → Nat → Nat → Prop
  | f, s, [], f', s' => f' = f ∧ s' = s
  | f, s, a :: P, f', s' =>
    ∃ e, nv.slot a = .fileWrite e ∧ nv.invalid a = 0 ∧ e.pgoff = f ∧
      0 < e.numPages ∧ f + e.numPages ≤ pagesFor e.size ∧ s ≤ e.size ∧
      Chained nv (f + e.numPages) e.size P f' s'

section chained

variable {nv nv' : Nvmm} {f s f' s' : Nat}

variable (h : Chained nv f s P f' s')
include h

/-- Only the entries matter. -/
theorem Chained.congr (hslot : ∀ a ∈ P, nv'.slot a = nv.slot a)
    (hinv : ∀ a ∈ P, nv'.invalid a = nv.invalid a) : Chained nv' f s P f' s' := by
  induction P generalizing f s with
  | nil => exact h
  | cons a P ih =>
    obtain ⟨e, he, h1, h2, h3, h4, h5, h6⟩ := h
    have ha : a ∈ a :: P := mem_cons_self
    refine ⟨e, by rw [hslot a ha]; exact he, by rw [hinv a ha]; exact h1, h2, h3,
      h4, h5, ih h6 ?_ ?_⟩
    · exact fun b hb => hslot b (mem_cons_of_mem _ hb)
    · exact fun b hb => hinv b (mem_cons_of_mem _ hb)

/-- Pages and size go up. -/
theorem Chained.le : f ≤ f' ∧ s ≤ s' := by
  induction P generalizing f s with
  | nil =>
    obtain ⟨rfl, rfl⟩ := h
    exact ⟨le_rfl, le_rfl⟩
  | cons a P ih =>
    obtain ⟨e, -, -, -, -, -, hs, hrest⟩ := h
    obtain ⟨h1, h2⟩ := ih hrest
    omega

/-- One more extent. -/
theorem Chained.snoc {p : Nat} {e : FileWriteEntry}
    (he : nv.slot p = .fileWrite e) (hinv : nv.invalid p = 0) (hpg : e.pgoff = f')
    (hnum : 0 < e.numPages) (hfit : f' + e.numPages ≤ pagesFor e.size) (hsize : s' ≤ e.size) :
    Chained nv f s (P ++ [p]) (f' + e.numPages) e.size := by
  induction P generalizing f s with
  | nil =>
    obtain ⟨rfl, rfl⟩ := h
    exact ⟨e, he, hinv, hpg, hnum, hfit, hsize, rfl, rfl⟩
  | cons a P ih =>
    obtain ⟨e', he', h1, h2, h3, h4, h5, h6⟩ := h
    exact ⟨e', he', h1, h2, h3, h4, h5, ih h6⟩

/-- All are write entries with nothing lost. -/
theorem Chained.fileWrite {a : Nat} (ha : a ∈ P) :
    nv.slot a = .fileWrite (entryAt nv a) ∧ nv.invalid a = 0 := by
  induction P generalizing f s with
  | nil => cases ha
  | cons b P ih =>
    obtain ⟨e, he, hinv, -, -, -, -, hrest⟩ := h
    rcases mem_cons.1 ha with rfl | ha
    · simp [entryAt, he, hinv]
    · exact ih hrest ha

end chained

/-- The held blocks, said otherwise. -/
theorem FileInv.held_congr {R' : Nat → Prop} (h : FileInv st ino L pages size R)
    (hR : ∀ x, R' x ↔ R x) : FileInv st ino L pages size R' := by
  have heq : R' = R := funext fun x => propext (hR x)
  rw [heq]
  exact h

/-- What mapping the entries `P` leaves. -/
structure Mapped (st st' : State al) (ino : Nat) (L P pages : List Nat)
    (f f' size : Nat) : Prop where
  file : FileInv st' ino (L ++ P) pages size fun _ => False
  only : TreeOnly ino st st'
  inUse : ∀ x, LogBlock pages x → st.InUse x → st'.InUse x
  inside : ∀ i, f ≤ i → i < f' → ∃ a ∈ P, (entryAt st.nv a).pgoff ≤ i ∧
    i < (entryAt st.nv a).pgoff + (entryAt st.nv a).numPages ∧
    pageMap st' ino i
      = some ((entryAt st.nv a).block + i - (entryAt st.nv a).pgoff)
  outside : ∀ i, ¬ (f ≤ i ∧ i < f') → pageMap st' ino i = pageMap st ino i

/-- The entries `P` are committed behind those of `L`, but not mapped yet:
their blocks are in hand. -/
structure Waiting (st : State al) (ino : Nat) (L P pages : List Nat) : Prop where
  base : PagesInv st ino L pages (Held st.nv P)
  apart : Apart st.nv P
  new : ∀ a ∈ P, st.nv.slot a = .fileWrite (entryAt st.nv a) ∧ st.nv.invalid a = 0
  nodup : (L ++ P).Nodup

/-- One pending entry is assigned. -/
theorem Waiting.assign {p : Nat} (h : Waiting st ino L (p :: P) pages) :
    let st1 := novaAssignWriteEntry st ino p true
    let e := entryAt st.nv p
    Waiting st1 ino (L ++ [p]) P pages ∧ Assigned st st1 ino p e.pgoff e.numPages ∧
      (∀ i, pageMap st1 ino i = if e.pgoff ≤ i ∧ i < e.pgoff + e.numPages
        then some (e.block + i - e.pgoff) else pageMap st ino i) ∧
      ∀ x, LogBlock pages x → st.InUse x → st1.InUse x := by
  obtain ⟨he, hinv⟩ := h.new p mem_cons_self
  have hnd := h.nodup
  rw [nodup_append] at hnd
  have hpL : p ∉ L := fun hp => hnd.2.2 p hp p mem_cons_self rfl
  have hheld : ∀ k, k < (entryAt st.nv p).numPages →
      Held st.nv (p :: P) ((entryAt st.nv p).block + k) := by
    intro k hk
    refine ⟨p, mem_cons_self, ?_⟩
    simp only [InRun]
    omega
  obtain ⟨hbase, hass, hmap, hkeep, huse⟩ := h.base.assign hpL he hinv hheld
  refine ⟨?_, hass, hmap, huse⟩
  have honly := hass.only
  generalize novaAssignWriteEntry st ino p true = st1 at *
  obtain ⟨hap1, hapP⟩ := pairwise_cons.1 h.apart
  have hrun : ∀ a x, InRun st1.nv a x ↔ InRun st.nv a x := by
    intro a x
    simp only [InRun, honly.entryAt]
  refine ⟨?_, ?_, ?_, by simpa using h.nodup⟩
  · -- the blocks of the other entries are still in hand
    apply hbase.held_congr
    intro x
    simp only [Held, hrun, mem_cons, exists_eq_or_imp]
    constructor
    · intro hx
      obtain ⟨a, ha, hax⟩ := hx
      exact ⟨.inr ⟨a, ha, hax⟩, fun hp => hap1 a ha x hp hax⟩
    intro hx
    obtain ⟨hx | hx, hnot⟩ := hx
    · exact absurd hx hnot
    · exact hx
  · apply hapP.imp
    intro a b hab x
    rw [hrun, hrun]
    exact hab x
  intro a ha
  have hout : ∀ i, (st.info ino).tree.get i ≠ some a := fun i hi =>
    hnd.2.2 a (h.base.member i a hi) a (mem_cons_of_mem _ ha) rfl
  rw [honly.slot, honly.entryAt, hkeep a hout]
  exact h.new a (mem_cons_of_mem _ ha)

/-- All pending entries are assigned. -/
theorem assign_all {f s f' s' : Nat} (hw : Waiting st ino L P pages)
    (h : Replayable st.nv.slot (st.info ino).tree.get s (st.nv.record ino).iSize L)
    (hc : Chained st.nv f s P f' s') :
    Mapped st (P.foldl (fun st a => novaAssignWriteEntry st ino a true) st) ino L P
      pages f f' s' := by
  induction P generalizing st L f s with
  | nil =>
    obtain ⟨rfl, rfl⟩ := hc
    refine ⟨?_, TreeOnly.refl _ _, fun _ _ hu => hu, fun i h1 h2 => by omega, fun _ _ => rfl⟩
    have hbase : PagesInv st ino L pages fun _ => False := hw.base.held_congr (by simp [Held])
    rw [append_nil]
    exact ⟨h, hbase.counted, hbase.owned⟩
  | cons p P ih =>
    obtain ⟨e, he, hinv, hpg, hnum, hfit, hsize, hrest⟩ := hc
    have hentry : entryAt st.nv p = e := by simp [entryAt, he]
    have hpL : p ∉ L := by
      have hn := hw.nodup
      rw [nodup_append] at hn
      exact fun hp => hn.2.2 p hp p mem_cons_self rfl
    obtain ⟨hw1, hass, hmap, huse⟩ := hw.assign
    rw [hentry] at hass hmap
    have honly := hass.only
    rw [foldl_cons]
    generalize novaAssignWriteEntry st ino p true = st1 at *
    have h₁ : Replayable st1.nv.slot (st1.info ino).tree.get e.size
        (st1.nv.record ino).iSize (L ++ [p]) := by
      rw [honly.slot, honly.record]
      exact h.write hpL he (by rw [he]; exact ⟨hnum, by omega⟩) hsize hass.tree
    have hc1 : Chained st1.nv (f + e.numPages) e.size P f' s' :=
      hrest.congr (fun a _ => by rw [honly.slot]) fun a ha => by
        rw [(hw1.new a ha).2, (hw.new a (mem_cons_of_mem _ ha)).2]
    obtain ⟨hf', honly', huse', hin, hout⟩ := ih hw1 h₁ hc1
    have hle := hrest.le.1
    refine ⟨by simpa using hf', honly.trans honly', ?_, ?_, ?_⟩
    · exact fun x hx hu => huse' x hx (huse x hx hu)
    · intro i h1 h2
      by_cases hi : i < f + e.numPages
      · refine ⟨p, mem_cons_self, by rw [hentry]; omega, by rw [hentry]; omega, ?_⟩
        rw [hout i (by omega), hmap i, if_pos (by omega), hentry]
      obtain ⟨a, ha, h3, h4, h5⟩ := hin i (by omega) h2
      rw [honly.entryAt] at h3 h4 h5
      exact ⟨a, mem_cons_of_mem _ ha, h3, h4, h5⟩
    · intro i hi
      rw [hout i (by omega), hmap i, if_neg (by omega)]

/-- Assigning touches the tree and counters. -/
theorem assignLoop_only (ino a : Nat) (free : Bool) : ∀ (num : Nat) (st : State al)
    (pgoff : Nat), TreeOnly ino st (assignLoop ino a free num st pgoff) := by
  intro num
  induction num with
  | zero =>
    intro st pgoff
    exact TreeOnly.refl ino st
  | succ num ih =>
    intro st pgoff
    exact (assignPage_only ino a free st pgoff).trans (ih _ _)

/-- The loop assigns the entries of the walk. -/
theorem reassignLoop_eq : ∀ (P : List Nat) {st : State al} {c rounds : Nat},
    WalkBy st.nv (st.nv.logTail ino) c P → P.length < rounds →
    (∀ a ∈ P, ∃ e, st.nv.slot a = .fileWrite e) → reassignLoop ino rounds st c
      = some (0, P.foldl (fun st a => novaAssignWriteEntry st ino a true) st) := by
  intro P
  induction P with
  | nil =>
    intro st c rounds hwalk hlt _
    obtain ⟨rounds, rfl⟩ := Nat.exists_eq_add_of_lt hlt
    have hc : c = st.nv.logTail ino := hwalk
    rw [length_nil, reassignLoop, if_pos hc]
    rfl
  | cons a P ih =>
    intro st c rounds hwalk hlt hfw
    cases rounds with
    | zero => exact absurd hlt (by simp)
    | succ rounds =>
      obtain ⟨hct, hland, ha0, hrest⟩ := hwalk
      obtain ⟨e, he⟩ := hfw a mem_cons_self
      have honly := assignLoop_only ino a true (entryAt st.nv a).numPages st
        (entryAt st.nv a).pgoff
      have hnext : reassignLoop ino rounds (novaAssignWriteEntry st ino a true)
          (a + 40) = _ := ih (by
            rw [novaAssignWriteEntry, honly.logTail]
            exact hrest.congr honly.next)
          (by simp only [length_cons] at hlt; omega)
          (by
            intro b hb
            rw [novaAssignWriteEntry, honly.slot]
            exact hfw b (mem_cons_of_mem _ hb))
      rw [reassignLoop, if_neg hct]
      simp only [hland, if_neg ha0, he, hnext, foldl_cons]

end Themis.File
