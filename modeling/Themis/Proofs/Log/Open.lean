/-
The log of an inode while entries are appended to it, without its pages:
the committed entries `L`, the entries `P` written behind the tail, and
the position where the next one goes.

`LogAt.append` is one entry more. It may have collected the log, so the
committed entries are others afterwards; `Grown` says how the two lists
belong together and what else can have changed. `LogAt.commit` is the
update of the tail.
-/
import Themis.Proofs.Log.Extend

namespace Themis.Log

open Lib List Function

variable {al : BlockAllocator} {st st' : State al} {ino m cur : Nat}
  {L P pages : List Nat}
variable {T : Page} {rest : List Nat} {A B : List Page} {a : Nat}
variable {st1 st2 : State al} {p : Nat} {e : LogEntry}

/-- A log that holds the committed entries `L` and behind them `P`. The
pages `B`, sealed since the tail was moved, had no room for an entry of
size `m`. -/
structure Filled (st : State al) (ino m : Nat) (L P pages : List Nat)
    (A B : List Page) (T : Page) (rest C : List Nat) : Prop where
  log : LogInv st ino A B T rest
  used : T.ents ≠ []
  split : entsOf B ++ T.ents = C ++ P
  committed : L = entsOf A ++ C
  pages : pages = basesOf A ++ tailPages B T rest
  clean : P = [] → B = []
  tight : ∀ w ∈ B, w.base + LAST_ENTRY < w.stop + m
  onTail : ∀ a ∈ C, blockOff a = blockOff (st.nv.logTail ino)

/-- The log of an inode holds the committed entries `L` and the further
entries `P`, none longer than `m`; the next entry goes to `cur`, and
`pages` are its pages. -/
def LogAt (st : State al) (ino m cur : Nat) (L P pages : List Nat) : Prop :=
  (EmptyLog st ino ∧ cur = 0 ∧ L = [] ∧ P = [] ∧ pages = []) ∨
  ∃ A B T rest C, cur = T.stop ∧ Filled st ino m L P pages A B T rest C

/-- Entries in front of the tail page were moved, the others stay. -/
def FrontMoved (st st' : State al) (ino : Nat) (L : List Nat)
    (kept : List (Nat × Nat)) : Prop :=
  ∃ F C front, L = F ++ C ∧ kept = front ++ stay C ∧
    SetattrFollows st st' ino F front ∧
    (∀ a ∈ F, blockOff a ≠ blockOff (st.nv.logTail ino)) ∧
    (∀ a ∈ C, blockOff a = blockOff (st.nv.logTail ino)) ∧
    (L ≠ [] → st'.nv.logTail ino = st.nv.logTail ino) ∧
    ∀ q ∈ front, blockOff q.2 ≠ blockOff (st'.nv.logTail ino)

/-- What one more entry `e` at `p` leaves. -/
structure Grown (st st' : State al) (ino : Nat) (L P pages : List Nat)
    (p : Nat) (e : LogEntry) (L' pages' : List Nat) (kept : List (Nat × Nat)) :
    Prop where
  moves : Moves st st' ino L kept
  ents : L' = kept.map Prod.snd
  pending : ∀ q ∈ P, st'.nv.slot q = st.nv.slot q ∧
    st'.nv.invalid q = st.nv.invalid q
  entry : st'.nv.slot p = e
  slot : ∀ a, st.InUse (a / PAGE_SIZE) → blockOff a ∉ pages →
    st'.nv.slot a = st.nv.slot a
  invalid : ∀ a, st.InUse (a / PAGE_SIZE) → blockOff a ∉ pages →
    st'.nv.invalid a = st.nv.invalid a
  next : ∀ b, IsPage b → st.InUse (b / PAGE_SIZE) → b ∉ pages →
    st'.nv.next b = st.nv.next b
  logHead : ∀ j, j ≠ ino → st'.nv.logHead j = st.nv.logHead j
  logTail : ∀ j, j ≠ ino → st'.nv.logTail j = st.nv.logTail j
  record : st'.nv.record = st.nv.record
  data : st'.data = st.data
  others : ∀ j, j ≠ ino → st'.info j = st.info j
  sihSize : (st'.info ino).sihSize = (st.info ino).sihSize
  iSize : (st'.info ino).iSize = (st.info ino).iSize
  attrs : (st'.info ino).attrs = (st.info ino).attrs
  inUse : ∀ x, st.InUse x → x * PAGE_SIZE ∉ pages → st'.InUse x
  fresh : ∀ b ∈ pages', b ∈ pages ∨ ¬ st.InUse (b / PAGE_SIZE)
  setattr : FrontMoved st st' ino L kept

-- === the entries

/-- No entry twice. -/
theorem OpenLog.nodup_ents {nv : Nvmm} {F : List Page} (h : OpenLog nv F T rest) :
    (entsOf F ++ T.ents).Nodup := by
  have hpages : ∀ w ∈ F ++ [T], w.Holds nv := by
    intro w hw
    rcases mem_append.1 hw with hw | hw
    · exact (h.full w hw).toHolds
    · rw [mem_singleton.1 hw]
      exact h.last
  have hall : (entsOf (F ++ [T])).Nodup := by
    apply nodup_entsOf hpages
    · have hn := h.nodup
      rw [show basesOf F ++ T.base :: rest = (basesOf F ++ [T.base]) ++ rest by simp] at hn
      have := (nodup_append.1 hn).1
      simpa using this
  simpa using hall

/-- Entries lie on pages of the log. -/
theorem OpenLog.blockOff_ent {nv : Nvmm} {F : List Page} {T : Page}
    {rest : List Nat} (h : OpenLog nv F T rest) {a : Nat}
    (ha : a ∈ entsOf F ++ T.ents) : blockOff a ∈ basesOf F ++ T.base :: rest := by
  rcases mem_append.1 ha with ha | ha
  · obtain ⟨w, hw, haw⟩ := mem_entsOf.1 ha
    rw [(h.full w hw).toHolds.blockOff_ent haw]
    exact mem_append_left _ (mem_basesOf.2 ⟨w, hw, rfl⟩)
  · rw [h.last.blockOff_ent ha]
    simp

namespace LogAt

section

variable (h : LogAt st ino m cur L P pages)
include h

/-- No entry twice. -/
theorem nodup : (L ++ P).Nodup := by
  rcases h with ⟨-, -, rfl, rfl, -⟩ | ⟨A, B, T, rest, C, -, h⟩
  · exact nodup_nil
  have hn := h.log.log.nodup_ents
  rw [entsOf_append, append_assoc, h.split, ← append_assoc, ← h.committed] at hn
  exact hn

/-- The pages are in use. -/
theorem inUse : ∀ p ∈ pages, st.InUse (p / PAGE_SIZE) := by
  rcases h with ⟨-, -, -, -, rfl⟩ | ⟨A, B, T, rest, C, -, h⟩
  · simp
  · rw [h.pages]
    exact h.log.inUse

/-- All of them are pages. -/
theorem isPage : ∀ p ∈ pages, IsPage p := by
  rcases h with ⟨-, -, -, -, rfl⟩ | ⟨A, B, T, rest, C, -, h⟩
  · simp
  · rw [h.pages]
    exact fun p hp => h.log.isPage hp

/-- Entries lie on the pages. -/
theorem blockOff_mem {a : Nat} (ha : a ∈ L ++ P) : blockOff a ∈ pages := by
  rcases h with ⟨-, -, rfl, rfl, -⟩ | ⟨A, B, T, rest, C, -, h⟩
  · cases ha
  rw [h.pages, ← LogInv.pages_eq]
  apply h.log.log.blockOff_ent
  rw [entsOf_append, append_assoc, h.split, ← append_assoc, ← h.committed]
  exact ha

/-- There are not more pages than counted. -/
theorem count : pages.length ≤ (st.info ino).logPages := by
  rcases h with ⟨-, -, -, -, rfl⟩ | ⟨A, B, T, rest, C, -, h⟩
  · exact Nat.zero_le _
  · rw [h.pages]
    exact h.log.count

/-- The same log with another count. -/
theorem recount (hslot : st'.nv.slot = st.nv.slot) (hnext : st'.nv.next = st.nv.next)
    (hhead : st'.nv.logHead ino = st.nv.logHead ino)
    (htail : st'.nv.logTail ino = st.nv.logTail ino) (huse : ∀ p ∈ pages, st'.InUse (p / PAGE_SIZE))
    (hcount : pages.length ≤ (st'.info ino).logPages) : LogAt st' ino m cur L P pages := by
  rcases h with ⟨⟨h1, h2⟩, hrest⟩ | ⟨A, B, T, rest, C, hcur, h⟩
  · exact .inl ⟨⟨hhead.trans h1, htail.trans h2⟩, hrest⟩
  refine .inr ⟨A, B, T, rest, C, hcur, ?_, h.used, h.split, h.committed,
    h.pages, h.clean, h.tight, by rw [htail]; exact h.onTail⟩
  rw [h.pages] at huse hcount
  refine ⟨?_, hhead.trans h.log.head, ?_, huse, h.log.onDevice, hcount⟩
  · apply h.log.log.congr
    · intro p _
      rw [hnext]
    · intro w _ a _
      rw [hslot]
    · intro a _
      rw [hslot]
  · rw [htail]
    exact h.log.tail

/-- The same log. -/
theorem congr (hslot : st'.nv.slot = st.nv.slot) (hnext : st'.nv.next = st.nv.next)
    (hhead : st'.nv.logHead ino = st.nv.logHead ino)
    (htail : st'.nv.logTail ino = st.nv.logTail ino) (huse : ∀ p ∈ pages, st'.InUse (p / PAGE_SIZE))
    (hpages : (st'.info ino).logPages = (st.info ino).logPages) :
    LogAt st' ino m cur L P pages := by
  apply h.recount hslot hnext hhead htail huse
  rw [hpages]
  exact h.count

end

/-- Without pending entries the size does not matter. -/
theorem retune (h : LogAt st ino m cur L [] pages) (n : Nat) : LogAt st ino n cur L [] pages := by
  rcases h with h | ⟨A, B, T, rest, C, hcur, h⟩
  · exact .inl h
  refine .inr ⟨A, B, T, rest, C, hcur, h.log, h.used, h.split, h.committed,
    h.pages, h.clean, ?_, h.onTail⟩
  rw [h.clean rfl]
  simp

/-- The pending entries are committed. -/
theorem commit (h : LogAt st ino m cur L P pages) (hcur : cur ≠ 0)
    (hslot : st'.nv.slot = st.nv.slot) (hnext : st'.nv.next = st.nv.next)
    (hhead : st'.nv.logHead = st.nv.logHead)
    (htail : st'.nv.logTail ino = cur) (halloc : st'.alloc = st.alloc)
    (hpages : (st'.info ino).logPages = (st.info ino).logPages) :
    LogAt st' ino m cur (L ++ P) [] pages := by
  rcases h with ⟨-, h0, -⟩ | ⟨A, B, T, rest, C, hc, h⟩
  · exact absurd h0 hcur
  rw [hc] at htail
  refine .inr ⟨A ++ B, [], T, rest, T.ents, hc,
    h.log.commit hslot hnext hhead htail halloc hpages, h.used, by simp, ?_, ?_,
    fun _ => rfl, by simp, ?_⟩
  · rw [h.committed, entsOf_append, append_assoc, ← h.split, append_assoc]
  · rw [h.pages]
    simp [tailPages]
  · intro a ha
    rw [htail, h.log.log.last.blockOff_stop, h.log.log.last.blockOff_ent ha]

end LogAt

-- === one entry

section

variable (h : LogInv st ino A B T rest)
include h

/-- Entries from the tail page on are not touched by a collection. -/
theorem LogInv.behind (ha : a ∈ entsOf B ++ T.ents) :
    a ≠ T.stop ∧ st.InUse (a / PAGE_SIZE) ∧ blockOff a ∉ basesOf A := by
  have hoff : blockOff a ∈ tailPages B T rest := by
    rcases mem_append.1 ha with ha | ha
    · obtain ⟨w, hw, haw⟩ := mem_entsOf.1 ha
      rw [(h.log.full w (mem_append_right _ hw)).toHolds.blockOff_ent haw]
      exact mem_append_left _ (mem_basesOf.2 ⟨w, hw, rfl⟩)
    · rw [h.log.last.blockOff_ent ha]
      simp [tailPages]
  refine ⟨h.log.stop_notMem a ?_, ?_, ?_⟩
  · rw [entsOf_append, append_assoc]
    exact mem_append_right _ ha
  · have := h.inUse _ (mem_append_right _ hoff)
    rwa [show blockOff a / PAGE_SIZE = a / PAGE_SIZE by
      simp only [blockOff, PAGE_SIZE]; omega] at this
  intro hA
  have hnd := h.nodup
  rw [nodup_append] at hnd
  exact hnd.2.2 _ hA _ hoff rfl

/-- Entries in front of the tail page. -/
theorem LogInv.front_off (ha : a ∈ entsOf A) : blockOff a ≠ blockOff (st.nv.logTail ino) := by
  obtain ⟨w, hw, haw⟩ := mem_entsOf.1 ha
  have hA : blockOff a ∈ basesOf A := by
    rw [(h.log.full w (mem_append_left _ hw)).toHolds.blockOff_ent haw]
    exact mem_basesOf.2 ⟨w, hw, rfl⟩
  intro heq
  have hnd := h.nodup
  rw [nodup_append] at hnd
  obtain ⟨b, M, hpages⟩ := exists_cons_of_ne_nil (tailPages_ne_nil B T rest)
  apply hnd.2.2 _ hA b _ _
  · rw [hpages]
    exact mem_cons_self
  · rw [heq, h.tail, hpages]
    rfl

/-- They end in front of it too. -/
theorem LogInv.end_off (ha : a ∈ entsOf A) :
    blockOff (a + (st.nv.slot a).size) ≠ blockOff (st.nv.logTail ino) := by
  obtain ⟨w, hw, haw⟩ := mem_entsOf.1 ha
  have hS := (h.full hw).toHolds
  obtain ⟨h1, -, h3, -⟩ := hS.seg.mem haw
  have hoff : blockOff (a + (st.nv.slot a).size) = w.base := by
    apply blockOff_eq hS.isPage (by omega)
    simp only [LAST_ENTRY, PAGE_SIZE] at *
    omega
  rw [hoff, h.tail]
  exact h.base_ne_tail hw

/-- An append leaves one more entry. -/
theorem AppendedAt.grown {C : List Nat} {A' B' : List Page} {T' : Page} {rest' : List Nat}
    {kept : List (Nat × Nat)} (hC : entsOf B ++ T.ents = C ++ P)
    (honTail : ∀ a ∈ C, blockOff a = blockOff (st.nv.logTail ino))
    (hat : AppendedAt st st1 ino A B T rest e.size p A' B' T' rest' kept) (hs : SlotOnly p st1 st2)
    (he : st2.nv.slot p = e) :
    Grown st st2 ino (entsOf A ++ C) P (basesOf A ++ tailPages B T rest) p e
      (entsOf A' ++ C) (basesOf A' ++ tailPages B' T' rest') (kept ++ stay C) := by
  have hp' : ∀ a ∈ entsOf (A' ++ B') ++ T'.ents, a ≠ p := by
    rw [← hat.stop]
    exact hat.log.log.stop_notMem
  have hentsC : ∀ a ∈ C ++ P, a ≠ p := by
    intro a ha
    apply hp'
    rw [entsOf_append, append_assoc, hat.ents, hC]
    exact mem_append_right _ ha
  have hslotC : ∀ a ∈ C ++ P, st2.nv.slot a = st.nv.slot a ∧
      st2.nv.invalid a = st.nv.invalid a := by
    intro a ha
    obtain ⟨h1, h2, h3⟩ := h.behind (by rw [hC]; exact ha)
    rw [hs.slot a (hentsC a ha), hs.invalid a (hentsC a ha)]
    exact ⟨hat.changed.slot a h1 h2 h3, hat.changed.invalid a h1 h2 h3⟩
  have hfst : (kept ++ stay C).map Prod.fst = kept.map Prod.fst ++ C := by simp
  -- a page of the log or a page that was not in use
  have hpageOf : ∀ a, st.InUse (a / PAGE_SIZE) → blockOff a ∉ basesOf A ++ tailPages B T rest →
      a ≠ T.stop ∧ a ≠ p ∧ blockOff a ∉ basesOf A := by
    intro a hau hpg
    rw [mem_append, not_or] at hpg
    refine ⟨?_, ?_, hpg.1⟩
    · intro heq
      apply hpg.2
      rw [heq, h.log.last.blockOff_stop]
      simp [tailPages]
    intro heq
    have hoff : blockOff a = T'.base := by
      rw [heq, ← hat.stop]
      exact hat.log.log.last.blockOff_stop
    have hmem : T'.base ∈ basesOf A' ++ tailPages B' T' rest' := by simp [tailPages]
    rcases hat.fresh T'.base hmem with hin | hnot
    · rw [← hoff] at hin
      rcases mem_append.1 hin with h1 | h1
      · exact hpg.1 h1
      · exact hpg.2 h1
    rw [← hoff] at hnot
    apply hnot
    rwa [show blockOff a / PAGE_SIZE = a / PAGE_SIZE by simp only [blockOff, PAGE_SIZE]; omega]
  have htail : st2.nv.logTail ino = st.nv.logTail ino := by rw [hs.logTail, hat.changed.logTail]
  have ho := hat.changed.owner.trans (hs.owner ino)
  refine ⟨⟨?_, ?_, ?_, ?_, ?_⟩, ?_, ?_, he, ?_, ?_, ?_, ho.logHead, ?_, ho.record, ho.data,
    ho.others, ho.sihSize, ho.iSize, ho.attrs, ?_, ?_, ?_⟩
  · rw [hfst]
    exact hat.changed.moves.sub.append (List.Sublist.refl C)
  · intro q hq
    rcases mem_append.1 hq with hq | hq
    · obtain ⟨h1, h2⟩ := hat.changed.moves.same q hq
      have hne : q.2 ≠ p := by
        apply hp'
        rw [entsOf_append, hat.changed.ents]
        simp only [mem_append]
        exact .inl (.inl (List.mem_map.2 ⟨q, hq, rfl⟩))
      rw [hs.slot _ hne, hs.invalid _ hne]
      exact ⟨h1, h2⟩
    · obtain ⟨a, ha, rfl⟩ := List.mem_map.1 hq
      exact hslotC a (mem_append_left _ ha)
  · intro a ha hnot
    rw [hfst, mem_append, not_or] at hnot
    rcases mem_append.1 ha with ha | ha
    · exact hat.changed.moves.dropped a ha hnot.1
    · exact absurd ha hnot.2
  · intro i
    rw [hs.info, hat.changed.moves.tree i]
    cases hget : (st.info ino).tree.get i with
    | none => rfl
    | some a =>
      simp only [Option.map_some, Option.some.injEq]
      -- what follows the moved entries stays
      have happ : ∀ (k : List (Nat × Nat)), reloc k a = reloc (k ++ stay C) a := by
        intro k
        induction k with
        | nil =>
          rw [nil_append, reloc_stay]
          rfl
        | cons q k ih =>
          simp only [cons_append, reloc, ih]
      exact happ kept
  · apply hat.changed.moves.pair.append_stay
    intro q hq c hc heq
    have hqA := hat.changed.moves.sub.subset (List.mem_map.2 ⟨q, hq, rfl⟩)
    exact h.end_off hqA (by rw [heq]; exact honTail c hc)
  · rw [map_append, stay_snd, hat.changed.ents]
  · intro q hq
    exact hslotC q (mem_append_right _ hq)
  · intro a hau hpg
    obtain ⟨h1, h2, h3⟩ := hpageOf a hau hpg
    rw [hs.slot a h2]
    exact hat.changed.slot a h1 hau h3
  · intro a hau hpg
    obtain ⟨h1, h2, h3⟩ := hpageOf a hau hpg
    rw [hs.invalid a h2]
    exact hat.changed.invalid a h1 hau h3
  · intro b hb hbu hpg
    rw [mem_append, not_or] at hpg
    rw [hs.next]
    apply hat.changed.next b hb hbu hpg.1
    intro heq
    apply hpg.2
    rw [heq]
    simp [tailPages]
  · intro j hj
    rw [hs.logTail, hat.changed.logTail]
  · intro x hx hpg
    rw [mem_append, not_or] at hpg
    exact (hs.inUse x).2 (hat.changed.inUse x hx hpg.1)
  · exact hat.fresh
  refine ⟨entsOf A, C, kept, rfl, rfl, ?_, fun a ha => h.front_off ha, honTail, fun _ => htail, ?_⟩
  · exact hat.changed.setattr.congr hs.info
  intro q hq
  have hq' : q.2 ∈ entsOf A' := by
    rw [hat.changed.ents]
    exact List.mem_map.2 ⟨q, hq, rfl⟩
  rw [hs.logTail]
  exact hat.log.front_off hq'

end

/-- One more entry in any log. -/
theorem LogAt.append {ext : Bool} (hm : e.size ≤ m) (h : LogAt st ino m cur L P pages)
    (hkeys : KeysOk st.nv (st.info ino).tree)
    (htree : ∀ i a, (st.info ino).tree.get i = some a → a ∈ L ++ P) (hsize : 32 ≤ e.size)
    (hlast : e.size ≤ LAST_ENTRY) (hres : appendHeadWith (novaExtendInodeLog ino) st cur e.size
      = some (p, ext, st1)) (hp : p ≠ 0) (hs : SlotOnly p st1 st2) (he : st2.nv.slot p = e) :
    ∃ L' pages' kept, LogAt st2 ino m (p + e.size) L' (P ++ [p]) pages' ∧
      Grown st st2 ino L P pages p e L' pages' kept := by
  rcases h with ⟨-, rfl, rfl, rfl, rfl⟩ | ⟨A, B, T, rest, C, rfl, h⟩
  · have hstart := appendHead_empty hlast hres hp
    refine ⟨[], [p], [], ?_, ?_⟩
    · have hpush := hstart.log.push hs he hsize (Nat.add_le_add_left hlast p)
      exact .inr ⟨[], [], ⟨p, [p], p + e.size⟩, [], [], rfl, hpush, by simp,
        rfl, rfl, rfl, fun _ => rfl, by simp, by simp⟩
    have hp0 : ∀ a, blockOff a ∉ ([] : List Nat) → st.InUse (a / PAGE_SIZE) → a ≠ p := by
      intro a _ hau heq
      exact hstart.fresh (heq ▸ hau)
    have hsame : OwnerOnly ino st st1 := ((OwnerOnly.refl ino st).setInfo
      { st.info ino with logPages := 1 } ⟨rfl, rfl, rfl⟩).of_info hstart.logHead hstart.record hstart.data hstart.info
    have ho := hsame.trans (hs.owner ino)
    refine ⟨⟨by simp, by simp, by simp, ?_, FirstPair.nil _⟩, rfl, by simp, he, ?_, ?_, ?_,
      ho.logHead, ?_, ho.record, ho.data, ho.others, ho.sihSize, ho.iSize, ho.attrs, ?_, ?_, ?_⟩
    · intro i
      rw [hs.info, hstart.info]
      simp only [update_self]
      cases hget : (st.info ino).tree.get i with
      | none => rfl
      | some a => cases htree i a hget
    · intro a hau hpg
      rw [hs.slot a (hp0 a hpg hau), hstart.slot]
    · intro a hau hpg
      rw [hs.invalid a (hp0 a hpg hau), hstart.invalid]
    · intro b hb hbu hpg
      rw [hs.next]
      apply hstart.next
      exact fun heq => hstart.fresh (heq ▸ hbu)
    · intro j hj
      rw [hs.logTail]
      exact hstart.logTail j hj
    · intro x hx _
      exact (hs.inUse x).2 ((hstart.inUse x).2 (.inl hx))
    · intro b hb
      rw [mem_singleton] at hb
      rw [hb]
      exact .inr hstart.fresh
    refine ⟨[], [], [], rfl, rfl, ?_, by simp, by simp, by simp, by simp⟩
    show SetattrFollows st st2 ino [] (stay [])
    apply SetattrFollows.of_stay
    · rw [hs.info, hstart.info, update_self]
    · intro hin
      cases hin
  · obtain ⟨h, hne, hC, rfl, rfl, hclean, htight, honTail⟩ := h
    have hmark : ∀ i a, (st.info ino).tree.get i = some a → a ≠ T.stop := by
      intro i a ha
      apply h.log.stop_notMem
      rw [entsOf_append, append_assoc, hC, ← append_assoc]
      exact htree i a ha
    obtain ⟨A', B', T', rest', kept, hat⟩ := appendHead_spec h hkeys hmark hlast hres hp
    have hfit : T'.stop + e.size ≤ T'.base + LAST_ENTRY := by
      rw [hat.stop]
      exact hat.fits
    have hs' : SlotOnly T'.stop st1 st2 := by
      rw [hat.stop]
      exact hs
    have he' : st2.nv.slot T'.stop = e := by
      rw [hat.stop]
      exact he
    have hpush := hat.log.push hs' he' hsize hfit
    refine ⟨entsOf A' ++ C, basesOf A' ++ tailPages B' T' rest', kept ++ stay C,
      .inr ⟨A', B', _, rest', C, ?_, hpush, by simp, ?_, rfl, rfl, by simp, ?_, ?_⟩,
      hat.grown h hC honTail hs he⟩
    · simp only [hat.stop]
    · simp only [hat.stop]
      rw [← append_assoc, hat.ents, hC, append_assoc]
    · intro w hw
      rcases hat.tight w hw with hB | hlt
      · exact htight w hB
      · omega
    · rw [hs.logTail, hat.changed.logTail]
      exact honTail

end Themis.Log
