/-
`nova_get_append_head` on the log of an inode: a position behind the
entries so far with room for the new one. On the way the log may have
been extended and collected; `Appended` says what else can have changed.

`LogInv` is then carried over the entry put there (`push`) and over the
update of the tail (`commit`).
-/
import Themis.Proofs.Log.Collect

namespace Themis.Log

open Lib List Option

variable {al : BlockAllocator}
variable {st st' : State al} {ino p : Nat} {A B : List Page} {T : Page}
variable {rest : List Nat} {size : Nat} {ext : Bool}

namespace LogInv

variable {st st' : State al} {ino : Nat} {A B : List Page} {T : Page}
  {rest : List Nat}

/-- What is stored at the cursor is not part of the log. -/
theorem of_cursor (h : LogInv st ino A B T rest) (hs : SlotOnly T.stop st st') :
    LogInv st' ino A B T rest where
  log := h.log.of_cursor hs.next hs.slot
  head := by rw [hs.logHead]; exact h.head
  tail := by rw [hs.logTail]; exact h.tail
  inUse p hp := (hs.inUse _).2 (h.inUse p hp)
  onDevice := h.onDevice
  count := by rw [hs.info]; exact h.count

/-- On to the next page. -/
theorem advance {q : Nat} (h : LogInv st ino A B T (q :: rest))
    (hT : T.Sealed st.nv) : LogInv st ino A (B ++ [T]) ⟨q, [], q⟩ rest := by
  have hpages : tailPages (B ++ [T]) ⟨q, [], q⟩ rest = tailPages B T (q :: rest) := by
    simp [tailPages]
  refine ⟨?_, ?_, ?_, ?_, ?_, ?_⟩
  · rw [← append_assoc]
    exact h.log.advance hT
  all_goals rw [hpages]
  · exact h.head
  · exact h.tail
  · exact h.inUse
  · exact h.onDevice
  · exact h.count

/-- An entry is added. -/
theorem push {e : LogEntry} (h : LogInv st ino A B T rest)
    (hs : SlotOnly T.stop st st') (he : st'.nv.slot T.stop = e)
    (hsize : 32 ≤ e.size) (hfit : T.stop + e.size ≤ T.base + LAST_ENTRY) :
    LogInv st' ino A B ⟨T.base, T.ents ++ [T.stop], T.stop + e.size⟩ rest :=
  ⟨h.log.push hs.next hs.slot he hsize hfit, (h.of_cursor hs).head,
    (h.of_cursor hs).tail, (h.of_cursor hs).inUse, (h.of_cursor hs).onDevice,
    (h.of_cursor hs).count⟩

/-- The tail is moved. -/
theorem commit (h : LogInv st ino A B T rest)
    (hslot : st'.nv.slot = st.nv.slot) (hnext : st'.nv.next = st.nv.next)
    (hhead : st'.nv.logHead = st.nv.logHead)
    (htail : st'.nv.logTail ino = T.stop) (halloc : st'.alloc = st.alloc)
    (hinfo : (st'.info ino).logPages = (st.info ino).logPages) :
    LogInv st' ino (A ++ B) [] T rest := by
  have hpages : basesOf (A ++ B) ++ tailPages [] T rest = basesOf A ++ tailPages B T rest := by
    simp [tailPages]
  refine ⟨?_, ?_, ?_, ?_, ?_, ?_⟩
  · rw [append_nil]
    apply h.log.congr
    · intro p _
      rw [hnext]
    · intro w _ a _
      rw [hslot]
    · intro a _
      rw [hslot]
  · rw [hpages, hhead]
    exact h.head
  · rw [htail, h.log.last.blockOff_stop]
    rfl
  · intro p hp
    rw [hpages] at hp
    rw [State.InUse, halloc]
    exact h.inUse p hp
  · intro p hp
    rw [hpages] at hp
    exact h.onDevice p hp
  · rw [hpages, hinfo]
    exact h.count

end LogInv

/-- What else an append can have changed: the log was collected along
`kept`, the slot at the cursor `c` was marked, the page `t` of the cursor
linked to new pages. -/
structure Appended (st st' : State al) (ino : Nat) (A A' : List Page)
    (c t : Nat) (kept : List (Nat × Nat)) : Prop where
  moves : Moves st st' ino (entsOf A) kept
  ents : entsOf A' = kept.map Prod.snd
  slot : ∀ a, a ≠ c → st.InUse (a / PAGE_SIZE) → blockOff a ∉ basesOf A →
    st'.nv.slot a = st.nv.slot a
  invalid : ∀ a, a ≠ c → st.InUse (a / PAGE_SIZE) → blockOff a ∉ basesOf A →
    st'.nv.invalid a = st.nv.invalid a
  next : ∀ b, IsPage b → st.InUse (b / PAGE_SIZE) → b ∉ basesOf A → b ≠ t →
    st'.nv.next b = st.nv.next b
  logHead : ∀ j, j ≠ ino → st'.nv.logHead j = st.nv.logHead j
  logTail : st'.nv.logTail = st.nv.logTail
  record : st'.nv.record = st.nv.record
  data : st'.data = st.data
  others : ∀ j, j ≠ ino → st'.info j = st.info j
  sihSize : (st'.info ino).sihSize = (st.info ino).sihSize
  iSize : (st'.info ino).iSize = (st.info ino).iSize
  attrs : (st'.info ino).attrs = (st.info ino).attrs
  inUse : ∀ x, st.InUse x → x * PAGE_SIZE ∉ basesOf A → st'.InUse x
  unmoved : (∀ b ∈ basesOf A, b ∈ basesOf A') →
    A' = A ∧ kept = stay (entsOf A)
  setattr : SetattrFollows st st' ino (entsOf A) kept

/-- An append is nobody's size. -/
theorem Appended.owner {c t : Nat} {A' : List Page} {kept : List (Nat × Nat)}
    (h : Appended st st' ino A A' c t kept) : OwnerOnly ino st st' :=
  ⟨h.logHead, h.record, h.data, h.others, h.sihSize, h.iSize, h.attrs⟩

/-- A mark at the cursor. -/
theorem Appended.of_mark {c : Nat} (ino : Nat) (A : List Page) (t : Nat) (h : SlotOnly c st st')
    (hc : ∀ a ∈ entsOf A, a ≠ c) : Appended st st' ino A A c t (stay (entsOf A)) where
  moves := by
    apply Moves.of_drop (List.Sublist.refl _)
    · intro a ha
      exact h.slot a (hc a ha)
    · intro a ha
      exact h.invalid a (hc a ha)
    · intro a ha hna
      exact absurd ha hna
    · rw [h.info]
  ents := by simp
  slot a ha _ _ := h.slot a ha
  invalid a ha _ _ := h.invalid a ha
  next b _ _ _ _ := by rw [h.next]
  __ := h.owner ino
  logTail := h.logTail
  inUse x hx _ := (h.inUse x).2 hx
  unmoved _ := ⟨rfl, rfl⟩
  setattr := SetattrFollows.of_stay (by rw [h.info]) fun hin _ => hin

/-- Nothing was done. -/
theorem SlotOnly.refl (c : Nat) (st : State al) : SlotOnly c st st :=
  ⟨fun _ _ => rfl, fun _ _ => rfl, rfl, rfl, rfl, rfl, rfl, rfl, rfl⟩

/-- The position `nova_get_append_head` gives in a log that is not
empty. -/
structure AppendedAt (st st' : State al) (ino : Nat) (A B : List Page)
    (T : Page) (rest : List Nat) (size p : Nat) (A' B' : List Page) (T' : Page)
    (rest' : List Nat) (kept : List (Nat × Nat)) : Prop where
  log : LogInv st' ino A' B' T' rest'
  changed : Appended st st' ino A A' T.stop T.base kept
  stop : T'.stop = p
  fits : p + size ≤ T'.base + LAST_ENTRY
  ents : entsOf B' ++ T'.ents = entsOf B ++ T.ents
  tight : ∀ w ∈ B', w ∈ B ∨ w.base + LAST_ENTRY < w.stop + size
  fresh : ∀ b ∈ basesOf A' ++ tailPages B' T' rest',
    b ∈ basesOf A ++ tailPages B T rest ∨ ¬ st.InUse (b / PAGE_SIZE)
  -- the page that was being filled still is, or the next one is empty
  shape : (B' = B ∧ T' = T) ∨ T'.ents = []
  behind : ∀ b ∈ tailPages B' T' rest',
    b ∈ tailPages B T rest ∨ ¬ st.InUse (b / PAGE_SIZE)

/-- On a fresh page there is room. -/
theorem isLastEntry_page (hpage : IsPage p) (hsize : size ≤ LAST_ENTRY) :
    isLastEntry p size = false := by
  have hloc : entryLoc p = 0 := hpage.1
  simp only [isLastEntry, hloc, Nat.zero_add, decide_eq_false_iff_not]
  omega

/-- No old entry stands at the cursor. -/
theorem LogInv.cursor_ne (h : LogInv st ino A B T rest) : ∀ a ∈ entsOf A, a ≠ T.stop := by
  intro a ha
  apply h.log.stop_notMem
  simp [ha]

/-- The log is extended. -/
theorem novaExtendInodeLog_spec (h : LogInv st ino A B T [])
    (hkeys : KeysOk st.nv (st.info ino).tree) (hT : T.Sealed st.nv)
    (hres : novaExtendInodeLog ino st T.stop = some (p, st')) (hp : p ≠ 0) :
    ∃ A' N kept, LogInv st' ino A' B T (p :: N) ∧ T.Sealed st'.nv ∧
      Collected st st' ino A A' [T.base] kept ∧ ∀ b ∈ p :: N, ¬ st.InUse (b / PAGE_SIZE) := by
  have hT0 := h.log.last.stop_ne_zero
  unfold novaExtendInodeLog at hres
  rw [if_neg hT0] at hres
  simp only [] at hres
  cases halloc : novaAllocateInodeLogPages st
      (if (st.info ino).logPages ≥ EXTEND_THRESHOLD then EXTEND_THRESHOLD
        else (st.info ino).logPages) with
  | mk r st1 =>
    rw [halloc] at hres
    cases r with
    | none =>
      simp only [some.injEq, Prod.mk.injEq] at hres
      exact absurd hres.1.symm hp
    | some nb =>
      obtain ⟨n, newBlock⟩ := nb
      obtain ⟨N, hN, hlen⟩ := novaAllocateInodeLogPages_some halloc
      simp only [bind_eq_bind, Option.pure_def] at hres
      rw [bind_eq_some_iff] at hres
      obtain ⟨st2, hgc, hres⟩ := hres
      simp only [some.injEq, Prod.mk.injEq] at hres
      obtain ⟨rfl, rfl⟩ := hres
      have hkeep : ∀ x, st.InUse x → st1.InUse x := fun x hx =>
        (hN.inUse x).2 (.inl hx)
      have hlog1 := h.of_unused hN.links hN.fresh hkeep
      have hkeys1 : KeysOk st1.nv (st1.info ino).tree := by
        intro i a ha
        rw [hN.links.info] at ha
        rw [hN.links.slot]
        exact hkeys i a ha
      have hready : Ready st1 (basesOf A ++ tailPages B T [])
          (newBlock :: N) := ⟨hN.chain, hN.nodup, hN.isPage,
          fun q hq => (hN.inUse _).2 (.inr ⟨q, hq, rfl⟩), hN.onDevice,
          fun q hq hqN => hN.fresh q hqN (h.inUse q hq)⟩
      rw [← hlen] at hgc
      obtain ⟨A', kept, hlog2, hcol⟩ := novaInodeLogFastGc_spec hlog1 hkeys1 hready hgc
      have hcol0 : Collected st st1 ino A A [] (stay (entsOf A)) :=
        Collected.of_unused ino hN.links hN.fresh hkeep
      have hpage : ∀ b ∈ basesOf A', IsPage b := fun b hb =>
        hlog2.isPage (mem_append_left _ hb)
      refine ⟨A', N, kept, hlog2, ?_, ?_, hN.fresh⟩
      · -- the mark on the last page is still there
        apply hT.of_page
        intro a ha
        have hmem : T.base ∈ basesOf A ++ tailPages B T [] := by simp [tailPages]
        have hnot : blockOff a ∉ basesOf A := by
          rw [ha]
          exact fun hA => (nodup_append.1 h.nodup).2.2 _ hA T.base (by simp [tailPages]) rfl
        have huse : st1.InUse (a / PAGE_SIZE) := by
          have := hkeep _ (h.inUse _ hmem)
          rw [← ha] at this
          rw [blockOff_div] at this
          exact this
        rw [hcol.slot a huse hnot, hN.links.slot]
      · simpa using hcol0.trans (fun b hb => hb) hpage (by rw [hN.links.info])
          (fun hin _ => hin) hcol

/-- `nova_get_append_head` on a log that is not empty. -/
theorem appendHead_spec (h : LogInv st ino A B T rest) (hkeys : KeysOk st.nv (st.info ino).tree)
    (hmark : ∀ i a, (st.info ino).tree.get i = some a → a ≠ T.stop) (hsize : size ≤ LAST_ENTRY)
    (hres : appendHeadWith (novaExtendInodeLog ino) st T.stop size
      = some (p, ext, st')) (hp : p ≠ 0) :
    ∃ A' B' T' rest' kept, AppendedAt st st' ino A B T rest size p A' B' T' rest' kept := by
  by_cases hfit : T.stop + size ≤ T.base + LAST_ENTRY
  · rw [appendHead_fits h.log.last hfit] at hres
    obtain ⟨rfl, -, rfl⟩ := hres
    exact ⟨A, B, T, rest, stay (entsOf A), h,
      Appended.of_mark ino A T.base (SlotOnly.refl _ _) h.cursor_ne, rfl, hfit,
      rfl, fun w hw => .inl hw, fun b hb => .inl hb, .inl ⟨rfl, rfl⟩, fun b hb => .inl hb⟩
  rw [not_le] at hfit
  have hne := ents_ne_nil h.log.last hsize hfit
  have hframe := novaSetNextPageFlag_frame st T.stop
  have hsealed := sealed_of_flag h.log.last hne
  have h1 := h.of_cursor hframe
  have htight : ∀ w ∈ B ++ [T], w ∈ B ∨ w.base + LAST_ENTRY < w.stop + size := by
    intro w hw
    rcases mem_append.1 hw with hw | hw
    · exact .inl hw
    · rw [mem_singleton.1 hw]
      exact .inr hfit
  have hchg1 : Appended st (novaSetNextPageFlag st T.stop) ino A A T.stop
      T.base (stay (entsOf A)) := Appended.of_mark ino A T.base hframe h.cursor_ne
  cases rest with
  | cons q rest =>
    rw [appendHead_spare h.log hfit] at hres
    simp only [some.injEq, Prod.mk.injEq] at hres
    obtain ⟨rfl, -, rfl⟩ := hres
    refine ⟨A, B ++ [T], ⟨q, [], q⟩, rest, stay (entsOf A),
      h1.advance hsealed, hchg1, rfl, by simp only []; omega, by simp, htight, ?_, .inr rfl, ?_⟩
    all_goals
      intro b hb
      left
      simpa [tailPages] using hb
  | nil =>
    rw [appendHead_extend h.log hfit, bind_eq_some_iff] at hres
    obtain ⟨⟨p1, st1⟩, hext, hres⟩ := hres
    by_cases hp1 : p1 = 0
    · rw [if_pos hp1, some.injEq, Prod.mk.injEq] at hres
      exact absurd hres.1.symm hp
    have hkeys1 : KeysOk (novaSetNextPageFlag st T.stop).nv
        ((novaSetNextPageFlag st T.stop).info ino).tree := by
      intro i a ha
      rw [hframe.info] at ha
      rw [hframe.slot a (hmark i a ha)]
      exact hkeys i a ha
    obtain ⟨A', N, kept, hlog, hT', hcol, hfreshN⟩ :=
      novaExtendInodeLog_spec h1 hkeys1 hsealed hext hp1
    -- the new page is empty, so the entry fits
    have hfirst := isLastEntry_page (hlog.log.spare p1 mem_cons_self) hsize
    simp only [if_neg hp1, hfirst, Bool.false_eq_true, if_false, some.injEq, Prod.mk.injEq] at hres
    obtain ⟨rfl, -, rfl⟩ := hres
    have hbehind : ∀ b ∈ tailPages (B ++ [T]) ⟨p1, [], p1⟩ N,
        b ∈ tailPages B T [] ∨ ¬ st.InUse (b / PAGE_SIZE) := by
      intro b hb
      have hb' : b ∈ tailPages B T [] ∨ b ∈ p1 :: N := by
        simp only [tailPages, basesOf_append, basesOf_cons, basesOf_nil,
          mem_append, mem_cons, not_mem_nil, or_false]
          at hb ⊢
        tauto
      rcases hb' with hb' | hb'
      · exact .inl hb'
      · exact .inr fun hu => hfreshN b hb' ((hframe.inUse _).2 hu)
    refine ⟨A', B ++ [T], ⟨p1, [], p1⟩, N, kept, hlog.advance hT', ?_, rfl,
      by simp only []; omega, by simp, htight, ?_, .inr rfl, hbehind⟩
    · have hm := hchg1.moves.drop_then hcol.moves
      have ho := (hframe.owner ino).trans hcol.owner
      refine ⟨hm, hcol.ents, ?_, ?_, ?_, ho.logHead, ?_, ho.record, ho.data, ho.others, ho.sihSize,
        ho.iSize, ho.attrs, ?_, hcol.unmoved, ?_⟩
      · intro a hac hau haA
        rw [hcol.slot a ((hframe.inUse _).2 hau) haA, hframe.slot a hac]
      · intro a hac hau haA
        rw [hcol.invalid a ((hframe.inUse _).2 hau) haA, hframe.invalid a hac]
      · intro b hb hbu hbA hbt
        rw [hcol.next b hb ((hframe.inUse _).2 hbu) hbA (by simpa using hbt), hframe.next]
      · rw [hcol.logTail, hframe.logTail]
      · intro x hx hxA
        exact hcol.inUse x ((hframe.inUse _).2 hx) hxA
      refine hcol.setattr.drop_then ?_ ?_ (by rw [hframe.info])
        (fun hin _ => hin)
      · intro q hq
        exact hcol.moves.sub.subset (List.mem_map.2 ⟨q, hq, rfl⟩)
      · intro a ha
        exact hframe.slot a (h.cursor_ne a ha)
    intro b hb
    rcases mem_append.1 hb with hb | hb
    · rcases hcol.fresh b hb with hA | hnot
      · exact .inl (mem_append_left _ hA)
      · exact .inr fun hu => hnot ((hframe.inUse _).2 hu)
    · exact (hbehind b hb).imp_left (mem_append_right _)

-- === the first page

/-- A log nothing was ever written to. -/
structure EmptyLog (st : State al) (ino : Nat) : Prop where
  head : st.nv.logHead ino = 0
  tail : st.nv.logTail ino = 0

/-- What the first append does: one new page, and nothing else. -/
structure Started (st st' : State al) (ino p : Nat) : Prop where
  log : LogInv st' ino [] [] ⟨p, [], p⟩ []
  tail : st'.nv.logTail ino = p
  fresh : ¬ st.InUse (p / PAGE_SIZE)
  slot : st'.nv.slot = st.nv.slot
  invalid : st'.nv.invalid = st.nv.invalid
  next : ∀ b, b ≠ p → st'.nv.next b = st.nv.next b
  logHead : ∀ j, j ≠ ino → st'.nv.logHead j = st.nv.logHead j
  logTail : ∀ j, j ≠ ino → st'.nv.logTail j = st.nv.logTail j
  record : st'.nv.record = st.nv.record
  data : st'.data = st.data
  info : st'.info
    = Function.update st.info ino { st.info ino with logPages := 1 }
  inUse : ∀ x, st'.InUse x ↔ st.InUse x ∨ x * PAGE_SIZE = p

/-- `nova_get_append_head` on an empty log. -/
theorem appendHead_empty (hsize : size ≤ LAST_ENTRY)
    (hres : appendHeadWith (novaExtendInodeLog ino) st 0 size
      = some (p, ext, st')) (hp : p ≠ 0) : Started st st' ino p := by
  have h0 : isLastEntry 0 size = false := by
    simp only [isLastEntry, entryLoc, Nat.zero_mod, Nat.zero_add, decide_eq_false_iff_not]
    omega
  simp only [appendHeadWith, true_or, if_true, h0, Bool.false_eq_true,
    if_false, bind_eq_bind] at hres
  rw [bind_eq_some_iff] at hres
  obtain ⟨⟨p1, st1⟩, hext, hres⟩ := hres
  simp only [bind_some] at hres
  by_cases hp1 : p1 = 0
  · rw [if_pos hp1, some.injEq, Prod.mk.injEq] at hres
    exact absurd hres.1.symm hp
  unfold novaExtendInodeLog at hext
  rw [if_pos rfl] at hext
  cases halloc : novaAllocateInodeLogPages st 1 with
  | mk r st2 =>
    rw [halloc] at hext
    cases r with
    | none =>
      simp only [some.injEq, Prod.mk.injEq] at hext
      exact absurd hext.1.symm hp1
    | some nb =>
      obtain ⟨n, newBlock⟩ := nb
      obtain ⟨N, hN, hlen⟩ := novaAllocateInodeLogPages_some halloc
      simp only [] at hext
      split at hext
      · simp only [some.injEq, Prod.mk.injEq] at hext
        exact absurd hext.1.symm hp1
      rename_i hn1
      have hn : n = 1 := not_not.1 hn1
      have hNnil : N = [] := by
        rw [hn] at hlen
        simpa using hlen
      subst hNnil
      simp only [some.injEq, Prod.mk.injEq] at hext
      obtain ⟨rfl, rfl⟩ := hext
      have hpage : IsPage newBlock := hN.isPage _ mem_cons_self
      have hfirst := isLastEntry_page hpage hsize
      simp only [if_neg hp1, hfirst, Bool.false_eq_true, if_false,
        some.injEq, Prod.mk.injEq] at hres
      obtain ⟨rfl, -, rfl⟩ := hres
      have hiff : ∀ x, st2.InUse x ↔ st.InUse x ∨ x * PAGE_SIZE = newBlock := by
        intro x
        have := hN.inUse x
        rw [exists_div_eq_iff hN.isPage] at this
        simpa using this
      have huse : st2.InUse (newBlock / PAGE_SIZE) :=
        (hN.inUse _).2 (.inr ⟨newBlock, by simp, rfl⟩)
      refine ⟨⟨⟨?_, by simp, by simp, ⟨hpage, rfl⟩, by simp⟩, ?_, ?_, ?_,
        ?_, ?_⟩, ?_, hN.fresh _ mem_cons_self, ?_, ?_, ?_, ?_, ?_, ?_, ?_, ?_, ?_⟩
      · simpa [Nvmm.apply] using hN.chain
      · simp [Nvmm.apply, tailPages]
      · have hoff : blockOff newBlock = newBlock := div_mul_page hpage
        simp [Nvmm.apply, tailPages, hoff]
      · intro q hq
        have hqn : q = newBlock := by simpa [tailPages] using hq
        rw [hqn]
        simpa [State.InUse] using huse
      · intro q hq
        have hqn : q = newBlock := by simpa [tailPages] using hq
        rw [hqn]
        exact hN.onDevice _ mem_cons_self
      · simp [tailPages]
      · simp [Nvmm.apply]
      · simp [Nvmm.apply, hN.links.slot]
      · simp [Nvmm.apply, hN.links.invalid]
      · intro b hb
        simpa [Nvmm.apply] using hN.links.next b (by simpa using hb)
      · intro j hj
        simp [Nvmm.apply, hj, hN.links.logHead]
      · intro j hj
        simp [Nvmm.apply, hj, hN.links.logTail]
      · simp [Nvmm.apply, hN.links.record]
      · simp [hN.links.data]
      · simp [hN.links.info]
      · intro x
        simpa [State.InUse] using hiff x

end Themis.Log
