/-
Both collectors as their caller sees them: the pages in front of the
tail page are replaced by pages that hold the same entries but for
expendable ones (`Collected`), and the log stays a log (`LogInv`).
-/
import Themis.Proofs.Log.ThoroughGc

namespace Themis.Log

open Lib List Option Function

variable {al : BlockAllocator}
variable {st st' : State al} {ino : Nat} {A B : List Page} {T : Page} {rest N : List Nat}
  {nv : Nvmm}
variable {st1 : State al} {blocks a newBlock : Nat} {A1 K : List Page} {w : Page} {sih : InodeInfo}

-- === the thorough one

/-- New pages leave a log alone. -/
theorem LogInv.of_unused (h : LogInv st ino A B T rest) (hlinks : LinksOnly N st st')
    (hN : ∀ p ∈ N, ¬ st.InUse (p / PAGE_SIZE)) (huse : ∀ x, st.InUse x → st'.InUse x) :
    LogInv st' ino A B T rest := by
  apply h.replace
  · intro w hw
    apply (h.full hw).of_page
    intro a _
    rw [hlinks.slot]
  · apply h.chain.congr
    intro p hp
    apply hlinks.next
    intro hmem
    exact hN p hmem (h.inUse p hp)
  · exact h.nodup
  · intro a _
    rw [hlinks.slot]
  · rw [hlinks.logHead]
    exact h.head
  · rw [hlinks.logTail]
  · intro p hp
    exact huse _ (h.inUse p hp)
  · intro p hp
    exact h.onDevice p (mem_append_left _ hp)
  · rw [hlinks.info]
    exact h.count

/-- New pages are no collection. -/
theorem Collected.of_unused (ino : Nat) (hlinks : LinksOnly N st st')
    (hN : ∀ p ∈ N, ¬ st.InUse (p / PAGE_SIZE)) (huse : ∀ x, st.InUse x → st'.InUse x) :
    Collected st st' ino A A [] (stay (entsOf A)) where
  moves := by
    apply Moves.of_drop (List.Sublist.refl _)
    · intro a _
      rw [hlinks.slot]
    · intro a _
      rw [hlinks.invalid]
    · intro a ha hna
      exact absurd ha hna
    · rw [hlinks.info]
  ents := by simp
  slot a _ _ := by rw [hlinks.slot]
  invalid a _ _ := by rw [hlinks.invalid]
  next b hb hbu _ _ := by
    apply hlinks.next
    intro hmem
    exact hN b hmem hbu
  __ := hlinks.owner ino
  logTail := hlinks.logTail
  inUse x hx _ := huse x hx
  fresh b hb := .inl hb
  unmoved _ := ⟨rfl, rfl⟩
  setattr := SetattrFollows.of_stay (by rw [hlinks.info]) fun hin _ => hin

/-- Copying starts on the new pages. -/
theorem CopyAt.init {newHead : Nat} (hN : NewPages st st1 (newHead :: N))
    (hlen : (newHead :: N).length = blocks) :
    CopyAt st ino newHead st1 newHead blocks [] [] [] ⟨newHead, [], newHead⟩ N where
  log := ⟨hN.chain, hN.nodup, by simp, ⟨hN.isPage _ mem_cons_self, rfl⟩,
    fun p hp => hN.isPage p (mem_cons_of_mem _ hp)⟩
  head := rfl
  frame := hN.links.within
  fresh := hN.fresh
  onDevice := hN.onDevice
  inUse := hN.inUse
  ents := rfl
  last h := absurd rfl h
  moves := by
    refine ⟨List.Sublist.refl _, by simp, by simp, ?_, FirstPair.nil _⟩
    intro i
    have hid : reloc [] = id := by
      funext x
      rfl
    rw [hN.links.info, hid, Option.map_id]
    rfl
  cursor := rfl
  blocks := le_of_eq hlen
  __ := hN.links.owner ino
  logPages := by rw [hN.links.info]
  setattr := ⟨by rw [hN.links.info]; rfl, by simp, by simp⟩
  none _ := ⟨by rw [hN.links.info], by simp⟩

/-- Entries in front of the tail page. -/
theorem LogInv.entry (h : LogInv st ino A B T rest) (ha : a ∈ entsOf A) :
    st.InUse (a / PAGE_SIZE) ∧ a / PAGE_SIZE ≠ st.nv.logTail ino / PAGE_SIZE ∧
      (st.nv.slot a).size ≤ LAST_ENTRY := by
  obtain ⟨w, hw, haw⟩ := mem_entsOf.1 ha
  have hS := h.full hw
  have hoff := hS.toHolds.blockOff_ent haw
  have hdiv : a / PAGE_SIZE = w.base / PAGE_SIZE := by rw [← hoff, blockOff_div]
  have hmem : w.base ∈ basesOf A ++ tailPages B T rest :=
    mem_append_left _ (mem_basesOf.2 ⟨w, hw, rfl⟩)
  refine ⟨?_, ?_, ?_⟩
  · rw [hdiv]
    exact h.inUse _ hmem
  · rw [hdiv, h.tail_div]
    intro heq
    exact h.base_ne_tail hw (page_eq_of_div_eq hS.isPage
      (h.isPage (mem_append_right _ (head_mem_tailPages B T rest))) heq)
  · obtain ⟨h1, -, h3, -⟩ := hS.seg.mem haw
    omega

/-- No entry twice. -/
theorem nodup_entsOf : ∀ {F : List Page},
    (∀ w ∈ F, w.Holds nv) → (basesOf F).Nodup → (entsOf F).Nodup := by
  intro F
  induction F with
  | nil =>
    intro _ _
    exact nodup_nil
  | cons w F ih =>
    intro hF hn
    obtain ⟨hnot, hn'⟩ := nodup_cons.1 hn
    rw [entsOf_cons, nodup_append]
    refine ⟨(hF w mem_cons_self).seg.nodup, ih (fun x hx => hF x (mem_cons_of_mem _ hx)) hn', ?_⟩
    intro a ha b hb heq
    subst heq
    obtain ⟨x, hx, hax⟩ := mem_entsOf.1 hb
    apply hnot
    rw [← (hF w mem_cons_self).blockOff_ent ha, (hF x (mem_cons_of_mem _ hx)).blockOff_ent hax]
    exact mem_basesOf.2 ⟨x, hx, rfl⟩

/-- The walk over the pages in front of the tail page. -/
theorem LogInv.walk_front (h : LogInv st ino (A1 ++ [w]) B T rest) :
    WalkTo st.nv (st.nv.logTail ino) (st.nv.logHead ino) (entsOf (A1 ++ [w])) w.stop ∧
    land st.nv w.stop = (tailPages B T rest).headD 0 := by
  have hw : w ∈ A1 ++ [w] := by simp
  have hfull : ∀ x ∈ A1, x.Sealed st.nv := fun x hx =>
    h.full (mem_append_left _ hx)
  have htail : ∀ x ∈ A1 ++ [w], blockOff (st.nv.logTail ino) ≠ x.base := by
    intro x hx
    rw [h.tail]
    exact (h.base_ne_tail hx).symm
  have hc := h.chain
  rw [Linked.append_iff] at hc
  have hchain : Linked st.nv.next (basesOf A1 ++ [w.base])
      ((tailPages B T rest).headD 0) := by simpa using hc.1
  have hwalk := walk_pages (t := st.nv.logTail ino) A1 hchain hfull
    (h.full hw).toHolds (fun _ => (h.full hw).nonempty)
    (fun x hx => htail x (mem_append_left _ hx)) (.inl (htail w hw))
  refine ⟨?_, ?_⟩
  · rw [h.head]
    cases A1 with
    | nil => simpa using hwalk
    | cons x A1 => simpa using hwalk
  rw [land_stop (h.full hw)]
  rw [Linked.append_iff] at hchain
  exact hchain.2.1

/-- They can be copied. -/
theorem LogInv.front (h : LogInv st ino (A1 ++ [w]) B T rest) :
    st.nv.logHead ino ∈ basesOf (A1 ++ [w]) ∧
      ToCopy st ino (st.nv.logHead ino) [] (entsOf (A1 ++ [w])) w.stop := by
  have hw : w ∈ A1 ++ [w] := by simp
  have hwS := h.full hw
  have hhead : st.nv.logHead ino ∈ basesOf (A1 ++ [w]) := by
    rw [h.head]
    cases A1 <;> simp
  obtain ⟨hwalk, hland⟩ := h.walk_front
  refine ⟨hhead, hwalk, ?_, ?_, ?_, h.inUse _ (mem_append_left _ hhead),
    fun a ha => (h.entry ha).1, fun a ha => (h.entry ha).2.1, fun a ha => (h.entry ha).2.2, ?_⟩
  · intro heq
    have hne := h.base_ne_tail hw
    rw [← h.tail, ← heq, hwS.toHolds.blockOff_stop] at hne
    exact hne rfl
  · exact hwS.toHolds.stop_ne_zero
  · rw [hland, h.tail_div]
  have hn := h.nodup
  rw [nodup_append] at hn
  exact nodup_entsOf (fun x hx => (h.full hx).toHolds) hn.1

/-- The thorough collection. -/
theorem novaInodeLogThoroughGc_spec {checked : Nat} (h : LogInv st ino A B T rest)
    (hkeys : KeysOk st.nv (st.info ino).tree)
    (hlive : ∃ a ∈ entsOf A, entryDead st.nv (st.info ino) a = false)
    (hchecked : checked = A.length) (hres : novaInodeLogThoroughGc st ino blocks checked = some st') :
    ∃ A' kept, LogInv st' ino A' B T rest ∧ Collected st st' ino A A' [] kept := by
  have hA : A ≠ [] := by
    intro hnil
    obtain ⟨a, ha, -⟩ := hlive
    simp [hnil] at ha
  obtain ⟨A1, w, rfl⟩ : ∃ A1 w, A = A1 ++ [w] := ⟨_, _, (dropLast_append_getLast hA).symm⟩
  have hhead0 := h.head_pos
  unfold novaInodeLogThoroughGc at hres
  rw [if_neg (by omega)] at hres
  split at hres
  · -- not reached, but harmless
    simp only [some.injEq] at hres
    subst hres
    exact ⟨_, _, h, Collected.of_unused ino (LinksOnly.refl (N := []) st)
      (by simp) (fun x hx => hx)⟩
  cases halloc : novaAllocateInodeLogPages st blocks with
  | mk r st1 =>
    rw [halloc] at hres
    cases r with
    | none =>
      obtain ⟨hlinks, hiff⟩ := novaAllocateInodeLogPages_none halloc
      simp only [some.injEq] at hres
      subst hres
      exact ⟨_, _, h.of_unused hlinks (by simp) (fun x => (hiff x).2),
        Collected.of_unused ino hlinks (by simp) (fun x => (hiff x).2)⟩
    | some nb =>
      obtain ⟨n, newHead⟩ := nb
      obtain ⟨N, hN, hlen⟩ := novaAllocateInodeLogPages_some halloc
      simp only [] at hres
      split at hres
      · -- too few pages: the log stays as it was
        simp only [some.injEq] at hres
        subst hres
        have hiff : ∀ x, st.InUse x → st1.InUse x := fun x hx =>
          (hN.inUse x).2 (.inl hx)
        exact ⟨_, _, h.of_unused hN.links hN.fresh hiff,
          Collected.of_unused ino hN.links hN.fresh hiff⟩
      rename_i hnb
      have hnb' : n = blocks := not_not.1 hnb
      subst hnb'
      simp only [bind_eq_bind] at hres
      rw [bind_eq_some_iff] at hres
      obtain ⟨⟨st2, v⟩, hcopy, hswitch⟩ := hres
      obtain ⟨kept, F, T', rest', hat, hold⟩ := copyLoop_spec hkeys
        (entsOf (A1 ++ [w]))
        (v := ⟨st.nv.logHead ino, st.nv.logHead ino, newHead, n⟩)
        (CopyAt.init hN hlen) h.front.2 hcopy
      have hkept : kept ≠ [] := by
        intro hnil
        obtain ⟨a, ha, hal⟩ := hlive
        have := (hat.none hnil).2 a ha
        rw [hal] at this
        cases this
      obtain ⟨st3, hrun, hlog, hcol, -⟩ := switchLog_exact h hA hat hkept (by
        intro A2 x hx
        rw [hold, last_eq hx]) hchecked
      rw [hrun, some.injEq] at hswitch
      rw [← hswitch]
      exact ⟨_, _, hlog, hcol⟩

-- === the fast one

section fastFinish

variable (st : State al) (ino currTail newBlock numPages : Nat) (v : FastVars)

/-- What the end of the fast collection stores. -/
theorem fastFinish_nv : (fastFinish st ino currTail newBlock numPages v).nv = { st.nv with
    next := Function.update st.nv.next (blockOff currTail) newBlock
    logHead := Function.update st.nv.logHead ino v.possibleHead } := by
  unfold fastFinish
  cases v.firstNeedFree <;> simp [Nvmm.apply, novaFreeLogBlocks]

/-- It stores no data. -/
theorem fastFinish_data : (fastFinish st ino currTail newBlock numPages v).data = st.data := by
  unfold fastFinish
  cases v.firstNeedFree <;> simp [novaFreeLogBlocks]

/-- It counts pages. -/
theorem fastFinish_info :
    (fastFinish st ino currTail newBlock numPages v).info = Function.update st.info ino
        { st.info ino with
          logPages := (st.info ino).logPages + numPages - v.freedPages } := by
  unfold fastFinish
  cases v.firstNeedFree <;> simp [novaFreeLogBlocks]

/-- It gives the old head back. -/
theorem fastFinish_inUse (hp : v.firstNeedFree = true →
    IsPage (st.nv.logHead ino) ∧ st.InUse (st.nv.logHead ino / PAGE_SIZE)) (x : Nat) :
    (fastFinish st ino currTail newBlock numPages v).InUse x ↔ st.InUse x ∧
        ¬ (v.firstNeedFree = true ∧ x * PAGE_SIZE = st.nv.logHead ino) := by
  cases hf : v.firstNeedFree with
  | false => simp [fastFinish, hf, State.InUse]
  | true =>
    obtain ⟨h1, h2⟩ := hp hf
    have h3 := free_page_inUse
      (((((novaSetNextPageAddress st (blockOff currTail) newBlock true).store
        (.logHead ino v.possibleHead)).setInfo ino
        { st.info ino with
          logPages := (st.info ino).logPages + numPages - v.freedPages }).flush
        (.inode ino) true)) h1 (by simpa [State.InUse] using h2) x
    simpa [fastFinish, hf, State.InUse, Nvmm.apply] using h3

end fastFinish

/-- Fewer pages, fewer entries. -/
theorem entsOf_filter_sublist (f : Page → Bool) :
    ∀ A : List Page, (entsOf (A.filter f)).Sublist (entsOf A) := by
  intro A
  induction A with
  | nil => exact List.Sublist.refl _
  | cons w A ih =>
    cases hf : f w with
    | true =>
      rw [filter_cons_of_pos hf]
      exact ih.append_left w.ents
    | false =>
      rw [filter_cons_of_neg (by simp [hf])]
      exact ih.trans (sublist_append_right _ _)

/-- New pages lie behind the last page, ready to be linked. -/
structure Ready (st : State al) (pages N : List Nat) : Prop where
  chain : Linked st.nv.next N 0
  nodup : N.Nodup
  isPage : ∀ p ∈ N, IsPage p
  inUse : ∀ p ∈ N, st.InUse (p / PAGE_SIZE)
  onDevice : ∀ p ∈ N, p / PAGE_SIZE < al.numBlocks
  disjoint : ∀ p ∈ pages, p ∉ N

/-- A live entry is on a live page. -/
theorem mem_entsOf_live (ha : a ∈ entsOf A) (hlive : entryDead nv sih a = false) :
    a ∈ entsOf (A.filter fun w => !pageDead nv sih w) := by
  obtain ⟨w, hw, haw⟩ := mem_entsOf.1 ha
  refine mem_entsOf.2 ⟨w, mem_filter.2 ⟨hw, ?_⟩, haw⟩
  cases hdead : pageDead nv sih w with
  | false => rfl
  | true =>
    rw [pageDead, List.all_eq_true] at hdead
    rw [hdead a haw] at hlive
    cases hlive

/-- The last SET_ATTR entry is kept. -/
theorem live_last (hK : K = A.filter (fun w => !pageDead st.nv (st.info ino) w))
    (hin : (st.info ino).lastSetattr ∈ entsOf A)
    (hset : (st.nv.slot (st.info ino).lastSetattr).isSetAttr = true) :
    (st.info ino).lastSetattr ∈ entsOf K := by
  rw [hK]
  exact mem_entsOf_live hin (entryDead_lastSetattr hset)

/-- The end of the fast collection. -/
theorem fastFinish_spec {hd : List Nat} {v : FastVars} (h : LogInv st ino A B T [])
    (hN : Ready st (basesOf A ++ tailPages B T []) (newBlock :: N))
    (hat : FastAt st ino A (tailPages B T []) st1 v hd K [])
    (hposs : v.possibleHead = (basesOf K ++ tailPages B T []).headD 0) :
    LogInv (fastFinish st1 ino T.stop newBlock (newBlock :: N).length v) ino K B T (newBlock :: N) ∧
      Collected st (fastFinish st1 ino T.stop newBlock (newBlock :: N).length v) ino A K
        [T.base] (stay (entsOf K)) := by
  set V := tailPages B T [] with hV
  set st2 := fastFinish st1 ino T.stop newBlock (newBlock :: N).length v
    with hst2
  have hTstop := h.log.last.blockOff_stop
  have hK : K = A.filter (fun w => !pageDead st.nv (st.info ino) w) := by simpa using hat.kept
  have hKA : ∀ w ∈ K, w ∈ A := by
    intro w hw
    rw [hK] at hw
    exact mem_of_mem_filter hw
  have hKAb : ∀ b ∈ basesOf K, b ∈ basesOf A := by
    intro b hb
    obtain ⟨w, hw, rfl⟩ := mem_basesOf.1 hb
    exact mem_basesOf.2 ⟨w, hKA w hw, rfl⟩
  have hnodup := h.nodup
  rw [nodup_append] at hnodup
  obtain ⟨hnodupA, hnodupV, hdisj⟩ := hnodup
  have hnodupK : (hd ++ basesOf K ++ V).Nodup := by
    have hsub : (hd ++ basesOf K ++ V).Sublist (basesOf A ++ V) := by
      have := hat.pages
      simp only [basesOf_nil, append_nil] at this
      exact List.Sublist.append_right this V
    exact h.nodup.sublist hsub
  have hslot : st2.nv.slot = st.nv.slot := by rw [hst2, fastFinish_nv, hat.links.slot]
  have hinvalid : st2.nv.invalid = st.nv.invalid := by rw [hst2, fastFinish_nv, hat.links.invalid]
  have hTV : T.base ∈ V := by simp [hV, tailPages]
  have hnext : ∀ p, p ≠ T.base → p ∉ basesOf A → st2.nv.next p = st.nv.next p := by
    intro p hpT hpA
    simp only [hst2, fastFinish_nv, hTstop, update_of_ne hpT, hat.links.next p hpA]
  -- the dead head page, if there is one
  have hhd : v.firstNeedFree = true → hd = [st1.nv.logHead ino] := by
    intro hf
    have h1 := hat.first
    rw [hf] at h1
    have h2 := hat.single
    cases hhd : hd with
    | nil => rw [hhd] at h1; simp at h1
    | cons q l =>
      rw [hhd] at h2
      have hl : l = [] := by
        cases l with
        | nil => rfl
        | cons r l => simp at h2
      have h3 := hat.head
      rw [hhd, hl] at h3
      simp only [cons_append, nil_append, headD_cons] at h3
      rw [hl, hat.links.logHead, h3]
  have huseK : ∀ x, x * PAGE_SIZE ∈ hd ++ basesOf K → st1.InUse x := by
    intro x hx
    rw [hat.inUse]
    have hmemA : x * PAGE_SIZE ∈ basesOf A := by
      apply hat.pages.subset
      simpa using hx
    refine ⟨?_, fun _ => by simpa using hx⟩
    have := h.inUse _ (mem_append_left _ hmemA)
    have hdiv : x * PAGE_SIZE / PAGE_SIZE = x := by
      simp only [PAGE_SIZE]
      omega
    rw [hdiv] at this
    exact this
  have hheadPage : v.firstNeedFree = true → IsPage (st1.nv.logHead ino) ∧
        st1.InUse (st1.nv.logHead ino / PAGE_SIZE) := by
    intro hf
    have hmem : st1.nv.logHead ino ∈ hd := by
      rw [hhd hf]
      simp
    have hmemA : st1.nv.logHead ino ∈ basesOf A := by
      apply hat.pages.subset
      simp [hmem]
    have hpage := h.isPage (mem_append_left _ hmemA)
    refine ⟨hpage, huseK _ ?_⟩
    rw [div_mul_page hpage]
    exact mem_append_left _ hmem
  have hinUse : ∀ x, st2.InUse x ↔ st1.InUse x ∧
      ¬ (v.firstNeedFree = true ∧ x * PAGE_SIZE = st1.nv.logHead ino) :=
    fastFinish_inUse st1 ino T.stop newBlock _ v hheadPage
  -- what is not a page of `A` stays in use
  have hstay : ∀ x, st.InUse x → x * PAGE_SIZE ∉ basesOf A → st2.InUse x := by
    intro x hx hxA
    rw [hinUse, hat.inUse]
    refine ⟨⟨hx, fun hmem => absurd hmem hxA⟩, ?_⟩
    intro hc
    apply hxA
    apply hat.pages.subset
    rw [hhd hc.1, hc.2]
    simp
  have huse : ∀ p ∈ basesOf K ++ V ++ newBlock :: N, st2.InUse (p / PAGE_SIZE) := by
    intro p hp
    rcases mem_append.1 hp with hp | hp
    · rcases mem_append.1 hp with hp | hp
      · have hpage := h.isPage (mem_append_left _ (hKAb p hp))
        rw [hinUse, div_mul_page hpage]
        refine ⟨huseK _ (by rw [div_mul_page hpage]; simp [hp]), ?_⟩
        intro hc
        have hmem := hhd hc.1
        rw [hmem, ← hc.2] at hnodupK
        simp only [cons_append, nil_append, nodup_cons, mem_append, not_or] at hnodupK
        exact hnodupK.1.1 hp
      · have hpage := h.isPage (mem_append_right _ hp)
        apply hstay _ (h.inUse p (mem_append_right _ hp))
        rw [div_mul_page hpage]
        intro hmem
        exact hdisj p hmem p hp rfl
    have hpage := hN.isPage p hp
    apply hstay _ (hN.inUse p hp)
    rw [div_mul_page hpage]
    intro hmem
    exact hN.disjoint p (mem_append_left _ hmem) hp
  have htailEq : tailPages B T (newBlock :: N) = V ++ newBlock :: N := by simp [hV, tailPages]
  refine ⟨⟨⟨?_, ?_, ?_, ?_, ?_⟩, ?_, ?_, ?_, ?_, ?_⟩, ?_⟩
  · -- the chain
    rw [LogInv.pages_eq, htailEq, ← append_assoc, Linked.append_iff]
    refine ⟨?_, ?_⟩
    · have hc := hat.chain
      rw [basesOf_nil, nil_append, append_assoc, Linked.append_iff] at hc
      have hcKV := hc.2
      have hsplit : basesOf K ++ V = basesOf K ++ basesOf B ++ [T.base] := by simp [hV, tailPages]
      rw [hsplit] at hcKV ⊢
      have hTnot : T.base ∉ basesOf K ++ basesOf B := by
        have hn : (basesOf K ++ V).Nodup := by
          rw [append_assoc] at hnodupK
          exact (nodup_append.1 hnodupK).2.1
        rw [hsplit, nodup_append] at hn
        intro hmem
        exact hn.2.2 _ hmem _ mem_cons_self rfl
      have hup := hcKV.update_last (q := newBlock) hTnot
      rw [fastFinish_nv, hTstop]
      exact hup
    apply hN.chain.congr
    intro p hp
    apply hnext
    · intro heq
      exact hN.disjoint T.base (mem_append_right _ hTV) (heq ▸ hp)
    · intro hmem
      exact hN.disjoint p (mem_append_left _ hmem) hp
  · rw [LogInv.pages_eq, htailEq, ← append_assoc, nodup_append]
    refine ⟨?_, hN.nodup, ?_⟩
    · rw [append_assoc] at hnodupK
      exact (nodup_append.1 hnodupK).2.1
    intro p hp r hr heq
    subst heq
    rcases mem_append.1 hp with hp | hp
    · exact hN.disjoint p (mem_append_left _ (hKAb p hp)) hr
    · exact hN.disjoint p (mem_append_right _ hp) hr
  · intro w hw
    have hS : w.Sealed st.nv := by
      rcases mem_append.1 hw with hw | hw
      · exact h.full (hKA w hw)
      · exact h.log.full w (mem_append_right _ hw)
    apply hS.of_page
    intro a _
    rw [hslot]
  · apply h.log.last.of_page
    intro a _
    rw [hslot]
  · exact hN.isPage
  · simp only [hst2, fastFinish_nv, update_self, hposs, htailEq]
    cases K with
    | nil =>
      cases hVc : V with
      | nil => exact absurd hVc (tailPages_ne_nil B T [])
      | cons q V => rfl
    | cons w K => rfl
  · simp only [hst2, fastFinish_nv, hat.links.logTail, h.tail, htailEq, ← hV]
    cases hVc : V with
    | nil => exact absurd hVc (tailPages_ne_nil B T [])
    | cons q V => rfl
  · intro p hp
    rw [htailEq, ← append_assoc] at hp
    exact huse p hp
  · intro p hp
    rw [htailEq, ← append_assoc] at hp
    rcases mem_append.1 hp with hp | hp
    · rcases mem_append.1 hp with hp | hp
      · exact h.onDevice p (mem_append_left _ (hKAb p hp))
      · exact h.onDevice p (mem_append_right _ hp)
    · exact hN.onDevice p hp
  · have hcount := h.count
    have hfreed := hat.freed
    rw [← hV] at hcount
    rw [fastFinish_info, update_self, htailEq]
    simp only [hat.links.info]
    simp only [length_append, length_cons, basesOf, length_map, length_nil] at hcount hfreed ⊢
    omega
  have howner : OwnerOnly ino st st1 := hat.links.owner ino
  have ho : OwnerOnly ino st st2 := (howner.setInfo { st1.info ino with
      logPages := (st1.info ino).logPages + (newBlock :: N).length - v.freedPages }
      ⟨rfl, rfl, rfl⟩).of_info
    (fun j hj => by simp only [hst2, fastFinish_nv, update_of_ne hj, hat.links.logHead])
    (by rw [hst2, fastFinish_nv, hat.links.record])
    (by rw [hst2, fastFinish_data, hat.links.data]) (fastFinish_info st1 ino _ _ _ v)
  refine ⟨?_, by simp, ?_, ?_, ?_, ho.logHead, ?_, ho.record, ho.data, ho.others, ho.sihSize,
    ho.iSize, ho.attrs, hstay, ?_, ?_, ?_⟩
  · apply Moves.of_drop
    · rw [hK]
      exact entsOf_filter_sublist _ A
    · intro a _
      rw [hslot]
    · intro a _
      rw [hinvalid]
    · intro a ha hna
      rw [hK] at hna
      have hdead : entryDead st.nv (st.info ino) a = true :=
        Bool.of_not_eq_false fun hlive => hna (mem_entsOf_live ha hlive)
      exact expendable_of_entryDead hdead
    · rw [fastFinish_info, update_self]
      simp only [hat.links.info]
  · intro a _ _
    rw [hslot]
  · intro a _ _
    rw [hinvalid]
  · intro b _ _ hbA hbT
    exact hnext b (by simpa using hbT) hbA
  · rw [fastFinish_nv, hat.links.logTail]
  · intro b hb
    exact .inl (hKAb b hb)
  · intro hall
    have hKA' : K = A := by
      rw [hK, filter_eq_self]
      intro w hw
      obtain ⟨x, hx, hxw⟩ := mem_basesOf.1 (hall _ (mem_basesOf.2 ⟨w, hw, rfl⟩))
      have heq : x = w := inj_on_of_nodup_map hnodupA (hKA x hx) hw hxw
      rw [heq, hK] at hx
      exact (mem_filter.1 hx).2
    exact ⟨hKA', by rw [hKA']⟩
  apply SetattrFollows.of_stay
  · rw [fastFinish_info, update_self]
    simp only [hat.links.info]
  · exact live_last hK

/-- Live bytes are those of a live entry. -/
theorem exists_live : ∀ {L : List Nat},
    liveBytes nv sih L ≠ 0 → ∃ a ∈ L, entryDead nv sih a = false := by
  intro L
  induction L with
  | nil =>
    intro h
    exact absurd rfl h
  | cons a L ih =>
    intro h
    cases hdead : entryDead nv sih a with
    | false => exact ⟨a, mem_cons_self, hdead⟩
    | true =>
      have hL : liveBytes nv sih L ≠ 0 := by simpa [liveBytes, hdead] using h
      obtain ⟨b, hb, hbl⟩ := ih hL
      exact ⟨b, mem_cons_of_mem _ hb, hbl⟩

/-- The loop on the log of an inode. -/
theorem LogInv.fastLoop (h : LogInv st ino A B T []) : ∃ st1 v hd K,
    Log.fastLoop ino (pageLimit al) st ⟨st.nv.logHead ino, 0, 0, false, false, 0, 0, 0⟩
      = some (st1, v) ∧ FastAt st ino A (tailPages B T []) st1 v hd K [] ∧
    v.possibleHead = (basesOf K ++ tailPages B T []).headD 0 := by
  have hpre : FastPre st ino A (tailPages B T []) :=
    ⟨fun w hw => h.full hw, h.nodup, tailPages_ne_nil B T [],
      fun p hp => h.isPage (mem_append_right _ hp), h.tail_div,
      fun p hp => h.inUse p (mem_append_left _ hp)⟩
  have hrounds : A.length < pageLimit al := by
    have hlt := length_lt_pageLimit (fun p hp => h.isPage hp) h.nodup h.onDevice
    simp only [length_append, basesOf, length_map] at hlt
    omega
  exact fastLoop_spec hpre A (fun w hw => hw) (FastAt.init h.chain h.head) hrounds

/-- The fast collection, with the thorough one that may follow. -/
theorem novaInodeLogFastGc_spec (h : LogInv st ino A B T [])
    (hkeys : KeysOk st.nv (st.info ino).tree)
    (hN : Ready st (basesOf A ++ tailPages B T []) (newBlock :: N))
    (hres : novaInodeLogFastGc st ino T.stop newBlock (newBlock :: N).length = some st') :
    ∃ A' kept, LogInv st' ino A' B T (newBlock :: N) ∧ Collected st st' ino A A' [T.base] kept := by
  obtain ⟨st1, v, hd, K, hloop, hat, hposs⟩ := h.fastLoop
  obtain ⟨hlog, hcol⟩ := fastFinish_spec h hN hat hposs
  unfold novaInodeLogFastGc at hres
  rw [hloop] at hres
  simp only [bind_eq_bind, bind_some, Option.pure_def] at hres
  have hK : K = A.filter (fun w => !pageDead st.nv (st.info ino) w) := by simpa using hat.kept
  have hKAb : ∀ b ∈ basesOf K, b ∈ basesOf A := by
    intro b hb
    obtain ⟨w, hw, rfl⟩ := mem_basesOf.1 hb
    rw [hK] at hw
    exact mem_basesOf.2 ⟨w, mem_of_mem_filter hw, rfl⟩
  split at hres
  · rename_i hneed
    have hblocks : v.validBytes ≠ 0 := by
      intro h0
      simp [needThoroughGc, blocksFor, h0] at hneed
    have hbytes : liveBytes st.nv (st.info ino) (entsOf A) ≠ 0 := by
      have := hat.bytes
      simp only [entsOf_nil, liveBytes, map_nil, sum_nil] at this
      simp only [liveBytes]
      omega
    obtain ⟨a, ha, hlive⟩ := exists_live hbytes
    have hslot : (fastFinish st1 ino T.stop newBlock
        (newBlock :: N).length v).nv.slot = st.nv.slot := by rw [fastFinish_nv, hat.links.slot]
    have hinvalid : (fastFinish st1 ino T.stop newBlock
        (newBlock :: N).length v).nv.invalid = st.nv.invalid := by
      rw [fastFinish_nv, hat.links.invalid]
    have hchecked : v.checkedPages - v.freedPages = K.length := by
      have h1 := hat.freed
      have h2 := hat.checked
      omega
    obtain ⟨A', kept, hlog', hcol'⟩ := novaInodeLogThoroughGc_spec hlog (by
      intro i b hb
      rw [fastFinish_info, update_self, hat.links.info] at hb
      rw [hslot]
      exact hkeys i b hb) (by
      refine ⟨a, ?_, ?_⟩
      · rw [hK]
        exact mem_entsOf_live ha hlive
      · rw [← hlive, fastFinish_info, update_self, hat.links.info]
        simp only [entryDead, currLogEntryInvalid, hslot, hinvalid])
      hchecked hres
    refine ⟨A', kept, hlog', ?_⟩
    have hpage : ∀ b ∈ basesOf A', IsPage b := fun b hb =>
      hlog'.isPage (mem_append_left _ hb)
    have hlast : (fastFinish st1 ino T.stop newBlock (newBlock :: N).length
        v).info ino = { st.info ino with logPages :=
          (st.info ino).logPages + (newBlock :: N).length - v.freedPages } := by
      rw [fastFinish_info, update_self, hat.links.info]
    simpa using hcol.trans hKAb hpage (by rw [hlast]) (live_last hK) hcol'
  · simp only [some.injEq] at hres
    subst hres
    exact ⟨K, _, hlog, hcol⟩

end Themis.Log
