/-
The thorough collector (`nova_inode_log_thorough_gc`): the live entries
in front of the tail page are copied to a new log, which then takes the
place of their pages.

# The copying loop

`CopyAt` describes the loop between two rounds: an open log that nobody
points to yet, holding the copies made so far on pages that were unused
before, and nothing else changed in NVMM. The loop walks the old pages
(`WalkTo`), which it does not touch.
-/
import Themis.Proofs.Log.Inode
import Themis.Proofs.Log.FastGc
import Themis.Proofs.Log.Walk

namespace Themis.Log

open Lib List Function Option State Nvmm

variable {al : BlockAllocator}
variable {st₀ st : State al} {ino : Nat} {T : Page} {F : List Page} {rest : List Nat}
variable {nv : Nvmm} {sih : InodeInfo} {a e newHead : Nat}

attribute [local simp] linkNewLog

/-- The copying loop between two rounds: `done` has been read, the copies
in `kept` stand in the new log `F`, `T`, `rest`. -/
structure CopyAt (st₀ : State al) (ino newHead : Nat) (st : State al)
    (newCurr blocks : Nat) (done : List Nat) (kept : List (Nat × Nat))
    (F : List Page) (T : Page) (rest : List Nat) : Prop where
  log : OpenLog st.nv F T rest
  head : (basesOf F ++ [T.base]).headD 0 = newHead
  frame : Within (· ∈ basesOf F ++ T.base :: rest) st₀ st
  fresh : ∀ b ∈ basesOf F ++ T.base :: rest, ¬ st₀.InUse (b / PAGE_SIZE)
  onDevice : ∀ b ∈ basesOf F ++ T.base :: rest, b / PAGE_SIZE < al.numBlocks
  inUse : ∀ x, st.InUse x ↔ st₀.InUse x ∨
    ∃ b ∈ basesOf F ++ T.base :: rest, b / PAGE_SIZE = x
  ents : entsOf F ++ T.ents = kept.map Prod.snd
  last : kept ≠ [] → T.ents ≠ []
  moves : Moves st₀ st ino done kept
  cursor : newCurr = T.stop
  blocks : (basesOf F ++ T.base :: rest).length ≤ blocks
  others : ∀ j, j ≠ ino → st.info j = st₀.info j
  logPages : (st.info ino).logPages = (st₀.info ino).logPages
  sihSize : (st.info ino).sihSize = (st₀.info ino).sihSize
  iSize : (st.info ino).iSize = (st₀.info ino).iSize
  attrs : (st.info ino).attrs = (st₀.info ino).attrs
  setattr : SetattrCopied st₀ st ino done kept
  -- until the first copy the inode is as it was
  none : kept = [] → st.info ino = st₀.info ino ∧
    ∀ a ∈ done, entryDead st₀.nv (st₀.info ino) a = true

/-- Why a SET_ATTR entry is live. -/
theorem setattr_live (hset : (nv.slot a).isSetAttr = true) (hlive : entryDead nv sih a = false) :
    (nv.slot a).setsSize = true ∨ sih.lastSetattr = a := by
  obtain ⟨e, hs⟩ := LogEntry.exists_of_isSetAttr hset
  simp only [entryDead, currLogEntryInvalid, hs, Bool.not_eq_eq_eq_not,
    Bool.not_false, Bool.or_eq_true, decide_eq_true_eq] at hlive
  rw [hs]
  exact hlive.symm

/-- The last SET_ATTR entry is live. -/
theorem entryDead_lastSetattr (hset : (nv.slot sih.lastSetattr).isSetAttr = true) :
    entryDead nv sih sih.lastSetattr = false := by
  obtain ⟨e, hs⟩ := LogEntry.exists_of_isSetAttr hset
  simp [entryDead, currLogEntryInvalid, hs]

/-- A copied SET_ATTR entry is the last one. -/
theorem novaGcAssignNewEntry_lastSetattr (nv : Nvmm) (sih : InodeInfo) (p new : Nat) :
    (novaGcAssignNewEntry nv sih p new).lastSetattr
      = if (nv.slot p).isSetAttr then new else sih.lastSetattr := by
  cases hs : nv.slot p <;> simp [novaGcAssignNewEntry, LogEntry.isSetAttr, hs]

/-- One page, one block. -/
theorem div_eq_of_blockOff_eq {x y : Nat} (h : blockOff x = blockOff y) :
    x / PAGE_SIZE = y / PAGE_SIZE := by
  simp only [blockOff, PAGE_SIZE] at *
  omega

/-- The entries `L` from `c` to `e`, in front of the tail page, are still to
be read by the copy loop. -/
structure ToCopy (st₀ : State al) (ino c : Nat) (done L : List Nat) (e : Nat) : Prop where
  walk : WalkTo st₀.nv (st₀.nv.logTail ino) c L e
  stop_ne : e ≠ st₀.nv.logTail ino
  stop_pos : e ≠ 0
  lands : land st₀.nv e / PAGE_SIZE = st₀.nv.logTail ino / PAGE_SIZE
  cursor : st₀.InUse (c / PAGE_SIZE)
  inUse : ∀ a ∈ L, st₀.InUse (a / PAGE_SIZE)
  front : ∀ a ∈ L, a / PAGE_SIZE ≠ st₀.nv.logTail ino / PAGE_SIZE
  fits : ∀ a ∈ L, (st₀.nv.slot a).size ≤ LAST_ENTRY
  nodup : (done ++ L).Nodup

/-- On to the next entry. -/
theorem ToCopy.next {c : Nat} {done L : List Nat} (h : ToCopy st₀ ino c done (a :: L) e) :
    ToCopy st₀ ino (a + (st₀.nv.slot a).size) (done ++ [a]) L e ∧
      a ∉ done ∧ 32 ≤ (st₀.nv.slot a).size := by
  obtain ⟨-, -, -, -, hsize, hblock, hrest⟩ := h.walk
  have hn := h.nodup
  rw [nodup_append] at hn
  refine ⟨⟨hrest, h.stop_ne, h.stop_pos, h.lands, ?_, fun x hx => h.inUse x (mem_cons_of_mem _ hx),
    fun x hx => h.front x (mem_cons_of_mem _ hx),
    fun x hx => h.fits x (mem_cons_of_mem _ hx), by simpa using h.nodup⟩,
    fun hmem => hn.2.2 a hmem a mem_cons_self rfl, hsize⟩
  rw [div_eq_of_blockOff_eq hblock]
  exact h.inUse a mem_cons_self

namespace CopyAt

variable {st₀ st : State al} {ino newHead newCurr blocks : Nat}
  {done : List Nat} {kept : List (Nat × Nat)} {F : List Page} {T : Page}
  {rest : List Nat} {a : Nat}
variable {p e : Nat} {ext : Bool} {st1 : State al} {v : CopyVars}

section

variable (h : CopyAt st₀ ino newHead st newCurr blocks done kept F T rest)
include h

/-- Copying is nobody's size. -/
theorem owner : OwnerOnly ino st₀ st :=
  ⟨fun j _ => congrFun h.frame.logHead j, h.frame.record, h.frame.data, h.others, h.sihSize,
    h.iSize, h.attrs⟩

section

variable (ha : st₀.InUse (a / PAGE_SIZE))
include ha

/-- What was in use before is not on the new pages. -/
theorem notMem : blockOff a ∉ basesOf F ++ T.base :: rest := by
  intro hmem
  have := h.fresh _ hmem
  rw [blockOff_div] at this
  exact this ha

/-- Old entries stay. -/
theorem slot : st.nv.slot a = st₀.nv.slot a := h.frame.slot a (h.notMem ha)

/-- Old counters stay. -/
theorem invalid : st.nv.invalid a = st₀.nv.invalid a :=
  h.frame.invalid a (h.notMem ha)

/-- No copy stands on an old page. -/
theorem notMem_snd : a ∉ kept.map Prod.snd := by
  rw [← h.ents]
  intro hmem
  apply h.notMem ha
  rcases mem_append.1 hmem with hmem | hmem
  · obtain ⟨w, hw, haw⟩ := mem_entsOf.1 hmem
    rw [(h.log.full w hw).toHolds.blockOff_ent haw]
    exact mem_append_left _ (mem_basesOf.2 ⟨w, hw, rfl⟩)
  · rw [h.log.last.blockOff_ent hmem]
    simp

/-- A dead entry is passed over. -/
theorem skip (hdead : entryDead st.nv (st.info ino) a = true) :
    CopyAt st₀ ino newHead st newCurr blocks (done ++ [a]) kept F T rest := by
  have hslot := h.slot ha
  have hinv := h.invalid ha
  refine { h with
    moves := ⟨h.moves.sub.trans (sublist_append_left _ _), h.moves.same,
      ?_, h.moves.tree, h.moves.pair⟩
    setattr := ⟨h.setattr.last, h.setattr.why, ?_⟩
    none := ?_ }
  · intro x hx hnot
    rcases mem_append.1 hx with hx | hx
    · exact h.moves.dropped x hx hnot
    rw [mem_singleton.1 hx]
    have hexp := expendable_of_entryDead hdead
    simp only [Expendable, hslot, hinv] at hexp
    exact hexp
  · intro hin hset
    rcases mem_append.1 hin with hin | hin
    · exact h.setattr.found hin hset
    -- the last one is condemned only when another one has been copied
    rw [mem_singleton] at hin
    have hne : (st.info ino).lastSetattr ≠ a := by
      intro heq
      rw [hin, ← hslot, ← heq] at hset
      rw [← heq, entryDead_lastSetattr hset] at hdead
      cases hdead
    rw [h.setattr.last] at hne
    rcases lastCopied_cases st₀.nv (st₀.info ino).lastSetattr kept
      with ⟨hlast, -⟩ | ⟨q, hq, hset', -⟩
    · exact absurd (hlast.trans hin) hne
    · exact .inr ⟨q, hq, hset'⟩
  intro hk
  obtain ⟨hinfo, hall⟩ := h.none hk
  refine ⟨hinfo, ?_⟩
  intro x hx
  rcases mem_append.1 hx with hx | hx
  · exact hall x hx
  · rw [mem_singleton.1 hx, ← hinfo, ← hdead]
    exact (entryDead_congr hslot hinv).symm

end

end

/-- The first page. -/
theorem headD_pages {F : List Page} {b : Nat} (rest : List Nat) :
    (basesOf F ++ [b]).headD 0 = (basesOf F ++ b :: rest).headD 0 := by cases F <;> simp

section

variable (h : CopyAt st₀ ino newHead st newCurr blocks done kept F T rest)
include h

/-- The first two copies keep their distance. -/
theorem pair_copy {extend : State al → Nat → Option (Nat × State al)}
    (hres : appendHeadWith extend st T.stop (st₀.nv.slot a).size = some (p, ext, st1)) :
    FirstPair st₀.nv (kept ++ [(a, p)]) := by
  intro q r K hk hnext hroom
  rcases hkept : kept with _ | ⟨q', _ | ⟨r', kept'⟩⟩
  · simp [hkept] at hk
  · rw [hkept, cons_append, nil_append, List.cons.injEq] at hk
    obtain ⟨rfl, rfl, -⟩ := hk
    -- the first copy is all there is in the new log
    have hents : T.ents = [q'.2] := by
      have he := h.ents
      have hne := h.last (by simp [hkept])
      rw [hkept, map_cons, map_nil, append_eq_singleton_iff] at he
      rcases he with ⟨-, he⟩ | ⟨-, he⟩
      · exact he
      · exact absurd he hne
    have hsame := (h.moves.same q' (by simp [hkept])).1
    have hseg := h.log.last.seg
    rw [hents] at hseg
    obtain ⟨hbase, -, -, hend⟩ := hseg
    have hstop : T.stop = q'.2 + (st₀.nv.slot q'.1).size := by
      rw [← hsame, hbase]
      exact hend
    have hfit : T.stop + (st₀.nv.slot a).size ≤ T.base + LAST_ENTRY := by
      simp only at hroom
      omega
    rw [appendHead_fits h.log.last hfit] at hres
    simp only [some.injEq, Prod.mk.injEq] at hres
    rw [← hstop, hres.1]
  rw [hkept, cons_append, cons_append, List.cons.injEq, List.cons.injEq] at hk
  obtain ⟨rfl, rfl, -⟩ := hk
  exact h.moves.pair q' r' kept' hkept hnext hroom

/-- A live entry is copied. -/
theorem copy_spare
    (ha : st₀.InUse (a / PAGE_SIZE)) (hdone : a ∉ done) (hkeys : KeysOk st₀.nv (st₀.info ino).tree)
    (hsize : 32 ≤ (st₀.nv.slot a).size) (hsize' : (st₀.nv.slot a).size ≤ LAST_ENTRY)
    (hlive : entryDead st.nv (st.info ino) a = false)
    (hres : appendHeadWith novaAppendOneLogPage st newCurr
      (st₀.nv.slot a).size = some (p, ext, st1)) (hp : p ≠ 0) :
    ∃ F' T' rest', CopyAt st₀ ino newHead
        ((st1.ntStore (.slot p (st1.nv.slot a) (st1.nv.invalid a))).setInfo ino
          (novaGcAssignNewEntry (st1.ntStore (.slot p (st1.nv.slot a) (st1.nv.invalid a))).nv
            (st1.info ino) a p)) (p + (st₀.nv.slot a).size) (if ext then blocks + 1 else blocks)
        (done ++ [a]) (kept ++ [(a, p)]) F' T' rest' ∧ (basesOf F' ++ T'.base :: rest').length
        = (basesOf F ++ T.base :: rest).length + (if ext then 1 else 0) ∧
      (ext = true → rest' = []) ∧ (rest = [] → rest' = []) := by
  have hown : ∀ b ∈ basesOf F ++ T.base :: rest, st.InUse (b / PAGE_SIZE) := by
    intro b hb
    exact (h.inUse _).2 (.inr ⟨b, hb, rfl⟩)
  rw [h.cursor] at hres
  obtain ⟨F', T', rest', M, happ, hM, hspare⟩ := appendOne_spare h.log hown hsize' hres hp
  have hpage : T.base ∈ basesOf F ++ T.base :: rest := by simp
  have haT : a ≠ T.stop := by
    intro heq
    apply h.notMem ha
    rw [heq, h.log.last.blockOff_stop]
    exact hpage
  have hslot : st1.nv.slot a = st₀.nv.slot a := by rw [happ.slots a haT, h.slot ha]
  have hinv : st1.nv.invalid a = st₀.nv.invalid a := by rw [happ.invalid a haT, h.invalid ha]
  have hpT : p = T'.stop := happ.stop.symm
  have hMfresh : ∀ b ∈ M, ¬ st₀.InUse (b / PAGE_SIZE) := by
    intro b hb huse
    exact happ.fresh b hb ((h.inUse _).2 (.inl huse))
  have hfresh : ∀ b ∈ basesOf F' ++ T'.base :: rest', ¬ st₀.InUse (b / PAGE_SIZE) := by
    intro b hb
    rw [happ.pages] at hb
    rcases mem_append.1 hb with hb | hb
    · exact h.fresh b hb
    · exact hMfresh b hb
  have hap : a ≠ p := by
    intro heq
    have hmem : T'.base ∈ basesOf F' ++ T'.base :: rest' := by simp
    apply hfresh _ hmem
    have hoff : blockOff a = T'.base := by rw [heq, hpT, happ.log.last.blockOff_stop]
    rw [← hoff, blockOff_div]
    exact ha
  have hfst : a ∉ kept.map Prod.fst := fun hmem =>
    hdone (h.moves.sub.subset hmem)
  have hsnd := h.notMem_snd ha
  -- offsets of earlier copies are not touched
  have hold : ∀ q ∈ kept, q.2 ≠ T.stop ∧ q.2 ≠ p := by
    intro q hq
    have hmem : q.2 ∈ kept.map Prod.snd := List.mem_map.2 ⟨q, hq, rfl⟩
    rw [← h.ents] at hmem
    refine ⟨h.log.stop_notMem _ hmem, ?_⟩
    rw [← happ.ents] at hmem
    rw [hpT]
    exact happ.log.stop_notMem _ hmem
  have hframe1 : Within (· ∈ basesOf F' ++ T'.base :: rest') st st1 := by
    apply happ.frame.mono
    intro b hb
    rw [happ.pages]
    rcases hb with rfl | hb
    · exact mem_append_left _ hpage
    · exact mem_append_right _ hb
  have hframe2 : Within (· ∈ basesOf F' ++ T'.base :: rest') st1
      (st1.ntStore (.slot p (st1.nv.slot a) (st1.nv.invalid a))) := by
    have hoff : blockOff p = T'.base := by rw [hpT, happ.log.last.blockOff_stop]
    have hne : ∀ x, ¬ blockOff x ∈ basesOf F' ++ T'.base :: rest' → x ≠ p := by
      intro x hx heq
      apply hx
      rw [heq, hoff]
      simp
    refine ⟨?_, ?_, fun _ _ => rfl, rfl, rfl, rfl, rfl⟩
    · intro x hx
      simp [apply, hne x hx]
    · intro x hx
      simp [apply, hne x hx]
  have hinfo1 : st1.info = st.info := happ.info
  have hlength : (basesOf F' ++ T'.base :: rest').length
      = (basesOf F ++ T.base :: rest).length + (if ext then 1 else 0) := by
    rw [happ.pages, length_append, hM]
  have hfr := hframe1.trans hframe2
  have hcopied : OwnerOnly ino st (st1.ntStore (.slot p (st1.nv.slot a) (st1.nv.invalid a))) :=
    (OwnerOnly.refl ino st).of_info (fun j _ => congrFun hfr.logHead j) hfr.record hfr.data hinfo1
  have ho := (h.owner.trans hcopied).setInfo _ (novaGcAssignNewEntry_fields
    (st1.ntStore (.slot p (st1.nv.slot a) (st1.nv.invalid a))).nv _ a p).2
  refine ⟨F', ⟨T'.base, T'.ents ++ [p], p + (st₀.nv.slot a).size⟩, rest',
    ⟨?_, ?_, ?_, hfresh, ?_, ?_, ?_, by simp, ?_, rfl, ?_, ho.others, ?_, ho.sihSize, ho.iSize,
      ho.attrs, ?_, ?_⟩, hlength, hspare⟩
  · -- the log with the copy
    rw [hpT]
    apply happ.log.push (e := st₀.nv.slot a)
    · rfl
    · intro x hx
      simp [apply, hx]
    · simp [apply, ← hpT, hslot]
    · exact hsize
    · rw [← hpT]
      exact happ.fits
  · -- the first page stays the first
    rw [← h.head, headD_pages rest', happ.pages]
    cases F <;> simp
  · have hframe0 : Within (· ∈ basesOf F' ++ T'.base :: rest') st₀ st := by
      apply h.frame.mono
      intro b hb
      rw [happ.pages]
      exact mem_append_left _ hb
    have := (hframe0.trans hframe1).trans hframe2
    exact ⟨this.slot, this.invalid, this.next, this.logHead, this.logTail, this.record, this.data⟩
  · intro b hb
    have hb' : b ∈ basesOf F ++ T.base :: rest ++ M := by
      rw [← happ.pages]
      exact hb
    rcases mem_append.1 hb' with hb' | hb'
    · exact h.onDevice b hb'
    · exact happ.onDevice b hb'
  · intro x
    have hx : st1.InUse x ↔ st₀.InUse x ∨
        ∃ b ∈ basesOf F' ++ T'.base :: rest', b / PAGE_SIZE = x := by
      rw [happ.inUse x, h.inUse x, happ.pages]
      constructor
      · intro hh
        rcases hh with (hh | ⟨b, hb, hbx⟩) | ⟨b, hb, hbx⟩
        · exact .inl hh
        · exact .inr ⟨b, mem_append_left _ hb, hbx⟩
        · exact .inr ⟨b, mem_append_right _ hb, hbx⟩
      intro hh
      rcases hh with hh | ⟨b, hb, hbx⟩
      · exact .inl (.inl hh)
      rcases mem_append.1 hb with hb | hb
      · exact .inl (.inr ⟨b, hb, hbx⟩)
      · exact .inr ⟨b, hb, hbx⟩
    exact hx
  · rw [← append_assoc, happ.ents, h.ents]
    simp
  · -- the moves
    refine ⟨?_, ?_, ?_, ?_, h.pair_copy hres⟩
    · rw [map_append]
      exact h.moves.sub.append_right [a]
    · intro q hq
      rcases mem_append.1 hq with hq | hq
      · obtain ⟨h1, h2⟩ := hold q hq
        obtain ⟨h3, h4⟩ := h.moves.same q hq
        refine ⟨?_, ?_⟩
        · simp only [setInfo_nv, ntStore_nv, apply]
          rw [update_of_ne h2, happ.slots _ h1, h3]
        · simp only [setInfo_nv, ntStore_nv, apply]
          rw [update_of_ne h2, happ.invalid _ h1, h4]
      · rw [mem_singleton.1 hq]
        simp [apply, hslot, hinv]
    · intro x hx hnot
      rw [map_append, mem_append, not_or] at hnot
      rcases mem_append.1 hx with hx | hx
      · exact h.moves.dropped x hx hnot.1
      · exact absurd hx hnot.2
    intro i
    have htree : ∀ j, (st1.info ino).tree.get j = ((st₀.info ino).tree.get j).map (reloc kept) := by
      intro j
      rw [hinfo1]
      exact h.moves.tree j
    have hkeys' : ∀ j, (st1.info ino).tree.get j = some a → ((st1.ntStore (.slot p (st1.nv.slot a)
          (st1.nv.invalid a))).nv.slot a).HasKey j := by
      intro j hj
      rw [htree j, map_eq_some_iff] at hj
      obtain ⟨x, hx, hxa⟩ := hj
      have hxa' : x = a := by
        by_cases hxk : x ∈ kept.map Prod.fst
        · exfalso
          apply hsnd
          rw [← hxa]
          exact List.mem_map.2 ⟨_, reloc_mem hxk, rfl⟩
        · rw [reloc_of_notMem hxk] at hxa
          exact hxa
      have hslot' : (st1.ntStore (.slot p (st1.nv.slot a)
          (st1.nv.invalid a))).nv.slot a = st₀.nv.slot a := by simp [apply, hap, hslot]
      rw [hslot']
      exact hkeys j a (hxa' ▸ hx)
    simp only [setInfo_info, update_self]
    rw [novaGcAssignNewEntry_tree hkeys' i, htree i, Option.map_map]
    congr 1
    funext x
    exact redirect_reloc hfst hsnd x
  · have hlen := congrArg length happ.pages
    have hb := h.blocks
    simp only [length_append, length_cons] at hlen hb ⊢
    cases ext with
    | false => simp only [Bool.false_eq_true, if_false] at hM ⊢; omega
    | true => simp only [if_true] at hM ⊢; omega
  · simp only [setInfo_info, update_self]
    rw [(novaGcAssignNewEntry_fields _ _ _ _).1, hinfo1]
    exact h.logPages
  · have hslot' : (st1.ntStore (.slot p (st1.nv.slot a)
        (st1.nv.invalid a))).nv.slot a = st₀.nv.slot a := by simp [apply, hap, hslot]
    refine ⟨?_, ?_, ?_⟩
    · simp only [setInfo_info, update_self]
      rw [novaGcAssignNewEntry_lastSetattr, hslot', hinfo1, h.setattr.last, lastCopied_snoc]
    · intro q hq hset
      rcases mem_append.1 hq with hq | hq
      · exact h.setattr.why q hq hset
      rw [mem_singleton.1 hq] at hset ⊢
      rcases setattr_live (by rw [h.slot ha]; exact hset) hlive with hs | hs
      · rw [h.slot ha] at hs
        exact .inl hs
      -- a copy is never taken for an old entry
      rw [h.setattr.last] at hs
      rcases lastCopied_cases st₀.nv (st₀.info ino).lastSetattr kept
        with ⟨hlast, -⟩ | ⟨r, hr, -, hlast⟩
      · exact .inr (hs.symm.trans hlast)
      exfalso
      apply hsnd
      rw [← hs, hlast]
      exact List.mem_map.2 ⟨r, hr, rfl⟩
    intro hin hset
    rcases mem_append.1 hin with hin | hin
    · rcases h.setattr.found hin hset with h1 | ⟨q, hq, h1⟩
      · rw [map_append]
        exact .inl (mem_append_left _ h1)
      · exact .inr ⟨q, mem_append_left _ hq, h1⟩
    rw [mem_singleton] at hin
    rw [hin]
    exact .inl (by simp)
  · intro hk
    simp at hk

/-- Old pages are read as before. -/
theorem land_eq (ha : st₀.InUse (a / PAGE_SIZE)) : land st.nv a = land st₀.nv a := by
  have hgo : gotoNextPage st.nv a = gotoNextPage st₀.nv a := by simp [gotoNextPage, h.slot ha]
  simp only [land, hgo, nextLogPage, h.frame.next _ (h.notMem ha)]

end

/-- The loop ends at the tail page. -/
theorem loop_end (h : CopyAt st₀ ino newHead st v.newCurr v.blocks done kept F T rest)
    (hto : ToCopy st₀ ino v.curr done [] e) (rounds : Nat) : copyLoop ino (rounds + 1) st v
      = some (st, { v with curr := land st.nv v.curr, oldCurr := v.curr }) := by
  obtain ⟨rfl, hne, hne0, hland, huse, -⟩ := hto
  have htail := h.frame.logTail
  have hgo : land st.nv v.curr / PAGE_SIZE = st.nv.logTail ino / PAGE_SIZE := by
    rw [h.land_eq huse, htail]
    exact hland
  rw [copyLoop, if_neg (by rw [htail]; exact hne), if_neg hne0]
  simp only [land] at hgo ⊢
  simp only [if_pos hgo]

/-- One round of the loop. -/
theorem loop_entry {L : List Nat}
    (h : CopyAt st₀ ino newHead st v.newCurr v.blocks done kept F T rest)
    (hto : ToCopy st₀ ino v.curr done (a :: L) e) (rounds : Nat) :
    copyLoop ino (rounds + 1) st v = if entryDead st.nv (st.info ino) a then copyLoop ino rounds st
            { v with curr := a + (st₀.nv.slot a).size, oldCurr := v.curr } else
          (appendHeadWith novaAppendOneLogPage st v.newCurr (st₀.nv.slot a).size).bind fun r =>
            if r.1 = 0 then Option.none else copyLoop ino rounds
                ((r.2.2.ntStore (.slot r.1 (r.2.2.nv.slot a) (r.2.2.nv.invalid a))).setInfo ino
                  (novaGcAssignNewEntry
                    (r.2.2.ntStore (.slot r.1 (r.2.2.nv.slot a) (r.2.2.nv.invalid a))).nv
                    (r.2.2.info ino) a r.1))
                ⟨a + (st₀.nv.slot a).size, v.curr, r.1 + (st₀.nv.slot a).size,
                  if r.2.1 then v.blocks + 1 else v.blocks⟩ := by
  obtain ⟨hne, hne0, hla, ha0, hsize, -, -⟩ := hto.walk
  have huse := hto.cursor
  have hpage := hto.front a mem_cons_self
  have hslot := h.slot (hto.inUse a mem_cons_self)
  have htail := h.frame.logTail
  have hla' : a = land st.nv v.curr := by
    rw [h.land_eq huse]
    exact hla
  have hapage : ¬ a / PAGE_SIZE = st.nv.logTail ino / PAGE_SIZE := by
    rw [htail]
    exact hpage
  have hlen : (currLogEntryInvalid st.nv (st.info ino) a).2 = (st₀.nv.slot a).size := by
    rw [currLogEntryInvalid_length, hslot]
    rw [hslot]
    exact hsize
  rw [copyLoop, if_neg (by rw [htail]; exact hne), if_neg hne0]
  simp only [land] at hla'
  rw [← hla']
  simp only [if_neg hapage, if_neg ha0, hlen]
  cases appendHeadWith novaAppendOneLogPage st v.newCurr (st₀.nv.slot a).size with
  | none => rfl
  | some r => rfl

end CopyAt

/-- The loop copies the live entries. -/
theorem copyLoop_spec (hkeys : KeysOk st₀.nv (st₀.info ino).tree) :
    ∀ (L : List Nat) {st st' : State al} {v v' : CopyVars} {done : List Nat}
      {kept : List (Nat × Nat)} {F : List Page} {T : Page} {rest : List Nat} {rounds : Nat},
      CopyAt st₀ ino newHead st v.newCurr v.blocks done kept F T rest →
      ToCopy st₀ ino v.curr done L e → copyLoop ino rounds st v = some (st', v') →
      ∃ kept' F' T' rest', CopyAt st₀ ino newHead st' v'.newCurr v'.blocks (done ++ L) kept'
          F' T' rest' ∧ v'.oldCurr = e := by
  intro L
  induction L with
  | nil =>
    intro st st' v v' done kept F T rest rounds h hto hres
    cases rounds with
    | zero => cases hres
    | succ rounds =>
      rw [h.loop_end hto] at hres
      cases hres
      refine ⟨kept, F, T, rest, ?_, hto.walk.symm⟩
      rw [append_nil]
      exact h
  | cons a L ih =>
    intro st st' v v' done kept F T rest rounds h hto hres
    have hause := hto.inUse a mem_cons_self
    obtain ⟨hnext, hadone, hsize⟩ := hto.next
    cases rounds with
    | zero => cases hres
    | succ rounds =>
      rw [h.loop_entry hto] at hres
      have happend : done ++ a :: L = done ++ [a] ++ L := by simp
      rw [happend]
      by_cases hdead : entryDead st.nv (st.info ino) a = true
      · rw [if_pos hdead] at hres
        exact ih (v := ⟨a + (st₀.nv.slot a).size, v.curr, v.newCurr, v.blocks⟩)
          (h.skip hause hdead) hnext hres
      rw [if_neg hdead, bind_eq_some_iff] at hres
      rw [Bool.not_eq_true] at hdead
      obtain ⟨⟨p, ext, st1⟩, happ, hres⟩ := hres
      by_cases hp : p = 0
      · rw [if_pos hp] at hres
        cases hres
      rw [if_neg hp] at hres
      obtain ⟨F', T', rest', hstep, -⟩ := h.copy_spare hause hadone hkeys
        hsize (hto.fits a mem_cons_self) hdead happ hp
      exact ih (v := ⟨a + (st₀.nv.slot a).size, v.curr, p + (st₀.nv.slot a).size,
        if ext then v.blocks + 1 else v.blocks⟩) hstep hnext hres

-- === the switch

/-- Linking the new log stores one mark. -/
theorem linkNewLog_frame (st : State al) (ino newHead p q : Nat) : SlotOnly p
    { st with nv := { st.nv with
      next := Function.update st.nv.next (blockOff p) q
      logHead := Function.update st.nv.logHead ino newHead } } (linkNewLog st ino newHead p q) := by
  have hflag := novaSetNextPageFlag_frame st p
  refine ⟨?_, ?_, ?_, ?_, ?_, ?_, ?_, ?_, ?_⟩
  · intro a ha
    simp [apply, hflag.slot a ha]
  · intro a ha
    simp [apply, hflag.invalid a ha]
  · simp [apply, hflag.next]
  · simp [apply, hflag.logHead]
  · simp [apply, hflag.logTail]
  · simp [apply, hflag.record]
  · simp [hflag.data]
  · simp [hflag.alloc]
  · simp [hflag.info]

/-- The last page of the new log is full. -/
theorem linkNewLog_sealed (ino newHead q : Nat) (hT : T.Holds st.nv) (hne : T.ents ≠ []) :
    T.Sealed (linkNewLog st ino newHead T.stop q).nv := by
  have h := sealed_of_flag hT hne
  have hslot : (linkNewLog st ino newHead T.stop q).nv.slot
      = (novaSetNextPageFlag st T.stop).nv.slot := by simp [apply]
  apply h.of_page
  intro a _
  rw [hslot]

/-- Spare pages are given back. -/
theorem freeSpare_spec (hlog : OpenLog st.nv F T rest) (huse : ∀ p ∈ rest, st.InUse (p / PAGE_SIZE))
    (hdev : ∀ p ∈ rest, p / PAGE_SIZE < al.numBlocks) :
    ∃ st1, freeSpare st (rest.headD 0) = some st1 ∧ LinksOnly [] st st1 ∧
      ∀ x, st1.InUse x ↔ st.InUse x ∧ x * PAGE_SIZE ∉ rest := by
  cases hrest : rest with
  | nil =>
    refine ⟨st, ?_, LinksOnly.refl st, by simp⟩
    simp only [freeSpare, headD_nil, ne_eq, not_true_eq_false, if_false]
  | cons q r =>
    have hq : rest.headD 0 ≠ 0 := by
      have := (hlog.spare q (by rw [hrest]; simp)).2
      rw [hrest]
      simp only [headD_cons]
      omega
    have hchain : Linked st.nv.next rest 0 := by
      have hc := hlog.chain
      rw [Linked.append_iff] at hc
      exact hc.2.2
    have hnodup : rest.Nodup := by
      have hn := hlog.nodup
      rw [nodup_append] at hn
      exact (nodup_cons.1 hn.2.1).2
    obtain ⟨st2, hst2, hframe, hiff⟩ := novaFreeContiguousLogBlocks_spec
      hchain hlog.spare hnodup huse hdev
    rw [← hrest]
    refine ⟨st2, ?_, hframe, hiff⟩
    rw [freeSpare, if_pos hq, hst2]

/-- The pages written to are pages of the new log. -/
theorem mem_pages_of_written {p : Nat} (hp : p ∈ basesOf (F ++ [T])) :
    p ∈ basesOf F ++ T.base :: rest := by
  rw [basesOf_append, mem_append] at hp
  cases hp with
  | inl hF => exact mem_append_left _ hF
  | inr hT =>
    rw [basesOf_cons, basesOf_nil, mem_singleton] at hT
    rw [hT]
    exact mem_append_right _ mem_cons_self

/-- The new log takes the place of the old pages, which are given back. -/
theorem switchLog_exact {checked : Nat} {v : CopyVars} {A B : List Page} {T0 : Page}
    {rest0 : List Nat} {kept : List (Nat × Nat)} (hinv : LogInv st₀ ino A B T0 rest0) (hA : A ≠ [])
    (h : CopyAt st₀ ino newHead st v.newCurr v.blocks (entsOf A)
      kept F T rest) (hkept : kept ≠ []) (hold : ∀ A1 w, A = A1 ++ [w] → v.oldCurr = w.stop)
    (hchecked : checked = A.length) :
    ∃ st', switchLog st ino newHead v checked = some st' ∧ LogInv st' ino (F ++ [T]) B T0 rest0 ∧
      Collected st₀ st' ino A (F ++ [T]) [] kept ∧
      (∀ x, st'.InUse x ↔ (st₀.InUse x ∧ x * PAGE_SIZE ∉ basesOf A) ∨
        x * PAGE_SIZE ∈ basesOf (F ++ [T])) ∧
      (st'.info ino).logPages = (st₀.info ino).logPages + v.blocks - checked := by
  obtain ⟨A1, w, hAw⟩ : ∃ A1 w, A = A1 ++ [w] := ⟨_, _, (dropLast_append_getLast hA).symm⟩
  have hw : w ∈ A := by
    rw [hAw]
    simp
  have hwS := hinv.full hw
  have holdw := hold A1 w hAw
  have hTne := h.last hkept
  have hTbase : T.base ∈ basesOf F ++ T.base :: rest := by simp
  -- step 1: spare pages of the new log go back
  obtain ⟨st1, hfree, hlinks1, huse1⟩ := freeSpare_spec h.log
    (fun p hp => (h.inUse _).2 (.inr ⟨p, by simp [hp], rfl⟩))
    (fun p hp => h.onDevice p (by simp [hp]))
  have hlast1 : T.Holds st1.nv := by
    apply h.log.last.of_page
    intro a _
    rw [hlinks1.slot]
  have hTstop : blockOff T.stop = T.base := h.log.last.blockOff_stop
  -- pages in use before are none of the new ones
  have hnew : ∀ p, IsPage p → st₀.InUse (p / PAGE_SIZE) →
      p ∉ basesOf F ++ T.base :: rest := fun p _ hu hmem =>
    h.fresh p hmem hu
  have hpagesA : ∀ p ∈ basesOf A, IsPage p := fun p hp =>
    hinv.isPage (mem_append_left _ hp)
  have huseA : ∀ p ∈ basesOf A, st₀.InUse (p / PAGE_SIZE) := fun p hp =>
    hinv.inUse p (mem_append_left _ hp)
  have hAnew : ∀ p ∈ basesOf A, p ∉ basesOf F ++ T.base :: rest := fun p hp =>
    hnew p (hpagesA p hp) (huseA p hp)
  have hVnew : ∀ p ∈ tailPages B T0 rest0, p ∉ basesOf F ++ T.base :: rest :=
    fun p hp => hnew p (hinv.isPage (mem_append_right _ hp))
      (hinv.inUse p (mem_append_right _ hp))
  have hwA : w.base ∈ basesOf A := mem_basesOf.2 ⟨w, hw, rfl⟩
  have hnodupAV := hinv.nodup
  rw [nodup_append] at hnodupAV
  obtain ⟨hnodupA, hnodupV, hdisjAV⟩ := hnodupAV
  -- the links after the old log is cut off
  set q := (tailPages B T0 rest0).headD 0 with hq
  have hlink := linkNewLog_frame st1 ino newHead T.stop q
  set st3 := novaSetNextPageAddress (linkNewLog st1 ino newHead T.stop q)
    w.base 0 true with hst3
  have hnext3 : st3.nv.next = Function.update (Function.update st.nv.next T.base q) w.base 0 := by
    have hn1 : st1.nv.next = st.nv.next := by
      funext p
      exact hlinks1.next p not_mem_nil
    rw [novaSetNextPageAddress_nv]
    simp only [apply, hlink.next, hTstop, hn1]
  have hnext3_old : ∀ p, p ∉ basesOf F ++ T.base :: rest → p ≠ w.base →
      st3.nv.next p = st₀.nv.next p := by
    intro p hp hpw
    have hpT : p ≠ T.base := by
      intro heq
      rw [heq] at hp
      exact hp hTbase
    rw [hnext3, update_of_ne hpw, update_of_ne hpT, h.frame.next p hp]
  have hwT : w.base ≠ T.base := by
    intro heq
    apply hAnew _ hwA
    rw [heq]
    exact hTbase
  -- steps 3 and 4: the old log is cut off and freed
  have hchainA : Linked st3.nv.next (basesOf A) 0 := by
    have hc := hinv.chain
    rw [Linked.append_iff] at hc
    have hbases : basesOf A = basesOf A1 ++ [w.base] := by
      rw [hAw]
      simp
    have hwnot : w.base ∉ basesOf A1 := by
      rw [hbases, nodup_append] at hnodupA
      intro hmem
      exact hnodupA.2.2 _ hmem _ mem_cons_self rfl
    have hcA := hc.1
    rw [hbases] at hcA ⊢
    have hcut := hcA.update_last (q := 0) hwnot
    apply hcut.congr
    intro p hp
    by_cases hpw : p = w.base
    · rw [hpw, update_self, hnext3, update_self]
    rw [update_of_ne hpw]
    apply hnext3_old p _ hpw
    apply hAnew
    rw [hbases]
    exact hp
  have hinUse3 : ∀ x, st3.InUse x ↔ st.InUse x ∧ x * PAGE_SIZE ∉ rest := by
    intro x
    have : st3.alloc = st1.alloc := by rw [hst3, novaSetNextPageAddress_alloc, hlink.alloc]
    rw [State.InUse, this]
    exact huse1 x
  have huse3A : ∀ p ∈ basesOf A, st3.InUse (p / PAGE_SIZE) := by
    intro p hp
    rw [hinUse3, h.inUse, div_mul_page (hpagesA p hp)]
    refine ⟨.inl (huseA p hp), ?_⟩
    intro hmem
    exact hAnew p hp (by simp [hmem])
  have hheadA : st.nv.logHead ino = (basesOf A).headD 0 := by
    rw [h.frame.logHead, hinv.head]
    cases A with
    | nil => exact absurd rfl hA
    | cons x A => simp
  obtain ⟨st4, hst4, hlinks4, huse4⟩ := novaFreeContiguousLogBlocks_spec
    hchainA hpagesA hnodupA huse3A
    (fun p hp => hinv.onDevice p (mem_append_left _ hp))
  -- the last old page leads to the tail page
  have hwq : (linkNewLog st1 ino newHead T.stop q).nv.next w.base = q := by
    have hc := hinv.chain
    rw [hAw, basesOf_append, basesOf_cons, basesOf_nil, append_assoc, cons_append, nil_append] at hc
    simp only [hlink.next, hTstop, update_of_ne hwT]
    rw [hlinks1.next w.base not_mem_nil, h.frame.next _ (hAnew _ hwA), hc.next_eq]
  have hrun : switchLog st ino newHead v checked = some (st4.setInfo ino
      { st4.info ino with
        logPages := (st4.info ino).logPages + v.blocks - checked }) := by
    simp only [switchLog, bind_eq_bind, Option.pure_def, h.cursor, hTstop,
      h.log.next_last, hfree, bind_some, holdw, hwS.toHolds.blockOff_stop,
      h.frame.logTail, hinv.tail, ← hq]
    rw [if_neg (not_not.2 hwq), hheadA, hst4]
    rfl
  -- the state after all four steps, field by field
  have hnext4 : st4.nv.next = st3.nv.next := by
    funext p
    exact hlinks4.next p not_mem_nil
  have hslot4 : ∀ a, a ≠ T.stop → st4.nv.slot a = st.nv.slot a := by
    intro a ha
    rw [hlinks4.slot, novaSetNextPageAddress_nv]
    simp only [apply]
    rw [hlink.slot a ha, hlinks1.slot]
  have hinvalid4 : ∀ a, a ≠ T.stop → st4.nv.invalid a = st.nv.invalid a := by
    intro a ha
    rw [hlinks4.invalid, novaSetNextPageAddress_nv]
    simp only [apply]
    rw [hlink.invalid a ha, hlinks1.invalid]
  have hinfo4 : st4.info = st.info := by
    rw [hlinks4.info, novaSetNextPageAddress_info, hlink.info, hlinks1.info]
  have hlogHead4 : st4.nv.logHead = Function.update st₀.nv.logHead ino newHead := by
    rw [hlinks4.logHead, novaSetNextPageAddress_nv]
    simp only [apply, hlink.logHead, hlinks1.logHead, h.frame.logHead]
  have hlogTail4 : st4.nv.logTail = st₀.nv.logTail := by
    rw [hlinks4.logTail, novaSetNextPageAddress_nv]
    simp only [apply, hlink.logTail, hlinks1.logTail, h.frame.logTail]
  have hrecord4 : st4.nv.record = st₀.nv.record := by
    rw [hlinks4.record, novaSetNextPageAddress_nv]
    simp only [apply, hlink.record, hlinks1.record, h.frame.record]
  have hdata4 : st4.data = st₀.data := by
    rw [hlinks4.data, novaSetNextPageAddress_data, hlink.data, hlinks1.data, h.frame.data]
  have hslot_old : ∀ a, st₀.InUse (a / PAGE_SIZE) →
      st4.nv.slot a = st₀.nv.slot a ∧ st4.nv.invalid a = st₀.nv.invalid a := by
    intro a ha
    have hne : a ≠ T.stop := by
      intro heq
      apply h.notMem ha
      rw [heq, hTstop]
      exact hTbase
    exact ⟨(hslot4 a hne).trans (h.slot ha), (hinvalid4 a hne).trans (h.invalid ha)⟩
  have hinUse' : ∀ x, st4.InUse x ↔ (st₀.InUse x ∧ x * PAGE_SIZE ∉ basesOf A) ∨
        x * PAGE_SIZE ∈ basesOf (F ++ [T]) := by
    intro x
    have hpagesN : ∀ p ∈ basesOf F ++ T.base :: rest, IsPage p := fun p hp =>
      h.log.isPage hp
    have hx := h.inUse x
    rw [exists_div_eq_iff hpagesN] at hx
    rw [huse4, hinUse3, hx]
    have hbases : basesOf (F ++ [T]) = basesOf F ++ [T.base] := by simp
    rw [hbases]
    simp only [mem_append, mem_cons, not_mem_nil, or_false]
    constructor
    · intro hh
      obtain ⟨⟨h1 | h1 | h1 | h1, h2⟩, h3⟩ := hh
      · exact .inl ⟨h1, h3⟩
      · exact .inr (.inl h1)
      · exact .inr (.inr h1)
      · exact absurd h1 h2
    intro hh
    rcases hh with ⟨h1, h2⟩ | hh
    · refine ⟨⟨.inl h1, ?_⟩, h2⟩
      intro hmem
      have hp : IsPage (x * PAGE_SIZE) := hpagesN _ (by simp [hmem])
      refine hnew _ hp ?_ (by simp [hmem])
      have : x * PAGE_SIZE / PAGE_SIZE = x := by
        simp only [PAGE_SIZE]
        omega
      rw [this]
      exact h1
    have hmem : x * PAGE_SIZE ∈ basesOf F ++ [T.base] := by simpa using hh
    refine ⟨⟨.inr ?_, ?_⟩, ?_⟩
    · rcases hh with hh | hh
      · exact .inl hh
      · exact .inr (.inl hh)
    · intro hr
      have hn := h.log.nodup
      rw [← singleton_append, ← append_assoc, nodup_append] at hn
      exact hn.2.2 _ hmem _ hr rfl
    intro hxA
    apply hAnew _ hxA
    rcases hh with hh | hh
    · simp [hh]
    · simp [hh]
  have hVA : ∀ p ∈ tailPages B T0 rest0, p ≠ w.base := by
    intro p hp heq
    exact hdisjAV w.base hwA p hp heq.symm
  have hlogPages : ((st4.setInfo ino { st4.info ino with
      logPages := (st4.info ino).logPages + v.blocks - checked }).info ino).logPages
      = (st₀.info ino).logPages + v.blocks - checked := by
    simp only [setInfo_info, update_self, hinfo4, h.logPages]
  refine ⟨_, hrun, ?_, ?_, hinUse', hlogPages⟩
  · -- the log with the new pages
    apply hinv.replace
    · intro x hx
      rcases mem_append.1 hx with hx | hx
      · apply (h.log.full x hx).of_page
        intro a ha
        apply hslot4
        intro heq
        rw [heq, hTstop] at ha
        exact h.log.base_ne hx ha.symm
      rw [mem_singleton.1 hx]
      have hsealed := linkNewLog_sealed ino newHead q hlast1 hTne
      apply hsealed.of_page
      intro a _
      simp only [setInfo_nv]
      rw [hlinks4.slot]
      rfl
    · have hc := h.log.chain
      rw [Linked.append_iff] at hc
      have hcV := hinv.chain
      rw [Linked.append_iff] at hcV
      simp only [setInfo_nv, basesOf_append, basesOf_cons, basesOf_nil,
        append_assoc, cons_append, nil_append]
      rw [Linked.append_iff, hnext4]
      refine ⟨?_, ?_, ?_⟩
      · apply hc.1.congr
        intro p hp
        have hpw : p ≠ w.base := by
          intro heq
          apply hAnew _ hwA
          rw [← heq]
          simp [hp]
        have hpT : p ≠ T.base := by
          obtain ⟨x, hx, rfl⟩ := mem_basesOf.1 hp
          exact h.log.base_ne hx
        rw [hnext3, update_of_ne hpw, update_of_ne hpT]
      · rw [hnext3, update_of_ne hwT.symm, update_self]
      apply hcV.2.congr
      intro p hp
      exact hnext3_old p (hVnew p hp) (hVA p hp)
    · have hn := h.log.nodup
      rw [← singleton_append, ← append_assoc, nodup_append] at hn
      rw [nodup_append]
      refine ⟨by simpa using hn.1, hnodupV, ?_⟩
      intro p hp r hr heq
      subst heq
      apply hVnew p hr
      exact mem_pages_of_written hp
    · intro a ha
      have hmemV := hinv.inUse _ (mem_append_right _ ha)
      rw [blockOff_div] at hmemV
      exact (hslot_old a hmemV).1
    · simp only [setInfo_nv]
      rw [hlogHead4, ← h.head]
      cases F <;> simp
    · simp only [setInfo_nv]
      rw [hlogTail4]
    · intro p hp
      have hx := hinUse' (p / PAGE_SIZE)
      have hgoal : st4.InUse (p / PAGE_SIZE) := by
        rw [hx]
        rcases mem_append.1 hp with hp | hp
        · right
          have hpage : IsPage p := by
            apply h.log.isPage
            exact mem_pages_of_written hp
          rw [div_mul_page hpage]
          exact hp
        left
        have hpage := hinv.isPage (mem_append_right _ hp)
        rw [div_mul_page hpage]
        refine ⟨hinv.inUse p (mem_append_right _ hp), ?_⟩
        intro hpA
        exact hdisjAV p hpA p hp rfl
      exact hgoal
    · intro p hp
      apply h.onDevice
      exact mem_pages_of_written hp
    have hcount := hinv.count
    have hblocks := h.blocks
    have hpages := h.logPages
    simp only [setInfo_info, update_self, hinfo4, hpages, hchecked]
    simp only [basesOf, length_append, length_map, length_cons, length_nil] at hcount hblocks ⊢
    omega
  · have howner : OwnerOnly ino st₀ st4 := h.owner.of_info
      (fun j hj => by rw [hlogHead4, update_of_ne hj]) hrecord4 hdata4 hinfo4
    have ho := howner.setInfo { st4.info ino with
      logPages := (st4.info ino).logPages + v.blocks - checked } ⟨rfl, rfl, rfl⟩
    refine ⟨⟨h.moves.sub, ?_, h.moves.dropped, ?_, h.moves.pair⟩, ?_, ?_, ?_, ?_, ho.logHead,
      hlogTail4, ho.record, ho.data, ho.others, ho.sihSize, ho.iSize, ho.attrs, ?_, ?_, ?_, ?_⟩
    · intro r hr
      have hmem : r.2 ∈ kept.map Prod.snd := List.mem_map.2 ⟨r, hr, rfl⟩
      rw [← h.ents] at hmem
      have hne := h.log.stop_notMem _ hmem
      obtain ⟨h1, h2⟩ := h.moves.same r hr
      exact ⟨(hslot4 _ hne).trans h1, (hinvalid4 _ hne).trans h2⟩
    · intro i
      simp only [setInfo_info, update_self, hinfo4]
      exact h.moves.tree i
    · rw [← h.ents]
      simp
    · intro a ha _
      exact (hslot_old a ha).1
    · intro a ha _
      exact (hslot_old a ha).2
    · intro b hb hbu hbA _
      simp only [setInfo_nv, hnext4]
      apply hnext3_old b (hnew b hb hbu)
      intro heq
      rw [heq] at hbA
      exact hbA hwA
    · intro x hx hxA
      exact (hinUse' x).2 (.inl ⟨hx, hxA⟩)
    · intro b hb
      right
      apply h.fresh
      exact mem_pages_of_written hb
    · intro hall
      exfalso
      apply hAnew w.base hwA
      have := hall w.base hwA
      exact mem_pages_of_written this
    refine .inr ⟨?_, h.setattr.why, h.setattr.found⟩
    simp only [setInfo_info, update_self, hinfo4]
    exact h.setattr.last

end Themis.Log
