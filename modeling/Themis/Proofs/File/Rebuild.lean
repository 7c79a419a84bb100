/-
`nova_rebuild_file_inode_tree` on a log that can be walked: it returns,
and what it leaves in the tree and in the size is the replay of the
entries.
-/
import Themis.Proofs.File.Replay
import Themis.Proofs.File.Tree
import Themis.Proofs.Log.Walk

namespace Themis.File

open Lib Log List Function

variable {al : BlockAllocator} {st st₀ : State al} {ino : Nat}
variable {nv : Nvmm} {F : List Page} {T : Page} {rest : List Nat}

attribute [local simp] State.setInfo

/-- A write entry that maps nothing any more. -/
def deadWrite (nv : Nvmm) (a : Nat) : Bool :=
  match nv.slot a with
  | .fileWrite e => e.numPages = nv.invalid a
  | _ => false

/-- A rebuild that started in `st₀` has reached the page map and the size
in `v`. -/
structure RebuildAt (st₀ st : State al) (ino : Nat)
    (v : (Nat → Option Nat) × Nat) : Prop where
  nv : ∃ r, st.nv
    = { st₀.nv with record := Function.update st₀.nv.record ino r }
  data : st.data = st₀.data
  alloc : st.alloc = st₀.alloc
  trace : st.trace = st₀.trace
  others : ∀ j, j ≠ ino → st.info j = st₀.info j
  tree : (st.info ino).tree.get = v.1
  size : (st.nv.record ino).iSize = v.2
  starts : StartsOk st ino

namespace RebuildAt

variable {v : (Nat → Option Nat) × Nat} {a : Nat}

variable (h : RebuildAt st₀ st ino v)
include h

/-- Entries stay. -/
theorem slot : st.nv.slot = st₀.nv.slot := by
  obtain ⟨r, hr⟩ := h.nv
  rw [hr]

/-- Counters stay. -/
theorem invalid : st.nv.invalid = st₀.nv.invalid := by
  obtain ⟨r, hr⟩ := h.nv
  rw [hr]

/-- Links stay. -/
theorem next : st.nv.next = st₀.nv.next := by
  obtain ⟨r, hr⟩ := h.nv
  rw [hr]

/-- The tail stays. -/
theorem logTail : st.nv.logTail = st₀.nv.logTail := by
  obtain ⟨r, hr⟩ := h.nv
  rw [hr]

/-- The header changes, but not its tree. -/
theorem setInfo {i : InodeInfo} (hi : i.tree = (st.info ino).tree) :
    RebuildAt st₀ (st.setInfo ino i) ino v where
  nv := h.nv
  data := h.data
  alloc := h.alloc
  trace := h.trace
  others j hj := by
    simp only [State.setInfo, update_of_ne hj]
    exact h.others j hj
  tree := by
    simp only [State.setInfo, update_self, hi]
    exact h.tree
  size := h.size
  starts j a hj := by
    simp only [State.setInfo, update_self, hi] at hj
    exact h.starts j a hj

/-- The record takes a size. -/
theorem setRecord {r : Record} {s : Nat}
    (hs : r.iSize = s) : RebuildAt st₀ (setRecord st ino r) ino (v.1, s) where
  nv := by
    obtain ⟨r0, hr0⟩ := h.nv
    refine ⟨r, ?_⟩
    simp [File.setRecord, hr0]
  data := h.data
  alloc := h.alloc
  trace := h.trace
  others := h.others
  tree := h.tree
  size := by simp [File.setRecord, hs]
  starts := h.starts

/-- The tree changes. -/
theorem setTree {t : Radix Nat} (hstarts : ∀ i b, t.get i = some b → (entryAt st.nv b).pgoff ≤ i) :
    RebuildAt st₀ (setTree st ino t) ino (t.get, v.2) where
  nv := h.nv
  data := h.data
  alloc := h.alloc
  trace := h.trace
  others j hj := by
    simp only [File.setTree, State.setInfo, update_of_ne hj]
    exact h.others j hj
  tree := by rw [setTree_tree]
  size := h.size
  starts i b hb := by
    rw [setTree_tree] at hb
    exact hstarts i b hb

/-- A write entry is applied. -/
theorem applyWriteEntry {e : FileWriteEntry} (he : st₀.nv.slot a = .fileWrite e) :
    RebuildAt st₀ (applyWriteEntry st ino a e) ino
      (replayStep st₀.nv.slot (deadWrite st₀.nv) v a) := by
  have hentry : entryAt st.nv a = e := by simp [entryAt, h.slot, he]
  have hmapped : RebuildAt st₀
      (if e.numPages ≠ st.nv.invalid a then novaAssignWriteEntry st ino a false else st) ino
      ((replayStep st₀.nv.slot (deadWrite st₀.nv) v a).1, v.2) := by
    simp only [replayStep, he, deadWrite, h.invalid]
    by_cases hd : e.numPages = st₀.nv.invalid a
    · simpa [hd] using h
    rw [if_pos hd]
    simp only [hd, decide_false, Bool.false_eq_true, if_false]
    have hset : novaAssignWriteEntry st ino a false = File.setTree st ino
        (setRange (st.info ino).tree a e.pgoff e.numPages) := by
      simp only [novaAssignWriteEntry, hentry]
      exact assignLoop_keep ino a _ _ _
    rw [hset]
    have hget : (setRange (st.info ino).tree a e.pgoff e.numPages).get
        = fun i => if e.pgoff ≤ i ∧ i < e.pgoff + e.numPages then some a
          else v.1 i := by
      funext i
      rw [setRange_get, h.tree]
    rw [← hget]
    apply h.setTree
    intro i b hb
    rw [setRange_get] at hb
    split at hb
    · rename_i hr
      rw [Option.some.injEq] at hb
      rw [← hb, hentry]
      exact hr.1
    · exact h.starts i b hb
  have hstep : (replayStep st₀.nv.slot (deadWrite st₀.nv) v a).2 = e.size := by
    simp [replayStep, he]
  exact (hmapped.setRecord hstep.symm).setInfo rfl

/-- A SET_ATTR entry is applied. -/
theorem novaApplySetattrEntry {e : SetattrEntry} (he : st₀.nv.slot a = .setAttr e) :
    RebuildAt st₀ (novaApplySetattrEntry st ino e) ino
      (replayStep st₀.nv.slot (deadWrite st₀.nv) v a) := by
  have hcut : RebuildAt st₀ (cutTree st ino e) ino
      ((replayStep st₀.nv.slot (deadWrite st₀.nv) v a).1, v.2) := by
    simp only [replayStep, he, cutTree, h.size]
    by_cases hc : v.2 > e.size ∧ isReg e.mode = true
    · have hpos : v.2 > 0 := by omega
      rw [if_pos hc, if_pos hc, if_pos hpos]
      split
      · rename_i hgt
        -- nothing lies between the two sizes
        have hsame : (fun i => if pagesFor e.size ≤ i ∧ i ≤ (v.2 - 1) / PAGE_SIZE
            then none else v.1 i) = v.1 := by
          funext i
          rw [if_neg (by omega)]
        rw [hsame]
        exact h
      obtain ⟨t, ht, hget⟩ := novaDeleteFileTree_keep
        (pagesFor e.size) ((v.2 - 1) / PAGE_SIZE) h.starts
      rw [ht]
      have hfun : t.get = fun i => if pagesFor e.size ≤ i ∧
          i ≤ (v.2 - 1) / PAGE_SIZE then none else v.1 i := by
        funext i
        rw [hget i, h.tree]
      rw [← hfun]
      apply h.setTree
      intro i b hb
      rw [hget i] at hb
      split at hb
      · cases hb
      · exact h.starts i b hb
    · rw [if_neg hc, if_neg hc]
      exact h
  have hstep : (replayStep st₀.nv.slot (deadWrite st₀.nv) v a).2 = e.size := by
    simp [replayStep, he]
  exact (hcut.setRecord hstep.symm).setInfo rfl

/-- An entry is applied. -/
theorem rebuildEntry (hok : EntryOk (st₀.nv.slot a)) :
    RebuildAt st₀ (rebuildEntry st ino a).1 ino (replayStep st₀.nv.slot (deadWrite st₀.nv) v a) ∧
      (File.rebuildEntry st ino a).2 = (st₀.nv.slot a).size := by
  unfold File.rebuildEntry
  rw [h.slot]
  cases hs : st₀.nv.slot a with
  | fileWrite e => exact ⟨h.applyWriteEntry hs, rfl⟩
  | setAttr e => exact ⟨(h.novaApplySetattrEntry hs).setInfo rfl, rfl⟩
  | linkChange e =>
    have hstep : replayStep st₀.nv.slot (deadWrite st₀.nv) v a = v := by simp [replayStep, hs]
    rw [hstep]
    have hrec : RebuildAt st₀ (novaApplyLinkChangeEntry st ino e) ino v := h.setRecord h.size
    exact ⟨hrec.setInfo rfl, rfl⟩
  | _ =>
    rw [hs] at hok
    cases hok

end RebuildAt

/-- Setting a tree counts no page. -/
theorem setTree_logPages (st : State al) (ino : Nat) (t : Radix Nat) :
    ((setTree st ino t).info ino).logPages = (st.info ino).logPages := by
  simp [setTree]

/-- Applying an entry counts no page. -/
theorem rebuildEntry_logPages (st : State al) (ino a : Nat) (h : StartsOk st ino) :
    ((rebuildEntry st ino a).1.info ino).logPages = (st.info ino).logPages := by
  unfold rebuildEntry
  split
  · rename_i e _
    have hcut : ((cutTree st ino e).info ino).logPages = (st.info ino).logPages := by
      unfold cutTree
      simp only
      generalize (if (st.nv.record ino).iSize > 0 then
        ((st.nv.record ino).iSize - 1) / PAGE_SIZE else 0) = last
      split
      · split
        · rfl
        · obtain ⟨t, ht, -⟩ := novaDeleteFileTree_keep (pagesFor e.size) _ h
          rw [ht, setTree_logPages]
      · rfl
    simpa [novaApplySetattrEntry, setRecord] using hcut
  · simp [novaApplyLinkChangeEntry, setRecord]
  · have hassign : ∀ b, ((novaAssignWriteEntry st ino b false).info ino).logPages
        = (st.info ino).logPages := by
      intro b
      rw [novaAssignWriteEntry, assignLoop_keep, setTree_logPages]
    simp only [applyWriteEntry, setRecord, State.setInfo, update_self]
    split
    · exact hassign a
    · rfl
  · rfl

-- === owner, group and mode

/-- What SET_ATTR entries leave besides the size: the mode, the owner and
the group, and which entry was the last. -/
structure Owner where
  mode : Nat
  uid : Nat
  gid : Nat
  last : Nat
  deriving Repr, DecidableEq

/-- Owner and attributes of an inode, with its last SET_ATTR entry. -/
def ownerOf (st : State al) (ino : Nat) : Owner where
  mode := (st.nv.record ino).attrs.mode
  uid := (st.nv.record ino).attrs.uid
  gid := (st.nv.record ino).attrs.gid
  last := (st.info ino).lastSetattr

/-- What an entry does to the owner. -/
def ownerStep (slot : Nat → LogEntry) (o : Owner) (a : Nat) : Owner :=
  match slot a with
  | .setAttr e => ⟨e.mode, e.uid, e.gid, a⟩
  | _ => o

/-- An entry is applied to the owner. -/
theorem rebuildEntry_owner (st : State al) (ino a : Nat) :
    ownerOf (rebuildEntry st ino a).1 ino = ownerStep st.nv.slot (ownerOf st ino) a := by
  unfold rebuildEntry ownerStep
  cases st.nv.slot a with
  | setAttr e => simp [ownerOf, novaApplySetattrEntry, setRecord]
  | linkChange e => simp [ownerOf, novaApplyLinkChangeEntry, setRecord]
  | fileWrite e =>
    have hassign : ownerOf (if e.numPages ≠ st.nv.invalid a then
        novaAssignWriteEntry st ino a false else st) ino = ownerOf st ino := by
      split
      · rw [novaAssignWriteEntry, assignLoop_keep]
        simp [ownerOf, setTree]
      · rfl
    rw [← hassign]
    simp only [applyWriteEntry, ownerOf, setRecord, State.setInfo, update_self]
  | _ => rfl

-- === the walk

/-- How often a walk goes to another page. -/
def jumps (nv : Nvmm) : Nat → List Nat → Nat
  | _, [] => 0
  | c, a :: L =>
    (if gotoNextPage nv c then 1 else 0) + jumps nv (a + (nv.slot a).size) L

/-- Two walks. -/
theorem jumps_append {t c d : Nat} {L M : List Nat} (h : WalkTo nv t c L d) :
    jumps nv c (L ++ M) = jumps nv c L + jumps nv d M := by
  induction L generalizing c with
  | nil =>
    have hdc : d = c := h
    simp [jumps, hdc]
  | cons a L ih =>
    obtain ⟨-, -, -, -, -, -, hrest⟩ := h
    simp only [cons_append, jumps, ih hrest]
    omega

/-- Within a page there is no jump. -/
theorem jumps_seg {b c e : Nat} {L : List Nat} (hb : IsPage b) (hbc : b ≤ c) (h : Seg nv b c L e) :
    jumps nv c L = 0 := by
  induction L generalizing c with
  | nil => rfl
  | cons a L ih =>
    obtain ⟨rfl, hsize, hfit, hrest⟩ := h
    have hstay : gotoNextPage nv a = false := by
      have hloc : entryLoc a = a - b := by
        apply entryLoc_eq hb hbc
        simp only [LAST_ENTRY, PAGE_SIZE] at *
        omega
      simp only [gotoNextPage, hloc, Bool.or_eq_false_iff, decide_eq_false_iff_not]
      refine ⟨by omega, ?_⟩
      intro hnext
      simp [hnext, LogEntry.size] at hsize
    simp only [jumps, hstay, Bool.false_eq_true, if_false, Nat.zero_add]
    exact ih (by omega) hrest

/-- The end of a full page is a jump. -/
theorem Page.Sealed.gotoNextPage {nv : Nvmm} {w : Page} (hw : w.Sealed nv) :
    gotoNextPage nv w.stop = true := by
  simp only [Log.gotoNextPage, hw.toHolds.entryLoc_stop, Bool.or_eq_true, decide_eq_true_eq]
  rcases hw.mark with h | h
  · left
    omega
  · right
    exact h

/-- One jump for each full page. -/
theorem jumps_pages : ∀ (F : List Page) {T : Page},
    (∀ w ∈ F, w.Sealed nv) → T.Holds nv → (F ≠ [] → T.ents ≠ []) →
    jumps nv ((basesOf F ++ [T.base]).headD 0) (entsOf F ++ T.ents) = F.length := by
  intro F
  induction F with
  | nil =>
    intro T _ hT _
    simpa using jumps_seg hT.isPage le_rfl hT.seg
  | cons w F ih =>
    intro T hfull hT hne
    have hw := hfull w mem_cons_self
    have hTne := hne (by simp)
    have hrest := ih (fun x hx => hfull x (mem_cons_of_mem _ hx)) hT
      (fun _ => hTne)
    -- from the end of the page one jump leads to the entries behind it
    have hfirst : ∃ a L, entsOf F ++ T.ents = a :: L ∧
        Log.gotoNextPage nv ((basesOf F ++ [T.base]).headD 0) = false := by
      have hstay : ∀ {x : Page}, x.Holds nv → x.ents ≠ [] → Log.gotoNextPage nv x.base = false := by
        intro x hx hxne
        obtain ⟨base, ents, stop⟩ := x
        cases ents with
        | nil => exact absurd rfl hxne
        | cons a L =>
          have hseg : Seg nv base base (a :: L) stop := hx.seg
          have hzero := jumps_seg hx.isPage le_rfl hseg
          by_contra hgo
          simp only [jumps] at hzero
          rw [Bool.not_eq_false] at hgo
          rw [if_pos hgo] at hzero
          omega
      cases F with
      | nil =>
        obtain ⟨a, L, hTl⟩ := exists_cons_of_ne_nil hTne
        exact ⟨a, L, by simpa using hTl, by simpa using hstay hT hTne⟩
      | cons x F =>
        have hx := hfull x (by simp)
        obtain ⟨a, L, hxl⟩ := exists_cons_of_ne_nil hx.nonempty
        exact ⟨a, L ++ entsOf F ++ T.ents, by simp [hxl],
          by simpa using hstay hx.toHolds hx.nonempty⟩
    obtain ⟨a, L, hL, hgo⟩ := hfirst
    have hwalk : WalkTo nv w.stop w.base w.ents w.stop := walk_page hw.toHolds (.inr le_rfl)
    have hseg := jumps_seg hw.isPage le_rfl hw.seg
    have hgoal : jumps nv w.base (w.ents ++ (entsOf F ++ T.ents)) = F.length + 1 := by
      rw [jumps_append hwalk]
      rw [hL] at hrest ⊢
      simp only [jumps, hgo, Bool.false_eq_true, if_false,
        Page.Sealed.gotoNextPage hw, if_true] at hrest ⊢
      omega
    simpa using hgoal

/-- The loop over a walk. -/
theorem rebuildLoop_walk {t e : Nat} : ∀ (L : List Nat) {c rounds : Nat}
    {st : State al} {v : (Nat → Option Nat) × Nat},
    RebuildAt st₀ st ino v → st₀.nv.logTail ino = t →
    WalkTo st₀.nv t c L e → e = t → L.length < rounds → (∀ a ∈ L, EntryOk (st₀.nv.slot a)) →
    ∃ st', rebuildLoop ino rounds st c = some (st', t) ∧ RebuildAt st₀ st' ino
        (L.foldl (replayStep st₀.nv.slot (deadWrite st₀.nv)) v) ∧
      (st'.info ino).logPages = (st.info ino).logPages + jumps st₀.nv c L ∧
      ownerOf st' ino = L.foldl (ownerStep st₀.nv.slot) (ownerOf st ino) := by
  intro L
  induction L with
  | nil =>
    intro c rounds st v h htail hwalk he hr _
    have hec : e = c := hwalk
    obtain ⟨n, rfl⟩ := Nat.exists_eq_add_of_lt hr
    refine ⟨st, ?_, h, rfl, rfl⟩
    rw [rebuildLoop, if_pos]
    · rw [← hec, he]
    · rw [h.logTail, htail, ← hec, he]
  | cons a L ih =>
    intro c rounds st v h htail hwalk he hr hok
    obtain ⟨hct, hc0, ha, ha0, hsize, hpage, hrest⟩ := hwalk
    obtain ⟨n, rfl⟩ := Nat.exists_eq_add_of_lt hr
    have hgo : gotoNextPage st.nv c = gotoNextPage st₀.nv c := by simp [gotoNextPage, h.slot]
    rw [rebuildLoop, if_neg (by rw [h.logTail, htail]; exact hct), if_neg hc0]
    simp only [hgo]
    generalize hst1 : (if gotoNextPage st₀.nv c = true then
      st.setInfo ino { st.info ino with
        logPages := (st.info ino).logPages + 1 } else st) = st1
    have h1 : RebuildAt st₀ st1 ino v := by
      rw [← hst1]
      split
      · exact h.setInfo rfl
      · exact h
    have hpages1 : (st1.info ino).logPages = (st.info ino).logPages
        + if gotoNextPage st₀.nv c then 1 else 0 := by
      rw [← hst1]
      split
      · simp
      · rfl
    have howner1 : ownerOf st1 ino = ownerOf st ino := by
      rw [← hst1]
      split
      · simp [ownerOf]
      · rfl
    have hcurr : (if gotoNextPage st₀.nv c = true then nextLogPage st1.nv c else c) = a := by
      rw [ha, land]
      simp [nextLogPage, h1.next]
    rw [hcurr, if_neg ha0]
    obtain ⟨h2, hlen⟩ := h1.rebuildEntry (hok a mem_cons_self)
    have hpages2 : ((rebuildEntry st1 ino a).1.info ino).logPages
        = (st1.info ino).logPages := rebuildEntry_logPages st1 ino a h1.starts
    rw [hlen]
    have hlt : L.length < (a :: L).length + n := by
      rw [length_cons]
      omega
    obtain ⟨st', hrun, h', hpages', howner'⟩ := ih h2 htail hrest he hlt
      (fun b hb => hok b (mem_cons_of_mem _ hb))
    refine ⟨st', hrun, h', ?_, ?_⟩
    · simp only [jumps]
      omega
    · rw [howner', rebuildEntry_owner, howner1, h1.slot]
      rfl

/-- The pages behind the tail are counted. -/
theorem countPages_chain : ∀ (rest : List Nat) {p rounds n : Nat},
    Linked nv.next (p :: rest) 0 → (∀ q ∈ rest, q ≠ 0) → rest.length < rounds →
    countPages nv rounds p n = some (n + rest.length) := by
  intro rest
  induction rest with
  | nil =>
    intro p rounds n hchain _ hr
    obtain ⟨k, rfl⟩ := Nat.exists_eq_add_of_lt hr
    have hnext : nv.next p = 0 := hchain.1
    rw [countPages, if_pos hnext]
    rfl
  | cons q rest ih =>
    intro p rounds n hchain hne hr
    obtain ⟨k, rfl⟩ := Nat.exists_eq_add_of_lt hr
    have hnext : nv.next p = q := hchain.1
    have hlt : rest.length < (q :: rest).length + k := by
      rw [length_cons]
      omega
    rw [countPages, hnext, if_neg (hne q mem_cons_self),
      ih hchain.2 (fun x hx => hne x (mem_cons_of_mem _ hx)) hlt]
    simp only [length_cons]
    congr 1
    omega

/-- A log that a rebuild can read: from `log_head` over full pages to the
page of `log_tail`, on which no entry lies behind the tail. -/
structure Readable (nv : Nvmm) (numBlocks ino : Nat) (F : List Page) (T : Page)
    (rest : List Nat) : Prop where
  log : OpenLog nv F T rest
  head : nv.logHead ino = (basesOf F ++ [T.base]).headD 0
  tail : nv.logTail ino = T.stop
  used : F ≠ [] → T.ents ≠ []
  onDevice : ∀ p ∈ basesOf F ++ T.base :: rest, p / PAGE_SIZE < numBlocks

/-- The tail lies on the last page. -/
theorem Readable.tail_block {numBlocks ino : Nat} (h : Readable nv numBlocks ino F T rest) :
    blockOff (nv.logTail ino) = T.base := by
  rw [h.tail]
  exact h.log.last.blockOff_stop

/-- The spare pages are fewer than the limit. -/
theorem Readable.rest_lt {ino : Nat} (h : Readable nv al.numBlocks ino F T rest) :
    rest.length < pageLimit al := by
  have hlt := length_lt_pageLimit (fun p hp => h.log.isPage hp) h.log.nodup h.onDevice
  simp only [length_append, length_cons] at hlt
  omega

/-- The spare pages are counted. -/
theorem Readable.count {ino : Nat} (h : Readable nv al.numBlocks ino F T rest) {nv' : Nvmm}
    (hnext : nv'.next = nv.next) (n : Nat) :
    countPages nv' (pageLimit al) (blockOff (nv.logTail ino)) n = some (n + rest.length) := by
  rw [h.tail_block]
  refine countPages_chain _ ?_ ?_ h.rest_lt
  · rw [hnext]
    exact (Linked.append_iff.1 h.log.chain).2
  · intro q hq
    have := (h.log.spare q hq).2
    omega

/-- The log has a head. -/
theorem Readable.logHead_ne_zero {numBlocks ino : Nat} (h : Readable nv numBlocks ino F T rest) :
    nv.logHead ino ≠ 0 := by
  rw [h.head]
  cases F with
  | nil =>
    have := h.log.last.isPage.2
    simp only [basesOf, map_nil, nil_append, headD_cons]
    omega
  | cons w F =>
    have := (h.log.full w (by simp)).toHolds.isPage.2
    simp only [basesOf, map_cons, cons_append, headD_cons]
    omega

/-- Counters do not matter for reading. -/
theorem Readable.withInvalid {numBlocks ino : Nat} (h : Readable nv numBlocks ino F T rest)
    (inv : Nat → Nat) : Readable { nv with invalid := inv } numBlocks ino F T rest :=
  ⟨⟨h.log.chain, h.log.nodup, fun w hw => (h.log.full w hw).congr (fun _ _ => rfl) rfl,
    h.log.last.congr fun _ _ => rfl, h.log.spare⟩, h.head, h.tail, h.used, h.onDevice⟩

/-- What a rebuild leaves. -/
structure Rebuilt (st st' : State al) (ino : Nat)
    (v : (Nat → Option Nat) × Nat) (pages : Nat) (o : Owner) : Prop where
  at_ : RebuildAt st st' ino v
  sihSize : (st'.info ino).sihSize = v.2
  logPages : (st'.info ino).logPages = pages
  owner : ownerOf st' ino = o

/-- A rebuild of a readable log returns what a replay gives. -/
theorem rebuild_spec (h : Readable st.nv al.numBlocks ino F T rest)
    (hok : ∀ a ∈ entsOf F ++ T.ents, EntryOk (st.nv.slot a))
    (hempty : (st.info ino).tree.get = fun _ => none) :
    ∃ st', novaRebuildFileInodeTree st ino = some st' ∧ Rebuilt st st' ino
        (replay st.nv.slot (deadWrite st.nv) (st.nv.record ino).iSize
          (entsOf F ++ T.ents)) (F.length + 1 + rest.length)
        ((entsOf F ++ T.ents).foldl (ownerStep st.nv.slot) (ownerOf st ino)) := by
  have hpos : 0 < T.stop := Nat.pos_of_ne_zero h.log.last.stop_ne_zero
  have hnz : ¬ (st.nv.logHead ino = 0 ∧ st.nv.logTail ino = 0) := by
    intro h0
    rw [h.tail] at h0
    omega
  -- the loop
  have h₀ : RebuildAt st (st.setInfo ino { st.info ino with logPages := 1 }) ino
      (fun _ => none, (st.nv.record ino).iSize) := by
    refine ⟨⟨st.nv.record ino, by simp⟩, rfl, rfl, rfl, ?_, ?_, rfl, ?_⟩
    · intro j hj
      simp [hj]
    · simpa using hempty
    intro i a hi
    have hnone : (st.info ino).tree.get i = some a := by simpa using hi
    rw [hempty] at hnone
    cases hnone
  have hwalk := h.log.walk h.used
  rw [← h.tail] at hwalk
  rw [← h.head] at hwalk
  obtain ⟨st1, hloop, h1, hpages1, howner1⟩ := rebuildLoop_walk _ h₀ rfl hwalk rfl
    (ents_lt_walkLimit h.log h.onDevice) hok
  rw [h.head, jumps_pages F h.log.full h.log.last h.used] at hpages1
  let st2 := st1.setInfo ino
    { st1.info ino with sihSize := (st1.nv.record ino).iSize }
  have h2 : RebuildAt st st2 ino _ := h1.setInfo rfl
  refine ⟨st2.setInfo ino { st2.info ino with logPages := (st2.info ino).logPages + rest.length },
    ?_, h2.setInfo rfl, ?_, ?_, ?_⟩
  · have hcount2 : countPages st2.nv (pageLimit al)
        (blockOff (st.nv.logTail ino)) (st2.info ino).logPages
        = some ((st2.info ino).logPages + rest.length) := h.count h2.next _
    simp only [novaRebuildFileInodeTree, if_neg hnz, Option.bind_eq_bind, hloop, Option.bind_some]
    rw [hcount2]
    rfl
  · simp only [st2, State.setInfo, update_self]
    exact h1.size
  · simp only [st2, State.setInfo, update_self] at hpages1 ⊢
    omega
  have howner0 : ownerOf (st.setInfo ino { st.info ino with logPages := 1 }) ino
      = ownerOf st ino := by simp [ownerOf]
  rw [howner0] at howner1
  rw [← howner1]
  simp [ownerOf, st2]

end Themis.File
