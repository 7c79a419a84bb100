/-
Size, attribute and link changes keep the invariant of a file and do to
its contents what they should: a size change cuts the contents off at
the new size and pads them with zeroes, the others leave them alone.
-/
import Themis.Proofs.File.Owner

namespace Themis.File

open Lib Log Option List Function State

variable {al : BlockAllocator} {st st' : State al} {ino size : Nat}
  {L P pages : List Nat} {R : Nat → Prop}
variable {p new : Nat} {st1 : State al} {attr : Iattr}

attribute [local simp] setInfo copyAttrs

-- === contents

/-- A byte of the file; a hole reads as 0. -/
def fileByte (st : State al) (ino q : Nat) : UInt8 :=
  (pageMap st ino (q / PAGE_SIZE)).elim 0 fun b =>
    st.data (b * PAGE_SIZE + q % PAGE_SIZE)

/-- The bytes depend on the blocks and the data. -/
theorem fileByte_congr (hmap : pageMap st' ino = pageMap st ino)
    (hdata : st'.data = st.data) : fileByte st' ino = fileByte st ino := by
  funext q
  simp only [fileByte, hmap, hdata]

/-- A byte in a hole. -/
theorem fileByte_none {q : Nat} (h : pageMap st ino (q / PAGE_SIZE) = none) :
    fileByte st ino q = 0 := by simp [fileByte, h]

/-- A byte in a block. -/
theorem fileByte_some {q b : Nat} (h : pageMap st ino (q / PAGE_SIZE) = some b) :
    fileByte st ino q = st.data (b * PAGE_SIZE + q % PAGE_SIZE) := by simp [fileByte, h]

/-- A place in a page. -/
theorem mod_page_lt (q : Nat) : q % PAGE_SIZE < PAGE_SIZE := Nat.mod_lt _ (by decide)

-- === between two calls

/-- A regular file between two calls. -/
structure FileOk (st : State al) (ino : Nat) (L pages : List Nat) : Prop where
  log : LogAt st ino 0 (st.nv.logTail ino) L [] pages
  file : FileInv st ino L pages (st.info ino).iSize fun _ => False
  reg : isReg (st.info ino).attrs.mode = true
  zero : ∀ q, (st.info ino).iSize ≤ q → fileByte st ino q = 0
  start : L = [] → (st.info ino).iSize = 0

/-- A committed log is empty or readable. -/
theorem readable_of_logAt (h : LogAt st ino 0 (st.nv.logTail ino) L [] pages) :
    (EmptyLog st ino ∧ L = [] ∧ pages = []) ∨ ∃ F T rest, Readable st.nv al.numBlocks ino F T rest ∧
        L = entsOf F ++ T.ents ∧ pages = basesOf F ++ T.base :: rest := by
  rcases h with ⟨hempty, -, hL, -, hpages⟩ | ⟨A, B, T, rest, C, hcur, h⟩
  · exact .inl ⟨hempty, hL, hpages⟩
  right
  obtain ⟨hlog, hused, hsplit, hcom, hpages, hclean, -⟩ := h
  have hB := hclean rfl
  subst hB
  rw [entsOf_nil, nil_append, append_nil] at hsplit
  have hopen := hlog.log
  rw [append_nil] at hopen
  refine ⟨A, T, rest, ⟨hopen, ?_, hcur, fun _ => hused, hlog.onDevice⟩, ?_, hpages⟩
  · rw [hlog.head]
    cases A <;> rfl
  · rw [hcom, hsplit]

/-- The walk finds the log. -/
theorem FileOk.walkLog_eq (h : FileOk st ino L pages) : walkLog st ino = some L := by
  rcases readable_of_logAt h.log with ⟨hempty, rfl, -⟩ | ⟨F, T, rest, hr, rfl, -⟩
  · simp [walkLog, walkLimit, walkLoop, hempty.head, hempty.tail]
  unfold walkLog
  rw [hr.tail, hr.head]
  exact walkLoop_eq _ (hr.log.walk hr.used) (ents_lt_walkLimit hr.log hr.onDevice)

/-- Only these parts matter. -/
theorem FileOk.congr (h : FileOk st ino L pages) (hnv : st'.nv = st.nv)
    (halloc : st'.alloc = st.alloc) (hdata : st'.data = st.data)
    (htree : (st'.info ino).tree = (st.info ino).tree)
    (hpages : (st'.info ino).logPages = (st.info ino).logPages)
    (hsize : (st'.info ino).iSize = (st.info ino).iSize)
    (hreg : isReg (st'.info ino).attrs.mode = true) : FileOk st' ino L pages := by
  have hmap : pageMap st' ino = pageMap st ino := by
    funext i
    simp only [pageMap, htree, hnv]
  refine ⟨?_, ?_, hreg, ?_, ?_⟩
  · rw [hnv]
    apply h.log.congr
    · rw [hnv]
    · rw [hnv]
    · rw [hnv]
    · rw [hnv]
    · intro p hp
      rw [State.InUse, halloc]
      exact h.log.inUse p hp
    · exact hpages
  · rw [hsize]
    apply h.file.congr
    · rw [hnv]
    · rw [hnv]
    · rw [hnv]
    · exact halloc
    · exact htree
  · rw [hsize, fileByte_congr hmap hdata]
    exact h.zero
  · rw [hsize]
    exact h.start

/-- Where the entry goes. -/
theorem novaGetAppendHead_eq {tail n : Nat} (h : novaGetAppendHead st ino tail n = some (p, st')) :
    ∃ ext, appendHeadWith (novaExtendInodeLog ino) st
      (if tail ≠ 0 then tail else st.nv.logTail ino) n = some (p, ext, st') := by
  unfold novaGetAppendHead at h
  rw [bind_eq_bind, bind_eq_some_iff] at h
  obtain ⟨⟨q, ext, st1⟩, hres, heq⟩ := h
  cases heq
  exact ⟨ext, hres⟩

/-- One entry is appended and committed; the inode keeps its tree. -/
structure Committed (st st' : State al) (ino p : Nat) (e : LogEntry)
    (L pages : List Nat) : Prop where
  log : LogAt st' ino 0 (st'.nv.logTail ino) (L ++ [p]) [] pages
  file : FileInv st' ino L pages (st.info ino).iSize fun _ => False
  fresh : p ∉ L
  entry : st'.nv.slot p = e
  pageMap : pageMap st' ino = pageMap st ino
  data : st'.data = st.data
  record : st'.nv.record = st.nv.record
  iSize : (st'.info ino).iSize = (st.info ino).iSize
  attrs : (st'.info ino).attrs = (st.info ino).attrs

/-- An entry is one slot. -/
theorem storeEntry_only (st : State al) (p : Nat) (e : LogEntry) :
    SlotOnly p st (storeEntry st p e) := by
  unfold storeEntry
  refine ⟨?_, ?_, ?_, ?_, ?_, ?_, ?_, ?_, ?_⟩
  · intro a ha
    simp [Nvmm.apply, ha]
  · intro a _
    simp [Nvmm.apply]
  all_goals simp [Nvmm.apply]

/-- The entry that was stored. -/
theorem storeEntry_slot (st : State al) (p : Nat) (e : LogEntry) :
    (storeEntry st p e).nv.slot p = e := by simp [storeEntry, Nvmm.apply]

/-- An entry of 32 bytes is logged. -/
theorem storeEntry_grown {e : LogEntry} {R : Nat → Prop} (h : PagesInv st ino L pages R)
    (hlog : LogAt st ino 0 (st.nv.logTail ino) L [] pages) (hsize : e.size = 32)
    (hres : novaGetAppendHead st ino 0 32 = some (p, st1)) (hp : p ≠ 0) :
    ∃ L' pages' kept, LogAt (storeEntry st1 p e) ino e.size (p + e.size) L' [p] pages' ∧
      Grown st (storeEntry st1 p e) ino L [] pages p e L' pages' kept ∧ L'.Nodup ∧ p ∉ L' := by
  obtain ⟨ext, hres⟩ := novaGetAppendHead_eq hres
  rw [← hsize] at hres
  obtain ⟨L', pages', kept, hat, hg⟩ := LogAt.append le_rfl
    (hlog.retune e.size) h.keysOk
    (fun i a hi => mem_append_left _ (h.member i a hi)) (by omega)
    (by rw [hsize]; decide) hres hp (storeEntry_only st1 p e) (storeEntry_slot st1 p e)
  have hn := hat.nodup
  rw [nodup_append] at hn
  exact ⟨L', pages', kept, hat, hg, hn.1, fun hmem => hn.2.2 p hmem p (by simp) rfl⟩

/-- It is committed. -/
theorem FileOk.append {e : LogEntry} {i : InodeInfo} (h : FileOk st ino L pages)
    (hsize : e.size = 32) (hres : novaGetAppendHead st ino 0 32 = some (p, st1)) (hp : p ≠ 0)
    (htree : i.tree = (st1.info ino).tree) (hpages : i.logPages = (st1.info ino).logPages)
    (hiSize : i.iSize = (st1.info ino).iSize) (hattrs : i.attrs = (st1.info ino).attrs) :
    ∃ L' pages', Committed st
        (novaUpdateTail ((storeEntry st1 p e).setInfo ino i) ino (p + 32)) ino p e L' pages' ∧
      SetattrKept st (storeEntry st1 p e) ino L L' := by
  have he := storeEntry_slot st1 p e
  rw [← (storeEntry_only st1 p e).info] at htree hpages hiSize hattrs
  obtain ⟨L', pages', kept, hat, hg, hn, hpL⟩ :=
    storeEntry_grown h.file.pagesInv h.log hsize hres hp
  generalize storeEntry st1 p e = st2 at *
  obtain ⟨hfile, hmap⟩ := h.file.grown hg hn
  have hkept := hg.setattr_kept h.file.replayable.nodup
  have hinfo : ((novaUpdateTail (st2.setInfo ino i) ino (p + 32)).info ino) = i := by
    simp [novaUpdateTail]
  have htail : (novaUpdateTail (st2.setInfo ino i) ino (p + 32)).nv.logTail ino = p + e.size := by
    simp [novaUpdateTail, Nvmm.apply, hsize]
  have hmap' : File.pageMap (novaUpdateTail (st2.setInfo ino i) ino (p + 32)) ino
      = File.pageMap st2 ino := by
    funext k
    simp only [File.pageMap, hinfo, htree]
    rfl
  refine ⟨L', pages', ⟨?_, ?_, ?_, he, ?_, hg.data, hg.record, ?_, ?_⟩, hkept⟩
  · rw [htail]
    have hcommit : LogAt (novaUpdateTail (st2.setInfo ino i) ino (p + 32)) ino
        e.size (p + e.size) (L' ++ [p]) [] pages' := by
      refine hat.commit (by omega) rfl rfl rfl htail rfl ?_
      rw [hinfo]
      exact hpages
    exact hcommit.retune 0
  · exact hfile.congr rfl rfl rfl rfl (by rw [hinfo]; exact htree)
  · exact hpL
  · rw [hmap', hmap]
  · rw [hinfo, hiSize, hg.iSize]
  · rw [hinfo, hattrs, hg.attrs]

/-- An entry that says nothing about pages. -/
theorem Committed.weak {p : Nat} {e : LogEntry} (h : FileOk st ino L pages)
    {L' pages' : List Nat} (hc : Committed st st' ino p e L' pages')
    (hok : EntryOk e) (hweak : strongEvent (fun _ => e) p = none)
    (hsize : ∀ s, sizeEvent (fun _ => e) p = some s → s = (st.info ino).iSize) :
    FileOk st' ino (L' ++ [p]) pages' := by
  refine ⟨hc.log, ⟨?_, ?_, hc.file.owned⟩, ?_, ?_, by simp⟩
  · rw [hc.iSize]
    apply hc.file.replayable.weak hc.fresh
    · rw [hc.entry]
      exact hok
    · simp only [strongEvent, hc.entry] at hweak ⊢
      exact hweak
    · simp only [sizeEvent, hc.entry] at hsize ⊢
      exact hsize
  · intro a ha e' he'
    rcases mem_append.1 ha with ha | ha
    · exact hc.file.counted a ha e' he'
    rw [mem_singleton] at ha
    rw [ha, hc.entry] at he'
    simp [strongEvent, he'] at hweak
  · rw [hc.attrs]
    exact h.reg
  · rw [hc.iSize, fileByte_congr hc.pageMap hc.data]
    exact h.zero

-- === link changes

/-- A link change that goes through. -/
theorem changeLinks_done {e : LinkChangeEntry} (hres : changeLinks st ino e = some (0, st')) :
    ∃ p st1, novaGetAppendHead st ino 0 32 = some (p, st1) ∧ p ≠ 0 ∧
      st' = novaUpdateTail ((storeEntry st1 p (.linkChange e)).setInfo ino
        { (storeEntry st1 p (.linkChange e)).info ino with lastLinkChange := p }) ino (p + 32) := by
  unfold changeLinks novaAppendLinkChangeEntry at hres
  simp only [bind_eq_bind, bind_assoc] at hres
  rw [bind_eq_some_iff] at hres
  obtain ⟨⟨p, st1⟩, happ, hres⟩ := hres
  by_cases hp : p = 0
  · simp only [hp, if_true, Option.pure_def, bind_some, some.injEq, Prod.mk.injEq] at hres
    exact absurd hres.1 (by decide)
  have hp32 : p + 32 ≠ 0 := by omega
  simp only [if_neg hp, Option.pure_def, bind_some, if_neg hp32, some.injEq, Prod.mk.injEq] at hres
  exact ⟨p, st1, happ, hp, hres.2.symm⟩

/-- A link change keeps the file. -/
theorem FileOk.changeLinks {e : LinkChangeEntry} {ret : Int}
    (h : FileOk st ino L pages) (hres : changeLinks st ino e = some (ret, st')) (hret : ret = 0) :
    ∃ L' pages', FileOk st' ino L' pages' ∧ fileByte st' ino = fileByte st ino ∧
      (st'.info ino).iSize = (st.info ino).iSize ∧ st'.nv.record = st.nv.record ∧
      (SetattrSafe st ino L → OwnerOk st ino L → OwnerOk st' ino L') := by
  rw [hret] at hres
  obtain ⟨p, st1, happ, hp, rfl⟩ := changeLinks_done hres
  have hinfo := (storeEntry_only st1 p (.linkChange e)).info
  obtain ⟨L', pages', hc, hkept⟩ := h.append (e := .linkChange e)
    (i := { (storeEntry st1 p (.linkChange e)).info ino with lastLinkChange := p })
    rfl happ hp (by rw [hinfo]) (by rw [hinfo]) (by rw [hinfo]) (by rw [hinfo])
  refine ⟨L' ++ [p], pages', hc.weak h trivial rfl (by simp [sizeEvent]),
    fileByte_congr hc.pageMap hc.data, hc.iSize, hc.record, ?_⟩
  intro hsafe howner
  have hattrs := hc.attrs
  have hrec := hc.record
  have hentry := hc.entry
  generalize storeEntry st1 p (.linkChange e) = st2 at *
  have hinfo2 : (novaUpdateTail (st2.setInfo ino
      { st2.info ino with lastLinkChange := p }) ino (p + 32)).info ino
      = { st2.info ino with lastLinkChange := p } := by simp [novaUpdateTail]
  rw [hinfo2] at hattrs
  have h2 : OwnerOk st2 ino L' := by
    apply howner.kept hkept hsafe
    · exact congrArg ownerTriple hattrs
    · exact hrec
  apply OwnerOk.append
  · exact h2.congr rfl (by rw [hinfo2]) (by rw [hinfo2]) rfl
  intro a ha
  rw [mem_singleton.1 ha, hentry]
  rfl

-- === size changes

/-- What cutting a file off behind `new` leaves. -/
structure Truncated (st st' : State al) (ino : Nat) (L pages : List Nat)
    (new : Nat) (R : Nat → Prop) : Prop where
  slot : st'.nv.slot = st.nv.slot
  next : st'.nv.next = st.nv.next
  logHead : st'.nv.logHead = st.nv.logHead
  logTail : st'.nv.logTail = st.nv.logTail
  record : st'.nv.record = st.nv.record
  data : st'.data = st.data
  iSize : (st'.info ino).iSize = (st.info ino).iSize
  logPages : (st'.info ino).logPages = (st.info ino).logPages
  owner : ownerTriple (st'.info ino).attrs = ownerTriple (st.info ino).attrs
  lastSetattr : (st'.info ino).lastSetattr = (st.info ino).lastSetattr
  tree : ∀ i, (st'.info ino).tree.get i
    = if pagesFor new ≤ i then none else (st.info ino).tree.get i
  counted : Counted st'.nv (st'.info ino).tree.get L
  owned : Owned st'.InUse (LogBlock pages) (pageMap st' ino) R
  inUse : ∀ x, LogBlock pages x → st.InUse x → st'.InUse x
  freed : ∀ i x, pagesFor new ≤ i → pageMap st ino i = some x → ¬ st'.InUse x

/-- There was nothing to cut. -/
theorem Truncated.of_none (h : FileInv st ino L pages size R)
    (hnone : ∀ i, pagesFor new ≤ i → (st.info ino).tree.get i = none) :
    Truncated st st ino L pages new R := by
  refine ⟨rfl, rfl, rfl, rfl, rfl, rfl, rfl, rfl, rfl, rfl, ?_, h.counted, h.owned,
    fun _ _ hx => hx, ?_⟩
  · intro i
    split
    · rename_i hi
      exact hnone i hi
    · rfl
  intro i x hi hx
  rw [pageMap_none (hnone i hi)] at hx
  cases hx

/-- The pages behind the new size are deleted. -/
theorem Truncated.of_deleted {last : Nat} (h : FileInv st ino L pages size R)
    (hd : Deleted st st' ino (pagesFor new) last)
    (hlast : ∀ i, last < i → (st.info ino).tree.get i = none) :
    Truncated st st' ino L pages new R := by
  obtain ⟨-, -, hcount, howned⟩ := h.pagesInv.deleted hd
  have hself := hd.only.self
  refine ⟨hd.only.slot, hd.only.next, hd.only.logHead, hd.only.logTail,
    hd.only.record, hd.only.data, by rw [hself], by rw [hself], by rw [hself],
    by rw [hself], ?_, hcount, howned, ?_, ?_⟩
  · intro i
    rw [hd.tree i]
    by_cases hi : pagesFor new ≤ i
    · by_cases hl : i ≤ last
      · rw [if_pos ⟨hi, hl⟩, if_pos hi]
      · rw [if_neg (by omega), if_pos hi]
        exact hlast i (by omega)
    · rw [if_neg (by omega), if_neg hi]
  · intro x hx hu
    refine (hd.inUse x).2 ⟨hu, ?_⟩
    intro i _ _ hi
    exact (h.owned.used i x hi).2.2 hx
  intro i x hi hx hu
  have hl : i ≤ last := by
    by_contra hgt
    rw [pageMap_none (hlast i (by omega))] at hx
    cases hx
  exact ((hd.inUse x).1 hu).2 i hi hl hx

/-- `nova_truncate_file_blocks`. -/
theorem novaTruncateFileBlocks_spec (new time : Nat) (h : FileInv st ino L pages size R) :
    Truncated st (novaTruncateFileBlocks st ino new size time) ino L pages new R := by
  have htouch : ∀ {st1 : State al} {n : Nat}, Truncated (touch st ino time) st1 ino
      L pages n R → Truncated st st1 ino L pages n R := by
    intro st1 n ht
    have hinfo : (touch st ino time).info ino = { st.info ino with
            attrs := { (st.info ino).attrs with mtime := time, ctime := time } } := by
      simp [touch]
    have hmap : pageMap (touch st ino time) ino = pageMap st ino := by
      funext i
      simp only [pageMap, hinfo]
      rfl
    obtain ⟨h1, h2, h3, h4, h5, h6, h7, h8, h9, h10, h11, h12, h13, h14, h15⟩ := ht
    rw [hinfo] at h7 h8 h9 h10
    rw [hmap] at h15
    refine ⟨h1, h2, h3, h4, h5, h6, h7, h8, h9, h10, ?_, h12, h13, h14, h15⟩
    intro i
    rw [h11 i, hinfo]
  have h₁ : FileInv (touch st ino time) ino L pages size R :=
    h.congr rfl rfl rfl rfl (by simp [touch])
  have hin : ∀ i, pagesFor size ≤ i → ((touch st ino time).info ino).tree.get i = none := by
    intro i hi
    by_contra hne
    have := h₁.replayable.inside hne
    omega
  unfold novaTruncateFileBlocks
  simp only
  by_cases h0 : size = 0
  · rw [if_pos h0]
    apply htouch
    apply Truncated.of_none h₁
    intro i _
    apply hin
    rw [h0]
    exact Nat.zero_le _
  rw [if_neg h0]
  have hsize : pagesFor size = (size - 1) / PAGE_SIZE + 1 := pagesFor_eq (by omega)
  split
  · apply htouch
    apply Truncated.of_none h₁
    intro i hi
    exact hin i (by omega)
  apply htouch
  apply Truncated.of_deleted h₁ (novaDeleteFileTree_free (h₁.pagesInv.removable _ _))
  intro i hi
  exact hin i (by omega)

/-- `nova_clear_last_page_tail`. -/
theorem novaClearLastPageTail_spec (new : Nat) (h : FileInv st ino L pages size R) :
    (∃ d, novaClearLastPageTail st ino new = { st with data := d }) ∧
    ∀ q, fileByte (novaClearLastPageTail st ino new) ino q
      = if q / PAGE_SIZE = new / PAGE_SIZE ∧ new ≤ q ∧ new % PAGE_SIZE ≠ 0 ∧
          new ≤ (st.info ino).iSize then 0 else fileByte st ino q := by
  unfold novaClearLastPageTail
  by_cases hoff : new % PAGE_SIZE = 0 ∨ new > (st.info ino).iSize
  · rw [if_pos hoff]
    refine ⟨⟨st.data, rfl⟩, ?_⟩
    intro q
    rw [if_neg (by omega)]
  rw [if_neg hoff]
  have hblock : novaFindNvmmBlock st ino (new / PAGE_SIZE)
      = (pageMap st ino (new / PAGE_SIZE)).getD 0 := by
    simp only [novaFindNvmmBlock, novaGetWriteEntry, pageMap]
    cases (st.info ino).tree.get (new / PAGE_SIZE) <;> rfl
  rw [hblock]
  cases hmap : pageMap st ino (new / PAGE_SIZE) with
  | none =>
    refine ⟨⟨st.data, by simp⟩, ?_⟩
    intro q
    split
    · rename_i hq
      apply fileByte_none
      rw [hq.1]
      exact hmap
    · rfl
  | some b =>
    obtain ⟨-, hb, -⟩ := h.owned.used _ _ hmap
    simp only [getD_some]
    rw [if_neg (by omega)]
    refine ⟨⟨_, rfl⟩, ?_⟩
    intro q
    have hsame : pageMap (fill st (b * PAGE_SIZE + new % PAGE_SIZE)
        (PAGE_SIZE - new % PAGE_SIZE) fun _ => 0) ino = pageMap st ino := rfl
    have hlt := mod_page_lt q
    cases hq : pageMap st ino (q / PAGE_SIZE) with
    | none =>
      rw [fileByte_none (by rw [hsame]; exact hq), fileByte_none hq]
      simp
    | some c =>
      rw [fileByte_some (by rw [hsame]; exact hq), fileByte_some hq]
      simp only [fill, fillBytes]
      by_cases hpage : q / PAGE_SIZE = new / PAGE_SIZE
      · have hcb : c = b := by
          rw [hpage, hmap, some.injEq] at hq
          exact hq.symm
        subst hcb
        have hiff : new ≤ q ↔ new % PAGE_SIZE ≤ q % PAGE_SIZE := by
          unfold PAGE_SIZE at *
          omega
        by_cases hle : new ≤ q
        · rw [if_pos (by omega), if_pos ⟨hpage, hle, by omega, by omega⟩]
        · rw [if_neg (by omega), if_neg (by omega)]
      have hcb : c ≠ b := by
        intro heq
        rw [heq] at hq
        exact hpage (h.owned.inj _ _ _ hq hmap)
      rw [if_neg, if_neg (by omega)]
      intro hr
      unfold PAGE_SIZE at *
      omega

/-- What a size change leaves. -/
structure Resized (st st' : State al) (ino : Nat) (L pages : List Nat)
    (new : Nat) (R : Nat → Prop) : Prop where
  slot : st'.nv.slot = st.nv.slot
  next : st'.nv.next = st.nv.next
  logHead : st'.nv.logHead = st.nv.logHead
  logTail : st'.nv.logTail = st.nv.logTail
  record : st'.nv.record = st.nv.record
  iSize : (st'.info ino).iSize = new
  logPages : (st'.info ino).logPages = (st.info ino).logPages
  owner : ownerTriple (st'.info ino).attrs = ownerTriple (st.info ino).attrs
  lastSetattr : (st'.info ino).lastSetattr = (st.info ino).lastSetattr
  tree : ∀ i, (st'.info ino).tree.get i
    = if pagesFor new ≤ i then none else (st.info ino).tree.get i
  counted : Counted st'.nv (st'.info ino).tree.get L
  owned : Owned st'.InUse (LogBlock pages) (pageMap st' ino) R
  inUse : ∀ x, LogBlock pages x → st.InUse x → st'.InUse x
  freed : ∀ i x, pagesFor new ≤ i → pageMap st ino i = some x → ¬ st'.InUse x
  bytes : ∀ q, fileByte st' ino q = if q < new then fileByte st ino q else 0

/-- The bytes after a cut. -/
theorem Truncated.bytes (ht : Truncated st st' ino L pages new R)
    (hclear : ∀ q, new ≤ q → q / PAGE_SIZE < pagesFor new → fileByte st ino q = 0) (q : Nat) :
    fileByte st' ino q = if q < new then fileByte st ino q else 0 := by
  have hmap : pageMap st' ino (q / PAGE_SIZE) = if pagesFor new ≤ q / PAGE_SIZE then none
        else pageMap st ino (q / PAGE_SIZE) := by
    simp only [pageMap, ht.tree, getNvmm, entryAt, ht.slot]
    split <;> rfl
  by_cases hp : pagesFor new ≤ q / PAGE_SIZE
  · rw [if_pos hp] at hmap
    have hge : ¬ q < new := by
      unfold pagesFor PAGE_SIZE at hp
      omega
    rw [fileByte_none hmap, if_neg hge]
  rw [if_neg hp] at hmap
  have hsame : fileByte st' ino q = fileByte st ino q := by simp only [fileByte, hmap, ht.data]
  rw [hsame]
  split
  · rfl
  · exact hclear q (by omega) (by omega)

/-- `nova_setsize`. -/
theorem novaSetsize_spec (new time : Nat) (h : FileInv st ino L pages size R)
    (hsize : (st.info ino).iSize = size) (hreg : isReg (st.info ino).attrs.mode = true)
    (hzero : ∀ q, size ≤ q → fileByte st ino q = 0) :
    Resized st (novaSetsize st ino size new time) ino L pages new R := by
  unfold novaSetsize
  simp only [hreg, Bool.not_true, Bool.false_eq_true, if_false]
  by_cases hne : new = size
  · have ht := novaTruncateFileBlocks_spec new time h
    rw [if_neg (by simp [hne])]
    exact ⟨ht.slot, ht.next, ht.logHead, ht.logTail, ht.record,
      by rw [ht.iSize, hsize, hne], ht.logPages, ht.owner, ht.lastSetattr, ht.tree, ht.counted,
      ht.owned, ht.inUse, ht.freed, ht.bytes fun q hq _ => hzero q (by omega)⟩
  rw [if_pos hne]
  obtain ⟨⟨d, hd⟩, hbytes⟩ := novaClearLastPageTail_spec new h
  have hset : setSize (novaClearLastPageTail st ino new) ino new = { st with
          data := d
          info := update st.info ino
            { st.info ino with iSize := new, sihSize := new } } := by
    rw [hd]
    rfl
  have hset_bytes : ∀ q, fileByte (setSize (novaClearLastPageTail st ino new)
      ino new) ino q = fileByte (novaClearLastPageTail st ino new) ino q := by
    intro q
    rw [hset, hd]
    simp [fileByte, pageMap]
  have h₁ : FileInv (setSize (novaClearLastPageTail st ino new) ino new) ino L
      pages size R := by
    rw [hset]
    exact h.congr rfl rfl rfl rfl (by simp)
  have ht := novaTruncateFileBlocks_spec new time h₁
  have hcleared : ∀ q, new ≤ q → q / PAGE_SIZE < pagesFor new →
      fileByte (setSize (novaClearLastPageTail st ino new) ino new) ino q = 0 := by
    intro q h1 h2
    rw [hset_bytes, hbytes q]
    split
    · rfl
    rename_i hcon
    apply hzero
    have h3 : q / PAGE_SIZE = new / PAGE_SIZE ∧ new % PAGE_SIZE ≠ 0 := by
      unfold pagesFor PAGE_SIZE at h2
      unfold PAGE_SIZE
      omega
    by_contra hlt
    exact hcon ⟨h3.1, h1, h3.2, by omega⟩
  have hall := ht.bytes hcleared
  generalize hst1 : setSize (novaClearLastPageTail st ino new) ino new = st1
    at *
  have hnv : st1.nv = st.nv := by rw [hset]
  have halloc : st1.alloc = st.alloc := by rw [hset]
  have hinfo : st1.info ino = { st.info ino with iSize := new, sihSize := new } := by
    rw [hset]
    simp
  refine ⟨?_, ?_, ?_, ?_, ?_, ?_, ?_, ?_, ?_, ?_, ht.counted, ht.owned, ?_, ?_, ?_⟩
  · rw [ht.slot, hnv]
  · rw [ht.next, hnv]
  · rw [ht.logHead, hnv]
  · rw [ht.logTail, hnv]
  · rw [ht.record, hnv]
  · rw [ht.iSize, hinfo]
  · rw [ht.logPages, hinfo]
  · rw [ht.owner, hinfo]
  · rw [ht.lastSetattr, hinfo]
  · intro i
    rw [ht.tree i, hinfo]
  · intro x hx hu
    apply ht.inUse x hx
    rw [State.InUse, halloc]
    exact hu
  · intro i x hi hx
    apply ht.freed i x hi
    rw [← hx]
    simp only [pageMap, hinfo, getNvmm, entryAt, hnv]
  intro q
  rw [hall q]
  by_cases hq : q < new
  · rw [if_pos hq, if_pos hq, hset_bytes, hbytes q, if_neg (by omega)]
  · rw [if_neg hq, if_neg hq]

/-- The blocks after a change of the size. -/
theorem Resized.pageMap {new : Nat} (h : Resized st st' ino L pages new R) (i : Nat) :
    pageMap st' ino i = if pagesFor new ≤ i then none else pageMap st ino i := by
  simp only [File.pageMap, h.tree, getNvmm, entryAt, h.slot]
  split <;> rfl

/-- The same size. -/
theorem Resized.refl (h : FileInv st ino L pages size R) (hsize : (st.info ino).iSize = size)
    (hzero : ∀ q, size ≤ q → fileByte st ino q = 0) : Resized st st ino L pages size R := by
  have ht : Truncated st st ino L pages size R := by
    apply Truncated.of_none h
    intro i hi
    by_contra hne
    have := h.replayable.inside hne
    omega
  exact ⟨rfl, rfl, rfl, rfl, rfl, hsize, rfl, rfl, rfl, ht.tree, h.counted, h.owned,
    ht.inUse, ht.freed, ht.bytes fun q hq _ => hzero q hq⟩

/-- A change of the size is committed. -/
theorem Committed.resize {e : SetattrEntry} (h : FileOk st ino L pages) {L' pages' : List Nat}
    (hc : Committed st st1 ino p (.setAttr e) L' pages') (hset : e.setsSize = true)
    (hreg : isReg e.mode = true) (hr : Resized st1 st' ino L' pages' e.size fun _ => False) :
    FileOk st' ino (L' ++ [p]) pages' := by
  refine ⟨?_, ⟨?_, ?_, hr.owned⟩, ?_, ?_, by simp⟩
  · rw [hr.logTail]
    apply hc.log.congr hr.slot hr.next
    · rw [hr.logHead]
    · rw [hr.logTail]
    · intro q hq
      apply hr.inUse
      · rw [LogBlock, div_mul_page (hc.log.isPage q hq)]
        exact hq
      · exact hc.log.inUse q hq
    · exact hr.logPages
  · rw [hr.iSize, hr.slot, hr.record]
    exact hc.file.replayable.setsSize hc.fresh hc.entry hset hreg hr.tree
  · intro a ha e' he'
    rcases mem_append.1 ha with ha | ha
    · exact hr.counted a ha e' he'
    rw [mem_singleton] at ha
    rw [ha, hr.slot, hc.entry] at he'
    cases he'
  · have hmode : (st'.info ino).attrs.mode = (st1.info ino).attrs.mode := congrArg Prod.fst hr.owner
    rw [hmode, hc.attrs]
    exact h.reg
  intro q hq
  rw [hr.iSize] at hq
  rw [hr.bytes q, if_neg (by omega)]

/-- The mask keeps the size bit. -/
theorem testBit_mask (n : Nat) : (n &&& attrMask).testBit 3 = n.testBit 3 := by
  rw [Nat.testBit_and]
  have : attrMask.testBit 3 = true := by decide
  rw [this, Bool.and_true]

/-- A regular file stays one. -/
theorem isReg_setattrCopy {i : Attrs} (hreg : isReg i.mode = true)
    (hmode : attr.valid.testBit 0 = true → isReg attr.mode = true) :
    isReg (setattrCopy i attr).mode = true := by
  simp only [setattrCopy]
  split
  · rename_i hbit
    exact hmode hbit
  · exact hreg

/-- Copied attributes keep the file. -/
theorem FileOk.of_copyAttrs (h : FileOk st ino L pages)
    (hmode : attr.valid.testBit 0 = true → isReg attr.mode = true) :
    FileOk (copyAttrs st ino attr) ino L pages := by
  refine h.congr rfl rfl rfl ?_ ?_ ?_ ?_
  · simp
  · simp
  · simp
  · simpa using isReg_setattrCopy h.reg hmode

/-- They map no page. -/
theorem pageMap_copyAttrs (st : State al) (ino : Nat) (attr : Iattr) :
    pageMap (copyAttrs st ino attr) ino = pageMap st ino := by
  funext i
  simp only [pageMap, copyAttrs, setInfo, update_self]

/-- They change no byte. -/
theorem fileByte_copyAttrs (st : State al) (ino : Nat) (attr : Iattr) :
    fileByte (copyAttrs st ino attr) ino = fileByte st ino :=
  fileByte_congr (pageMap_copyAttrs st ino attr) rfl

/-- Attributes that are not logged keep the owner. -/
theorem OwnerOk.of_copyAttrs (hmask : attr.valid &&& attrMask = 0) (h : OwnerOk st ino L) :
    OwnerOk (copyAttrs st ino attr) ino L := by
  have hmask7 : ∀ k, k < 7 → attrMask.testBit k = true := by decide
  have hbit : ∀ k, k < 7 → attr.valid.testBit k = false := by
    intro k hk
    have hand : (attr.valid &&& attrMask).testBit k = false := by
      rw [hmask]
      exact Nat.zero_testBit k
    rwa [Nat.testBit_and, hmask7 k hk, Bool.and_true] at hand
  refine h.congr rfl ?_ ?_ rfl
  · simp
  · simp [ownerTriple, setattrCopy, hbit]

/-- A SET_ATTR entry that was appended. -/
theorem novaAppendSetattrEntry_some {tail newTail : Nat}
    (hres : novaAppendSetattrEntry st ino attr tail = some (newTail, st')) :
    ∃ p st1, novaGetAppendHead st ino tail 32 = some (p, st1) ∧ p ≠ 0 ∧ newTail = p + 32 ∧
      st' = (storeEntry st1 p (.setAttr (novaUpdateSetattrEntry (st1.info ino) attr))).setInfo
        ino { (storeEntry st1 p (.setAttr (novaUpdateSetattrEntry (st1.info ino) attr))).info
          ino with lastSetattr := p } := by
  obtain ⟨⟨p, st1⟩, happ, hres⟩ := bind_eq_some_iff.1 hres
  by_cases hp : p = 0
  · simp [hp] at hres
  simp only [if_neg hp, Option.pure_def, some.injEq, Prod.mk.injEq] at hres
  exact ⟨p, st1, happ, hp, hres.1.symm, hres.2.symm⟩

/-- `nova_notify_change` keeps the file. -/
theorem FileOk.notifyChange {changeOk ret : Int} {eofBlocks : Bool} {time : Nat}
    (h : FileOk st ino L pages) (hmode : attr.valid.testBit 0 = true → isReg attr.mode = true)
    (hres : novaNotifyChange st ino attr changeOk eofBlocks time = some (ret, st')) :
    ∃ L' pages', FileOk st' ino L' pages' ∧
      (st'.info ino).iSize = (if changeOk = 0 ∧ attr.setsSize then attr.size
        else (st.info ino).iSize) ∧ st'.nv.record = st.nv.record ∧
      (∀ q, fileByte st' ino q = if changeOk = 0 ∧ attr.setsSize ∧ attr.size ≤ q
        then 0 else fileByte st ino q) ∧
      (∀ i x, pageMap st ino i = some x → pageMap st' ino i = none → ¬ st'.InUse x) ∧
      (OwnerOk st ino L → OwnerOk st' ino L') := by
  unfold novaNotifyChange at hres
  by_cases hok : changeOk = 0
  swap
  · rw [if_pos hok, some.injEq] at hres
    obtain ⟨-, rfl⟩ := hres
    refine ⟨L, pages, h, by simp [hok], rfl, by simp [hok], ?_, id⟩
    intro i x hi hnone
    rw [hi] at hnone
    cases hnone
  rw [if_neg (by simp [hok])] at hres
  -- the attributes are copied first
  have h0 := h.of_copyAttrs hmode
  have hsize0 : ((copyAttrs st ino attr).info ino).iSize = (st.info ino).iSize := by simp
  have hbyte0 := fileByte_copyAttrs st ino attr
  have hrec0 : (copyAttrs st ino attr).nv.record = st.nv.record := rfl
  have hmap0 := pageMap_copyAttrs st ino attr
  have hown0 : attr.valid &&& attrMask = 0 → OwnerOk st ino L →
      OwnerOk (copyAttrs st ino attr) ino L := fun hmask => OwnerOk.of_copyAttrs hmask
  generalize copyAttrs st ino attr = st0 at *
  rw [← hsize0, ← hbyte0, ← hrec0, ← hmap0]
  rw [← hsize0] at hres
  by_cases hnone : attr.valid &&& attrMask = 0
  · rw [if_pos hnone, some.injEq] at hres
    obtain ⟨-, rfl⟩ := hres
    have hset : attr.setsSize = false := by
      rw [Iattr.setsSize, ← testBit_mask, hnone]
      rfl
    refine ⟨L, pages, h0, by simp [hset], rfl, by simp [hset], ?_, hown0 hnone⟩
    intro i x hi hnone
    rw [hi] at hnone
    cases hnone
  rw [if_neg hnone] at hres
  obtain ⟨⟨newTail, st2⟩, hentry, hres⟩ := bind_eq_some_iff.1 hres
  obtain ⟨p, st1, happ, hp, rfl, rfl⟩ := novaAppendSetattrEntry_some hentry
  simp only [Option.pure_def] at hres
  generalize he : novaUpdateSetattrEntry (st1.info ino) attr = e at hres
  have hinfo := (storeEntry_only st1 p (.setAttr e)).info
  obtain ⟨L', pages', hc, -⟩ := h0.append (e := .setAttr e)
    (i := { (storeEntry st1 p (.setAttr e)).info ino with lastSetattr := p })
    rfl happ hp (by rw [hinfo]) (by rw [hinfo]) (by rw [hinfo]) (by rw [hinfo])
  have hst1 : ((novaUpdateTail ((storeEntry st1 p (.setAttr e)).setInfo ino
      { (storeEntry st1 p (.setAttr e)).info ino with lastSetattr := p }) ino
      (p + 32)).info ino) = { st1.info ino with lastSetattr := p } := by
    simp [novaUpdateTail, hinfo]
  have hiSize1 : (st1.info ino).iSize = (st0.info ino).iSize := by
    have := hc.iSize
    rw [hst1] at this
    exact this
  have hattrs1 : (st1.info ino).attrs = (st0.info ino).attrs := by
    have := hc.attrs
    rw [hst1] at this
    exact this
  have hereg : isReg e.mode = true := by
    rw [← he]
    simp only [novaUpdateSetattrEntry, hattrs1]
    exact h0.reg
  have heset : e.setsSize = attr.setsSize := by
    rw [← he]
    exact testBit_mask attr.valid
  have heowner : ownerTriple (st1.info ino).attrs = (e.mode, e.uid, e.gid) := by
    rw [← he]
    rfl
  have hesize : e.size = if attr.setsSize then attr.size
      else (st0.info ino).iSize := by
    rw [← he]
    simp only [novaUpdateSetattrEntry, hiSize1]
  generalize novaUpdateTail ((storeEntry st1 p (.setAttr e)).setInfo ino
    { (storeEntry st1 p (.setAttr e)).info ino with lastSetattr := p }) ino
    (p + 32) = st2 at *
  have howner2 : OwnerOk st2 ino (L' ++ [p]) := by
    apply OwnerOk.of_setattr hc.entry
    · rw [hst1]
    · rw [hst1]
      exact heowner
  by_cases hset : attr.setsSize = true
  · simp only [hset, if_true] at hesize
    rw [hset] at heset
    have hzero2 : ∀ q, (st0.info ino).iSize ≤ q → fileByte st2 ino q = 0 := by
      rw [fileByte_congr hc.pageMap hc.data]
      exact h0.zero
    have hr : Resized st2 st' ino L' pages' e.size fun _ => False := by
      by_cases hdo : attr.size ≠ (st0.info ino).iSize ∨ eofBlocks = true
      · rw [if_pos ⟨hset, hdo⟩, some.injEq] at hres
        obtain ⟨-, rfl⟩ := hres
        rw [hesize]
        apply novaSetsize_spec attr.size time hc.file hc.iSize _ hzero2
        rw [hc.attrs]
        exact h0.reg
      rw [if_neg (fun h => hdo h.2), some.injEq] at hres
      obtain ⟨-, rfl⟩ := hres
      have hsame : attr.size = (st0.info ino).iSize := by
        by_contra hne
        exact hdo (.inl hne)
      rw [hesize, hsame]
      exact Resized.refl hc.file hc.iSize hzero2
    refine ⟨L' ++ [p], pages', hc.resize h0 heset hereg hr, ?_, ?_, ?_, ?_,
      fun _ => howner2.congr hr.slot hr.lastSetattr hr.owner hr.record⟩
    · rw [hr.iSize, hesize, if_pos ⟨hok, hset⟩]
    · rw [hr.record, hc.record]
    · intro q
      rw [hr.bytes q, hesize, fileByte_congr hc.pageMap hc.data]
      by_cases hq : q < attr.size
      · rw [if_pos hq, if_neg (by omega)]
      · rw [if_neg hq, if_pos ⟨hok, hset, by omega⟩]
    intro i x hi hnone
    rw [← hc.pageMap] at hi
    have hcut : pagesFor e.size ≤ i := by
      by_contra hlt
      rw [hr.pageMap, if_neg hlt, hi] at hnone
      cases hnone
    exact hr.freed i x hcut hi
  · have hset' : attr.setsSize = false := by simpa using hset
    rw [if_neg (fun h => hset h.1), some.injEq] at hres
    obtain ⟨-, rfl⟩ := hres
    rw [hset'] at heset
    simp only [hset', Bool.false_eq_true, if_false] at hesize
    refine ⟨L' ++ [p], pages', ?_, ?_, hc.record, ?_, ?_, fun _ => howner2⟩
    · apply hc.weak h0 hereg
      · simp [strongEvent, heset]
      · intro s hs
        simp only [sizeEvent, some.injEq] at hs
        rw [← hs]
        exact hesize
    · rw [hc.iSize]
      simp [hset']
    · intro q
      rw [fileByte_congr hc.pageMap hc.data]
      simp [hset']
    intro i x hi hnone
    rw [hc.pageMap, hi] at hnone
    cases hnone

end Themis.File
