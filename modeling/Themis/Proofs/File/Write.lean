/-
`nova_cow_file_write`: the extents of a write are put into new blocks and
new log entries behind the committed tail, then all of them are committed
at once and mapped.

# The loop

What every round keeps holds at its end (`extentLoop_induct`). A round adds
an entry behind the tail, whose blocks are in hand (`Pending.extent`).

`WritingAt` is the invariant. The file itself is as it was before the
write; the entries written so far stand for adjacent runs of pages, and
the blocks they name hold these pages as they are to be.
-/
import Themis.Proofs.File.Reassign

namespace Themis.File

open Lib Log List Option Function

variable {al : BlockAllocator} {st st' : State al} {ino size : Nat}
  {L P pages : List Nat} {R : Nat → Prop}
variable {cur n b k pos bytes : Nat} {st₀ : State al} {w : WriteReq} {v : WriteVars} {ret : Int}
variable {m p : Nat} {g : Nat → UInt8} {st₁ : State al} {r : WriteEnd al} {e : FileWriteEntry}

attribute [local simp] State.setInfo

-- === arithmetic

section arithmetic

variable {o k n count bytes pos : Nat}
variable {i r : Nat}

/-- The bytes of an extent. -/
theorem extent_bytes (ho : o < PAGE_SIZE) (hc : 0 < count) (hk : 0 < k) (hkn : k ≤ n)
    (hn : (count + o - 1) / PAGE_SIZE + 1 = n) (hb : bytes = min (PAGE_SIZE * k - o) count) :
    0 < bytes ∧ (bytes + o - 1) / PAGE_SIZE + 1 = k ∧ bytes ≤ count ∧ (bytes = count → n - k = 0) ∧
      (bytes ≠ count → (o + bytes) % PAGE_SIZE = 0 ∧
        (count - bytes - 1) / PAGE_SIZE + 1 = n - k) := by
  unfold PAGE_SIZE at *
  omega

/-- The pages up to the end of an extent. -/
theorem pagesFor_extent (hb : 0 < bytes) (hn : (bytes + pos % PAGE_SIZE - 1) / PAGE_SIZE + 1 = k) :
    pagesFor (pos + bytes) = pos / PAGE_SIZE + k := by
  unfold pagesFor PAGE_SIZE at *
  omega

/-- The pages up to a page border. -/
theorem pagesFor_aligned (h : pos % PAGE_SIZE = 0) : pagesFor pos = pos / PAGE_SIZE := by
  unfold pagesFor PAGE_SIZE at *
  omega

/-- Only the place in the page matters. -/
theorem mod_add_page (pos bytes : Nat) :
    (pos + bytes) % PAGE_SIZE = (pos % PAGE_SIZE + bytes) % PAGE_SIZE := by rw [Nat.mod_add_mod]

/-- A byte of a page in front of a border. -/
theorem page_end {s : Nat} (hr : r < PAGE_SIZE) (hi : i < s / PAGE_SIZE) (hs : s % PAGE_SIZE = 0) :
    i * PAGE_SIZE + r < s := by
  unfold PAGE_SIZE at *
  omega

/-- A byte of a page from a border on. -/
theorem page_start (hi : pos / PAGE_SIZE ≤ i) (hp : pos % PAGE_SIZE = 0) :
    pos ≤ i * PAGE_SIZE + r := by
  unfold PAGE_SIZE at *
  omega

end arithmetic

-- === the invariant

/-- What byte `q` is after the write. -/
def target (st₀ : State al) (ino pos : Nat) (w : WriteReq) (q : Nat) : UInt8 :=
  if pos ≤ q ∧ q < pos + w.len then w.buf (q - pos) else fileByte st₀ ino q

/-- The blocks of the entries hold the bytes of `g`. -/
def Written (st : State al) (P : List Nat) (g : Nat → UInt8) : Prop :=
  ∀ a ∈ P, ∀ i r, (entryAt st.nv a).pgoff ≤ i →
    i < (entryAt st.nv a).pgoff + (entryAt st.nv a).numPages → r < PAGE_SIZE →
    st.data (((entryAt st.nv a).block + i - (entryAt st.nv a).pgoff) * PAGE_SIZE + r)
      = g (i * PAGE_SIZE + r)

/-- The extent loop of a write that began in `st₀` at `pos`. -/
structure WritingAt (st₀ st : State al) (ino : Nat) (w : WriteReq) (pos : Nat)
    (v : WriteVars) (L P pages : List Nat) : Prop where
  log : LogAt st ino 40 v.tempTail L P pages
  file : FileInv st ino L pages (st₀.info ino).iSize (Held st.nv P)
  apart : Apart st.nv P
  chained : Chained st.nv (pos / PAGE_SIZE) (st₀.info ino).iSize P
    (if v.written = 0 then pos / PAGE_SIZE else pagesFor v.pos)
    (if v.written = 0 then (st₀.info ino).iSize
      else max v.pos (st₀.info ino).iSize)
  written : Written st P (target st₀ ino pos w)
  bytes : fileByte st ino = fileByte st₀ ino
  iSize : (st.info ino).iSize = (st₀.info ino).iSize
  attrs : (st.info ino).attrs = (st₀.info ino).attrs
  record : st.nv.record = st₀.nv.record
  begin : v.beginTail = P.headD 0
  place : v.pos = pos + v.written
  count : v.count + v.written = w.len
  blocks : v.numBlocks = if v.count = 0 then 0
    else (v.count + v.pos % PAGE_SIZE - 1) / PAGE_SIZE + 1
  aligned : v.written = 0 ∨ v.count = 0 ∨ v.pos % PAGE_SIZE = 0
  empty : P = [] ↔ v.written = 0
  setattr : ∀ L₀, walkLog st₀ ino = some L₀ → SetattrKept st₀ st ino L₀ L

/-- The cursor stands for itself. -/
theorem cursor_eq (h : LogAt st ino m cur L P pages) :
    (if cur ≠ 0 then cur else st.nv.logTail ino) = cur := by
  rcases h with ⟨hempty, rfl, -⟩ | ⟨A, B, T, rest, C, rfl, h⟩
  · simp [hempty.tail]
  · rw [if_pos h.log.log.last.stop_ne_zero]

-- === new blocks

/-- What `nova_new_data_blocks` hands out. -/
structure NewRun (st st' : State al) (b k n : Nat) : Prop where
  only : ∃ s, st' = { st with alloc := s }
  pos : 0 < k
  le : k ≤ n
  start : 0 < b
  unused : ∀ x, b ≤ x → x < b + k → ¬ st.InUse x
  inUse : ∀ x, st'.InUse x ↔ st.InUse x ∨ (b ≤ x ∧ x < b + k)

/-- What an allocation of data blocks gives. -/
theorem novaNewDataBlocks_spec (h : novaNewDataBlocks st n = (some (b, k), st')) :
    NewRun st st' b k n := by
  unfold novaNewDataBlocks at h
  cases hal : al.newBlocks st.alloc .data n with
  | mk r s =>
    rw [hal] at h
    cases h
    obtain ⟨h1, h2, h3, -, h4, h5⟩ := al.new_some hal
    exact ⟨⟨s, rfl⟩, h1, h2, h3, h4, h5⟩

/-- New blocks are held. -/
theorem PagesInv.take {b k n : Nat} (h : PagesInv st ino L pages R)
    (hpages : ∀ p ∈ pages, st.InUse (p / PAGE_SIZE)) (hn : NewRun st st' b k n) :
    PagesInv st' ino L pages fun x => R x ∨ (b ≤ x ∧ x < b + k) := by
  have hfree : ∀ x, b ≤ x ∧ x < b + k → ¬ st.InUse x ∧ 0 < x := by
    intro x hx
    have := hn.start
    exact ⟨hn.unused x hx.1 hx.2, by omega⟩
  have hown := h.owned.take hfree hn.inUse (by
    intro x hx
    have := hpages _ hx
    rwa [Nat.mul_div_cancel x (by decide : 0 < PAGE_SIZE)] at this)
  obtain ⟨s, rfl⟩ := hn.only
  exact ⟨h.member, h.entry, h.counted, hown⟩

/-- New blocks leave the log alone. -/
theorem NewRun.logAt (hn : NewRun st st' b k n) (h : LogAt st ino m cur L P pages) :
    LogAt st' ino m cur L P pages := by
  have huse := hn.inUse
  obtain ⟨s, rfl⟩ := hn.only
  exact h.congr rfl rfl rfl rfl (fun q hq => (huse _).2 (.inl (h.inUse q hq))) rfl

/-- Held blocks are mapped nowhere. -/
theorem PagesInv.unmapped (h : PagesInv st ino L pages fun x => R x ∨ (b ≤ x ∧ x < b + k)) :
    Unmapped st ino b k := by
  intro i x hi
  exact ⟨(h.owned.used i x hi).2.1, fun hx => h.owned.apart i x hi (.inr hx)⟩

/-- Filling unmapped blocks changes no byte of the file. -/
theorem FilledRun.keeps_bytes (h : FilledRun st st' ino pos bytes b n g) (hun : Unmapped st ino b n) :
    fileByte st' ino = fileByte st ino := by
  obtain ⟨d, hd⟩ := h.only
  funext q
  have hmap : pageMap st' ino = pageMap st ino := by rw [hd]; rfl
  cases hq : pageMap st ino (q / PAGE_SIZE) with
  | none => rw [fileByte_none (by rw [hmap]; exact hq), fileByte_none hq]
  | some x =>
    rw [fileByte_some (by rw [hmap]; exact hq), fileByte_some hq]
    apply h.outside
    have hnot := (hun _ x hq).2
    intro hin
    apply hnot
    unfold PAGE_SIZE at *
    omega

/-- Filling leaves the earlier extents alone. -/
theorem FilledRun.keeps_written {t : Nat → UInt8} (h : FilledRun st st' ino pos bytes b n g)
    (hw : Written st P t) (hout : ∀ x, Held st.nv P x → ¬ (b ≤ x ∧ x < b + n)) :
    Written st' P t := by
  obtain ⟨d, hd⟩ := h.only
  have hnv : st'.nv = st.nv := by rw [hd]
  intro a ha i r h1 h2 hr
  rw [hnv] at h1 h2 ⊢
  rw [h.outside _ ?_]
  · exact hw a ha i r h1 h2 hr
  have hnot := hout _ ⟨a, ha, (⟨by omega, by omega⟩ : InRun st.nv a
    ((entryAt st.nv a).block + i - (entryAt st.nv a).pgoff))⟩
  intro hin
  apply hnot
  generalize (entryAt st.nv a).block + i - (entryAt st.nv a).pgoff = x at *
  unfold PAGE_SIZE at *
  omega

-- === one extent

/-- The new blocks hold what they should. -/
theorem FilledRun.fills (h : FilledRun st st₁ ino v.pos bytes b k fun j => w.buf (v.written + j))
    (hb : 0 < bytes) (hn : (bytes + v.pos % PAGE_SIZE - 1) / PAGE_SIZE + 1 = k)
    (hbytes : fileByte st ino = fileByte st₀ ino) (hplace : v.pos = pos + v.written)
    (hle : v.written + bytes ≤ w.len) (hfirst : v.written = 0 ∨ v.pos % PAGE_SIZE = 0)
    (hlast : v.written + bytes = w.len ∨ (v.pos + bytes) % PAGE_SIZE = 0) {i r : Nat}
    (h1 : v.pos / PAGE_SIZE ≤ i) (h2 : i < v.pos / PAGE_SIZE + k) (hr : r < PAGE_SIZE) :
    st₁.data ((b + i - v.pos / PAGE_SIZE) * PAGE_SIZE + r)
      = target st₀ ino pos w (i * PAGE_SIZE + r) := by
  obtain ⟨j, rfl⟩ := Nat.exists_eq_add_of_le h1
  have hin := h.inside j r (by omega) hr
  rw [show b + (v.pos / PAGE_SIZE + j) - v.pos / PAGE_SIZE = b + j by omega, hin, hbytes, target]
  have hpages := pagesFor_extent hb hn
  generalize hq : (v.pos / PAGE_SIZE + j) * PAGE_SIZE + r = q
  by_cases hmid : v.pos ≤ q ∧ q < v.pos + bytes
  · rw [if_pos hmid, if_pos (by omega)]
    congr 1
    omega
  rw [if_neg hmid, if_neg]
  -- in front of the first extent or behind the last one
  intro hcon
  have hfront : v.pos ≤ q := by
    rcases hfirst with h0 | h0
    · omega
    · rw [← hq]
      exact page_start (Nat.le_add_right _ _) h0
  rcases hlast with h0 | h0
  · omega
  have := page_end hr (i := v.pos / PAGE_SIZE + j) (s := v.pos + bytes)
    (by rw [← pagesFor_aligned h0, hpages]; omega) h0
  omega

/-- A write entry is appended. -/
theorem novaAppendFileWriteEntry_grown (h : PagesInv st ino L pages R)
    (hlog : LogAt st ino 40 cur L P pages)
    (hres : novaAppendFileWriteEntry st ino e cur = some (p, st')) (hp : p ≠ 0) :
    ∃ L' pages' kept, LogAt st' ino 40 (p + 40) L' (P ++ [p]) pages' ∧
      Grown st st' ino L P pages p (.fileWrite e) L' pages' kept ∧ L'.Nodup ∧
      st'.nv.invalid p = 0 := by
  unfold novaAppendFileWriteEntry at hres
  rw [bind_eq_bind, bind_eq_some_iff] at hres
  obtain ⟨⟨p1, st₁⟩, hget, hres⟩ := hres
  by_cases hp1 : p1 = 0
  · simp only [hp1, if_true, Option.pure_def, some.injEq, Prod.mk.injEq] at hres
    exact absurd hres.1.symm hp
  simp only [if_neg hp1, Option.pure_def, some.injEq, Prod.mk.injEq] at hres
  obtain ⟨rfl, rfl⟩ := hres
  obtain ⟨ext, happ⟩ := novaGetAppendHead_eq hget
  rw [cursor_eq hlog] at happ
  have hs : SlotOnly p1 st₁ (st₁.ntStore (.slot p1 (.fileWrite e) 0)) := by
    refine ⟨?_, ?_, rfl, rfl, rfl, rfl, rfl, rfl, rfl⟩
    · intro a ha
      simp [Nvmm.apply, ha]
    · intro a ha
      simp [Nvmm.apply, ha]
  obtain ⟨L', pages', kept, hat, hg⟩ := LogAt.append (e := .fileWrite e) (le_refl 40)
    hlog h.keysOk (fun i a hi => mem_append_left _ (h.member i a hi))
    (by simp [LogEntry.size])
    (by simp [LogEntry.size, LAST_ENTRY]) happ hp1 hs (by simp [Nvmm.apply])
  have hnd := hat.nodup
  rw [nodup_append] at hnd
  exact ⟨L', pages', kept, hat, hg, hnd.1, by simp [Nvmm.apply]⟩

section snoc

variable {nv nv' : Nvmm} {p b k : Nat}

/-- The blocks of one more entry. -/
theorem held_snoc (hkeep : ∀ a ∈ P, entryAt nv' a = entryAt nv a)
    (hb : (entryAt nv' p).block = b) (hk : (entryAt nv' p).numPages = k) (x : Nat) :
    Held nv' (P ++ [p]) x ↔ Held nv P x ∨ (b ≤ x ∧ x < b + k) := by
  simp only [Held, mem_append, mem_singleton, or_and_right, exists_or, exists_eq_left]
  apply or_congr
  · apply exists_congr
    intro a
    apply and_congr_right
    intro ha
    simp only [InRun, hkeep a ha]
  · simp only [InRun, hb, hk]

/-- They are apart from the others. -/
theorem apart_snoc (h : Apart nv P) (hkeep : ∀ a ∈ P, entryAt nv' a = entryAt nv a)
    (hb : (entryAt nv' p).block = b) (hk : (entryAt nv' p).numPages = k)
    (hfree : ∀ x, Held nv P x → ¬ (b ≤ x ∧ x < b + k)) : Apart nv' (P ++ [p]) := by
  apply pairwise_append.2
  refine ⟨?_, pairwise_singleton _ _, ?_⟩
  · apply h.imp_of_mem
    intro a c ha hc hac x
    simp only [InRun, hkeep a ha, hkeep c hc]
    exact hac x
  intro a ha c hc x hx hxp
  rw [mem_singleton.1 hc, InRun, hb, hk] at hxp
  rw [InRun, hkeep a ha] at hx
  exact hfree x ⟨a, ha, hx⟩ hxp

end snoc

/-- The entries `P` are written behind the tail. -/
structure Pending (st : State al) (ino cur : Nat) (L P pages : List Nat) : Prop where
  log : LogAt st ino 40 cur L P pages
  waiting : Waiting st ino L P pages

section

variable (h : Pending st ino cur L P pages)
include h

/-- One more extent is pending. -/
theorem Pending.extent {st2 : State al} {d : Nat → UInt8}
    (hrun : NewRun st st₁ b k n) (hfill : st2 = { st₁ with data := d }) (hb : e.block = b)
    (hk : e.numPages = k) (happ : novaAppendFileWriteEntry st2 ino e cur = some (p, st'))
    (hp : p ≠ 0) : ∃ L' pages' kept, Pending st' ino (p + 40) L' (P ++ [p]) pages' ∧
      Grown st2 st' ino L P pages p (.fileWrite e) L' pages' kept ∧
      PagesInv st2 ino L pages (fun x => Held st.nv P x ∨ (b ≤ x ∧ x < b + k)) ∧
      ∀ x, Held st'.nv (P ++ [p]) x ↔ Held st.nv P x ∨ (b ≤ x ∧ x < b + k) := by
  have hbase1 := h.waiting.base.take h.log.inUse hrun
  have hlog1 := hrun.logAt h.log
  have hfree : ∀ x, Held st.nv P x → ¬ (b ≤ x ∧ x < b + k) := by
    intro x hx hin
    exact hrun.unused x hin.1 hin.2 (h.waiting.base.owned.hold x hx).1
  obtain ⟨s, rfl⟩ := hrun.only
  have hbase2 : PagesInv st2 ino L pages fun x => Held st.nv P x ∨ (b ≤ x ∧ x < b + k) := by
    rw [hfill]
    exact hbase1.congr rfl rfl rfl rfl
  have hlog2 : LogAt st2 ino 40 cur L P pages := by
    rw [hfill]
    exact hlog1.congr rfl rfl rfl rfl hlog1.inUse rfl
  have hnv2 : st2.nv = st.nv := by rw [hfill]
  obtain ⟨L', pages', kept, hlog', hg, hnd, hinv⟩ :=
    novaAppendFileWriteEntry_grown hbase2 hlog2 happ hp
  have hL := hlog2.nodup
  rw [nodup_append] at hL
  obtain ⟨hbase', -⟩ := hbase2.grown hL.1 hg hnd
  have hpend := hg.pending
  rw [hnv2] at hpend
  have hkeep : ∀ a ∈ P, entryAt st'.nv a = entryAt st.nv a := by
    intro a ha
    simp only [entryAt, (hpend a ha).1]
  have hself : entryAt st'.nv p = e := by simp [entryAt, hg.entry]
  have hheld := held_snoc hkeep (by rw [hself, hb]) (by rw [hself, hk])
  refine ⟨L', pages', kept, ⟨hlog', hbase'.held_congr hheld, ?_, ?_, hlog'.nodup⟩, hg,
    hbase2, hheld⟩
  · exact apart_snoc h.waiting.apart hkeep (by rw [hself, hb]) (by rw [hself, hk]) hfree
  intro a ha
  rcases mem_append.1 ha with ha | ha
  · rw [hkeep a ha, (hpend a ha).1, (hpend a ha).2]
    exact h.waiting.new a ha
  · rw [mem_singleton.1 ha, hself]
    exact ⟨hg.entry, hinv⟩

/-- The first of the entries. -/
theorem Pending.headD_snoc (p : Nat) :
    (if P.headD 0 = 0 then p else P.headD 0) = (P ++ [p]).headD 0 := by
  cases hP : P with
  | nil => simp
  | cons a P' =>
    have ha : a ≠ 0 := by
      have hpage := h.log.isPage _ (h.log.blockOff_mem (a := a) (by simp [hP]))
      intro h0
      rw [h0] at hpage
      exact absurd hpage.2 (by simp [blockOff])
    simp [ha]

/-- Commit, and reassign the pages of all entries. -/
theorem Pending.reassign (hP : P ≠ []) : let st₁ := novaUpdateTail st ino cur
    novaReassignFileTree st₁ ino (P.headD 0)
        = some (0, P.foldl (fun st a => novaAssignWriteEntry st ino a true) st₁) ∧
      Waiting st₁ ino L P pages ∧
      ∀ st2, TreeOnly ino st₁ st2 → (∀ x, LogBlock pages x → st₁.InUse x → st2.InUse x) →
        LogAt st2 ino 0 (st2.nv.logTail ino) (L ++ P) [] pages := by
  obtain ⟨a, M, hcons⟩ := exists_cons_of_ne_nil hP
  have h40 : ∀ x ∈ a :: M, (st.nv.slot x).size = 40 := by
    intro x hx
    rw [← hcons] at hx
    rw [(h.waiting.new x hx).1]
    rfl
  have hlogP := h.log
  rw [hcons] at hlogP
  obtain ⟨hwalk, hlim⟩ := walkBy_pending hlogP h40
  have hcur : cur ≠ 0 := by
    intro h0
    rw [h0] at hlogP
    rcases hlogP with ⟨-, -, -, hnil, -⟩ | ⟨A, B, T, rest, C, hc, hlog⟩
    · cases hnil
    · exact hlog.log.log.last.stop_ne_zero hc.symm
  have htail : (novaUpdateTail st ino cur).nv.logTail ino = cur := by
    simp [novaUpdateTail, Nvmm.apply]
  have hlog1 : LogAt (novaUpdateTail st ino cur) ino 40 cur (L ++ P) [] pages :=
    h.log.commit hcur rfl rfl rfl htail rfl rfl
  refine ⟨?_, ⟨h.waiting.base.congr rfl rfl rfl rfl, h.waiting.apart, h.waiting.new,
    h.waiting.nodup⟩, ?_⟩
  · rw [hcons]
    apply reassignLoop_eq _ _ hlim
    · intro x hx
      rw [← hcons] at hx
      exact ⟨_, (h.waiting.new x hx).1⟩
    · rw [htail]
      exact hwalk.congr rfl
  intro st2 honly huse
  rw [honly.logTail, htail]
  have hlog2 : LogAt st2 ino 40 cur (L ++ P) [] pages := by
    refine hlog1.congr honly.slot honly.next ?_ ?_ ?_ ?_
    · rw [honly.logHead]
    · rw [honly.logTail]
    · intro p hp
      refine huse _ ?_ (hlog1.inUse p hp)
      rw [LogBlock, div_mul_page (hlog1.isPage p hp)]
      exact hp
    · rw [honly.self]
  exact hlog2.retune 0

end

-- === the extent loop

/-- The bytes that go into an extent of `k` blocks. -/
def WriteVars.bytesIn (v : WriteVars) (k : Nat) : Nat :=
  min (PAGE_SIZE * k - v.pos % PAGE_SIZE) v.count

/-- The variables behind an extent. -/
def WriteVars.next (v : WriteVars) (k p : Nat) : WriteVars where
  pos := v.pos + v.bytesIn k
  written := v.written + v.bytesIn k
  count := v.count - v.bytesIn k
  numBlocks := v.numBlocks - k
  tempTail := p + 40
  beginTail := if v.beginTail = 0 then p else v.beginTail

/-- A round that is handed `k` blocks at `b` and appends its entry at
`p`, or finds no place for it (0). -/
structure Round (ino : Nat) (w : WriteReq) (st : State al) (v : WriteVars) (b k p : Nat)
    (st₁ st₂ : State al) : Prop where
  more : v.numBlocks ≠ 0
  new : novaNewDataBlocks st v.numBlocks = (some (b, k), st₁)
  entry : novaAppendFileWriteEntry (fillExtent st₁ ino w v b (v.bytesIn k)) ino
    (extentEntry st₁ ino w v b k (v.bytesIn k)) v.tempTail = some (p, st₂)

/-- How one round of the loop ends. -/
theorem extentLoop_cases {rounds : Nat} (hres : extentLoop ino w (rounds + 1) st v = some r) :
    (v.numBlocks = 0 ∧ r = .done st v) ∨
      (∃ st₁, v.numBlocks ≠ 0 ∧ novaNewDataBlocks st v.numBlocks = (none, st₁) ∧
        r = .out (-ENOSPC) st₁) ∨ ∃ b k p st₁ st2, Round ino w st v b k p st₁ st2 ∧
        (p = 0 ∧ r = .out (-ENOSPC) st2 ∨
          p ≠ 0 ∧ extentLoop ino w rounds st2 (v.next k p) = some r) := by
  rw [extentLoop] at hres
  by_cases h0 : v.numBlocks = 0
  · rw [if_pos h0, some.injEq] at hres
    exact .inl ⟨h0, hres.symm⟩
  rw [if_neg h0] at hres
  cases hnew : novaNewDataBlocks st v.numBlocks with
  | mk a st₁ =>
    rw [hnew] at hres
    cases a with
    | none =>
      simp only [some.injEq] at hres
      exact .inr (.inl ⟨st₁, h0, rfl, hres.symm⟩)
    | some bk =>
      obtain ⟨b, k⟩ := bk
      simp only [bind_eq_bind] at hres
      rw [bind_eq_some_iff] at hres
      obtain ⟨⟨p, st2⟩, happ, hres⟩ := hres
      refine .inr (.inr ⟨b, k, p, st₁, st2, ⟨h0, hnew, happ⟩, ?_⟩)
      by_cases hp : p = 0
      · simp only [if_pos hp, Option.pure_def, some.injEq] at hres
        exact .inl ⟨hp, hres.symm⟩
      · simp only [if_neg hp] at hres
        exact .inr ⟨hp, hres⟩

/-- What every round keeps, the loop keeps. -/
theorem extentLoop_induct {M : State al → WriteVars → Prop}
    (hstep : ∀ {st v b k p st₁ st2}, M st v → Round ino w st v b k p st₁ st2 → p ≠ 0 →
      M st2 (v.next k p)) :
    ∀ (rounds : Nat) {st : State al} {v : WriteVars} {r : WriteEnd al}, M st v →
      v.numBlocks ≤ rounds → extentLoop ino w rounds st v = some r →
      (∃ st', r = .out (-ENOSPC) st') ∨
        ∃ st' v', r = .done st' v' ∧ M st' v' ∧ v'.numBlocks = 0 := by
  intro rounds
  induction rounds with
  | zero =>
    intro st v r h hle hres
    simp only [extentLoop, some.injEq] at hres
    exact .inr ⟨st, v, hres.symm, h, by omega⟩
  | succ rounds ih =>
    intro st v r h hle hres
    rcases extentLoop_cases hres with ⟨h0, hr⟩ | ⟨st₁, -, -, hr⟩ |
      ⟨b, k, p, st₁, st2, hround, ⟨-, hr⟩ | ⟨hp, hres⟩⟩
    · exact .inr ⟨st, v, hr, h, h0⟩
    · exact .inl ⟨st₁, hr⟩
    · exact .inl ⟨st2, hr⟩
    apply ih (hstep h hround hp) _ hres
    have := (novaNewDataBlocks_spec hround.new).pos
    simp only [WriteVars.next]
    omega

/-- The part about pending entries. -/
theorem WritingAt.pending (h : WritingAt st₀ st ino w pos v L P pages) :
    Pending st ino v.tempTail L P pages :=
  ⟨h.log, h.file.pagesInv, h.apart, fun _ ha => h.chained.fileWrite ha, h.log.nodup⟩

/-- One more extent. -/
theorem WritingAt.extent {st₀ st₁ : State al} {w : WriteReq} {pos b k p : Nat}
    {v : WriteVars} (h : WritingAt st₀ st ino w pos v L P pages)
    (hround : Round ino w st v b k p st₁ st') (hp : p ≠ 0) :
    ∃ L' pages', WritingAt st₀ st' ino w pos (v.next k p) L' (P ++ [p]) pages' ∧
      ∀ x, Held st'.nv (P ++ [p]) x ↔ Held st.nv P x ∨ (b ≤ x ∧ x < b + k) := by
  obtain ⟨hnum, hnew, happ⟩ := hround
  have hcount : v.count ≠ 0 := by
    intro h0
    rw [h.blocks, if_pos h0] at hnum
    exact hnum rfl
  have hblocks := h.blocks
  rw [if_neg hcount] at hblocks
  have hrun := novaNewDataBlocks_spec hnew
  obtain ⟨hb0, hn, hble, hdone, hmore⟩ := extent_bytes (mod_page_lt v.pos)
    (Nat.pos_of_ne_zero hcount) hrun.pos hrun.le hblocks.symm
    (show v.bytesIn k = min (PAGE_SIZE * k - v.pos % PAGE_SIZE) v.count from rfl)
  unfold WriteVars.next
  generalize v.bytesIn k = bytes at *
  -- the blocks are taken
  have hbytes1 : fileByte st₁ ino = fileByte st₀ ino := by
    rw [← h.bytes]
    obtain ⟨s, rfl⟩ := hrun.only
    rfl
  have hinfo1 : st₁.info = st.info := by
    obtain ⟨s, rfl⟩ := hrun.only
    rfl
  have hnv1 : st₁.nv = st.nv := by
    obtain ⟨s, rfl⟩ := hrun.only
    rfl
  have hwritten1 : Written st₁ P (target st₀ ino pos w) := by
    obtain ⟨s, rfl⟩ := hrun.only
    exact h.written
  have hfree : ∀ x, Held st₁.nv P x → ¬ (b ≤ x ∧ x < b + k) := by
    intro x hx hin
    rw [hnv1] at hx
    exact hrun.unused x hin.1 hin.2 (h.file.owned.hold x hx).1
  -- they are filled
  have hun := (h.file.pagesInv.take h.log.inUse hrun).unmapped
  have hfill := fillExtent_spec (w := w) (v := v) hun hb0 hn
  have hwritten2 := hfill.keeps_written hwritten1 hfree
  have hbytes2 := hfill.keeps_bytes hun
  have haligned : v.written = 0 ∨ v.pos % PAGE_SIZE = 0 := by
    rcases h.aligned with h0 | h0 | h0
    · exact .inl h0
    · exact absurd h0 hcount
    · exact .inr h0
  have hend : v.written + bytes = w.len ∨ (v.pos + bytes) % PAGE_SIZE = 0 := by
    by_cases hall : bytes = v.count
    · have := h.count
      left
      omega
    right
    rw [mod_add_page]
    exact (hmore hall).1
  have hnew2 : ∀ i r, v.pos / PAGE_SIZE ≤ i → i < v.pos / PAGE_SIZE + k →
      r < PAGE_SIZE → _ := fun i r h1 h2 hr =>
    hfill.fills hb0 hn hbytes1 h.place (by have := h.count; omega) haligned hend h1 h2 hr
  obtain ⟨d, hd⟩ := hfill.only
  generalize fillExtent st₁ ino w v b bytes = st2 at *
  have hnv2 : st2.nv = st.nv := by rw [hd, ← hnv1]
  have hinfo2 : st2.info = st.info := by rw [hd, ← hinfo1]
  -- the entry is appended
  obtain ⟨L', pages', kept, hpend', hg, hbase2, hheld⟩ := h.pending.extent hrun hd rfl rfl happ hp
  have hfile2 : FileInv st2 ino L pages (st₀.info ino).iSize
      (fun x => Held st.nv P x ∨ (b ≤ x ∧ x < b + k)) := by
    refine ⟨?_, hbase2.counted, hbase2.owned⟩
    rw [hnv2, hinfo2]
    exact h.file.replayable
  have hnodup := hpend'.waiting.nodup
  rw [nodup_append] at hnodup
  obtain ⟨hfile', hmap'⟩ := hfile2.grown hg hnodup.1
  have hpend := hg.pending
  rw [hnv2] at hpend
  have hkeep : ∀ a ∈ P, entryAt st'.nv a = entryAt st.nv a := by
    intro a ha
    simp only [entryAt, (hpend a ha).1]
  have hinv := (hpend'.waiting.new p (by simp)).2
  have hself : entryAt st'.nv p = extentEntry st₁ ino w v b k bytes := by simp [entryAt, hg.entry]
  have hesize : (extentEntry st₁ ino w v b k bytes).size
      = max (v.pos + bytes) (st₀.info ino).iSize := by simp only [extentEntry, hinfo1, h.iSize]
  have hfrom : (if v.written = 0 then pos / PAGE_SIZE else pagesFor v.pos) = v.pos / PAGE_SIZE := by
    split
    · rename_i h0
      rw [h.place, h0, Nat.add_zero]
    · rename_i h0
      exact pagesFor_aligned (haligned.resolve_left h0)
  have hto := pagesFor_extent hb0 hn
  have hw0 : v.written + bytes ≠ 0 := by omega
  refine ⟨L', pages', ⟨hpend'.log, hfile'.held_congr hheld, hpend'.waiting.apart, ?_, ?_, ?_,
    ?_, ?_, ?_, ?_, ?_, ?_, ?_, ?_, ?_, ?_⟩, hheld⟩
  · have hc := h.chained.congr (fun a ha => (hpend a ha).1) fun a ha => (hpend a ha).2
    rw [hfrom] at hc
    simp only [if_neg hw0]
    rw [hto, ← hesize]
    apply hc.snoc hg.entry hinv rfl hrun.pos
    · change v.pos / PAGE_SIZE + k ≤ _
      rw [← hto]
      exact pagesFor_mono (Nat.le_max_left _ _)
    rw [hesize]
    split
    · exact Nat.le_max_right _ _
    · omega
  · intro a ha i r h1 h2 hr
    rw [hg.data]
    rcases mem_append.1 ha with ha | ha
    · rw [hkeep a ha] at h1 h2 ⊢
      rw [← hnv2] at h1 h2 ⊢
      exact hwritten2 a ha i r h1 h2 hr
    · rw [mem_singleton.1 ha, hself] at h1 h2 ⊢
      exact hnew2 i r h1 h2 hr
  · rw [fileByte_congr hmap' hg.data, hbytes2, hbytes1]
  · rw [hg.iSize, hinfo2, h.iSize]
  · rw [hg.attrs, hinfo2, h.attrs]
  · rw [hg.record, hnv2, h.record]
  · rw [h.begin]
    exact h.pending.headD_snoc p
  · have := h.place
    simp only
    omega
  · have := h.count
    simp only
    omega
  · simp only
    by_cases hall : bytes = v.count
    · rw [hdone hall, if_pos (by omega)]
    obtain ⟨h1, h2⟩ := hmore hall
    rw [if_neg (by omega), mod_add_page, h1]
    exact h2.symm
  · simp only
    rcases hend with h0 | h0
    · right
      left
      have := h.count
      omega
    · exact .inr (.inr h0)
  · exact ⟨fun hnil => absurd hnil (by simp), fun h0 => absurd h0 hw0⟩
  intro L0 hL0
  refine SetattrKept.trans ?_ (hg.setattr_kept hfile2.replayable.nodup)
  exact (h.setattr L0 hL0).congr (by rw [hnv2]) (by rw [hnv2]) (by rw [hinfo2])

/-- A loop that is done has written everything. -/
theorem extentLoop_spec (rounds : Nat) (h : WritingAt st₀ st ino w pos v L P pages)
    (hle : v.numBlocks ≤ rounds) (hres : extentLoop ino w rounds st v = some r) :
    (∃ st', r = .out (-ENOSPC) st') ∨ ∃ st' v' L' P' pages', r = .done st' v' ∧
        WritingAt st₀ st' ino w pos v' L' P' pages' ∧ v'.count = 0 := by
  rcases extentLoop_induct (M := fun st v => ∃ L P pages, WritingAt st₀ st ino w pos v L P pages)
    (by
      intro st v b k p st₁ st2 hat hround hp
      obtain ⟨L, P, pages, hat⟩ := hat
      obtain ⟨L', pages', hat', -⟩ := hat.extent hround hp
      exact ⟨L', _, pages', hat'⟩) rounds ⟨L, P, pages, h⟩ hle hres
    with hout | ⟨st', v', hr, ⟨L', P', pages', h'⟩, h0⟩
  · exact .inl hout
  refine .inr ⟨st', v', L', P', pages', hr, h', ?_⟩
  by_contra hne
  have := h'.blocks
  rw [if_neg hne, h0] at this
  exact absurd this.symm (Nat.succ_ne_zero _)

-- === the commit

/-- The page of a byte that is written. -/
theorem page_of_byte {len q : Nat} (h : pos ≤ q ∧ q < pos + len) :
    pos / PAGE_SIZE ≤ q / PAGE_SIZE ∧ q / PAGE_SIZE < pagesFor (pos + len) := by
  unfold pagesFor PAGE_SIZE
  omega

/-- What a finished write leaves: the file with its new contents. -/
structure Wrote (st st' : State al) (ino pos : Nat) (w : WriteReq)
    (L pages : List Nat) : Prop where
  ok : FileOk st' ino L pages
  bytes : ∀ q, fileByte st' ino q = target st ino pos w q
  iSize : (st'.info ino).iSize = max (pos + w.len) (st.info ino).iSize
  record : st'.nv.record = st.nv.record
  owner : ∀ L₀, walkLog st ino = some L₀ → SetattrSafe st ino L₀ → OwnerOk st ino L₀ →
    OwnerOk st' ino L

/-- The write is committed. -/
theorem WritingAt.commit (h : WritingAt st₀ st ino w pos v L P pages) (hcount : v.count = 0)
    (hlen : 0 < w.len) (hreg : isReg (st₀.info ino).attrs.mode = true)
    (hzero : ∀ q, (st₀.info ino).iSize ≤ q → fileByte st₀ ino q = 0)
    (hres : commitWrite st ino v = some (ret, st')) :
    ret = w.len ∧ Wrote st₀ st' ino pos w (L ++ P) pages := by
  have hwritten : v.written = w.len := by
    have := h.count
    omega
  have hw0 : v.written ≠ 0 := by omega
  have hpos : v.pos = pos + w.len := by rw [h.place, hwritten]
  have hPne : P ≠ [] := fun hP => hw0 (h.empty.1 hP)
  have hchain := h.chained
  rw [if_neg hw0, if_neg hw0] at hchain
  obtain ⟨hloop, hwait, hlog1⟩ := h.pending.reassign hPne
  have hmapped := assign_all (f := pos / PAGE_SIZE) hwait h.file.replayable
    (hchain.congr (fun _ _ => rfl) fun _ _ => rfl)
  rw [← h.begin] at hloop
  have hdata1 : (novaUpdateTail st ino v.tempTail).data = st.data := rfl
  have hmap1 : pageMap (novaUpdateTail st ino v.tempTail) ino = pageMap st ino := rfl
  have hinfo1 : (novaUpdateTail st ino v.tempTail).info = st.info := rfl
  have hrec1 : (novaUpdateTail st ino v.tempTail).nv.record = st.nv.record := rfl
  have hslot1 : (novaUpdateTail st ino v.tempTail).nv.slot = st.nv.slot := rfl
  have hentry1 : ∀ x, entryAt (novaUpdateTail st ino v.tempTail).nv x
      = entryAt st.nv x := fun _ => rfl
  simp only [commitWrite, hloop, bind_eq_bind,
    bind_some, ne_eq, not_true_eq_false, if_false, Option.pure_def,
    some.injEq, Prod.mk.injEq] at hres
  obtain ⟨rfl, hst'⟩ := hres
  generalize novaUpdateTail st ino v.tempTail = st₁ at *
  generalize P.foldl (fun st a => novaAssignWriteEntry st ino a true) st₁ = st2 at *
  have hself := hmapped.only.self
  rw [hinfo1] at hself
  have hsize2 : (st2.info ino).iSize = (st₀.info ino).iSize := by
    rw [hself]
    exact h.iSize
  -- the size is set
  have hnv' : st'.nv = st2.nv := by
    rw [← hst']
    split <;> rfl
  have hdata' : st'.data = st2.data := by
    rw [← hst']
    split <;> rfl
  have halloc' : st'.alloc = st2.alloc := by
    rw [← hst']
    split <;> rfl
  have hinfo' : (st'.info ino).tree = (st2.info ino).tree ∧
      (st'.info ino).logPages = (st2.info ino).logPages ∧
      (st'.info ino).attrs = (st2.info ino).attrs ∧
      (st'.info ino).lastSetattr = (st2.info ino).lastSetattr ∧
      (st'.info ino).iSize = max v.pos (st₀.info ino).iSize := by
    rw [← hst']
    split
    · simp only [setSize, State.setInfo, update_self]
      refine ⟨trivial, trivial, trivial, trivial, ?_⟩
      omega
    · exact ⟨rfl, rfl, rfl, rfl, by rw [hsize2]; omega⟩
  obtain ⟨htree', hpages', hattrs', hlast', hsize'⟩ := hinfo'
  have hmap' : pageMap st' ino = pageMap st2 ino := by
    funext i
    simp only [pageMap, htree', hnv']
  -- the contents
  have hbytes : ∀ q, fileByte st' ino q = target st₀ ino pos w q := by
    intro q
    rw [fileByte_congr hmap' hdata']
    by_cases hq : pos / PAGE_SIZE ≤ q / PAGE_SIZE ∧ q / PAGE_SIZE < pagesFor v.pos
    · obtain ⟨x, hx, h1, h2, h3⟩ := hmapped.inside _ hq.1 hq.2
      rw [hentry1] at h1 h2 h3
      have hw := h.written x hx _ _ h1 h2 (mod_page_lt q)
      rw [fileByte_some h3, hmapped.only.data, hdata1, hw]
      congr 1
      exact Nat.div_add_mod' q PAGE_SIZE
    have hout := hmapped.outside _ hq
    have hsame : fileByte st2 ino q = fileByte st ino q := by
      simp only [fileByte, hout, hmap1, hmapped.only.data, hdata1]
    rw [hsame, h.bytes, target, if_neg]
    intro hin
    rw [hpos] at hq
    exact hq (page_of_byte hin)
  have hrec' : st'.nv.record = st₀.nv.record := by rw [hnv', hmapped.only.record, hrec1, h.record]
  have hslot' : st'.nv.slot = st.nv.slot := by rw [hnv', hmapped.only.slot, hslot1]
  refine ⟨by rw [hwritten], ⟨?_, ?_, ?_, ?_, ?_⟩, hbytes, by rw [hsize', hpos], hrec', ?_⟩
  · have hlog2 := hlog1 st2 hmapped.only hmapped.inUse
    rw [hnv']
    refine hlog2.congr (by rw [hnv']) (by rw [hnv']) (by rw [hnv']) (by rw [hnv']) ?_ hpages'
    intro p hp
    rw [State.InUse, halloc']
    exact hlog2.inUse p hp
  · rw [hsize']
    exact hmapped.file.congr (by rw [hnv']) (by rw [hnv']) (by rw [hnv']) halloc' htree'
  · rw [hattrs', hself, h.attrs]
    exact hreg
  · intro q hq
    rw [hbytes q, target, if_neg (by omega)]
    exact hzero q (by omega)
  · intro hnil
    exact absurd (append_eq_nil_iff.1 hnil).2 hPne
  intro L0 hL0 hsafe howner
  have hlive : OwnerOk st ino L := by
    apply howner.kept (h.setattr L0 hL0) hsafe
    · rw [h.attrs]
    · exact h.record
  have hcom : OwnerOk st ino (L ++ P) := by
    apply hlive.append
    intro x hx
    rw [(hchain.fileWrite hx).1]
    rfl
  apply hcom.congr hslot'
  · rw [hlast', hself]
  · rw [hattrs', hself]
  · rw [hrec', h.record]

/-- The position a write goes to. -/
def WriteReq.place (w : WriteReq) (st : State al) (ino : Nat) : Nat :=
  if w.append then (st.info ino).iSize else w.pos

/-- What `nova_cow_file_write` does not refuse. -/
def WriteReq.Admitted (w : WriteReq) : Prop :=
  w.len ≠ 0 ∧ w.mapped = false ∧ w.accessOk = false ∧ w.removePrivs = 0

/-- A new time keeps the file. -/
theorem FileOk.of_touch (h : FileOk st ino L pages) (time : Nat) :
    FileOk (touch st ino time) ino L pages := by
  refine h.congr rfl rfl rfl ?_ ?_ ?_ ?_
  · simp [File.touch]
  · simp [File.touch]
  · simp [File.touch]
  · simpa [File.touch] using h.reg

/-- A new time changes no byte. -/
theorem fileByte_touch (st : State al) (ino time : Nat) :
    fileByte (touch st ino time) ino = fileByte st ino := by
  refine fileByte_congr ?_ rfl
  funext i
  simp only [pageMap, touch, State.setInfo, update_self]

/-- A write begins. -/
theorem FileOk.writingAt (h : FileOk st ino L pages) (hlen : w.len ≠ 0) : WritingAt st st ino w pos
      { pos := pos
        written := 0
        count := w.len
        numBlocks := (w.len + pos % PAGE_SIZE - 1) / PAGE_SIZE + 1
        tempTail := st.nv.logTail ino
        beginTail := 0 } L [] pages := by
  refine ⟨h.log.retune 40, ?_, List.Pairwise.nil, ⟨rfl, rfl⟩, ?_, rfl, rfl, rfl, rfl,
    rfl, rfl, rfl, ?_, .inl rfl, by simp, ?_⟩
  · apply h.file.held_congr
    simp [Held]
  · intro a ha
    cases ha
  · rw [if_neg hlen]
  intro L0 hL0
  rw [h.walkLog_eq, some.injEq] at hL0
  rw [← hL0]
  exact SetattrKept.refl st ino L

/-- The variables in front of the first extent. -/
def WriteReq.start (w : WriteReq) (st : State al) (ino : Nat) : WriteVars where
  pos := w.place st ino
  written := 0
  count := w.len
  numBlocks := (w.len + w.place st ino % PAGE_SIZE - 1) / PAGE_SIZE + 1
  tempTail := st.nv.logTail ino
  beginTail := 0

/-- A write is refused, or its loop decides. -/
theorem novaCowFileWrite_cases (hres : novaCowFileWrite st ino w = some (ret, st')) :
    (¬ w.Admitted ∧ st' = st) ∨
      (w.Admitted ∧ ∃ r, extentLoop ino w (w.start st ino).numBlocks (touch st ino w.time)
          (w.start st ino) = some r ∧ (r = .out ret st' ∨ ∃ st2 v, r = .done st2 v ∧
          commitWrite st2 ino v = some (ret, st'))) := by
  unfold novaCowFileWrite at hres
  by_cases hlen : w.len = 0
  · rw [if_pos hlen, some.injEq, Prod.mk.injEq] at hres
    exact .inl ⟨fun had => had.1 hlen, hres.2.symm⟩
  rw [if_neg hlen] at hres
  by_cases hmap : w.mapped = true
  · rw [if_pos hmap, some.injEq, Prod.mk.injEq] at hres
    exact .inl ⟨fun had => by simp [had.2.1] at hmap, hres.2.symm⟩
  rw [if_neg hmap] at hres
  by_cases hacc : w.accessOk = true
  · rw [if_pos hacc, some.injEq, Prod.mk.injEq] at hres
    exact .inl ⟨fun had => by simp [had.2.2.1] at hacc, hres.2.symm⟩
  rw [if_neg hacc] at hres
  by_cases hpriv : w.removePrivs = 0
  swap
  · rw [if_pos hpriv, some.injEq, Prod.mk.injEq] at hres
    exact .inl ⟨fun had => hpriv had.2.2.2, hres.2.symm⟩
  rw [if_neg (by simp [hpriv])] at hres
  simp only [bind_eq_bind] at hres
  rw [bind_eq_some_iff] at hres
  obtain ⟨r, hloop, hres⟩ := hres
  refine .inr ⟨⟨hlen, by simpa using hmap, by simpa using hacc, hpriv⟩, r, hloop, ?_⟩
  cases r with
  | out ret' st2 =>
    simp only [Option.pure_def, some.injEq, Prod.mk.injEq] at hres
    rw [hres.1, hres.2]
    exact .inl rfl
  | done st2 v => exact .inr ⟨st2, v, rfl, hres⟩

/-- `nova_cow_file_write` on a regular file, unless it fails for want of
space: it is refused and changes nothing, or it writes everything. -/
theorem FileOk.write (h : FileOk st ino L pages)
    (hres : novaCowFileWrite st ino w = some (ret, st')) (hret : ret ≠ -ENOSPC) :
    (¬ w.Admitted ∧ st' = st) ∨
      (w.Admitted ∧ ret = w.len ∧ ∃ L' pages', Wrote st st' ino (w.place st ino) w L' pages') := by
  rcases novaCowFileWrite_cases hres with hrefused | ⟨hadm, r, hloop, hres⟩
  · exact .inl hrefused
  have hlen := hadm.1
  have h1 := h.of_touch w.time
  have hsize1 : ((touch st ino w.time).info ino).iSize = (st.info ino).iSize := by simp [touch]
  have hbytes1 := fileByte_touch st ino w.time
  rcases extentLoop_spec _ (h1.writingAt hlen) le_rfl hloop
    with ⟨st2, rfl⟩ | ⟨st2, v, L', P', pages', rfl, hat, hcount⟩
  · rcases hres with hout | ⟨_, _, hdone, -⟩
    · simp only [WriteEnd.out.injEq] at hout
      exact absurd hout.1.symm hret
    · cases hdone
  have hcommit : commitWrite st2 ino v = some (ret, st') := by
    rcases hres with hout | ⟨_, _, hdone, hcommit⟩
    · cases hout
    simp only [WriteEnd.done.injEq] at hdone
    rw [hdone.1, hdone.2]
    exact hcommit
  obtain ⟨hr, hok, hbytes, hsize, hrec, howner⟩ := hat.commit hcount
    (Nat.pos_of_ne_zero hlen) h1.reg h1.zero hcommit
  refine .inr ⟨hadm, hr, L' ++ P', pages', hok, ?_, ?_, hrec, ?_⟩
  · intro q
    rw [hbytes q]
    simp only [target, hbytes1]
  · rw [hsize, hsize1]
  intro L0 hL0 hsafe hown
  apply howner L0 hL0 hsafe
  refine hown.congr rfl ?_ ?_ rfl
  · simp [touch]
  · simp [touch, ownerTriple]

end Themis.File
