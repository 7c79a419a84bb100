/-
A directory over whole runs, and what it is for: a map from names to inode
numbers.

Operations add and remove names, several at a time as a rename does, and
the log is collected whenever an append finds it full. After any run a
rebuild gives back the tree, and with it the map (`dirRebuild_eq_live`).
-/
import Themis.Proofs.Dir.Rebuild

namespace Themis.Dir

open Lib Log File List Option Function State

variable {al : BlockAllocator} {U : Set (List UInt8)} {st st' : State al}
  {dir cur tail : Nat} {L P pages : List Nat}
variable {m : NameMap} {selfIno parentIno b : Nat}
variable {newTail p time : Nat} {L' pages' rest : List Nat} {e : LogEntry} {F : List Page}
  {T : Page}

attribute [local simp] Nvmm.apply setInfo store flush

-- === the abstract map

/-- A directory as its user sees it. -/
abbrev NameMap : Type := List UInt8 → Option Nat

/-- The names after an operation. -/
def NameMap.step (m : NameMap) : DirOp → NameMap
  | .add ino req _ => Function.update m req.name (some ino)
  | .remove req _ => Function.update m req.name none

/-- The names of a new directory. -/
def NameMap.init (selfIno parentIno : Nat) : NameMap := fun name =>
  if name = dot then some selfIno else if name = dotdot then some parentIno else none

/-- Lookups agree with the names. -/
def Agrees (U : Set (List UInt8)) (st : State al) (dir : Nat) (m : NameMap) : Prop :=
  ∀ name, Known U name → lookup st dir name = m name

/-- A change that callers may ask for. -/
def DirOp.Allowed (U : Set (List UInt8)) : DirOp → Prop
  | .add ino req _ => req.name ∈ U ∧ ino ≠ 0
  | .remove req _ => req.name ∈ U

-- === operations

/-- One operation. -/
theorem DirAt.run {op : DirOp} (h : DirAt U st dir cur L P pages) (hU : Names U)
    (hop : op.Allowed U) (hcur : AtCursor st dir tail cur) (hm : Agrees U st dir m)
    (hres : op.run st dir tail = some (0, newTail, st')) :
    (∃ L' P' pages', Stepped U st st' dir newTail L' P' pages') ∧ Agrees U st' dir (m.step op) := by
  cases op with
  | add ino req inc =>
    obtain ⟨⟨L', P', pages', hstep, -⟩, -, hlook⟩ := h.add_links hU hop.1 hop.2 hcur hres
    refine ⟨⟨L', P', pages', hstep⟩, ?_⟩
    intro name hk
    rw [hlook name hk]
    by_cases hn : name = req.name
    · simp [NameMap.step, hn]
    · simp [NameMap.step, hn, hm name hk]
  | remove req dec =>
    obtain ⟨⟨L', P', pages', hstep, -⟩, hlook⟩ := h.remove_links hU hop hcur hres
    refine ⟨⟨L', P', pages', hstep⟩, ?_⟩
    intro name hk
    rw [hlook name hk]
    by_cases hn : name = req.name
    · simp [NameMap.step, hn]
    · simp [NameMap.step, hn, hm name hk]

/-- A list of operations. -/
theorem DirAt.runOps {newTail : Nat} (hU : Names U) : ∀ (ops : List DirOp) {st : State al}
    {m : NameMap} {cur tail : Nat} {L P pages : List Nat},
    DirAt U st dir cur L P pages → (∀ op ∈ ops, op.Allowed U) → ops ≠ [] →
    AtCursor st dir tail cur → Agrees U st dir m → runOps dir ops st tail = some (0, newTail, st') →
    (∃ L' P' pages', Stepped U st st' dir newTail L' P' pages') ∧
      Agrees U st' dir (ops.foldl NameMap.step m) := by
  intro ops
  induction ops with
  | nil =>
    intro st m cur tail L P pages _ _ hne
    exact absurd rfl hne
  | cons op ops ih =>
    intro st m cur tail L P pages h hops _ hcur hm hres
    rw [Dir.runOps, bind_eq_bind, bind_eq_some_iff] at hres
    obtain ⟨⟨err, tail1, st1⟩, hop, hres⟩ := hres
    by_cases herr : err = 0
    · subst herr
      simp only [ne_eq, not_true_eq_false, if_false] at hres
      obtain ⟨⟨L1, P1, pages1, hs⟩, hm1⟩ := h.run hU (hops op mem_cons_self) hcur hm hop
      by_cases hnil : ops = []
      · subst hnil
        simp only [Dir.runOps, some.injEq, Prod.mk.injEq, true_and] at hres
        obtain ⟨rfl, rfl⟩ := hres
        exact ⟨⟨L1, P1, pages1, hs⟩, hm1⟩
      have hcur1 : AtCursor st1 dir tail1 tail1 := by
        unfold AtCursor
        rw [if_pos hs.tail]
      obtain ⟨⟨L2, P2, pages2, hs2⟩, hm2⟩ := ih hs.dirAt
        (fun o ho => hops o (mem_cons_of_mem _ ho)) hnil hcur1 hm1 hres
      exact ⟨⟨L2, P2, pages2, hs2.dirAt, hs2.pending, hs2.tail,
        hs2.record.trans hs.record, hs2.mode.trans hs.mode⟩, hm2⟩
    simp only [ne_eq, herr, not_false_eq_true, if_true, Option.pure_def,
      some.injEq, Prod.mk.injEq] at hres
    exact hres.1.elim

-- === between two operations

/-- A directory between two operations. -/
structure DirOk (U : Set (List UInt8)) (st : State al) (dir : Nat)
    (L pages : List Nat) : Prop where
  dirAt : DirAt U st dir (st.nv.logTail dir) L [] pages
  mode : isReg (st.info dir).attrs.mode = false
  recordMode : isReg (st.nv.record dir).attrs.mode = false

/-- A new tail commits. -/
theorem DirAt.commit (h : DirAt U st dir cur L P pages) (hcur : cur ≠ 0) :
    DirAt U (novaUpdateTail st dir cur) dir
      ((novaUpdateTail st dir cur).nv.logTail dir) (L ++ P) [] pages := by
  have htail : (novaUpdateTail st dir cur).nv.logTail dir = cur := by simp [novaUpdateTail]
  have hinfo : (novaUpdateTail st dir cur).info = st.info := by simp [novaUpdateTail]
  refine ⟨?_, ?_, ?_, h.heads.append P⟩
  · rw [htail]
    exact h.log.commit hcur rfl rfl rfl htail rfl (by rw [hinfo])
  · rw [append_nil]
    apply h.listed.congr
    intro a _
    exact ⟨rfl, rfl⟩
  intro i a
  rw [append_nil]
  exact h.tree i a

/-- A new tail changes no lookup. -/
theorem agrees_novaUpdateTail {t : Nat} (h : Agrees U st dir m) :
    Agrees U (novaUpdateTail st dir t) dir m := by
  intro name hk
  rw [← h name hk]
  rfl

/-- Operations are committed. -/
theorem DirOk.stepped (h : DirOk U st dir L pages) {P' : List Nat}
    (hs : Stepped U st st' dir newTail L' P' pages') :
    DirOk U (novaUpdateTail st' dir newTail) dir (L' ++ P') pages' := by
  refine ⟨hs.dirAt.commit hs.tail, ?_, ?_⟩
  · have hmode : ((novaUpdateTail st' dir newTail).info dir).attrs.mode
        = (st'.info dir).attrs.mode := rfl
    rw [hmode, hs.mode]
    exact h.mode
  have hrec : (novaUpdateTail st' dir newTail).nv.record = st'.nv.record := rfl
  rw [hrec, hs.record]
  exact h.recordMode

/-- Operations with their commit. -/
theorem DirOk.runOps {ops : List DirOp} {m : NameMap} {newTail : Nat}
    (h : DirOk U st dir L pages) (hU : Names U) (hops : ∀ op ∈ ops, op.Allowed U)
    (hne : ops ≠ []) (hm : Agrees U st dir m)
    (hres : runOps dir ops st 0 = some (0, newTail, st')) :
    (∃ L' pages', DirOk U (novaUpdateTail st' dir newTail) dir L' pages') ∧
      Agrees U (novaUpdateTail st' dir newTail) dir (ops.foldl NameMap.step m) := by
  have hcur : AtCursor st dir 0 (st.nv.logTail dir) := by simp [AtCursor]
  obtain ⟨⟨L', P', pages', hs⟩, hm'⟩ := DirAt.runOps hU ops h.dirAt hops hne hcur hm hres
  exact ⟨⟨L' ++ P', pages', h.stepped hs⟩, agrees_novaUpdateTail hm'⟩

/-- The last entry with a link count is not expendable. -/
def LastLive (nv : Nvmm) (L : List Nat) : Prop :=
  ∀ X a Y, L = X ++ a :: Y → linksEvent nv a ≠ none →
    lastEvent (linksEvent nv) Y = none → ¬ Expendable nv a

/-- Growth keeps the last link count. -/
theorem LastLive.grown {kept : List (Nat × Nat)} (h : LastLive st.nv L) (hn : L.Nodup)
    (hg : Grown st st' dir L P pages p e L' pages' kept) :
    lastEvent (linksEvent st'.nv) L' = lastEvent (linksEvent st.nv) L := by
  have hmoved : lastEvent (linksEvent st'.nv) (kept.map Prod.snd)
      = lastEvent (linksEvent st.nv) (kept.map Prod.fst) := by
    rw [lastEvent_map, lastEvent_map]
    apply lastEvent_congr
    intro q hq
    simp only [linksEvent, (hg.moves.same q hq).1]
  rw [hg.ents, hmoved]
  apply lastEvent_sublist hn hg.moves.sub
  intro X a Y hL hnot hev hnone
  exact h X a Y hL hev hnone (hg.moves.dropped a (by rw [hL]; simp) hnot)

/-- An entry that is no record, and its link count. -/
theorem DirOk.other_links {st1 : State al} {i : InodeInfo} (h : DirOk U st dir L pages)
    (hsize : e.size = 32) (hok : DirEntryOk U e) (hrec : ∀ d, e ≠ .dirLog d)
    (hres : novaGetAppendHead st dir 0 32 = some (p, st1)) (hp : p ≠ 0)
    (htree : i.tree = ((storeEntry st1 p e).info dir).tree)
    (hpages : i.logPages = ((storeEntry st1 p e).info dir).logPages)
    (hattrs : i.attrs = ((storeEntry st1 p e).info dir).attrs) :
    (∃ L' pages', DirOk U (novaUpdateTail ((storeEntry st1 p e).setInfo dir i) dir (p + 32)) dir
          (L' ++ [p]) pages' ∧ (LastLive st.nv L → lastEvent (linksEvent (storeEntry st1 p e).nv) L'
          = lastEvent (linksEvent st.nv) L)) ∧
      lookup (novaUpdateTail ((storeEntry st1 p e).setInfo dir i) dir (p + 32)) dir
        = lookup st dir := by
  have hcur : AtCursor st dir 0 (st.nv.logTail dir) := by simp [AtCursor]
  have h288 : e.size ≤ maxRecLen := by rw [hsize]; decide
  obtain ⟨L', pages', kept, ha, hg⟩ := h.dirAt.append_grown (e := e) hcur (by omega) h288
    (by rw [hsize]; exact hres) hp (storeEntry_only st1 p e) (storeEntry_slot st1 p e)
  have hnodup : L.Nodup := by
    have hn := h.dirAt.log.nodup
    rwa [append_nil] at hn
  have hat := ha.other hok hrec htree hpages
  rw [hsize] at hat
  have hself : ((storeEntry st1 p e).setInfo dir i).info dir = i := by simp
  refine ⟨⟨L', pages', ⟨hat.commit (by omega), ?_, ?_⟩, fun hlive => hlive.grown hnodup hg⟩, ?_⟩
  · have hmode : ((novaUpdateTail ((storeEntry st1 p e).setInfo dir i) dir (p + 32)).info
        dir).attrs = i.attrs := congrArg InodeInfo.attrs hself
    rw [hmode, hattrs, ha.attrs]
    exact h.mode
  · have hrecord : (novaUpdateTail ((storeEntry st1 p e).setInfo dir i) dir
        (p + 32)).nv.record = (storeEntry st1 p e).nv.record := rfl
    rw [hrecord, ha.record]
    exact h.recordMode
  rw [← ha.lookup]
  refine lookup_congr ?_ rfl
  show (((storeEntry st1 p e).setInfo dir i).info dir).tree = _
  rw [hself, htree]

/-- A link change. -/
theorem DirOk.changeLinks {e : LinkChangeEntry} (h : DirOk U st dir L pages)
    (hres : changeLinks st dir e = some (0, st')) :
    (∃ L' pages', DirOk U st' dir L' pages') ∧ lookup st' dir = lookup st dir := by
  obtain ⟨p, st1, happ, hp, rfl⟩ := changeLinks_done hres
  obtain ⟨⟨L', pages', hok, -⟩, hlook⟩ := h.other_links (e := .linkChange e)
    (i := { (storeEntry st1 p (.linkChange e)).info dir with lastLinkChange := p }) rfl trivial
    (fun d hd => by cases hd) happ hp rfl rfl rfl
  exact ⟨⟨_, pages', hok⟩, hlook⟩

/-- A directory has no size to set. -/
theorem novaSetsize_dir {oldsize newsize : Nat} (h : isReg (st.info dir).attrs.mode = false) :
    novaSetsize st dir oldsize newsize time = st := by
  unfold novaSetsize
  rw [if_pos (by rw [h]; rfl)]

/-- An attribute change. -/
theorem DirOk.notifyChange_links {attr : Iattr} {changeOk ret : Int} {eofBlocks : Bool}
    (h : DirOk U st dir L pages) (hmode : attr.valid.testBit 0 = true → isReg attr.mode = false)
    (hres : novaNotifyChange st dir attr changeOk eofBlocks time = some (ret, st')) :
    (∃ L' pages', DirOk U st' dir L' pages' ∧
      (LastLive st.nv L → lastEvent (linksEvent st'.nv) L' = lastEvent (linksEvent st.nv) L)) ∧
      lookup st' dir = lookup st dir := by
  unfold novaNotifyChange at hres
  by_cases hc : changeOk = 0
  swap
  · rw [if_pos hc, some.injEq, Prod.mk.injEq] at hres
    rw [← hres.2]
    exact ⟨⟨L, pages, h, fun _ => rfl⟩, rfl⟩
  rw [if_neg (by simp [hc])] at hres
  have hattrs : isReg (setattrCopy (st.info dir).attrs attr).mode = false := by
    simp only [setattrCopy]
    split
    · rename_i hbit
      exact hmode hbit
    · exact h.mode
  have hcopy : DirOk U (copyAttrs st dir attr) dir L pages := by
    refine ⟨?_, ?_, h.recordMode⟩
    · exact h.dirAt.congr rfl rfl (by simp [copyAttrs])
        (by simp [copyAttrs])
    · simpa [copyAttrs] using hattrs
  have hlook : lookup (copyAttrs st dir attr) dir = lookup st dir :=
    lookup_congr (by simp [copyAttrs]) rfl
  have hnv : (copyAttrs st dir attr).nv = st.nv := rfl
  rw [← hlook, ← hnv]
  generalize copyAttrs st dir attr = st0 at *
  split at hres
  · rw [some.injEq, Prod.mk.injEq] at hres
    rw [← hres.2]
    exact ⟨⟨L, pages, hcopy, fun _ => rfl⟩, rfl⟩
  obtain ⟨⟨newTail, st2⟩, hentry, hres⟩ := bind_eq_some_iff.1 hres
  obtain ⟨p, st1, happ, hp, rfl, rfl⟩ := novaAppendSetattrEntry_some hentry
  simp only [Option.pure_def] at hres
  have he : DirEntryOk U (.setAttr (novaUpdateSetattrEntry (st1.info dir) attr)) := by
    have hcur : AtCursor st0 dir 0 (st0.nv.logTail dir) := by simp [AtCursor]
    -- the attributes are those of the inode before the append
    obtain ⟨L', pages', ha⟩ := hcopy.dirAt.append
      (e := .setAttr (novaUpdateSetattrEntry (st1.info dir) attr)) hcur (le_refl 32)
      (show 32 ≤ maxRecLen by decide) happ hp (storeEntry_only st1 p _) (storeEntry_slot st1 p _)
    have hsame : (st1.info dir).attrs = (st0.info dir).attrs := by
      rw [← ha.attrs, (storeEntry_only st1 p _).info]
    show isReg (st1.info dir).attrs.mode = false
    rw [hsame]
    exact hcopy.mode
  have hdone := hcopy.other_links rfl he (fun d hd => by cases hd) happ hp
    (i := { (storeEntry st1 p (.setAttr (novaUpdateSetattrEntry (st1.info dir) attr))).info
      dir with lastSetattr := p }) rfl rfl rfl
  obtain ⟨⟨L', pages', hok', hlinks⟩, hlook'⟩ := hdone
  -- the entry itself has no link count
  have hlinks' : LastLive st0.nv L → lastEvent (linksEvent (storeEntry st1 p
      (.setAttr (novaUpdateSetattrEntry (st1.info dir) attr))).nv) (L' ++ [p])
        = lastEvent (linksEvent st0.nv) L := by
    intro hlive
    rw [← hlinks hlive]
    simp [linksEvent, storeEntry_slot]
  split at hres
  · rw [some.injEq, Prod.mk.injEq] at hres
    rw [← hres.2, novaSetsize_dir hok'.mode]
    exact ⟨⟨_, pages', hok', hlinks'⟩, hlook'⟩
  rw [some.injEq, Prod.mk.injEq] at hres
  rw [← hres.2]
  exact ⟨⟨_, pages', hok', hlinks'⟩, hlook'⟩

-- === rebuilds

/-- The log of a readable directory. -/
theorem logAt_of_readable {m : Nat} (h : Readable st.nv al.numBlocks dir F T rest)
    (hne : T.ents ≠ []) (hinUse : ∀ p ∈ basesOf F ++ T.base :: rest, st.InUse (p / PAGE_SIZE))
    (hcount : (basesOf F ++ T.base :: rest).length ≤ (st.info dir).logPages) :
    LogAt st dir m (st.nv.logTail dir) (entsOf F ++ T.ents) [] (basesOf F ++ T.base :: rest) := by
  refine .inr ⟨F, [], T, rest, T.ents, h.tail, ⟨?_, ?_, ?_, hinUse, h.onDevice, hcount⟩,
    hne, by simp, rfl, rfl, fun _ => rfl, by simp, ?_⟩
  · rw [append_nil]
    exact h.log
  · rw [h.head]
    cases F with
    | nil => rfl
    | cons w F => rfl
  · rw [h.tail, h.log.last.blockOff_stop]
    rfl
  · intro a ha
    rw [h.tail, h.log.last.blockOff_stop, h.log.last.blockOff_ent ha]

/-- A rebuild from nothing. -/
theorem rebuildDir_fresh (h : Readable st.nv al.numBlocks dir F T rest)
    (hlisted : Listed U st.nv (entsOf F ++ T.ents))
    (hmode : isReg (st.nv.record dir).attrs.mode = false) :
    ∃ st', novaRebuildDirInodeTree (st.setInfo dir (freshInfo (st.nv.record dir))) dir
        = some (st', false) ∧
      ReplayedAt (st.setInfo dir (freshInfo (st.nv.record dir))) st' dir (entsOf F ++ T.ents) ∧
      (st'.info dir).logPages = F.length + 1 + rest.length ∧ (st'.nv.record dir).links
        = (lastEvent (linksEvent st.nv) (entsOf F ++ T.ents)).getD (st.nv.record dir).links := by
  refine rebuildDir_links h hlisted.replayable hmode ?_
  simp [freshInfo]
  rfl

/-- What reading a directory back leaves. -/
structure Reloaded (U : Set (List UInt8)) (st st' : State al) (dir : Nat)
    (L pages : List Nat) : Prop where
  ok : Heads st.nv L → DirOk U st' dir L pages
  tree : TreeOk st' dir L
  slot : st'.nv.slot = st.nv.slot
  valid : ∀ i a, ValidAt st'.nv i a ↔ ValidAt st.nv i a

/-- What a reload leaves. -/
theorem reload_spec (h : Readable st.nv al.numBlocks dir F T rest) (hne : T.ents ≠ [])
    (hlisted : Listed U st.nv (entsOf F ++ T.ents))
    (hmode : isReg (st.nv.record dir).attrs.mode = false)
    (hinUse : ∀ p ∈ basesOf F ++ T.base :: rest, st.InUse (p / PAGE_SIZE)) :
    ∃ st', reload st dir = some st' ∧
      Reloaded U st st' dir (entsOf F ++ T.ents) (basesOf F ++ T.base :: rest) := by
  obtain ⟨st1, hres, hat, hpages, -⟩ := rebuildDir_fresh h hlisted hmode
  obtain ⟨r, hnv, hr⟩ := hat.nv
  let st' := st1.setInfo dir { st1.info dir with
    iSize := (st1.nv.record dir).iSize, attrs := (st1.nv.record dir).attrs }
  have hself : st'.info dir = { st1.info dir with
      iSize := (st1.nv.record dir).iSize, attrs := (st1.nv.record dir).attrs } := by
    simp [st']
  have hslot : st'.nv.slot = st.nv.slot := hat.slot
  have hinv : st'.nv.invalid = st.nv.invalid := hat.invalid
  have hvalid : ∀ i a, ValidAt st'.nv i a ↔ ValidAt st.nv i a := by
    intro i a
    constructor
    · exact fun hv => hv.congr (by rw [hslot]) (by rw [hinv])
    · exact fun hv => hv.congr (by rw [hslot]) (by rw [hinv])
  have hread : Readable st'.nv al.numBlocks dir F T rest := by
    have hnext : st'.nv.next = st.nv.next := hat.next
    have hheadEq : st'.nv.logHead = st.nv.logHead := by
      show st1.nv.logHead = _
      rw [hnv]
      rfl
    have htailEq : st'.nv.logTail = st.nv.logTail := hat.logTail
    refine ⟨⟨?_, h.log.nodup, ?_, ?_, h.log.spare⟩, ?_, ?_, h.used, h.onDevice⟩
    · rw [hnext]
      exact h.log.chain
    · intro w hw
      exact (h.log.full w hw).congr (fun _ _ => by rw [hslot]) (by rw [hslot])
    · exact h.log.last.congr fun _ _ => by rw [hslot]
    · rw [hheadEq]
      exact h.head
    · rw [htailEq]
      exact h.tail
  have htree : TreeOk st' dir (entsOf F ++ T.ents) := by
    intro i a
    rw [hvalid, hself, ← hlisted.heldAt_iff]
    show (st1.info dir).tree.get i = some a ↔ _
    rw [hat.tree i]
    rfl
  have hsame : ∀ a, st'.nv.slot a = st.nv.slot a ∧ st'.nv.invalid a = st.nv.invalid a := by
    intro a
    rw [hslot, hinv]
    exact ⟨rfl, rfl⟩
  refine ⟨st', ?_, fun hheads => ⟨⟨?_, ?_, ?_, ?_⟩, ?_, ?_⟩, htree, hslot, hvalid⟩
  · simp only [reload, hres, bind_eq_bind, bind_some, Option.pure_def]
    rfl
  · apply logAt_of_readable hread hne
    · intro p hp
      rw [State.InUse, show st'.alloc = st.alloc from hat.alloc]
      exact hinUse p hp
    · rw [hself]
      show _ ≤ (st1.info dir).logPages
      simp only [length_append, length_cons, basesOf, length_map]
      omega
  · rw [append_nil]
    exact hlisted.congr fun a _ => hsame a
  · rw [append_nil]
    exact htree
  · exact hheads.congr fun a _ => hsame a
  · rw [hself]
    exact hat.recordMode
  · exact hat.recordMode

/-- The log can be read. -/
theorem DirOk.readable (h : DirOk U st dir L pages) :
    ∃ F T rest, Readable st.nv al.numBlocks dir F T rest ∧ T.ents ≠ [] ∧
      L = entsOf F ++ T.ents ∧ pages = basesOf F ++ T.base :: rest := by
  obtain ⟨f, hf, -⟩ := h.dirAt.listed.first
  rcases readable_of_logAt (h.dirAt.log.retune 0) with ⟨-, rfl, -⟩ | ⟨F, T, rest, hr, rfl, rfl⟩
  · cases hf
  refine ⟨F, T, rest, hr, ?_, rfl, rfl⟩
  by_cases hF : F = []
  · subst hF
    intro hnil
    rw [hnil] at hf
    cases hf
  · exact hr.used hF

/-- A reload keeps directory and lookups. -/
theorem DirOk.reload (h : DirOk U st dir L pages) :
    ∃ st', Dir.reload st dir = some st' ∧ DirOk U st' dir L pages ∧
      lookup st' dir = lookup st dir := by
  obtain ⟨F, T, rest, hr, hne, rfl, rfl⟩ := h.readable
  have hlisted := h.dirAt.listed
  rw [append_nil] at hlisted
  obtain ⟨st', hres, hl⟩ := reload_spec hr hne hlisted h.recordMode h.dirAt.log.inUse
  refine ⟨st', hres, hl.ok h.dirAt.heads, ?_⟩
  have htree : (st'.info dir).tree.get = (st.info dir).tree.get := by
    funext i
    apply ext
    intro a
    rw [hl.tree i a, h.dirAt.tree i a, hl.valid, append_nil]
  funext name
  simp only [lookup, novaFindDentry, htree, hl.slot]

-- === a new directory

/-- Storing an initial record stores its slot only. -/
theorem storeInitEntry_only (st : State al) (p : Nat) (d : Dentry) :
    SlotOnly p st (storeInitEntry st p d) := by
  unfold storeInitEntry
  refine ⟨?_, ?_, rfl, rfl, rfl, rfl, rfl, rfl, rfl⟩
  · intro a ha
    simp [ha]
  · intro a _
    simp

/-- The mark in the page stays as it was. -/
theorem storeInitEntry_invalid (st : State al) (p : Nat) (d : Dentry) :
    (storeInitEntry st p d).nv.invalid = st.nv.invalid := by
  simp [storeInitEntry]

/-- Name and number of an initial record. -/
theorem storeInitEntry_slot (st : State al) (p : Nat) (d : Dentry) :
    ∃ d', (storeInitEntry st p d).nv.slot p = .dirLog d' ∧ d'.name = d.name ∧
      d'.ino = d.ino ∧ d'.deLen = d.deLen := by
  unfold storeInitEntry
  cases st.nv.slot p with
  | dirLog old =>
    exact ⟨{ d with fileType := old.fileType }, by simp, rfl, rfl, rfl⟩
  | _ => exact ⟨_, by simp, rfl, rfl, rfl⟩

/-- What `nova_append_dir_init_entries` leaves: a log of one page with the
two records. -/
structure Initialised (st st' : State al) (dir b selfIno parentIno : Nat) : Prop where
  head : st'.nv.logHead dir = b
  readable : Readable st'.nv al.numBlocks dir [] ⟨b, [b, b + 32], b + 64⟩ []
  self : ∃ d, st'.nv.slot b = .dirLog d ∧ d.name = dot ∧ d.ino = selfIno
  parent : ∃ d, st'.nv.slot (b + 32) = .dirLog d ∧ d.name = dotdot ∧ d.ino = parentIno
  inUse : st'.InUse (b / PAGE_SIZE)
  record : st'.nv.record = st.nv.record
  invalid : st'.nv.invalid = st.nv.invalid

/-- What the initial entries leave. -/
theorem novaAppendDirInitEntries_spec {now : Nat}
    (hres : novaAppendDirInitEntries st dir selfIno parentIno now = (0, st')) :
    ∃ b, Initialised st st' dir b selfIno parentIno := by
  unfold novaAppendDirInitEntries at hres
  split at hres
  · have herr : -EINVAL = 0 := congrArg Prod.fst hres
    exact absurd herr (by decide)
  cases halloc : novaAllocateInodeLogPages st 1 with
  | mk r st1 =>
    rw [halloc] at hres
    cases r with
    | none =>
      have herr : -ENOMEM = 0 := congrArg Prod.fst hres
      exact absurd herr (by decide)
    | some nb =>
      obtain ⟨n, b⟩ := nb
      have h32 : novaDirLogRecLen 1 = 32 := rfl
      have h32' : novaDirLogRecLen 2 = 32 := rfl
      simp only [h32, h32'] at hres
      split at hres
      · have herr : -ENOMEM = 0 := congrArg Prod.fst hres
        exact absurd herr (by decide)
      rename_i hn
      obtain ⟨N, hN, hlen⟩ := novaAllocateInodeLogPages_some halloc
      have hNnil : N = [] := by
        rw [not_not.1 hn] at hlen
        simpa using hlen
      subst hNnil
      obtain ⟨-, rfl⟩ := hres
      have hpage : IsPage b := hN.isPage b mem_cons_self
      -- the two records, one behind the other
      generalize hst2 : ((st1.store (.logHead dir b)).store (.logTail dir b)).flush
        (.inode dir) false = st2
      have hd1 := storeInitEntry_slot st2 b ⟨dot, 0, 32, 1, now, selfIno, PAGE_SIZE⟩
      have ho1 := storeInitEntry_only st2 b ⟨dot, 0, 32, 1, now, selfIno, PAGE_SIZE⟩
      have hv1 := storeInitEntry_invalid st2 b ⟨dot, 0, 32, 1, now, selfIno, PAGE_SIZE⟩
      generalize storeInitEntry st2 b ⟨dot, 0, 32, 1, now, selfIno, PAGE_SIZE⟩ = st3 at *
      have hd2 := storeInitEntry_slot st3 (b + 32)
        ⟨dotdot, 0, 32, 2, now, parentIno, PAGE_SIZE⟩
      have ho2 := storeInitEntry_only st3 (b + 32)
        ⟨dotdot, 0, 32, 2, now, parentIno, PAGE_SIZE⟩
      have hv2 := storeInitEntry_invalid st3 (b + 32)
        ⟨dotdot, 0, 32, 2, now, parentIno, PAGE_SIZE⟩
      generalize storeInitEntry st3 (b + 32)
        ⟨dotdot, 0, 32, 2, now, parentIno, PAGE_SIZE⟩ = st4 at *
      obtain ⟨d1, hs1, hn1, hi1, hl1⟩ := hd1
      obtain ⟨d2, hs2, hn2, hi2, hl2⟩ := hd2
      have hs1' : st4.nv.slot b = .dirLog d1 := by
        rw [ho2.slot b (by omega)]
        exact hs1
      refine ⟨b, ?_, ?_, ⟨d1, hs1', hn1, hi1⟩, ⟨d2, hs2, hn2, hi2⟩, ?_, ?_, ?_⟩
      · show st4.nv.logHead dir = b
        rw [ho2.logHead, ho1.logHead, ← hst2]
        simp
      · refine ⟨⟨?_, by simp, by simp, ⟨hpage, ?_⟩, by simp⟩, ?_, ?_, by simp, ?_⟩
        · show Linked st4.nv.next [b] 0
          rw [ho2.next, ho1.next, ← hst2]
          exact hN.chain
        · show Seg st4.nv b b [b, b + 32] (b + 64)
          have hsz1 : (st4.nv.slot b).size = 32 := by rw [hs1']; exact hl1
          have hsz2 : (st4.nv.slot (b + 32)).size = 32 := by rw [hs2]; exact hl2
          refine ⟨rfl, by rw [hsz1], by rw [hsz1]; simp [LAST_ENTRY], ?_⟩
          rw [hsz1]
          refine ⟨rfl, by rw [hsz2], ?_, ?_⟩
          · simp only [LAST_ENTRY]
            omega
          · rw [hsz2]
            exact (Nat.add_assoc b 32 32).symm
        · show st4.nv.logHead dir = b
          rw [ho2.logHead, ho1.logHead, ← hst2]
          simp
        · simp [novaUpdateTail, Nat.add_assoc]
        · intro p hp
          have hpb : p = b := by simpa [basesOf] using hp
          rw [hpb]
          exact hN.onDevice b mem_cons_self
      · show al.InUse st4.alloc (b / PAGE_SIZE)
        rw [ho2.alloc, ho1.alloc, ← hst2]
        exact (hN.inUse _).2 (.inr ⟨b, mem_cons_self, rfl⟩)
      · show st4.nv.record = st.nv.record
        rw [ho2.record, ho1.record, ← hst2]
        exact hN.links.record
      show st4.nv.invalid = st.nv.invalid
      rw [hv2, hv1, ← hst2]
      exact hN.links.invalid

section

variable (h : Initialised st st' dir b selfIno parentIno)
include h

section

variable (hself : selfIno ≠ 0)
include hself

/-- The initial entries are listed. -/
theorem Initialised.listed (hclean : st'.nv.invalid b = 0) : Listed U st'.nv [b, b + 32] := by
  obtain ⟨d1, hs1, hn1, hi1⟩ := h.self
  obtain ⟨d2, hs2, hn2, hi2⟩ := h.parent
  have hne : bkdrHash dot ≠ bkdrHash dotdot := by decide
  refine ⟨?_, ?_, b, by simp, ⟨d1, hs1, by rw [hi1]; exact hself, hclean, by rw [hn1]⟩, ?_⟩
  · intro a ha
    rcases mem_cons.1 ha with rfl | ha
    · rw [hs1]
      exact ⟨by rw [hn1]; decide, .inr (.inl hn1)⟩
    · rw [mem_singleton.1 ha, hs2]
      exact ⟨by rw [hn2]; decide, .inr (.inr hn2)⟩
  · apply pairwise_pair.2
    intro i hv
    obtain ⟨d, hd, -, -, rfl⟩ := hv
    rw [hs1, LogEntry.dirLog.injEq] at hd
    rw [← hd, hn1]
    rintro ⟨d', hd', hh⟩
    rw [hs2, LogEntry.dirLog.injEq] at hd'
    rw [← hd', hn2] at hh
    exact hne hh.symm
  apply pairwise_pair.2
  intro heq
  omega

/-- They are the dots. -/
theorem Initialised.heads
    (hparent : parentIno ≠ 0) (hclean : st'.nv.invalid b = 0 ∧ st'.nv.invalid (b + 32) = 0) :
    Heads st'.nv [b, b + 32] := by
  obtain ⟨d1, hs1, hn1, hi1⟩ := h.self
  obtain ⟨d2, hs2, hn2, hi2⟩ := h.parent
  obtain ⟨-, -, -, hnext, -, -, hend⟩ := h.readable.log.last.seg
  have hend' : b + 64 = b + (st'.nv.slot b).size + (st'.nv.slot (b + (st'.nv.slot b).size)).size :=
    hend
  have hsize : (st'.nv.slot b).size = 32 := by
    simp only at hnext
    omega
  rw [hsize] at hend'
  exact ⟨b, [], rfl, ⟨⟨d1, hs1, by rw [hi1]; exact hself, hclean.1, by rw [hn1]⟩, hsize⟩,
    ⟨d2, hs2, by rw [hi2]; exact hparent, hclean.2, by rw [hn2]⟩, by omega⟩

/-- A new directory can be loaded. -/
theorem Initialised.reloaded
    (hclean : st'.nv.invalid b = 0) (hmode : isReg (st.nv.record dir).attrs.mode = false) :
    ∃ st2, Dir.reload st' dir = some st2 ∧ Reloaded U st' st2 dir [b, b + 32] [b] := by
  apply reload_spec h.readable (by simp) (h.listed hself hclean) (by rw [h.record]; exact hmode)
  intro p hp
  have hpb : p = b := by simpa [basesOf] using hp
  rw [hpb]
  exact h.inUse

/-- It has the dots. -/
theorem Initialised.lookup {st2 : State al} (hparent : parentIno ≠ 0)
    (hclean : st'.nv.invalid b = 0 ∧ st'.nv.invalid (b + 32) = 0)
    (hl : Reloaded U st' st2 dir [b, b + 32] [b]) (name : List UInt8) :
    lookup st2 dir name = if bkdrHash name = bkdrHash dot then some selfIno
      else if bkdrHash name = bkdrHash dotdot then some parentIno else none := by
  obtain ⟨d1, hs1, hn1, hi1⟩ := h.self
  obtain ⟨d2, hs2, hn2, hi2⟩ := h.parent
  have hmem : ∀ a, a ∈ [b, b + 32] ↔ a = b ∨ a = b + 32 := by simp
  have hv1 : ValidAt st2.nv (bkdrHash dot) b :=
    (hl.valid _ _).2 ⟨d1, hs1, by rw [hi1]; exact hself, hclean.1, by rw [hn1]⟩
  have hv2 : ValidAt st2.nv (bkdrHash dotdot) (b + 32) :=
    (hl.valid _ _).2 ⟨d2, hs2, by rw [hi2]; exact hparent, hclean.2, by rw [hn2]⟩
  split
  · rename_i hdot
    rw [← hi1]
    refine lookup_some ?_ (by rw [hl.slot]; exact hs1)
    rw [hdot]
    exact (hl.tree _ b).2 ⟨(hmem b).2 (.inl rfl), hv1⟩
  rename_i hdot
  split
  · rename_i hdd
    rw [← hi2]
    refine lookup_some ?_ (by rw [hl.slot]; exact hs2)
    rw [hdd]
    exact (hl.tree _ (b + 32)).2 ⟨(hmem (b + 32)).2 (.inr rfl), hv2⟩
  rename_i hdd
  -- any other hash is not in the tree
  apply lookup_none
  cases hget : (st2.info dir).tree.get (bkdrHash name) with
  | none => rfl
  | some a =>
    obtain ⟨ha, hv⟩ := (hl.tree _ a).1 hget
    rcases (hmem a).1 ha with rfl | rfl
    · exact absurd (hv.hash_eq hv1) hdot
    · exact absurd (hv.hash_eq hv2) hdd

end

end

/-- A clean page gives a directory. -/
theorem Initialised.reload (hU : Names U) (h : Initialised st st' dir b selfIno parentIno)
    (hself : selfIno ≠ 0) (hparent : parentIno ≠ 0)
    (hclean : st'.nv.invalid b = 0 ∧ st'.nv.invalid (b + 32) = 0)
    (hmode : isReg (st.nv.record dir).attrs.mode = false) :
    ∃ st2, Dir.reload st' dir = some st2 ∧ (∃ L pages, DirOk U st2 dir L pages) ∧
      Agrees U st2 dir (NameMap.init selfIno parentIno) := by
  obtain ⟨st2, hres, hl⟩ := h.reloaded (U := U) hself hclean.1 hmode
  refine ⟨st2, hres, ⟨_, _, hl.ok (h.heads hself hparent hclean)⟩, ?_⟩
  intro name hk
  rw [h.lookup hself hparent hclean hl name]
  have hiff : ∀ n, Known U n → (bkdrHash name = bkdrHash n ↔ name = n) := fun n hn =>
    ⟨hU.inj _ _ hk hn, fun heq => by rw [heq]⟩
  simp only [NameMap.init, hiff dot (.inr (.inl rfl)), hiff dotdot (.inr (.inr rfl))]

/-- A marked page gives none. -/
theorem Initialised.reload_none (h : Initialised st st' dir b selfIno parentIno)
    (hself : selfIno ≠ 0) (hmark : st'.nv.invalid b ≠ 0) : Dir.reload st' dir = none := by
  obtain ⟨d, hs, -, hi⟩ := h.self
  have hpos := h.readable.log.last.isPage.2
  have htail : st'.nv.logTail dir = b + 64 := h.readable.tail
  have hgo : gotoNextPage st'.nv b = false := by
    have hloc : entryLoc b = 0 := h.readable.log.last.isPage.1
    simp [gotoNextPage, hs, hloc, LAST_ENTRY]
  have hino : d.ino > 0 := by omega
  have hloop : ∀ rounds (i j : InodeInfo),
      rebuildDirLoop dir rounds ((st'.setInfo dir i).setInfo dir j) b none = none := by
    intro rounds i j
    cases rounds with
    | zero => rfl
    | succ n => simp [rebuildDirLoop, htail, hpos.ne', hgo, hs, replayDentry, hino, hmark]
  have hhead : (st'.setInfo dir (freshInfo (st'.nv.record dir))).nv.logHead dir = b := h.head
  simp only [Dir.reload, novaRebuildDirInodeTree, hhead, if_neg hpos.ne']
  rw [hloop]
  rfl

-- === runs

/-- The runs of a directory, each with the map it stands for. An operation
that fails commits nothing and is not a step. -/
inductive DirRun (U : Set (List UInt8)) (dir : Nat) : State al → NameMap → Prop
  /-- A new directory whose two records were not marked by what the memory
  held before. -/
  | init {st st₁ st₂ : State al} {selfIno parentIno now : Nat}
      (hmode : isReg (st.nv.record dir).attrs.mode = false) (hself : selfIno ≠ 0)
      (hparent : parentIno ≠ 0)
      (hinit : novaAppendDirInitEntries st dir selfIno parentIno now = (0, st₁))
      (hclean : st₁.nv.invalid (st₁.nv.logHead dir) = 0 ∧
        st₁.nv.invalid (st₁.nv.logHead dir + 32) = 0)
      (hres : Dir.reload st₁ dir = some st₂) :
      DirRun U dir st₂ (NameMap.init selfIno parentIno)
  | ops {st st' : State al} {m : NameMap} {ops : List DirOp} {newTail : Nat}
      (h : DirRun U dir st m) (hops : ∀ op ∈ ops, op.Allowed U) (hne : ops ≠ [])
      (hres : runOps dir ops st 0 = some (0, newTail, st')) :
      DirRun U dir (novaUpdateTail st' dir newTail) (ops.foldl NameMap.step m)
  | setattr {st st' : State al} {m : NameMap} {attr : Iattr} {changeOk ret : Int}
      {eofBlocks : Bool} {time : Nat} (h : DirRun U dir st m)
      (hmode : attr.valid.testBit 0 = true → isReg attr.mode = false)
      (hres : novaNotifyChange st dir attr changeOk eofBlocks time = some (ret, st')) :
      DirRun U dir st' m
  | links {st st' : State al} {m : NameMap} {e : LinkChangeEntry} (h : DirRun U dir st m)
      (hres : changeLinks st dir e = some (0, st')) : DirRun U dir st' m
  | reload {st st' : State al} {m : NameMap} (h : DirRun U dir st m)
      (hres : Dir.reload st dir = some st') : DirRun U dir st' m

/-- Every state of a run is a directory. -/
theorem DirRun.ok (hU : Names U) (h : DirRun U dir st m) :
    (∃ L pages, DirOk U st dir L pages) ∧ Agrees U st dir m := by
  induction h with
  | init hmode hself hparent hinit hclean hres =>
    obtain ⟨b, hi⟩ := novaAppendDirInitEntries_spec hinit
    rw [hi.head] at hclean
    obtain ⟨st2, hres', hok, hm⟩ := hi.reload hU hself hparent hclean hmode
    rw [hres', some.injEq] at hres
    rw [← hres]
    exact ⟨hok, hm⟩
  | ops h hops hne hres ih =>
    obtain ⟨⟨L, pages, hok⟩, hm⟩ := ih
    exact hok.runOps hU hops hne hm hres
  | setattr h hmode hres ih =>
    obtain ⟨⟨L, pages, hok⟩, hm⟩ := ih
    obtain ⟨⟨L', pages', hok', -⟩, hlook⟩ := hok.notifyChange_links hmode hres
    refine ⟨⟨L', pages', hok'⟩, ?_⟩
    intro name hk
    rw [hlook]
    exact hm name hk
  | links h hres ih =>
    obtain ⟨⟨L, pages, hok⟩, hm⟩ := ih
    obtain ⟨hok', hlook⟩ := hok.changeLinks hres
    refine ⟨hok', ?_⟩
    intro name hk
    rw [hlook]
    exact hm name hk
  | reload h hres ih =>
    obtain ⟨⟨L, pages, hok⟩, hm⟩ := ih
    obtain ⟨st2, hres', hok', hlook⟩ := hok.reload
    rw [hres', some.injEq] at hres
    rw [← hres]
    refine ⟨⟨L, pages, hok'⟩, ?_⟩
    intro name hk
    rw [hlook]
    exact hm name hk

/-- A rebuild gives the directory again. -/
theorem DirOk.rebuild (h : DirOk U st dir L pages) : ∃ st', novaRebuildDirInodeTree
        (st.setInfo dir (freshInfo (st.nv.record dir))) dir = some (st', false) ∧
      ReplayedAt (st.setInfo dir (freshInfo (st.nv.record dir))) st' dir L ∧
      (st'.nv.record dir).links
        = (lastEvent (linksEvent st.nv) L).getD (st.nv.record dir).links := by
  obtain ⟨F, T, rest, hr, -, rfl, -⟩ := h.readable
  have hlisted := h.dirAt.listed
  rw [append_nil] at hlisted
  obtain ⟨st', hres, hat, -, hlinks⟩ := rebuildDir_fresh hr hlisted h.recordMode
  exact ⟨st', hres, hat, hlinks⟩

/-- Replaying the log of a directory gives its tree: in every state of
every run the rebuild reaches the end of the log without an error, and
names stand for the same inodes as in the live tree. -/
theorem dirRebuild_eq_live {m : NameMap} (hU : Names U) (h : DirRun U dir st m) :
    ∃ st', novaRebuildDirInodeTree
        (st.setInfo dir (freshInfo (st.nv.record dir))) dir = some (st', false) ∧
      (st'.info dir).tree.get = (st.info dir).tree.get ∧ lookup st' dir = lookup st dir ∧
      ∀ name, Known U name → lookup st' dir name = m name := by
  obtain ⟨⟨L, pages, hok⟩, hm⟩ := h.ok hU
  obtain ⟨st', hres, hat, -⟩ := hok.rebuild
  have hlisted := hok.dirAt.listed
  rw [append_nil] at hlisted
  have htree : (st'.info dir).tree.get = (st.info dir).tree.get := by
    funext i
    apply ext
    intro a
    rw [hat.tree i, hok.dirAt.tree i a, append_nil]
    exact hlisted.heldAt_iff
  have hslot : st'.nv.slot = st.nv.slot := hat.slot
  have hlook : lookup st' dir = lookup st dir := by
    funext name
    simp only [lookup, novaFindDentry, htree, hslot]
  refine ⟨st', hres, htree, hlook, ?_⟩
  intro name hk
  rw [hlook]
  exact hm name hk

-- === a small run

/-- A device without directories. -/
def newDir : State (BlockAllocator.ascending 64) where
  nv :=
    { slot := fun _ => .unknown 0
      invalid := fun _ => 0
      next := fun _ => 0
      logHead := fun _ => 0
      logTail := fun _ => 0
      record := fun _ => ⟨0, ⟨0o040755, 0, 0, 0, 0, 0⟩, 0, 0, 0⟩ }
  data := fun _ => 0
  alloc := { next := 9, returned := fun _ => false }
  info := fun _ => freshInfo ⟨0, ⟨0o040755, 0, 0, 0, 0, 0⟩, 0, 0, 0⟩
  trace := []

/-- Its first directory. -/
def firstDir : State (BlockAllocator.ascending 64) :=
  let st := (novaAppendDirInitEntries newDir 18 18 1 0).2
  (Dir.reload st 18).getD st

/-- The name "a" is made, then renamed to "b". -/
def createAndRename : List DirOp :=
  .add 33 ⟨[97], 2, 1⟩ 0 :: renameOps false 33 ⟨[97], 2, 2⟩ ⟨[98], 2, 2⟩ 0 0

/-- The directory after that. -/
def renamedDir : State (BlockAllocator.ascending 64) :=
  match runOps 18 createAndRename firstDir 0 with
  | some (0, tail, st) => novaUpdateTail st 18 tail
  | _ => firstDir

/-- Two names with different hashes. -/
theorem names_ab : Names {[97], [98]} := by
  have hknown : ∀ n, Known {[97], [98]} n → n ∈ [[97], [98], dot, dotdot] := by
    rintro n ((rfl | rfl) | rfl | rfl) <;> simp
  have hinj : ∀ m ∈ [[97], [98], dot, dotdot], ∀ n ∈ [[97], [98], dot, dotdot],
      bkdrHash m = bkdrHash n → m = n := by decide
  refine ⟨?_, ?_, ?_, fun m n hm hn => hinj m (hknown m hm) n (hknown n hn)⟩
  · rintro n (rfl | rfl) <;> decide
  · rintro n (rfl | rfl) <;> decide
  refine ⟨?_, ?_⟩
  · rintro (h | h) <;> exact absurd h (by decide)
  · rintro (h | h) <;> exact absurd h (by decide)

/-- The directory is made. -/
theorem firstDir_made :
    novaAppendDirInitEntries newDir 18 18 1 0 = (0, (novaAppendDirInitEntries newDir 18 18 1 0).2) ∧
      Dir.reload (novaAppendDirInitEntries newDir 18 18 1 0).2 18 = some firstDir := by
  have hinit : (novaAppendDirInitEntries newDir 18 18 1 0).1 = 0 := by decide +kernel
  have hload : (Dir.reload (novaAppendDirInitEntries newDir 18 18 1 0).2 18).isSome := by
    decide +kernel
  obtain ⟨st2, hres⟩ := isSome_iff_exists.1 hload
  have hfirst : firstDir = st2 := by simp only [firstDir, hres, getD_some]
  rw [hfirst]
  exact ⟨Prod.ext hinit rfl, hres⟩

/-- It is a run. -/
theorem firstDir_run : DirRun U 18 firstDir (NameMap.init 18 1) := by
  obtain ⟨hinit, hres⟩ := firstDir_made
  refine DirRun.init (by decide) (by decide) (by decide) hinit ?_ hres
  decide +kernel

/-- And so is the renamed one. -/
theorem renamedDir_run : ∃ m, DirRun {[97], [98]} 18 renamedDir m := by
  unfold renamedDir
  split
  · rename_i hres
    refine ⟨_, firstDir_run.ops ?_ (by simp [createAndRename]) hres⟩
    intro op hop
    have hall : op = .add 33 ⟨[97], 2, 1⟩ 0 ∨ op = .add 33 ⟨[98], 2, 2⟩ 0 ∨
        op = .remove ⟨[97], 2, 2⟩ 0 := by simpa [createAndRename, renameOps] using hop
    rcases hall with rfl | rfl | rfl
    · exact ⟨.inl rfl, by decide⟩
    · exact ⟨.inr rfl, by decide⟩
    · exact .inl rfl
  · exact ⟨_, firstDir_run⟩

/-- After the rename "b" is the file, before and after a rebuild. -/
theorem dirRebuild_eq_live_rename :
    (∃ m, DirRun {[97], [98]} 18 renamedDir m) ∧
      ∃ st', novaRebuildDirInodeTree (renamedDir.setInfo 18
          (freshInfo (renamedDir.nv.record 18))) 18 = some (st', false) ∧
        lookup st' 18 [97] = none ∧ lookup st' 18 [98] = some 33 := by
  have hlook : lookup renamedDir 18 [97] = none ∧ lookup renamedDir 18 [98] = some 33 := by
    decide +kernel
  refine ⟨renamedDir_run, ?_⟩
  obtain ⟨m, hm⟩ := renamedDir_run
  obtain ⟨st', hres, -, heq, -⟩ := dirRebuild_eq_live names_ab hm
  rw [← heq] at hlook
  exact ⟨st', hres, hlook⟩

end Themis.Dir
