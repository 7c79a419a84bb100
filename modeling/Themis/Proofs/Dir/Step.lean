/-
What adding and removing a name does to a directory: the invariant is
kept, and the map from names to inode numbers changes at that name only.
The same for the entries of attribute and link changes, which leave the
map alone.
-/
import Themis.Proofs.Dir.Inv

namespace Themis.Dir

open Lib Log File List Option State

variable {al : BlockAllocator} {U : Set (List UInt8)} {st st' st1 st2 : State al}
  {dir cur tail p ino : Nat} {L P pages : List Nat} {req : NameReq}
variable {e : LogEntry} {newTail : Nat}
variable {name : List UInt8} {n : Nat}

attribute [local simp] setInfo setTree

-- === lookups

/-- A hash that is not in the tree. -/
theorem lookup_none (h : (st.info dir).tree.get (bkdrHash name) = none) :
    lookup st dir name = none := by simp [lookup, novaFindDentry, h]

/-- A hash that is. -/
theorem lookup_some {a : Nat} {d : Dentry} (h : (st.info dir).tree.get (bkdrHash name) = some a)
    (hd : st.nv.slot a = .dirLog d) : lookup st dir name = some d.ino := by
  simp [lookup, novaFindDentry, h, hd]

/-- Only tree and records matter. -/
theorem lookup_congr (htree : (st'.info dir).tree = (st.info dir).tree)
    (hslot : st'.nv.slot = st.nv.slot) : lookup st' dir = lookup st dir := by
  funext name
  simp only [lookup, novaFindDentry, htree, hslot]

/-- Growth changes no lookup. -/
theorem DirAt.lookup_grown {L' pages' : List Nat} {kept : List (Nat × Nat)}
    (h : DirAt U st dir cur L P pages) (hg : Grown st st' dir L P pages p e L' pages' kept) :
    lookup st' dir = lookup st dir := by
  funext name
  have hn := nodup_append.1 h.log.nodup
  cases hget : (st.info dir).tree.get (bkdrHash name) with
  | none =>
    rw [lookup_none hget]
    apply lookup_none
    rw [hg.moves.tree, hget]
    rfl
  | some a =>
    obtain ⟨hmem, hv⟩ := (h.tree _ a).1 hget
    obtain ⟨d, hd, -⟩ := id hv
    rw [lookup_some hget hd]
    have hget' : (st'.info dir).tree.get (bkdrHash name) = some (reloc kept a) := by
      rw [hg.moves.tree, hget]
      rfl
    apply lookup_some hget'
    rcases mem_append.1 hmem with hL | hP
    · have hk : a ∈ kept.map Prod.fst := by
        by_contra hnot
        exact not_expendable_of_validAt hv (hg.moves.dropped a hL hnot)
      rw [(hg.moves.same _ (reloc_mem hk)).1]
      exact hd
    have hnot : a ∉ kept.map Prod.fst := fun hk =>
      hn.2.2 a (hg.moves.sub.subset hk) a hP rfl
    rw [reloc_of_notMem hnot, (hg.pending a hP).1]
    exact hd

-- === the append

/-- What an append leaves: the new entry behind the others, which are as
they were. -/
structure Appended (U : Set (List UInt8)) (st st' : State al) (dir p : Nat)
    (e : LogEntry) (L P pages : List Nat) : Prop where
  log : LogAt st' dir maxRecLen (p + e.size) L (P ++ [p]) pages
  listed : Listed U st'.nv (L ++ P)
  tree : TreeOk st' dir (L ++ P)
  heads : Heads st'.nv L
  fresh : p ∉ L ++ P
  entry : st'.nv.slot p = e
  lookup : Dir.lookup st' dir = Dir.lookup st dir
  record : st'.nv.record = st.nv.record
  attrs : (st'.info dir).attrs = (st.info dir).attrs

/-- `tail` stands for the cursor. -/
def AtCursor (st : State al) (dir tail cur : Nat) : Prop :=
  (if tail ≠ 0 then tail else st.nv.logTail dir) = cur

/-- An append to a directory. -/
theorem DirAt.append_grown (h : DirAt U st dir cur L P pages) (hcur : AtCursor st dir tail cur)
    (hmin : 32 ≤ e.size) (hmax : e.size ≤ maxRecLen)
    (hres : novaGetAppendHead st dir tail e.size = some (p, st1)) (hp : p ≠ 0)
    (hs : SlotOnly p st1 st2) (he : st2.nv.slot p = e) :
    ∃ L' pages' kept, Appended U st st2 dir p e L' P pages' ∧
      Grown st st2 dir L P pages p e L' pages' kept := by
  obtain ⟨ext, happ⟩ := novaGetAppendHead_eq hres
  rw [hcur] at happ
  have hlast : e.size ≤ LAST_ENTRY := hmax.trans (by decide)
  obtain ⟨L', pages', kept, hat, hg⟩ :=
    LogAt.append hmax h.log h.keysOk h.tree_mem hmin hlast happ hp hs he
  have hn := hat.nodup
  rw [← append_assoc] at hn
  obtain ⟨hnLP, -, hdisj⟩ := nodup_append.1 hn
  obtain ⟨hlisted, htree⟩ := h.grown hg hnLP
  have hheads : Heads st2.nv L' := by
    rw [hg.ents]
    exact h.heads.moves hg.moves (nodup_append.1 h.log.nodup).1
  have hfresh : p ∉ L' ++ P := fun hmem => hdisj p hmem p (by simp) rfl
  exact ⟨L', pages', kept,
    ⟨hat, hlisted, htree, hheads, hfresh, he, h.lookup_grown hg, hg.record, hg.attrs⟩, hg⟩

/-- An append keeps records and tree. -/
theorem DirAt.append (h : DirAt U st dir cur L P pages) (hcur : AtCursor st dir tail cur)
    (hmin : 32 ≤ e.size) (hmax : e.size ≤ maxRecLen)
    (hres : novaGetAppendHead st dir tail e.size = some (p, st1)) (hp : p ≠ 0)
    (hs : SlotOnly p st1 st2) (he : st2.nv.slot p = e) :
    ∃ L' pages', Appended U st st2 dir p e L' P pages' := by
  obtain ⟨L', pages', -, ha, -⟩ := h.append_grown hcur hmin hmax hres hp hs he
  exact ⟨L', pages', ha⟩

/-- An entry that is no record. -/
theorem Appended.other {L pages : List Nat} (h : Appended U st st' dir p e L P pages)
    (hok : DirEntryOk U e) (hrec : ∀ d, e ≠ .dirLog d) {i : InodeInfo}
    (htree : i.tree = (st'.info dir).tree) (hpages : i.logPages = (st'.info dir).logPages) :
    DirAt U (st'.setInfo dir i) dir (p + e.size) L (P ++ [p]) pages := by
  have hnot : ¬ IsRecord st'.nv p := by
    rintro ⟨d, hd⟩
    rw [h.entry] at hd
    exact hrec d hd
  have hself : (st'.setInfo dir i).info dir = i := by simp
  refine ⟨?_, ?_, ?_, h.heads⟩
  · refine h.log.congr rfl rfl rfl rfl h.log.inUse ?_
    rw [hself, hpages]
  · rw [← append_assoc]
    apply h.listed.snoc h.fresh
    · show DirEntryOk U (st'.nv.slot p)
      rw [h.entry]
      exact hok
    · rintro x _ j _ ⟨d, hd, -⟩
      exact hnot ⟨d, hd⟩
  intro j a
  rw [hself, htree, h.tree j a, ← append_assoc, mem_append (s := L ++ P), mem_singleton]
  constructor
  · rintro ⟨hmem, hv⟩
    exact ⟨.inl hmem, hv⟩
  rintro ⟨hmem | rfl, hv⟩
  · exact ⟨hmem, hv⟩
  · exact absurd hv.isRecord hnot

-- === a new record

/-- A new time keeps the directory. -/
theorem touchDir_at (h : DirAt U st dir cur L P pages) (time : Nat) :
    DirAt U (touchDir st dir time) dir cur L P pages :=
  h.congr rfl rfl (by simp [touchDir]) (by simp [touchDir])

/-- A new time changes no lookup. -/
theorem lookup_touchDir (st : State al) (dir time : Nat) :
    lookup (touchDir st dir time) dir = lookup st dir :=
  lookup_congr (by simp [touchDir]) rfl

/-- A new time keeps the mode. -/
theorem mode_touchDir (st : State al) (dir time : Nat) :
    ((touchDir st dir time).info dir).attrs.mode = (st.info dir).attrs.mode := by
  simp [touchDir]

/-- The lengths of records. -/
theorem recLen_bounds (h0 : 0 < n) (h1 : n ≤ 255) :
    32 ≤ novaDirLogRecLen n ∧ novaDirLogRecLen n ≤ maxRecLen := by
  unfold maxRecLen novaDirLogRecLen
  omega

/-- Storing a record stores its slot only. -/
theorem store_record_only (st : State al) (p : Nat) (d : Dentry) (n : Nat) :
    SlotOnly p st ((st.store (.slot p (.dirLog d) 0)).flush (.bytes p n) false) := by
  refine ⟨?_, ?_, rfl, rfl, rfl, rfl, rfl, rfl, rfl⟩
  · intro a ha
    simp [store, flush, Nvmm.apply, ha]
  · intro a ha
    simp [store, flush, Nvmm.apply, ha]

/-- A record is appended. -/
theorem novaAppendDirInodeEntry_spec {change : Int} (h : DirAt U st dir cur L P pages)
    (hcur : AtCursor st dir tail cur) (h0 : 0 < req.name.length) (h1 : req.name.length ≤ 255)
    (hn : n = novaDirLogRecLen req.name.length)
    (hres : novaAppendDirInodeEntry st dir ino req n tail change = some (p, newTail, st')) :
    ∃ d L' pages', d.name = req.name ∧ d.ino = ino ∧
      d.linksCount = linksCount req.nlink change ∧ newTail = p + n ∧ p ≠ 0 ∧
      st'.nv.invalid p = 0 ∧ (LogEntry.dirLog d).size = n ∧
      Appended U st st' dir p (.dirLog d) L' P pages' := by
  obtain ⟨hmin, hmax⟩ := recLen_bounds h0 h1
  rw [← hn] at hmin hmax
  unfold novaAppendDirInodeEntry at hres
  rw [bind_eq_bind, bind_eq_some_iff] at hres
  obtain ⟨⟨p1, st1⟩, hget, hres⟩ := hres
  by_cases hp : p1 = 0
  · simp [hp] at hres
  simp only [if_neg hp, Option.pure_def, some.injEq, Prod.mk.injEq] at hres
  obtain ⟨rfl, rfl, rfl⟩ := hres
  generalize hd : (Dentry.mk req.name 0 n (linksCount req.nlink change)
    (st1.info dir).attrs.mtime ino (st1.info dir).iSize) = d
  have hsize : (LogEntry.dirLog d).size = n := by rw [← hd]; rfl
  obtain ⟨L', pages', happ⟩ := h.append (e := .dirLog d) hcur (by rw [hsize]; exact hmin)
    (by rw [hsize]; exact hmax) (by rw [hsize]; exact hget) hp
    (store_record_only st1 p1 d n) (by simp [store, flush, Nvmm.apply])
  refine ⟨d, L', pages', ?_, ?_, ?_, rfl, hp, ?_, hsize, happ⟩
  · rw [← hd]
  · rw [← hd]
  · rw [← hd]
  · simp [store, flush, Nvmm.apply]

/-- What an operation on a name leaves. -/
structure Stepped (U : Set (List UInt8)) (st st' : State al) (dir newTail : Nat)
    (L P pages : List Nat) : Prop where
  dirAt : DirAt U st' dir newTail L P pages
  pending : P ≠ []
  tail : newTail ≠ 0
  record : st'.nv.record = st.nv.record
  mode : (st'.info dir).attrs.mode = (st.info dir).attrs.mode

/-- The last record of `P` has link count `n`. -/
def EndsWith (nv : Nvmm) (P : List Nat) (n : Nat) : Prop :=
  ∃ P₀ p d, P = P₀ ++ [p] ∧ nv.slot p = .dirLog d ∧ d.linksCount = n

/-- `nova_add_dentry`, with the link count it logs. -/
theorem DirAt.add_links {inc : Int} (h : DirAt U st dir cur L P pages) (hU : Names U)
    (hname : req.name ∈ U) (hino : ino ≠ 0) (hcur : AtCursor st dir tail cur)
    (hres : novaAddDentry st dir ino req inc tail = some (0, newTail, st')) :
    (∃ L' P' pages', Stepped U st st' dir newTail L' P' pages' ∧
      EndsWith st'.nv P' (linksCount req.nlink inc)) ∧ lookup st dir req.name = none ∧
      ∀ name, Known U name → lookup st' dir name
        = if name = req.name then some ino else lookup st dir name := by
  have hpos := hU.pos _ hname
  unfold novaAddDentry at hres
  rw [if_neg (by omega), bind_eq_bind, bind_eq_some_iff] at hres
  obtain ⟨⟨p, newTail1, st1⟩, happ, hres⟩ := hres
  simp only [Option.pure_def, some.injEq, Prod.mk.injEq] at hres
  obtain ⟨hret, rfl, rfl⟩ := hres
  obtain ⟨d, L', pages', hdname, hdino, hdlinks, rfl, hp, hinv, hsize, ha⟩ :=
    novaAppendDirInodeEntry_spec (touchDir_at h req.time) hcur hpos (hU.short _ hname) rfl happ
  have hlook : lookup st1 dir = lookup st dir := ha.lookup.trans (lookup_touchDir _ _ _)
  have hmode : (st1.info dir).attrs.mode = (st.info dir).attrs.mode := by
    rw [ha.attrs]
    exact mode_touchDir _ _ _
  -- the name was not there
  unfold novaInsertDirRadixTree at hret ⊢
  simp only at hret ⊢
  cases hget : (st1.info dir).tree.get (bkdrHash req.name) with
  | some a =>
    rw [hget] at hret
    have hexist : -EEXIST = 0 := hret
    exact absurd hexist (by decide)
  | none =>
    simp only
    have hself : ((setTree st1 dir ((st1.info dir).tree.set (bkdrHash req.name) p)).info
        dir).tree = (st1.info dir).tree.set (bkdrHash req.name) p := by
      simp
    have hvalid : ∀ i, ValidAt st1.nv i p ↔ i = bkdrHash req.name := by
      intro i
      constructor
      · rintro ⟨d', hd', -, -, rfl⟩
        rw [ha.entry, LogEntry.dirLog.injEq] at hd'
        rw [← hd', hdname]
      · rintro rfl
        exact ⟨d, ha.entry, by rw [hdino]; exact hino, hinv, by rw [hdname]⟩
    refine ⟨⟨L', P ++ [p], pages', ⟨⟨?_, ?_, ?_, ha.heads⟩, by simp, by omega, ha.record, ?_⟩,
      P, p, d, rfl, ha.entry, hdlinks⟩, ?_, ?_⟩
    · have hlog := ha.log
      rw [hsize] at hlog
      refine hlog.congr rfl rfl rfl rfl hlog.inUse ?_
      simp
    · rw [← append_assoc]
      apply ha.listed.snoc ha.fresh
      · show DirEntryOk U (st1.nv.slot p)
        rw [ha.entry]
        exact ⟨by rw [hdname]; exact hpos, .inl (by rw [hdname]; exact hname)⟩
      intro x hx i hv hn
      obtain ⟨d', hd', hi⟩ := hn
      have hd'' : st1.nv.slot p = .dirLog d' := hd'
      rw [ha.entry, LogEntry.dirLog.injEq] at hd''
      have hx' := (ha.tree i x).2 ⟨hx, hv⟩
      rw [← hi, ← hd'', hdname, hget] at hx'
      cases hx'
    · intro i a
      rw [hself, ← append_assoc, mem_append, mem_singleton]
      show _ ↔ _ ∧ ValidAt st1.nv i a
      by_cases hi : i = bkdrHash req.name
      · rw [hi, Radix.get_set_self, some.injEq]
        constructor
        · rintro rfl
          exact ⟨.inr rfl, (hvalid _).2 rfl⟩
        rintro ⟨hmem | rfl, hv⟩
        · have ha' := (ha.tree _ a).2 ⟨hmem, hv⟩
          rw [hget] at ha'
          cases ha'
        · rfl
      rw [Radix.get_set_of_ne _ _ hi, ha.tree i a]
      constructor
      · rintro ⟨hmem, hv⟩
        exact ⟨.inl hmem, hv⟩
      rintro ⟨hmem | rfl, hv⟩
      · exact ⟨hmem, hv⟩
      · exact absurd ((hvalid i).1 hv) hi
    · rw [← hmode]
      simp
    · rw [← hlook]
      exact lookup_none hget
    intro name hk
    split
    · rename_i heq
      subst heq
      rw [← hdino]
      apply lookup_some
      · rw [hself, Radix.get_set_self]
      · exact ha.entry
    rename_i hne
    have hhash : bkdrHash name ≠ bkdrHash req.name := fun heq =>
      hne (hU.inj _ _ hk (.inl hname) heq)
    rw [← hlook]
    simp only [lookup, novaFindDentry, hself, Radix.get_set_of_ne _ _ hhash]
    rfl

/-- A record matches its own name. -/
theorem novaCheckDentryMatch_self (d : Dentry) : novaCheckDentryMatch d d.name = 0 := by
  simp [novaCheckDentryMatch]

/-- `nova_remove_dentry`, with the link count it logs. -/
theorem DirAt.remove_links {dec : Int} (h : DirAt U st dir cur L P pages) (hU : Names U)
    (hname : req.name ∈ U) (hcur : AtCursor st dir tail cur)
    (hres : novaRemoveDentry st dir req dec tail = some (0, newTail, st')) :
    (∃ L' P' pages', Stepped U st st' dir newTail L' P' pages' ∧
      EndsWith st'.nv P' (linksCount req.nlink dec)) ∧ ∀ name, Known U name → lookup st' dir name
        = if name = req.name then none else lookup st dir name := by
  have hpos := hU.pos _ hname
  unfold novaRemoveDentry at hres
  rw [if_neg (by omega), bind_eq_bind, bind_eq_some_iff] at hres
  obtain ⟨⟨p, newTail1, st1⟩, happ, hres⟩ := hres
  obtain ⟨rfl, rfl⟩ := hres
  obtain ⟨d, L', pages', hdname, hdino, hdlinks, rfl, hp, hinv, hsize, ha⟩ :=
    novaAppendDirInodeEntry_spec (touchDir_at h req.time) hcur hpos (hU.short _ hname) rfl happ
  have hlook : lookup st1 dir = lookup st dir := ha.lookup.trans (lookup_touchDir _ _ _)
  have hmode : (st1.info dir).attrs.mode = (st.info dir).attrs.mode := by
    rw [ha.attrs]
    exact mode_touchDir _ _ _
  have hnotValid : ∀ i, ¬ ValidAt st1.nv i p := by
    rintro i ⟨d', hd', h0, -⟩
    rw [ha.entry, LogEntry.dirLog.injEq] at hd'
    rw [← hd', hdino] at h0
    exact h0 rfl
  have hnamed : ∀ i, NamedAt st1.nv i p → i = bkdrHash req.name := by
    rintro i ⟨d', hd', rfl⟩
    rw [ha.entry, LogEntry.dirLog.injEq] at hd'
    rw [← hd', hdname]
  have hok : DirEntryOk U (st1.nv.slot p) := by
    rw [ha.entry]
    exact ⟨by rw [hdname]; exact hpos, .inl (by rw [hdname]; exact hname)⟩
  have hlog := ha.log
  rw [hsize] at hlog
  -- what the tree and the marks are afterwards
  suffices hsuff : ∃ inv, (novaRemoveDirRadixTree st1 dir req.name false).2.nv
      = { st1.nv with invalid := inv } ∧
      (novaRemoveDirRadixTree st1 dir req.name false).2.alloc = st1.alloc ∧
      (novaRemoveDirRadixTree st1 dir req.name false).2.info dir
        = { st1.info dir with tree := (st1.info dir).tree.delete (bkdrHash req.name) } ∧
      Listed U { st1.nv with invalid := inv } (L' ++ P) ∧
      (∀ x ∈ L' ++ P, ∀ i, ValidAt { st1.nv with invalid := inv } i x ↔
        ValidAt st1.nv i x ∧ i ≠ bkdrHash req.name) ∧ inv p = st1.nv.invalid p by
    obtain ⟨inv, hnv, halloc, hinfo, hlisted, hiff, hinvp⟩ := hsuff
    generalize (novaRemoveDirRadixTree st1 dir req.name false).2 = st2 at *
    have hvalidp : ∀ i, ¬ ValidAt { st1.nv with invalid := inv } i p := by
      intro i hv
      exact hnotValid i (hv.congr rfl hinvp.symm)
    have hself : (st2.info dir).tree = (st1.info dir).tree.delete (bkdrHash req.name) := by
      rw [hinfo]
    have hslot : st2.nv.slot = st1.nv.slot := by rw [hnv]
    refine ⟨⟨L', P ++ [p], pages', ⟨⟨?_, ?_, ?_, ?_⟩, by simp, by omega, ?_, ?_⟩,
      P, p, d, rfl, by rw [hslot]; exact ha.entry, hdlinks⟩, ?_⟩
    · apply hlog.congr
      · exact hslot
      · rw [hnv]
      · rw [hnv]
      · rw [hnv]
      · intro x hx
        rw [State.InUse, halloc]
        exact hlog.inUse x hx
      · rw [hinfo]
    · rw [← append_assoc, hnv]
      apply hlisted.snoc ha.fresh hok
      intro x hx i hv hn
      exact ((hiff x hx i).1 hv).2 (hnamed i (hn.congr rfl))
    · intro i a
      rw [hself, hnv, ← append_assoc, mem_append, mem_singleton]
      by_cases hi : i = bkdrHash req.name
      · rw [hi, Radix.get_delete_self]
        constructor
        · intro hnone
          cases hnone
        rintro ⟨hmem | rfl, hv⟩
        · exact absurd rfl ((hiff a hmem _).1 hv).2
        · exact absurd hv (hvalidp _)
      rw [Radix.get_delete_of_ne _ hi, ha.tree i a]
      constructor
      · rintro ⟨hmem, hv⟩
        exact ⟨.inl hmem, (hiff a hmem i).2 ⟨hv, hi⟩⟩
      rintro ⟨hmem | rfl, hv⟩
      · exact ⟨hmem, ((hiff a hmem i).1 hv).1⟩
      · exact absurd hv (hvalidp i)
    · rw [hnv]
      refine ha.heads.weaken (fun _ _ => rfl) ?_
      intro x hx i hi hv
      refine (hiff x (mem_append_left _ hx) i).2 ⟨hv, ?_⟩
      rintro rfl
      -- the name is not one of the directory's own
      rcases hi with hi | hi
      · exact hU.foreign.1 (hU.inj _ _ (.inl hname) (.inr (.inl rfl)) hi ▸ hname)
      · exact hU.foreign.2 (hU.inj _ _ (.inl hname) (.inr (.inr rfl)) hi ▸ hname)
    · rw [hnv]
      exact ha.record
    · rw [hinfo]
      exact hmode
    intro name hk
    split
    · rename_i heq
      subst heq
      apply lookup_none
      rw [hself, Radix.get_delete_self]
    rename_i hne
    have hhash : bkdrHash name ≠ bkdrHash req.name := fun heq =>
      hne (hU.inj _ _ hk (.inl hname) heq)
    rw [← hlook]
    simp only [lookup, novaFindDentry, hself, hslot, Radix.get_delete_of_ne _ hhash]
  -- the entry of the name
  unfold novaRemoveDirRadixTree
  simp only [Bool.false_eq_true, if_false]
  cases hget : (st1.info dir).tree.get (bkdrHash req.name) with
  | none =>
    refine ⟨st1.nv.invalid, rfl, rfl, by simp, ha.listed, ?_, rfl⟩
    intro x hx i
    constructor
    · intro hv
      refine ⟨hv, ?_⟩
      rintro rfl
      have := (ha.tree _ x).2 ⟨hx, hv⟩
      rw [hget] at this
      cases this
    · exact fun hv => hv.1
  | some a =>
    obtain ⟨hmem, hv⟩ := (ha.tree _ a).1 hget
    obtain ⟨d', hd', h0, hv0, hhash⟩ := id hv
    have hknown : Known U d'.name := by
      have := ha.listed.ok a hmem
      rw [hd'] at this
      exact this.2
    have hsame : d'.name = req.name := hU.inj _ _ hknown (.inl hname) hhash
    have hd2 : (setTree st1 dir ((st1.info dir).tree.delete (bkdrHash req.name))).nv.slot a
        = .dirLog d' := hd'
    have hcheck : ¬ (d'.ino = 0 ∨ (setTree st1 dir ((st1.info dir).tree.delete
        (bkdrHash req.name))).nv.invalid a ≠ 0 ∨ novaCheckDentryMatch d' req.name ≠ 0) := by
      rw [← hsame, novaCheckDentryMatch_self]
      simp only [not_or, not_not]
      exact ⟨h0, hv0, trivial⟩
    simp only [hd2, if_neg hcheck]
    have hpa : p ≠ a := fun heq => ha.fresh (heq ▸ hmem)
    have hdot : bkdrHash req.name ≠ bkdrHash dot := by
      intro heq
      have := hU.inj _ _ (.inl hname) (.inr (.inl rfl)) heq
      exact hU.foreign.1 (this ▸ hname)
    refine ⟨Function.update st1.nv.invalid a 1, rfl, rfl, by simp, ?_, ?_, by simp [hpa]⟩
    · apply ha.listed.weaken
      · intro x _
        rfl
      · intro x _ i hvx
        obtain ⟨dx, hdx, hx0, hxv, hxi⟩ := hvx
        have hxa : x ≠ a := by
          rintro rfl
          simp at hxv
        exact ⟨dx, hdx, hx0, by simpa [hxa] using hxv, hxi⟩
      · intro x _ hvx
        have hxa : x ≠ a := by
          rintro rfl
          exact hdot (hv.hash_eq hvx)
        exact hvx.congr rfl (by simp [hxa])
    intro x hx i
    constructor
    · intro hvx
      have hxa : x ≠ a := by
        rintro rfl
        obtain ⟨-, -, -, hone, -⟩ := hvx
        simp at hone
      have hv1 : ValidAt st1.nv i x := hvx.congr rfl (by simp [hxa])
      refine ⟨hv1, ?_⟩
      rintro rfl
      have := (ha.tree _ x).2 ⟨hx, hv1⟩
      rw [hget, some.injEq] at this
      exact hxa this.symm
    rintro ⟨hvx, hne⟩
    have hxa : x ≠ a := by
      rintro rfl
      exact hne (hvx.hash_eq hv)
    exact hvx.congr rfl (by simp [hxa])

end Themis.Dir
