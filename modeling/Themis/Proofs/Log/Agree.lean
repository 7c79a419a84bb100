/-
Writers and readers of a log agree on where its entries are.

`Run` are the histories of one log: entries are placed from the tail on and
the tail is moved behind them, or the attempt is forgotten. In between
everything that is not on the pages of the log may change. No page of the
log is taken away by a collection.

# What an abandoned attempt leaves

Behind the committed tail there may be a next-page mark, entries, and
linked pages. None of this is part of the log: the tail page ends at the
tail (`Writing.retreat`).
-/
import Themis.Proofs.Log.Open

namespace Themis.Log

open Lib List Option Nvmm

variable {al : BlockAllocator} {st st' : State al} {ino : Nat}
variable {A B F : List Page} {T : Page} {rest L : List Nat} {nv : Nvmm} {a : Nat}
variable {P C : List Nat} {tail : Nat} {M : List (Nat × LogEntry)}

attribute [local simp] novaUpdateTail

-- === histories

/-- An entry the code may append. -/
def LogEntry.WellFormed : LogEntry → Prop
  | .fileWrite _ => True
  | .setAttr _ => True
  | .linkChange _ => True
  | .dirLog d => ∃ n, 1 ≤ n ∧ n ≤ 255 ∧ d.deLen = novaDirLogRecLen n
  | .nextPage => False
  | .unknown _ => False

/-- No page of the log is left out. -/
def KeepsPages (st st' : State al) (ino : Nat) : Prop :=
  ∀ b ∈ logChain st ino, b ∈ logChain st' ino

/-- Entries are placed one after another from `tail` on (0 stands for the
committed tail), each at the position `nova_get_append_head` gives for
it. -/
inductive Placing (ino : Nat) : State al → Nat → List (Nat × LogEntry) →
    State al → Nat → Prop
  | nil (st : State al) (tail : Nat) : Placing ino st tail [] st tail
  | cons {st st₁ st' : State al} {tail p tail' : Nat} {e : LogEntry}
      {M : List (Nat × LogEntry)} (he : e.WellFormed)
      (hget : novaGetAppendHead st ino tail e.size = some (p, st₁))
      (hp : p ≠ 0) (hkeep : KeepsPages st st₁ ino)
      (hrest : Placing ino (st₁.ntStore (.slot p e 0)) (p + e.size) M st' tail') :
      Placing ino st tail ((p, e) :: M) st' tail'

/-- The log of the inode and the pages it lies on are as they were, and
the tree still points to entries of the log. -/
structure Elsewhere (st st' : State al) (ino : Nat) (L : List Nat) : Prop where
  slot : ∀ a, blockOff a ∈ logChain st ino → st'.nv.slot a = st.nv.slot a
  next : ∀ b ∈ logChain st ino, st'.nv.next b = st.nv.next b
  logHead : st'.nv.logHead ino = st.nv.logHead ino
  logTail : st'.nv.logTail ino = st.nv.logTail ino
  inUse : ∀ b ∈ logChain st ino, st'.InUse (b / PAGE_SIZE)
  logPages : (st'.info ino).logPages = (st.info ino).logPages
  keys : KeysOk st'.nv (st'.info ino).tree
  tree : ∀ i a, (st'.info ino).tree.get i = some a → a ∈ L

/-- The histories of a log, with the entries appended so far. -/
inductive Run (ino : Nat) : State al → List (Nat × LogEntry) → Prop
  | empty {st : State al} (hempty : EmptyLog st ino)
      (htree : ∀ i, (st.info ino).tree.get i = none) : Run ino st []
  | elsewhere {st st' : State al} {L : List (Nat × LogEntry)} (h : Run ino st L)
      (hst : Elsewhere st st' ino (L.map Prod.fst)) : Run ino st' L
  /-- The tail is moved behind the new entries. -/
  | commit {st st' : State al} {L M : List (Nat × LogEntry)} {tail : Nat}
      (h : Run ino st L) (hput : Placing ino st 0 M st' tail) (hne : M ≠ []) :
      Run ino (novaUpdateTail st' ino tail) (L ++ M)
  /-- Entries were written and are abandoned. -/
  | abandon {st st' : State al} {L M : List (Nat × LogEntry)} {tail : Nat}
      (h : Run ino st L) (hput : Placing ino st 0 M st' tail) : Run ino st' L
  /-- A position was obtained behind them, and all is abandoned. -/
  | giveUp {st st₁ st' : State al} {L M : List (Nat × LogEntry)}
      {tail p : Nat} {e : LogEntry} (h : Run ino st L)
      (hput : Placing ino st 0 M st₁ tail) (he : e.WellFormed)
      (hget : novaGetAppendHead st₁ ino tail e.size = some (p, st'))
      (hp : p ≠ 0) (hkeep : KeepsPages st₁ st' ino) : Run ino st' L

/-- Such an entry fits a page. -/
theorem LogEntry.WellFormed.size_le {e : LogEntry} (he : e.WellFormed) :
    32 ≤ e.size ∧ e.size ≤ LAST_ENTRY := by
  cases e with
  | dirLog d =>
    obtain ⟨n, h1, h2, h3⟩ := he
    simp only [LogEntry.size, h3, novaDirLogRecLen, LAST_ENTRY]
    omega
  | nextPage => exact he.elim
  | unknown t => exact he.elim
  | _ => simp [LogEntry.size, LAST_ENTRY]

-- === the pages

/-- The chain of a log. -/
theorem LogInv.logChain_eq (h : LogInv st ino A B T rest) :
    logChain st ino = basesOf A ++ tailPages B T rest := by
  unfold logChain
  rw [h.head]
  apply pageChain_eq _ h.chain
  · intro p hp
    have := (h.isPage hp).2
    omega
  · exact length_lt_pageLimit (fun p hp => h.isPage hp) h.nodup h.onDevice

/-- Without a collection nothing moves. -/
theorem AppendedAt.unmoved {A B A' B' : List Page} {T T' : Page}
    {rest rest' : List Nat} {size p : Nat} {kept : List (Nat × Nat)} (h : LogInv st ino A B T rest)
    (hat : AppendedAt st st' ino A B T rest size p A' B' T' rest' kept)
    (hkeep : KeepsPages st st' ino) : A' = A ∧ kept = stay (entsOf A) := by
  apply hat.changed.unmoved
  intro b hb
  have hmem : b ∈ basesOf A' ++ tailPages B' T' rest' := by
    rw [← hat.log.logChain_eq]
    apply hkeep
    rw [h.logChain_eq]
    exact mem_append_left _ hb
  rcases mem_append.1 hmem with hmem | hmem
  · exact hmem
  exfalso
  rcases hat.behind b hmem with hold | hnew
  · have hn := h.nodup
    rw [nodup_append] at hn
    exact hn.2.2 b hb b hold rfl
  · exact hnew (h.inUse b (mem_append_left _ hb))

-- === the entries

/-- The places hold the entries. -/
def Holding (nv : Nvmm) (L : List (Nat × LogEntry)) : Prop :=
  ∀ x ∈ L, nv.slot x.1 = x.2

/-- The tree points to entries of the log, under their own indices. -/
structure TreeOk (st : State al) (ino : Nat) (L : List Nat) : Prop where
  keys : KeysOk st.nv (st.info ino).tree
  mem : ∀ i a, (st.info ino).tree.get i = some a → a ∈ L

/-- Only these parts matter. -/
theorem TreeOk.congr (h : TreeOk st ino L) (hslot : ∀ a ∈ L, st'.nv.slot a = st.nv.slot a)
    (htree : ∀ i, (st'.info ino).tree.get i = (st.info ino).tree.get i) : TreeOk st' ino L := by
  refine ⟨?_, ?_⟩
  · intro i a hget
    rw [htree] at hget
    rw [hslot a (h.mem i a hget)]
    exact h.keys i a hget
  intro i a hget
  rw [htree] at hget
  exact h.mem i a hget

/-- A log being written to: behind the committed entries `L` there are
the entries `P`, and the next one goes to `cur`. The committed entries
`C` of the tail page end at the committed tail. -/
structure Writing (st : State al) (ino cur : Nat) (L P : List Nat)
    (A B : List Page) (T : Page) (rest C : List Nat) : Prop where
  log : LogInv st ino A B T rest
  cur : cur = T.stop
  split : entsOf B ++ T.ents = C ++ P
  ents : L = entsOf A ++ C
  tail : Seg st.nv ((tailPages B T rest).headD 0)
    ((tailPages B T rest).headD 0) C (st.nv.logTail ino)
  used : A ≠ [] → C ≠ []
  tree : TreeOk st ino L

namespace Writing

variable {cur p : Nat} {L P : List Nat} {A B : List Page} {T : Page}
  {rest C : List Nat}
variable {e : LogEntry}

/-- Where the entries are. -/
theorem mem (h : Writing st ino cur L P A B T rest C) {a : Nat}
    (ha : a ∈ L ++ P) : a ∈ entsOf A ∨ a ∈ entsOf B ++ T.ents := by
  rw [h.ents, append_assoc, ← h.split] at ha
  exact mem_append.1 ha

/-- None stands at the cursor. -/
theorem ne_stop (h : Writing st ino cur L P A B T rest C) {a : Nat}
    (ha : a ∈ L ++ P) : a ≠ T.stop := by
  rcases h.mem ha with ha | ha
  · exact h.log.cursor_ne a ha
  · exact (h.log.behind ha).1

/-- A place for the next entry. -/
theorem obtain_position (he : e.WellFormed) (h : Writing st ino cur L P A B T rest C)
    (hres : novaGetAppendHead st ino cur e.size = some (p, st')) (hp : p ≠ 0)
    (hkeep : KeepsPages st st' ino) :
    ∃ B' T' rest', Writing st' ino p L P A B' T' rest' C ∧ p + e.size ≤ T'.base + LAST_ENTRY ∧
      ∀ a ∈ L ++ P, st'.nv.slot a = st.nv.slot a := by
  have hcur0 : cur ≠ 0 := by
    rw [h.cur]
    exact h.log.log.last.stop_ne_zero
  rw [novaGetAppendHead, if_pos hcur0, h.cur, bind_eq_bind, bind_eq_some_iff] at hres
  obtain ⟨⟨p1, ext, st1⟩, happ, hres⟩ := hres
  simp only [Option.pure_def, some.injEq, Prod.mk.injEq] at hres
  obtain ⟨rfl, rfl⟩ := hres
  have hmark : ∀ i a, (st.info ino).tree.get i = some a → a ≠ T.stop := fun i a ha =>
    h.ne_stop (mem_append_left _ (h.tree.mem i a ha))
  obtain ⟨A', B', T', rest', kept, hat⟩ :=
    appendHead_spec h.log h.tree.keys hmark he.size_le.2 happ hp
  obtain ⟨rfl, rfl⟩ := hat.unmoved h.log hkeep
  have hslot : ∀ a ∈ L ++ P, st1.nv.slot a = st.nv.slot a := by
    intro a ha
    rcases h.mem ha with ha | ha
    · exact (hat.changed.moves.same (a, a) (List.mem_map.2 ⟨a, ha, rfl⟩)).1
    · obtain ⟨h1, h2, h3⟩ := h.log.behind ha
      exact hat.changed.slot a h1 h2 h3
  have hhead : (tailPages B' T' rest').headD 0 = (tailPages B T rest).headD 0 := by
    rw [← hat.log.tail, ← h.log.tail, hat.changed.logTail]
  refine ⟨B', T', rest', ⟨hat.log, hat.stop.symm, ?_, h.ents, ?_, h.used, ?_⟩, hat.fits, hslot⟩
  · rw [hat.ents]
    exact h.split
  · rw [hhead, hat.changed.logTail]
    apply h.tail.congr
    intro a ha
    apply hslot
    rw [h.ents]
    simp [ha]
  apply h.tree.congr
  · intro a ha
    exact hslot a (mem_append_left _ ha)
  intro i
  rw [hat.changed.moves.tree i]
  cases (st.info ino).tree.get i with
  | none => rfl
  | some a => simp

/-- The entry is stored. -/
theorem store (he : e.WellFormed) (h : Writing st ino p L P A B T rest C)
    (hfit : p + e.size ≤ T.base + LAST_ENTRY) :
    Writing (st.ntStore (.slot p e 0)) ino (p + e.size) L (P ++ [p]) A B
      ⟨T.base, T.ents ++ [p], p + e.size⟩ rest C ∧
      ∀ a ∈ L ++ P, (st.ntStore (.slot p e 0)).nv.slot a = st.nv.slot a := by
  have hs : SlotOnly T.stop st (st.ntStore (.slot p e 0)) := by
    rw [h.cur]
    refine ⟨?_, ?_, rfl, rfl, rfl, rfl, rfl, rfl, rfl⟩
    · intro a ha
      simp [apply, ha]
    · intro a ha
      simp [apply, ha]
  have hslot : ∀ a ∈ L ++ P, (st.ntStore (.slot p e 0)).nv.slot a = st.nv.slot a := fun a ha =>
    hs.slot a (h.ne_stop ha)
  have hpush := h.log.push hs (by simp [apply, h.cur]) he.size_le.1
    (by rw [← h.cur]; exact hfit)
  rw [← h.cur] at hpush
  refine ⟨⟨hpush, rfl, ?_, h.ents, ?_, h.used, ?_⟩, hslot⟩
  · rw [← append_assoc, h.split, append_assoc]
  · apply h.tail.congr
    intro a ha
    apply hslot
    rw [h.ents]
    simp [ha]
  apply h.tree.congr
  · intro a ha
    exact hslot a (mem_append_left _ ha)
  · intro i
    rfl

/-- The committed part is a log of its own. -/
theorem retreat (h : Writing st ino cur L P A B T rest C) :
    ∃ T' rest', LogInv st ino A [] T' rest' ∧ T'.ents = C ∧ T'.stop = st.nv.logTail ino := by
  obtain ⟨b, rest', hb⟩ := exists_cons_of_ne_nil (tailPages_ne_nil B T rest)
  have hpages : tailPages [] ⟨b, C, st.nv.logTail ino⟩ rest' = tailPages B T rest := by
    rw [hb]
    rfl
  have hmem : ∀ q ∈ b :: rest', IsPage q := by
    intro q hq
    rw [← hb] at hq
    exact h.log.isPage (mem_append_right _ hq)
  have htail := h.tail
  rw [hb] at htail
  refine ⟨⟨b, C, st.nv.logTail ino⟩, rest', ⟨⟨?_, ?_, ?_, ?_, ?_⟩, ?_, ?_, ?_, ?_, ?_⟩, rfl, rfl⟩
  · rw [append_nil, ← hb]
    exact h.log.chain
  · rw [append_nil, ← hb]
    exact h.log.nodup
  · rw [append_nil]
    exact fun w hw => h.log.full hw
  · exact ⟨hmem b mem_cons_self, htail⟩
  · exact fun q hq => hmem q (mem_cons_of_mem _ hq)
  all_goals rw [hpages]
  · exact h.log.head
  · exact h.log.tail
  · exact h.log.inUse
  · exact h.log.onDevice
  · exact h.log.count

end Writing

/-- A committed log with the entries of `L`. -/
def Settled (st : State al) (ino : Nat) (L : List Nat) : Prop :=
  (EmptyLog st ino ∧ L = [] ∧ TreeOk st ino []) ∨
  ∃ A T rest, Writing st ino T.stop L [] A [] T rest T.ents ∧
    T.stop = st.nv.logTail ino

/-- Entries behind the tail do not count. -/
theorem Writing.settled {cur : Nat} (h : Writing st ino cur L P A B T rest C) :
    Settled st ino L := by
  obtain ⟨T', rest', hlog, hents, hstop⟩ := h.retreat
  have hseg := hlog.log.last.seg
  rw [hstop] at hseg
  refine .inr ⟨A, T', rest', ⟨hlog, rfl, by simp, ?_, hseg, ?_, h.tree⟩, hstop⟩
  · rw [hents]
    exact h.ents
  · rw [hents]
    exact h.used

/-- The new tail commits them. -/
theorem Writing.commit {cur : Nat} {L P : List Nat} {A B : List Page} {T : Page}
    {rest C : List Nat} (h : Writing st ino cur L P A B T rest C)
    (hne : T.ents ≠ []) : Settled (novaUpdateTail st ino cur) ino (L ++ P) := by
  have htail : (novaUpdateTail st ino cur).nv.logTail ino = T.stop := by simp [apply, h.cur]
  have hlog := h.log.commit (by simp [apply])
    (by simp [apply]) (by simp [apply])
    htail (by simp) (by simp)
  have hseg := hlog.log.last.seg
  rw [← htail] at hseg
  refine .inr ⟨A ++ B, T, rest, ⟨hlog, rfl, by simp, ?_, hseg, fun _ => hne, ?_⟩, htail.symm⟩
  · rw [h.ents, append_assoc, ← h.split, entsOf_append, append_assoc]
  refine ⟨?_, ?_⟩
  · simpa [apply, KeysOk] using h.tree.keys
  intro i a hget
  exact mem_append_left _ (h.tree.mem i a hget)

-- === one attempt

/-- A tail of 0 is the tail of the inode. -/
theorem novaGetAppendHead_zero (st : State al) (ino size : Nat) :
    novaGetAppendHead st ino 0 size = novaGetAppendHead st ino (st.nv.logTail ino) size := by
  by_cases h : st.nv.logTail ino = 0
  · rw [h]
  · simp only [novaGetAppendHead, ne_eq, not_true_eq_false, if_false, h, not_false_eq_true, if_true]

/-- A place for the first entry. -/
theorem Settled.obtain_position {p : Nat} {L : List Nat} {e : LogEntry}
    (he : e.WellFormed) (h : Settled st ino L)
    (hres : novaGetAppendHead st ino 0 e.size = some (p, st')) (hp : p ≠ 0)
    (hkeep : KeepsPages st st' ino) :
    ∃ A B T rest C, Writing st' ino p L [] A B T rest C ∧ p + e.size ≤ T.base + LAST_ENTRY ∧
      ∀ a ∈ L, st'.nv.slot a = st.nv.slot a := by
  rw [novaGetAppendHead_zero] at hres
  rcases h with ⟨hempty, rfl, htree⟩ | ⟨A, T, rest, h, hstop⟩
  · -- the first page of the log
    rw [novaGetAppendHead, bind_eq_bind, bind_eq_some_iff] at hres
    obtain ⟨⟨p1, ext, st1⟩, happ, hres⟩ := hres
    simp only [Option.pure_def, some.injEq, Prod.mk.injEq] at hres
    obtain ⟨rfl, rfl⟩ := hres
    simp only [ne_eq, not_true_eq_false, if_false, hempty.tail] at happ
    have hstart := appendHead_empty he.size_le.2 happ hp
    refine ⟨[], [], ⟨p1, [], p1⟩, [], [],
      ⟨hstart.log, rfl, rfl, rfl, hstart.tail, fun hA => absurd rfl hA, ?_⟩,
      Nat.add_le_add_left he.size_le.2 p1, by simp⟩
    apply htree.congr (by simp)
    intro i
    rw [hstart.info, Function.update_self]
  rw [← hstop] at hres
  obtain ⟨B', T', rest', h', hfit, hslot⟩ := h.obtain_position he hres hp hkeep
  exact ⟨A, B', T', rest', T.ents, h', hfit, by simpa using hslot⟩

/-- Further entries. -/
theorem Placing.writing {tail' : Nat} (hput : Placing ino st tail M st' tail')
    (h : Writing st ino tail L P A B T rest C) (hne : T.ents ≠ []) :
    ∃ B' T' rest', Writing st' ino tail' L (P ++ M.map Prod.fst) A B' T' rest' C ∧
      T'.ents ≠ [] ∧ (∀ a ∈ L ++ P, st'.nv.slot a = st.nv.slot a) ∧ Holding st'.nv M := by
  induction hput generalizing P B T rest with
  | nil st tail =>
    refine ⟨B, T, rest, ?_, hne, fun _ _ => rfl, by simp [Holding]⟩
    simpa using h
  | @cons st st1 st' tail p tail' e M he hget hp hkeep hrest ih =>
    obtain ⟨B1, T1, rest1, h1, hfit, hslot1⟩ := h.obtain_position he hget hp hkeep
    obtain ⟨h2, hslot2⟩ := h1.store he hfit
    obtain ⟨B', T', rest', h', hne', hslot', hM⟩ := ih h2 (by simp)
    have hslot : ∀ a ∈ L ++ P, st'.nv.slot a = st.nv.slot a := by
      intro a ha
      have hmem : a ∈ L ++ (P ++ [p]) := by
        rw [← append_assoc]
        exact mem_append_left _ ha
      rw [hslot' a hmem, hslot2 a ha, hslot1 a ha]
    refine ⟨B', T', rest', ?_, hne', hslot, ?_⟩
    · simpa using h'
    intro x hx
    rcases mem_cons.1 hx with rfl | hx
    · rw [hslot' p (by simp)]
      simp [apply]
    · exact hM x hx

/-- Several entries are placed. -/
theorem Settled.place (h : Settled st ino L) (hput : Placing ino st 0 M st' tail) (hne : M ≠ []) :
    ∃ A B T rest C, Writing st' ino tail L (M.map Prod.fst) A B T rest C ∧
      T.ents ≠ [] ∧ (∀ a ∈ L, st'.nv.slot a = st.nv.slot a) ∧ Holding st'.nv M := by
  cases hput with
  | nil st tail => exact absurd rfl hne
  | @cons _ st1 _ _ p _ e M he hget hp hkeep hrest =>
    obtain ⟨A, B1, T1, rest1, C, h1, hfit, hslot1⟩ := h.obtain_position he hget hp hkeep
    obtain ⟨h2, hslot2⟩ := h1.store he hfit
    obtain ⟨B', T', rest', h', hne', hslot', hM⟩ := hrest.writing h2 (by simp)
    refine ⟨A, B', T', rest', C, by simpa using h', hne', ?_, ?_⟩
    · intro a ha
      rw [hslot' a (mem_append_left _ ha), hslot2 a (mem_append_left _ ha), hslot1 a ha]
    intro x hx
    rcases mem_cons.1 hx with rfl | hx
    · rw [hslot' p (by simp)]
      simp [apply]
    · exact hM x hx

/-- Work on other inodes leaves the log. -/
theorem Settled.elsewhere (h : Settled st ino L) (hst : Elsewhere st st' ino L) :
    Settled st' ino L ∧ ∀ a ∈ L, st'.nv.slot a = st.nv.slot a := by
  rcases h with ⟨hempty, rfl, -⟩ | ⟨A, T, rest, h, hstop⟩
  · exact ⟨.inl ⟨⟨hst.logHead.trans hempty.head, hst.logTail.trans hempty.tail⟩,
      rfl, ⟨hst.keys, hst.tree⟩⟩, by simp⟩
  have hpages := h.log.logChain_eq
  have hpage : ∀ b ∈ basesOf (A ++ []) ++ T.base :: rest, b ∈ logChain st ino := by
    intro b hb
    rw [hpages, ← LogInv.pages_eq]
    exact hb
  have hslot : ∀ a ∈ L, st'.nv.slot a = st.nv.slot a := by
    intro a ha
    apply hst.slot
    apply hpage
    apply h.log.log.blockOff_ent
    rw [h.ents] at ha
    simpa using ha
  have hlog : LogInv st' ino A [] T rest := by
    refine ⟨?_, hst.logHead.trans h.log.head, ?_, ?_, h.log.onDevice, ?_⟩
    · apply h.log.log.congr
      · exact fun b hb => hst.next b (hpage b hb)
      · intro w hw a ha
        apply hst.slot
        rw [ha]
        exact hpage _ (mem_append_left _ (mem_basesOf.2 ⟨w, hw, rfl⟩))
      · intro a ha
        apply hslot
        rw [h.ents]
        exact mem_append_right _ ha
    · rw [hst.logTail]
      exact h.log.tail
    · rw [← hpages]
      exact hst.inUse
    · rw [hst.logPages]
      exact h.log.count
  have hseg := hlog.log.last.seg
  rw [hstop, ← hst.logTail] at hseg
  exact ⟨.inr ⟨A, T, rest, ⟨hlog, rfl, h.split, h.ents, hseg, h.used, ⟨hst.keys, hst.tree⟩⟩,
    hstop.trans hst.logTail.symm⟩, hslot⟩

-- === whole runs

/-- Along every run the log holds its entries. -/
theorem Run.settled {L : List (Nat × LogEntry)} (h : Run ino st L) :
    Settled st ino (L.map Prod.fst) ∧ Holding st.nv L := by
  -- entries keep their slots as long as their offsets do
  have hkeep : ∀ {st st' : State al} {L : List (Nat × LogEntry)},
      Holding st.nv L → (∀ a ∈ L.map Prod.fst, st'.nv.slot a = st.nv.slot a) →
      Holding st'.nv L := by
    intro st st' L hL hslot x hx
    rw [hslot x.1 (List.mem_map.2 ⟨x, hx, rfl⟩)]
    exact hL x hx
  induction h with
  | empty hempty htree =>
    refine ⟨.inl ⟨hempty, rfl, ?_, ?_⟩, by simp [Holding]⟩
    · intro i a hget
      rw [htree] at hget
      cases hget
    intro i a hget
    rw [htree] at hget
    cases hget
  | elsewhere h hst ih =>
    obtain ⟨hset, hslot⟩ := ih.1.elsewhere hst
    exact ⟨hset, hkeep ih.2 hslot⟩
  | @commit st st' L M tail h hput hne ih =>
    obtain ⟨A, B, T, rest, C, hw, hTne, hslot, hM⟩ := ih.1.place hput hne
    refine ⟨?_, ?_⟩
    · rw [map_append]
      exact hw.commit hTne
    intro x hx
    rcases mem_append.1 hx with hx | hx
    · exact hkeep ih.2 hslot x hx
    · exact hM x hx
  | @abandon st st' L M tail h hput ih =>
    by_cases hne : M = []
    · subst hne
      cases hput
      exact ih
    · obtain ⟨A, B, T, rest, C, hw, -, hslot, -⟩ := ih.1.place hput hne
      exact ⟨hw.settled, hkeep ih.2 hslot⟩
  | @giveUp st st1 st' L M tail p e h hput he hget hp hkeepP ih =>
    by_cases hne : M = []
    · subst hne
      cases hput
      obtain ⟨A, B, T, rest, C, hw, -, hslot⟩ := ih.1.obtain_position he hget hp hkeepP
      exact ⟨hw.settled, hkeep ih.2 hslot⟩
    obtain ⟨A, B, T, rest, C, hw, -, hslot, -⟩ := ih.1.place hput hne
    obtain ⟨B', T', rest', hw', -, hslot'⟩ := hw.obtain_position he hget hp hkeepP
    refine ⟨hw'.settled, hkeep ih.2 ?_⟩
    intro a ha
    rw [hslot' a (mem_append_left _ ha), hslot a ha]

/-- An entry has its page. -/
theorem OpenLog.page_of (h : OpenLog nv F T rest) (ha : a ∈ entsOf F ++ T.ents) :
    ∃ w ∈ F ++ [T], w.Holds nv ∧ a ∈ w.ents := by
  rcases mem_append.1 ha with ha | ha
  · obtain ⟨w, hw, haw⟩ := mem_entsOf.1 ha
    exact ⟨w, mem_append_left _ hw, (h.full w hw).toHolds, haw⟩
  · exact ⟨T, by simp, h.last, ha⟩

/-- An entry ends in its page. -/
theorem OpenLog.entry_fits (h : OpenLog nv F T rest) (ha : a ∈ entsOf F ++ T.ents) :
    entryLoc a + (nv.slot a).size ≤ LAST_ENTRY := by
  obtain ⟨w, -, hw, haw⟩ := h.page_of ha
  obtain ⟨h1, h2, h3, -⟩ := hw.seg.mem haw
  rw [entryLoc_eq hw.isPage h1 (by simp only [LAST_ENTRY, PAGE_SIZE] at *; omega)]
  omega

/-- Entries do not overlap. -/
theorem OpenLog.entries_apart (h : OpenLog nv F T rest) {b : Nat} (ha : a ∈ entsOf F ++ T.ents)
    (hb : b ∈ entsOf F ++ T.ents) (hab : a < b) : a + (nv.slot a).size ≤ b := by
  obtain ⟨w, hwF, hw, haw⟩ := h.page_of ha
  obtain ⟨v, hvF, hv, hbv⟩ := h.page_of hb
  have hnd : ((F ++ [T]).map Page.base).Nodup := by
    have hn := h.nodup
    rw [show basesOf F ++ T.base :: rest = basesOf (F ++ [T]) ++ rest by simp] at hn
    exact (nodup_append.1 hn).1
  by_cases hwv : w = v
  · rw [← hwv] at hbv
    exact hw.seg.apart haw hbv hab
  -- entries on different pages
  have hne : w.base ≠ v.base := fun heq =>
    hwv (inj_on_of_nodup_map hnd hwF hvF heq)
  obtain ⟨hw0, hw1, hw2, -⟩ := hw.seg.mem haw
  obtain ⟨hv0, hv1, hv2, -⟩ := hv.seg.mem hbv
  have hwp := hw.isPage.1
  have hvp := hv.isPage.1
  simp only [LAST_ENTRY, PAGE_SIZE] at *
  omega

/-- Writers and readers of a log agree: a reader that walks from
`log_head` to `log_tail` meets exactly the entries that were appended, in
order, and no entry overlaps another one or the tail of its page. -/
theorem append_walk_agree {L : List (Nat × LogEntry)} (h : Run ino st L) :
    walkLog st ino = some (L.map Prod.fst) ∧ (∀ x ∈ L, st.nv.slot x.1 = x.2) ∧
      (∀ x ∈ L, entryLoc x.1 + x.2.size ≤ LAST_ENTRY) ∧
      L.Pairwise fun x y => x.1 + x.2.size ≤ y.1 ∨ y.1 + y.2.size ≤ x.1 := by
  obtain ⟨hset, hslot⟩ := h.settled
  rcases hset with ⟨hempty, hnil, -⟩ | ⟨A, T, rest, hw, hstop⟩
  · rw [map_eq_nil_iff] at hnil
    subst hnil
    refine ⟨?_, hslot, by simp, List.Pairwise.nil⟩
    simp [walkLog, walkLimit, walkLoop, hempty.head, hempty.tail]
  have hlog := hw.log.log
  rw [append_nil] at hlog
  have hmem : ∀ x ∈ L, x.1 ∈ entsOf A ++ T.ents := by
    intro x hx
    rw [← hw.ents]
    exact List.mem_map.2 ⟨x, hx, rfl⟩
  refine ⟨?_, hslot, ?_, ?_⟩
  · have hdev : ∀ p ∈ basesOf A ++ T.base :: rest, p / PAGE_SIZE < al.numBlocks := hw.log.onDevice
    have hhead : st.nv.logHead ino = (basesOf A ++ [T.base]).headD 0 := by
      rw [hw.log.head]
      cases A <;> rfl
    unfold walkLog
    rw [hw.ents, ← hstop, hhead]
    exact walkLoop_eq _ (hlog.walk hw.used) (ents_lt_walkLimit hlog hdev)
  · intro x hx
    rw [← hslot x hx]
    exact hlog.entry_fits (hmem x hx)
  have hnd : (L.map Prod.fst).Nodup := by
    rw [hw.ents]
    exact hlog.nodup_ents
  have hne : L.Pairwise fun x y => x.1 ≠ y.1 := pairwise_map.1 hnd
  apply hne.imp_of_mem
  intro x y hx hy hxy
  rw [← hslot x hx, ← hslot y hy]
  rcases Nat.lt_or_gt_of_ne hxy with hlt | hlt
  · exact .inl (hlog.entries_apart (hmem x hx) (hmem y hy) hlt)
  · exact .inr (hlog.entries_apart (hmem y hy) (hmem x hx) hlt)

/-- An empty log on a device full of old bytes. -/
def staleState : State (BlockAllocator.ascending 64) where
  nv :=
    { slot := fun _ => .linkChange ⟨1, 2, 3, 4⟩
      invalid := fun _ => 7
      next := fun b => b + 8192
      logHead := fun _ => 0
      logTail := fun _ => 0
      record := fun _ => ⟨0, ⟨0, 0, 0, 0, 0, 0⟩, 1, 0, 0⟩ }
  data := fun _ => 0
  alloc := { next := 4, returned := fun _ => false }
  info := fun _ => ⟨Radix.empty, 0, 0, 0, 0, 0, ⟨0, 0, 0, 0, 0, 0⟩⟩
  trace := []

/-- After its first page is taken. -/
def startedState : State (BlockAllocator.ascending 64) :=
  ((novaGetAppendHead staleState 7 0 40).getD (0, staleState)).2

/-- An attempt to append a directory entry is given up, then a write entry
is appended at the same place. -/
theorem append_walk_agree_after_give_up :
    ∃ (st : State (BlockAllocator.ascending 64)) (e : FileWriteEntry),
      Run 7 st [(20480, .fileWrite e)] ∧ walkLog st 7 = some [20480] := by
  let name : Dentry := ⟨[97, 98, 99, 100], 8, novaDirLogRecLen 4, 1, 0, 33, 0⟩
  let e : FileWriteEntry := ⟨0, 1, 9, 0, 4096⟩
  have hget₁ : novaGetAppendHead staleState 7 0 40 = some (20480, startedState) := rfl
  have hget₂ : novaGetAppendHead startedState 7 0 40 = some (20480, startedState) := rfl
  have hkeep₁ : KeepsPages staleState startedState 7 := by
    intro b hb
    exact absurd hb (not_mem_nil)
  have hkeep₂ : KeepsPages startedState startedState 7 := fun b hb => hb
  have hrun₁ : Run 7 startedState [] :=
    Run.giveUp (e := .dirLog name) (Run.empty ⟨rfl, rfl⟩ fun _ => rfl)
      (Placing.nil _ _) ⟨4, by decide, by decide, rfl⟩ hget₁ (by decide) hkeep₁
  have hput : Placing 7 startedState 0 [(20480, .fileWrite e)]
      (startedState.ntStore (.slot 20480 (.fileWrite e) 0)) 20520 :=
    Placing.cons trivial hget₂ (by decide) hkeep₂ (Placing.nil _ _)
  have hrun₂ := Run.commit hrun₁ hput (by simp)
  exact ⟨_, e, hrun₂, (append_walk_agree hrun₂).1⟩

end Themis.Log
