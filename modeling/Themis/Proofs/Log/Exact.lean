/-
The collectors, exactly: which pages and entries a collection keeps, what
it frees, and that `sih->log_pages` is the length of the chain afterwards.

Here the collections return: allocations succeed as often as they are asked
(`Supplies`), and at most one SET_ATTR entry in front of the tail page is
live, so that moving one does not condemn another.

# Why no page of the new log is left over

The pages for the copies are counted from the bytes of the live entries.
A page takes at most `LAST_ENTRY` bytes, so the copies reach the last of
these pages; from then on pages are added one by one, and each is used.
-/
import Themis.Proofs.Log.Agree

namespace Themis.Log

open Lib List Function

variable {al : BlockAllocator}
variable {n ino newHead : Nat} {st st₀ : State al} {F : List Page} {T : Page} {rest : List Nat}
  {nv : Nvmm}
variable {sih : InodeInfo} {e newCurr blocks : Nat} {L done : List Nat} {kept : List (Nat × Nat)}
  {st₁ : State al} {A : List Page}

-- === allocation

/-- The allocator can give `n` single log pages. -/
def Supplies (al : BlockAllocator) : al.State → Nat → Prop
  | _, 0 => True
  | s, n + 1 => ∃ b s', al.newBlocks s .log 1 = (some (b, 1), s') ∧ Supplies al s' n

/-- One page less. -/
theorem Supplies.pred {s : al.State} (h : Supplies al s (n + 1)) : Supplies al s n := by
  induction n generalizing s with
  | zero => trivial
  | succ n ih =>
    obtain ⟨b, s', hnew, hrest⟩ := h
    exact ⟨b, s', hnew, ih hrest⟩

/-- A page is there. -/
theorem Supplies.allocate (h : Supplies al st.alloc (n + 1)) :
    ∃ newBlock st', novaAllocateInodeLogPages st 1 = (some (1, newBlock), st') ∧
      newBlock ≠ 0 ∧ Supplies al st'.alloc n := by
  obtain ⟨b, s', hnew, hrest⟩ := h
  have hb := (al.new_some hnew).2.2.1
  refine ⟨b * PAGE_SIZE, novaCoalesceLogPages { st with alloc := s' } 0 b 1, ?_, ?_, ?_⟩
  · simp [novaAllocateInodeLogPages, novaNewLogBlocks, hnew, allocateRest]
  · have := Nat.mul_pos hb (show 0 < PAGE_SIZE by decide)
    omega
  · simpa [novaCoalesceLogPages, linkRun] using hrest

/-- The ascending allocator, while blocks are left. -/
theorem Supplies.ascending {numBlocks : Nat} {s : Ascending} (h : s.next + n < numBlocks) :
    Supplies (.ascending numBlocks) s n := by
  induction n generalizing s with
  | zero => trivial
  | succ n ih =>
    have hroom : ¬ (1 = 0 ∨ numBlocks < s.next + 1 + 1) := by omega
    refine ⟨s.next + 1, ⟨s.next + 1, fun x => x ≤ s.next && s.returned x⟩, if_neg hroom, ih ?_⟩
    show s.next + 1 + n < numBlocks
    omega

/-- With a page in reserve a place is found. -/
theorem appendOne_total (size : Nat) (h : OpenLog st.nv F T rest)
    (hs : Supplies al st.alloc (n + 1)) :
    ∃ p ext st', appendHeadWith novaAppendOneLogPage st T.stop size
        = some (p, ext, st') ∧ p ≠ 0 ∧ Supplies al st'.alloc n := by
  have hT0 := h.last.stop_ne_zero
  by_cases hfit : T.stop + size ≤ T.base + LAST_ENTRY
  · exact ⟨T.stop, false, st, appendHead_fits h.last hfit, hT0, hs.pred⟩
  rw [not_le] at hfit
  have hmark := novaSetNextPageFlag_frame st T.stop
  cases rest with
  | cons q rest =>
    refine ⟨q, false, _, appendHead_spare h hfit, ?_, ?_⟩
    · have := (h.spare q mem_cons_self).2
      omega
    · rw [hmark.alloc]
      exact hs.pred
  | nil =>
    have hs' : Supplies al (novaSetNextPageFlag st T.stop).alloc (n + 1) := by
      rw [hmark.alloc]
      exact hs
    obtain ⟨newBlock, st2, halloc, hnew, hrest⟩ := hs'.allocate
    have hlast : isLastEntry T.stop size = true := (isLastEntry_stop h.last size).2 hfit
    have hext : novaAppendOneLogPage (novaSetNextPageFlag st T.stop) T.stop
        = some (T.stop, novaSetNextPageAddress st2 T.base newBlock true) := by
      rw [novaAppendOneLogPage, halloc]
      simp only [ne_eq, not_true_eq_false, if_false, if_neg hT0, h.last.blockOff_stop]
    have hmark2 := novaSetNextPageFlag_frame
      (novaSetNextPageAddress st2 T.base newBlock true) T.stop
    refine ⟨newBlock, true, novaSetNextPageFlag
      (novaSetNextPageAddress st2 T.base newBlock true) T.stop, ?_, hnew, ?_⟩
    · have hnext : nextLogPage (novaSetNextPageFlag
          (novaSetNextPageAddress st2 T.base newBlock true) T.stop).nv T.stop = newBlock := by
        rw [nextLogPage, hmark2.next, h.last.blockOff_stop]
        simp [Nvmm.apply]
      rw [appendHead_extend h hfit, hext]
      simp only [Option.bind_some, if_neg hT0, hlast, if_true, hnext]
    · rw [hmark2.alloc]
      exact hrest

-- === verdicts

/-- At most one attribute entry is live. -/
def OneSetattr (nv : Nvmm) (sih : InodeInfo) (L : List Nat) : Prop :=
  ∀ a ∈ L, ∀ b ∈ L, (nv.slot a).isSetAttr = true → (nv.slot b).isSetAttr = true →
    entryDead nv sih a = false → entryDead nv sih b = false → a = b

/-- The entries are as live as they were. -/
def SameVerdicts (st₀ st : State al) (ino : Nat) (L : List Nat) : Prop :=
  ∀ a ∈ L, entryDead st.nv (st.info ino) a = entryDead st₀.nv (st₀.info ino) a

/-- What decides that an entry is dead. -/
theorem entryDead_cases {nv' : Nvmm} {sih' : InodeInfo} {a : Nat} (hslot : nv'.slot a = nv.slot a)
    (hinv : nv'.invalid a = nv.invalid a)
    (hset : (nv.slot a).isSetAttr = true → entryDead nv' sih' a = entryDead nv sih a)
    (hlink : (∃ e, nv.slot a = .linkChange e) → entryDead nv' sih' a = entryDead nv sih a) :
    entryDead nv' sih' a = entryDead nv sih a := by
  cases hs : nv.slot a with
  | setAttr e => exact hset (by simp [hs, LogEntry.isSetAttr])
  | linkChange e => exact hlink ⟨e, hs⟩
  | nextPage => simp [entryDead, currLogEntryInvalid, hslot, hs]
  | unknown t => simp [entryDead, currLogEntryInvalid, hslot, hs]
  | _ => simp [entryDead, currLogEntryInvalid, hslot, hinv, hs]

/-- A copy changes no verdict on the rest. -/
theorem SameVerdicts.copied {st₀ st : State al} {ino a p : Nat} {nv : Nvmm} {L : List Nat}
    (h : SameVerdicts st₀ st ino (a :: L)) (hone : OneSetattr st₀.nv (st₀.info ino) (a :: L))
    (hlive : entryDead st.nv (st.info ino) a = false) (ha : a ∉ L)
    (hslot0 : ∀ x ∈ a :: L, st.nv.slot x = st₀.nv.slot x) (hnva : nv.slot a = st₀.nv.slot a)
    (hslot : ∀ x ∈ L, nv.slot x = st₀.nv.slot x)
    (hinv : ∀ x ∈ L, nv.invalid x = st₀.nv.invalid x) (hp : ∀ x ∈ L, p ≠ x) :
    ∀ x ∈ L, entryDead nv (novaGcAssignNewEntry nv (st.info ino) a p) x
      = entryDead st₀.nv (st₀.info ino) x := by
  intro x hx
  have hxa : x ≠ a := fun heq => ha (heq ▸ hx)
  have hlive0 : entryDead st₀.nv (st₀.info ino) a = false := by
    rw [← h a mem_cons_self]
    exact hlive
  have hold := h x (mem_cons_of_mem _ hx)
  apply entryDead_cases (hslot x hx) (hinv x hx)
  · intro hset
    obtain ⟨e, hs⟩ := LogEntry.exists_of_isSetAttr hset
    by_cases hseta : (st₀.nv.slot a).isSetAttr = true
    · -- another one is live, so this one is not
      have hdead : entryDead st₀.nv (st₀.info ino) x = true := by
        by_contra hne
        exact hxa (hone x (mem_cons_of_mem _ hx) a mem_cons_self hset hseta
          (by simpa using hne) hlive0)
      rw [hdead]
      simp only [entryDead, currLogEntryInvalid, hs, Bool.not_eq_true',
        Bool.or_eq_false_iff, decide_eq_false_iff_not] at hdead
      simp [entryDead, currLogEntryInvalid, hslot x hx, hs,
        novaGcAssignNewEntry_lastSetattr, hnva, hseta, hp x hx, hdead.2]
    rw [← hold]
    simp [entryDead, currLogEntryInvalid, hslot x hx, hs,
      novaGcAssignNewEntry_lastSetattr, hnva, hseta, hslot0 x (mem_cons_of_mem _ hx)]
  rintro ⟨e, hs⟩
  rw [← hold]
  have hs' := hslot0 x (mem_cons_of_mem _ hx)
  have ha' := hslot0 a mem_cons_self
  cases hsa : st₀.nv.slot a with
  | linkChange e' =>
    -- the last link change was the copied one
    simp only [entryDead, currLogEntryInvalid, ha', hsa, Bool.not_eq_false',
      decide_eq_true_eq] at hlive
    simp [entryDead, currLogEntryInvalid, hslot x hx, hs, hs', novaGcAssignNewEntry,
      hnva, hsa, hp x hx, hlive, Ne.symm hxa]
  | _ => simp [entryDead, currLogEntryInvalid, hslot x hx, hs, hs', novaGcAssignNewEntry, hnva, hsa]

-- === the copies

/-- The live ones of the entries. -/
def liveOf (nv : Nvmm) (sih : InodeInfo) (L : List Nat) : List Nat :=
  L.filter fun a => !entryDead nv sih a

/-- What is known of the pages of the new log besides `CopyAt`: they are
all counted, and spare ones are left only of those allocated first. -/
structure PagesCounted (blocks₀ blocks : Nat) (F : List Page) (T : Page) (rest : List Nat) :
    Prop where
  total : blocks = (basesOf F ++ T.base :: rest).length
  spare : rest = [] ∨ blocks = blocks₀

/-- The copy loop copies exactly the live entries. -/
theorem copyLoop_exact {blocks0 : Nat} (hkeys : KeysOk st₀.nv (st₀.info ino).tree) :
    ∀ (L : List Nat) {st : State al} {v : CopyVars} {done : List Nat}
      {kept : List (Nat × Nat)} {F : List Page} {T : Page} {rest : List Nat} {rounds : Nat},
      CopyAt st₀ ino newHead st v.newCurr v.blocks done kept F T rest →
      ToCopy st₀ ino v.curr done L e → OneSetattr st₀.nv (st₀.info ino) L →
      SameVerdicts st₀ st ino L → PagesCounted blocks0 v.blocks F T rest →
      Supplies al st.alloc (liveOf st₀.nv (st₀.info ino) L).length → L.length < rounds →
      ∃ st' v' kept' F' T' rest', copyLoop ino rounds st v = some (st', v') ∧
        CopyAt st₀ ino newHead st' v'.newCurr v'.blocks (done ++ L) kept' F' T' rest' ∧
        v'.oldCurr = e ∧ kept'.map Prod.fst = kept.map Prod.fst ++ liveOf st₀.nv (st₀.info ino) L ∧
        PagesCounted blocks0 v'.blocks F' T' rest' := by
  intro L
  induction L with
  | nil =>
    intro st v done kept F T rest rounds h hto _ _ hcount _ hr
    obtain ⟨n, rfl⟩ := Nat.exists_eq_add_of_lt hr
    refine ⟨_, _, kept, F, T, rest, h.loop_end hto _, ?_, hto.walk.symm, ?_, hcount⟩
    · rw [append_nil]
      exact h
    · simp [liveOf]
  | cons a L ih =>
    intro st v done kept F T rest rounds h hto hone hsame hcount hs hr
    obtain ⟨n, rfl⟩ := Nat.exists_eq_add_of_lt hr
    have hin := hto.inUse
    have hause := hin a mem_cons_self
    have hfit := hto.fits a mem_cons_self
    have hround := h.loop_entry hto
    obtain ⟨hnext, hadone, hsize⟩ := hto.next
    have haL : a ∉ L := (nodup_cons.1 (nodup_append.1 hto.nodup).2.1).1
    have htl : ∀ {x}, x ∈ L → x ∈ a :: L := fun hx => mem_cons_of_mem _ hx
    have hone' : OneSetattr st₀.nv (st₀.info ino) L :=
      fun x hx y hy => hone x (htl hx) y (htl hy)
    have happend : done ++ a :: L = done ++ [a] ++ L := by simp
    have hlt : L.length < (a :: L).length + n := by
      rw [length_cons]
      omega
    rw [happend, hround]
    cases hdead : entryDead st.nv (st.info ino) a with
    | true =>
      have hdead0 := hsame a mem_cons_self
      rw [hdead] at hdead0
      have hlive : liveOf st₀.nv (st₀.info ino) (a :: L) = liveOf st₀.nv (st₀.info ino) L := by
        simp [liveOf, ← hdead0]
      rw [hlive] at hs ⊢
      exact ih (v := ⟨a + (st₀.nv.slot a).size, v.curr, v.newCurr, v.blocks⟩)
        (h.skip hause hdead) hnext hone' (fun x hx => hsame x (htl hx)) hcount hs hlt
    | false =>
      have hlive0 := hsame a mem_cons_self
      rw [hdead] at hlive0
      have hlive : liveOf st₀.nv (st₀.info ino) (a :: L) = a :: liveOf st₀.nv (st₀.info ino) L := by
        simp [liveOf, ← hlive0]
      rw [hlive] at hs
      obtain ⟨p, ext, st₁, happ, hp, hs'⟩ := appendOne_total (st₀.nv.slot a).size h.log hs
      have hown : ∀ b ∈ basesOf F ++ T.base :: rest, st.InUse (b / PAGE_SIZE) :=
        fun b hb => (h.inUse _).2 (.inr ⟨b, hb, rfl⟩)
      obtain ⟨_, _, _, _, hone1, -⟩ := appendOne_spare h.log hown hfit happ hp
      rw [← h.cursor] at happ
      obtain ⟨F', T', rest', hcopy, hlength, hext, hnil⟩ := h.copy_spare hause hadone
        hkeys hsize hfit hdead happ hp
      have hsame' : ∀ x ∈ L, entryDead
          (st₁.ntStore (.slot p (st₁.nv.slot a) (st₁.nv.invalid a))).nv
          (novaGcAssignNewEntry (st₁.ntStore (.slot p (st₁.nv.slot a) (st₁.nv.invalid a))).nv
            (st.info ino) a p) x = entryDead st₀.nv (st₀.info ino) x := by
        apply hsame.copied hone hdead haL (fun x hx => h.slot (hin x hx))
        · exact hcopy.slot hause
        · exact fun x hx => hcopy.slot (hin x (htl hx))
        · exact fun x hx => hcopy.invalid (hin x (htl hx))
        intro x hx heq
        apply hcopy.notMem_snd (hin x (htl hx))
        rw [← heq]
        simp
      rw [← hone1.info] at hsame'
      have hcount' : PagesCounted blocks0 (if ext then v.blocks + 1 else v.blocks) F' T' rest' := by
        have htotal := hcount.total
        cases ext with
        | true =>
          refine ⟨?_, .inl (hext rfl)⟩
          rw [hlength, ← htotal]
          rfl
        | false =>
          refine ⟨?_, ?_⟩
          · rw [hlength, ← htotal]
            rfl
          rcases hcount.spare with hr' | hb
          · exact .inl (hnil hr')
          · exact .inr hb
      obtain ⟨st', v', kept', F'', T'', rest'', hrun, hcopy', hold, hkept, hcount''⟩ :=
        ih (v := ⟨a + (st₀.nv.slot a).size, v.curr, p + (st₀.nv.slot a).size,
          if ext then v.blocks + 1 else v.blocks⟩) hcopy hnext hone' (by
            intro x hx
            simpa [State.setInfo] using hsame' x hx) hcount' hs' hlt
      refine ⟨st', v', kept', F'', T'', rest'', ?_, hcopy', hold, ?_, hcount''⟩
      · rw [happ, Option.bind_some, if_neg hp]
        exact hrun
      · rw [hkept, hlive]
        simp

-- === bytes

/-- The bytes of some entries. -/
def bytesOf (nv : Nvmm) (L : List Nat) : Nat := (L.map fun a => (nv.slot a).size).sum

/-- Bytes add up. -/
theorem bytesOf_append (nv : Nvmm) (L M : List Nat) :
    bytesOf nv (L ++ M) = bytesOf nv L + bytesOf nv M := by simp [bytesOf]

/-- The bytes of a segment. -/
theorem Seg.bytes {b c : Nat} (h : Seg nv b c L e) : c + bytesOf nv L = e := by
  induction L generalizing c with
  | nil =>
    have hec : e = c := h
    simp [bytesOf, hec]
  | cons a L ih =>
    obtain ⟨rfl, -, -, hrest⟩ := h
    have := ih hrest
    simp only [bytesOf, map_cons, sum_cons] at this ⊢
    omega

/-- The bytes of a page. -/
theorem Page.Holds.bytes_le {w : Page} (h : w.Holds nv) : bytesOf nv w.ents ≤ LAST_ENTRY := by
  have h1 := h.seg.bytes
  have h2 := h.stop_le
  omega

/-- The bytes of full pages. -/
theorem bytesOf_pages (h : ∀ w ∈ F, w.Holds nv) :
    bytesOf nv (entsOf F) ≤ F.length * LAST_ENTRY := by
  induction F with
  | nil => simp [bytesOf]
  | cons w F ih =>
    have h1 := (h w mem_cons_self).bytes_le
    have h2 := ih fun x hx => h x (mem_cons_of_mem _ hx)
    rw [entsOf_cons, bytesOf_append, length_cons, Nat.succ_mul]
    omega

/-- The live bytes are those of the live entries. -/
theorem liveBytes_eq (nv : Nvmm) (sih : InodeInfo) (L : List Nat) :
    liveBytes nv sih L = bytesOf nv (liveOf nv sih L) := by
  induction L with
  | nil => rfl
  | cons a L ih =>
    simp only [liveBytes, bytesOf, liveOf, map_cons, sum_cons] at ih ⊢
    cases hd : entryDead nv sih a with
    | true => simp [hd, ih]
    | false => simp [hd, ih]

/-- Pages for so many bytes. -/
theorem blocksFor_le {bytes : Nat} (h : bytes ≤ n * LAST_ENTRY) : blocksFor bytes ≤ n := by
  unfold blocksFor
  by_cases hm : bytes % LAST_ENTRY = 0
  · rw [if_neg (not_not.2 hm)]
    simp only [LAST_ENTRY] at *
    omega
  rw [if_pos hm]
  simp only [LAST_ENTRY] at *
  omega

/-- Copies have the bytes of their originals. -/
theorem CopyAt.bytes (h : CopyAt st₀ ino newHead st newCurr blocks done kept F T rest) :
    bytesOf st.nv (entsOf F ++ T.ents) = bytesOf st₀.nv (kept.map Prod.fst) := by
  rw [h.ents]
  unfold bytesOf
  rw [List.map_map, List.map_map]
  congr 1
  apply map_congr_left
  intro q hq
  simp only [comp_apply, (h.moves.same q hq).1]

/-- No page is left over. -/
theorem CopyAt.no_spare (h : CopyAt st₀ ino newHead st newCurr blocks done kept F T rest)
    (hkept : kept.map Prod.fst = liveOf st₀.nv sih L)
    (hcount : PagesCounted (blocksFor (liveBytes st₀.nv sih L)) blocks F T rest) : rest = [] := by
  rcases hcount.spare with hr | hb
  · exact hr
  have h1 := bytesOf_pages fun w hw => (h.log.full w hw).toHolds
  have h2 := h.log.last.bytes_le
  have h3 := h.bytes
  rw [bytesOf_append, hkept, ← liveBytes_eq] at h3
  have h4 : blocksFor (liveBytes st₀.nv sih L) ≤ F.length + 1 := by
    apply blocksFor_le
    rw [Nat.succ_mul]
    omega
  have h5 := hcount.total
  simp only [basesOf, length_append, length_map, length_cons] at h5
  exact length_eq_zero_iff.1 (by omega)

-- === the thorough collector

/-- The thorough collector, when pages can be allocated: exactly the live
entries in front of the tail page stand on new pages, in order, exactly
the old pages in front of it go back, and the pages are counted. -/
theorem novaInodeLogThoroughGc_exact {checked : Nat} {B : List Page} (h : LogInv st ino A B T rest)
    (hkeys : KeysOk st.nv (st.info ino).tree) (hone : OneSetattr st.nv (st.info ino) (entsOf A))
    (hlive : liveOf st.nv (st.info ino) (entsOf A) ≠ []) (hchecked : checked = A.length)
    (halloc : novaAllocateInodeLogPages st
        (blocksFor (liveBytes st.nv (st.info ino) (entsOf A)))
      = (some (blocksFor (liveBytes st.nv (st.info ino) (entsOf A)), newHead), st₁))
    (hs : Supplies al st₁.alloc (liveOf st.nv (st.info ino) (entsOf A)).length) :
    ∃ st' A' kept, novaInodeLogThoroughGc st ino
        (blocksFor (liveBytes st.nv (st.info ino) (entsOf A))) checked = some st' ∧
      LogInv st' ino A' B T rest ∧ Collected st st' ino A A' [] kept ∧
      kept.map Prod.fst = liveOf st.nv (st.info ino) (entsOf A) ∧
      (∀ x, st'.InUse x ↔ (st.InUse x ∧ x * PAGE_SIZE ∉ basesOf A) ∨ x * PAGE_SIZE ∈ basesOf A') ∧
      (∀ b ∈ basesOf A', ¬ st.InUse (b / PAGE_SIZE)) ∧
      (st'.info ino).logPages = (st.info ino).logPages + A'.length - A.length := by
  have hA : A ≠ [] := by
    intro hnil
    rw [hnil] at hlive
    exact hlive rfl
  obtain ⟨A1, w, rfl⟩ : ∃ A1 w, A = A1 ++ [w] := ⟨_, _, (dropLast_append_getLast hA).symm⟩
  have hhead0 := h.head_pos
  obtain ⟨hheadMem, hto⟩ := h.front
  have hheadTail : ¬ st.nv.logHead ino / PAGE_SIZE = st.nv.logTail ino / PAGE_SIZE := by
    obtain ⟨x, hx, hbase⟩ := mem_basesOf.1 hheadMem
    intro heq
    apply h.base_ne_tail hx
    rw [← h.tail]
    have hp := (h.isPage (mem_append_left _ hheadMem)).1
    simp only [blockOff, PAGE_SIZE] at *
    omega
  have hrounds : (entsOf (A1 ++ [w])).length < walkLimit al := by
    have hlt := ents_lt_walkLimit h.log (by
      rw [LogInv.pages_eq]
      exact h.onDevice)
    rw [entsOf_append, length_append, length_append] at hlt
    omega
  obtain ⟨N, hN, hlen⟩ := novaAllocateInodeLogPages_some halloc
  have hinit : CopyAt st ino newHead st₁ newHead _ [] [] [] ⟨newHead, [], newHead⟩ N :=
    CopyAt.init hN hlen
  have hsame : SameVerdicts st st₁ ino (entsOf (A1 ++ [w])) := by
    intro a ha
    have ha' := (h.entry ha).1
    rw [(hinit.none rfl).1]
    exact entryDead_congr (hinit.slot ha') (hinit.invalid ha')
  obtain ⟨st2, v, kept, F, T', rest', hrun, hat, hold, hkept, hcount⟩ := copyLoop_exact hkeys
    (entsOf (A1 ++ [w])) (v := ⟨st.nv.logHead ino, st.nv.logHead ino, newHead,
      blocksFor (liveBytes st.nv (st.info ino) (entsOf (A1 ++ [w])))⟩) hinit hto hone hsame
    ⟨hlen.symm, .inr rfl⟩ hs hrounds
  have hrest := hat.no_spare hkept hcount
  have hkept0 : kept ≠ [] := by
    intro hnil
    rw [hnil] at hkept
    exact hlive hkept.symm
  obtain ⟨st', hswitch, hlog, hcol, huse, hpages⟩ := switchLog_exact h hA hat hkept0 (by
    intro A2 x hx
    rw [hold, last_eq hx]) hchecked
  refine ⟨st', F ++ [T'], kept, ?_, hlog, hcol, hkept, huse, ?_, ?_⟩
  · unfold novaInodeLogThoroughGc
    rw [if_neg (by omega), if_neg hheadTail, halloc]
    simp only [ne_eq, not_true_eq_false, if_false, Option.bind_eq_bind]
    rw [hrun]
    exact hswitch
  · intro b hb
    apply hat.fresh
    simpa [hrest] using hb
  have htotal := hcount.total
  rw [hrest] at htotal
  rw [hpages, hchecked, htotal]
  simp [basesOf]

-- === the fast collector

/-- The pages that hold something live. -/
def livePages (nv : Nvmm) (sih : InodeInfo) (A : List Page) : List Page :=
  A.filter fun w => !pageDead nv sih w

/-- Dead pages hold no live entry. -/
theorem liveOf_livePages (nv : Nvmm) (sih : InodeInfo) (A : List Page) :
    liveOf nv sih (entsOf (livePages nv sih A)) = liveOf nv sih (entsOf A) := by
  have happ : ∀ L M : List Nat, liveOf nv sih (L ++ M) = liveOf nv sih L ++ liveOf nv sih M :=
    fun L M => filter_append L M
  induction A with
  | nil => rfl
  | cons w A ih =>
    cases hd : pageDead nv sih w with
    | true =>
      have hnone : liveOf nv sih w.ents = [] := by
        rw [pageDead, List.all_eq_true] at hd
        rw [liveOf, filter_eq_nil_iff]
        intro a ha
        simp [hd a ha]
      have hdrop : livePages nv sih (w :: A) = livePages nv sih A := by simp [livePages, hd]
      rw [hdrop, ih, entsOf_cons, happ, hnone, nil_append]
    | false =>
      have hkeep : livePages nv sih (w :: A) = w :: livePages nv sih A := by simp [livePages, hd]
      rw [hkeep, entsOf_cons, entsOf_cons, happ, happ, ih]

/-- What the fast collector leaves, up to the thorough collection: the
chain without the dead pages in front of the tail page, with the new
pages behind it, exactly the dead pages given back, no entry touched, and
the pages counted. -/
structure FastExact (st st' : State al) (ino : Nat) (A : List Page) (V N : List Nat) :
    Prop where
  chain : logChain st' ino
    = basesOf (livePages st.nv (st.info ino) A) ++ V ++ N
  inUse : ∀ x, st'.InUse x ↔ st.InUse x ∧ (x * PAGE_SIZE ∈ basesOf A →
    x * PAGE_SIZE ∈ basesOf (livePages st.nv (st.info ino) A))
  slot : st'.nv.slot = st.nv.slot
  invalid : st'.nv.invalid = st.nv.invalid
  count : (st'.info ino).logPages = (logChain st' ino).length

/-- What the thorough collector leaves: in front of the tail page, pages
that were not in use, filled with exactly the live entries in the same
order, exactly the old pages given back, no other entry touched, and the
pages counted. -/
structure ThoroughExact (st st' : State al) (ino : Nat) (A A' : List Page) (V : List Nat) :
    Prop where
  chain : logChain st' ino = basesOf A' ++ V
  full : ∀ w ∈ A', w.Sealed st'.nv
  slots : (entsOf A').map st'.nv.slot
    = (liveOf st.nv (st.info ino) (entsOf A)).map st.nv.slot
  invalids : (entsOf A').map st'.nv.invalid
    = (liveOf st.nv (st.info ino) (entsOf A)).map st.nv.invalid
  fresh : ∀ b ∈ basesOf A', ¬ st.InUse (b / PAGE_SIZE)
  inUse : ∀ x, st'.InUse x ↔ (st.InUse x ∧ x * PAGE_SIZE ∉ basesOf A) ∨
    x * PAGE_SIZE ∈ basesOf A'
  slot : ∀ a, blockOff a ∈ V → st'.nv.slot a = st.nv.slot a
  invalid : ∀ a, blockOff a ∈ V → st'.nv.invalid a = st.nv.invalid a
  count : (st'.info ino).logPages = (logChain st' ino).length

/-- A fast collection frees only what it drops. -/
theorem FastAt.finish_inUse {K : List Page} {V hd : List Nat} {v : FastVars}
    {currTail newBlock numPages : Nat} (h : FastAt st ino A V st₁ v hd K [])
    (hnodup : (basesOf A).Nodup) (hpage : ∀ p ∈ basesOf A, IsPage p)
    (huse : ∀ p ∈ basesOf A, st.InUse (p / PAGE_SIZE)) (x : Nat) :
    (fastFinish st₁ ino currTail newBlock numPages v).InUse x ↔
      st.InUse x ∧ (x * PAGE_SIZE ∈ basesOf A → x * PAGE_SIZE ∈ basesOf K) := by
  have hpages := h.pages
  rw [basesOf_nil, append_nil] at hpages
  have hmem := h.inUse
  simp only [basesOf_nil, append_nil] at hmem
  have hfirst := h.first
  rcases Nat.le_one_iff_eq_zero_or_eq_one.1 h.single with h0 | h1
  · -- the first page was live
    have hnil := length_eq_zero_iff.1 h0
    subst hnil
    have hff : v.firstNeedFree = false := by simpa using hfirst
    rw [fastFinish_inUse _ _ _ _ _ _ (by simp [hff]), hmem]
    simp [hff]
  obtain ⟨d, rfl⟩ := length_eq_one_iff.1 h1
  have hff : v.firstNeedFree = true := by simpa using hfirst
  have hdA : d ∈ basesOf A := hpages.subset (by simp)
  have hdK : d ∉ basesOf K := (nodup_cons.1 (hpages.nodup hnodup)).1
  have hhead : st₁.nv.logHead ino = d := by
    rw [h.links.logHead, h.head]
    rfl
  have hd1 : st₁.InUse (d / PAGE_SIZE) := by
    rw [hmem, div_mul_page (hpage d hdA)]
    exact ⟨huse d hdA, fun _ => by simp⟩
  rw [fastFinish_inUse _ _ _ _ _ _ (fun _ => by rw [hhead]; exact ⟨hpage d hdA, hd1⟩), hmem, hhead]
  simp only [hff, true_and, singleton_append, mem_cons]
  constructor
  · rintro ⟨⟨hx, himp⟩, hne⟩
    exact ⟨hx, fun hA => (himp hA).resolve_left hne⟩
  rintro ⟨hx, himp⟩
  refine ⟨⟨hx, fun hA => .inr (himp hA)⟩, ?_⟩
  intro heq
  rw [heq] at himp
  exact hdK (himp hdA)

/-- A collection of the log is exact. For a log with `A` in front of the
tail page, `T` its last page and `newBlock :: N` the pages to add: the
fast collector leaves `FastExact`, in the state behind its loop. It goes
on if the live entries of `A` would fit on less than half of the pages
that are left of `A`, and then the thorough one leaves `ThoroughExact`, as
long as its allocations succeed. -/
theorem log_gc_exact {st : State al} {ino : Nat} {A B : List Page} {T : Page} {N : List Nat}
    {newBlock : Nat} (h : LogInv st ino A B T [])
    (hcount : (st.info ino).logPages = (logChain st ino).length)
    (hkeys : KeysOk st.nv (st.info ino).tree) (hone : OneSetattr st.nv (st.info ino) (entsOf A))
    (hN : Ready st (basesOf A ++ tailPages B T []) (newBlock :: N)) :
    ∃ st₀ v, fastLoop ino (pageLimit al) st ⟨st.nv.logHead ino, 0, 0, false, false, 0, 0, 0⟩
        = some (st₀, v) ∧
      let st₁ := fastFinish st₀ ino T.stop newBlock (newBlock :: N).length v
      let blocks := blocksFor (liveBytes st.nv (st.info ino) (entsOf A))
      let checked := (livePages st.nv (st.info ino) A).length
      novaInodeLogFastGc st ino T.stop newBlock (newBlock :: N).length
        = (if needThoroughGc blocks checked then
            novaInodeLogThoroughGc st₁ ino blocks checked else some st₁) ∧
      FastExact st st₁ ino A (tailPages B T []) (newBlock :: N) ∧
      ∀ newHead st₂, novaAllocateInodeLogPages st₁ blocks = (some (blocks, newHead), st₂) →
        Supplies al st₂.alloc (liveOf st.nv (st.info ino) (entsOf A)).length →
        ∃ st' A', novaInodeLogThoroughGc st₁ ino blocks checked = some st' ∧
          ThoroughExact st₁ st' ino (livePages st.nv (st.info ino) A) A'
            (tailPages B T [] ++ newBlock :: N) := by
  obtain ⟨st₁, v, hd, K, hloop, hat, hposs⟩ := h.fastLoop
  obtain ⟨hlog, -⟩ := fastFinish_spec h hN hat hposs
  have hK : K = livePages st.nv (st.info ino) A := by simpa [livePages] using hat.kept
  set st₂ := fastFinish st₁ ino T.stop newBlock (newBlock :: N).length v with hst₂
  have hslot : st₂.nv.slot = st.nv.slot := by rw [hst₂, fastFinish_nv, hat.links.slot]
  have hinvalid : st₂.nv.invalid = st.nv.invalid := by rw [hst₂, fastFinish_nv, hat.links.invalid]
  have hinfo : st₂.info ino = { st.info ino with
      logPages := (st.info ino).logPages + (newBlock :: N).length - v.freedPages } := by
    rw [hst₂, fastFinish_info, update_self, hat.links.info]
  have hV : tailPages B T (newBlock :: N) = tailPages B T [] ++ newBlock :: N := by simp [tailPages]
  have hchain : logChain st₂ ino = basesOf K ++ (tailPages B T [] ++ newBlock :: N) := by
    rw [hlog.logChain_eq, hV]
  have hfreed : v.freedPages + K.length = A.length := by simpa using hat.freed
  have hchecked : v.checkedPages - v.freedPages = K.length := by
    have h2 := hat.checked
    simp only [length_nil] at h2
    omega
  have hpages₂ : (st₂.info ino).logPages = (logChain st₂ ino).length := by
    rw [hinfo, hchain]
    rw [h.logChain_eq] at hcount
    simp only [length_append, basesOf, length_map] at hcount ⊢
    omega
  -- the verdicts are the same before and after the fast collection
  have hverdict : entryDead st₂.nv (st₂.info ino) = entryDead st.nv (st.info ino) := by
    funext a
    rw [hinfo]
    simp only [entryDead, currLogEntryInvalid, hslot, hinvalid]
  have hliveOf : liveOf st₂.nv (st₂.info ino) (entsOf K)
      = liveOf st.nv (st.info ino) (entsOf A) := by
    rw [hK, ← liveOf_livePages st.nv (st.info ino) A, liveOf, hverdict]
    rfl
  have hvalid : v.validBytes = liveBytes st.nv (st.info ino) (entsOf A) := by
    simpa [liveBytes] using hat.bytes
  have hbytes : liveBytes st₂.nv (st₂.info ino) (entsOf K)
      = liveBytes st.nv (st.info ino) (entsOf A) := by
    rw [liveBytes_eq, hliveOf, bytesOf, hslot]
    exact (liveBytes_eq st.nv (st.info ino) (entsOf A)).symm
  refine ⟨st₁, v, hloop, ?_, ⟨?_, ?_, hslot, hinvalid, hpages₂⟩, ?_⟩
  · rw [← hvalid, ← hK, ← hchecked]
    unfold novaInodeLogFastGc
    rw [hloop]
    rfl
  · rw [hchain, hK, append_assoc]
  · have hnA := (nodup_append.1 h.nodup).1
    rw [← hK]
    exact hat.finish_inUse hnA (fun p hp => h.isPage (mem_append_left _ hp))
      fun p hp => h.inUse p (mem_append_left _ hp)
  intro newHead st₃ halloc hs
  rw [← hK]
  rw [← hbytes] at halloc ⊢
  rw [← hliveOf] at hs
  have hlive : liveOf st₂.nv (st₂.info ino) (entsOf K) ≠ [] := by
    intro hnil
    obtain ⟨M, -, hlen⟩ := novaAllocateInodeLogPages_some halloc
    rw [liveBytes_eq, hnil] at hlen
    simp [bytesOf, blocksFor] at hlen
  obtain ⟨st', A', kept, hrun, hlog', hcol, hkept, huse, hfresh, hlp⟩ :=
    novaInodeLogThoroughGc_exact hlog (by
      intro i b hb
      rw [hinfo] at hb
      rw [hslot]
      exact hkeys i b hb) (by
      intro a ha b hb h1 h2 h3 h4
      rw [hslot] at h1 h2
      rw [hverdict] at h3 h4
      have hsub : ∀ {y}, y ∈ entsOf K → y ∈ entsOf A := by
        intro y hy
        obtain ⟨w, hw, hyw⟩ := mem_entsOf.1 hy
        rw [hK] at hw
        exact mem_entsOf.2 ⟨w, mem_of_mem_filter hw, hyw⟩
      exact hone a (hsub ha) b (hsub hb) h1 h2 h3 h4) hlive rfl halloc hs
  have hchain' : logChain st' ino = basesOf A' ++ (tailPages B T [] ++ newBlock :: N) := by
    rw [hlog'.logChain_eq, hV]
  -- entries of later pages are on pages in use that were not collected
  have hlater : ∀ a, blockOff a ∈ tailPages B T [] ++ newBlock :: N →
      st₂.InUse (a / PAGE_SIZE) ∧ blockOff a ∉ basesOf K := by
    intro a ha
    rw [← hV] at ha
    refine ⟨?_, ?_⟩
    · have hu := hlog.inUse _ (mem_append_right _ ha)
      rw [blockOff_div] at hu
      exact hu
    · intro hmem
      exact (nodup_append.1 hlog.nodup).2.2 _ hmem _ ha rfl
  refine ⟨st', A', hrun, hchain', fun w hw => hlog'.full hw, ?_, ?_, hfresh, huse,
    fun a ha => hcol.slot a (hlater a ha).1 (hlater a ha).2,
    fun a ha => hcol.invalid a (hlater a ha).1 (hlater a ha).2, ?_⟩
  · rw [hcol.ents, ← hkept, List.map_map, List.map_map]
    exact map_congr_left fun q hq => (hcol.moves.same q hq).1
  · rw [hcol.ents, ← hkept, List.map_map, List.map_map]
    exact map_congr_left fun q hq => (hcol.moves.same q hq).2
  rw [hlp, hpages₂, hchain, hchain']
  simp only [length_append, basesOf, length_map]
  omega

-- === a small log

/-- A log of five pages. The first holds a link change that does not count,
the next three a write each, the last a link change; a sixth page is about
to be added. -/
def fivePages : State (BlockAllocator.ascending 64) where
  nv :=
    { slot := fun a =>
        if a = 8192 ∨ a = 24576 then .linkChange ⟨1, 0, 0, 0⟩
        else if a = 12288 ∨ a = 16384 ∨ a = 20480 then .fileWrite ⟨a / PAGE_SIZE, 1, 9, 0, 4096⟩
        else if a = 8224 ∨ a = 12328 ∨ a = 16424 ∨ a = 20520 then .nextPage else .unknown 0
      invalid := fun _ => 0
      next := fun p => if 8192 ≤ p ∧ p < 24576 then p + 4096 else 0
      logHead := fun _ => 8192
      logTail := fun _ => 24608
      record := fun _ => ⟨0, ⟨0o100644, 0, 0, 0, 0, 0⟩, 1, 0, 0⟩ }
  data := fun _ => 0
  alloc := { next := 7, returned := fun _ => false }
  info := fun _ => ⟨Radix.empty, 5, 0, 24576, 0, 0, ⟨0o100644, 0, 0, 0, 0, 0⟩⟩
  trace := []

/-- The pages in front of the last. -/
def frontPages : List Page :=
  [⟨8192, [8192], 8224⟩, ⟨12288, [12288], 12328⟩, ⟨16384, [16384], 16424⟩, ⟨20480, [20480], 20520⟩]

/-- With the last page they are a log. -/
theorem fivePages_inv : LogInv fivePages 17 frontPages [] ⟨24576, [24576], 24608⟩ [] := by
  have hpages : ∀ p ∈ basesOf frontPages ++ tailPages [] ⟨24576, [24576], 24608⟩ [],
      p / PAGE_SIZE ≤ 7 := by decide
  refine ⟨⟨⟨rfl, rfl, rfl, rfl, rfl, trivial⟩, by decide, ?_, ?_, by simp⟩, rfl, rfl, ?_, ?_,
    by decide⟩
  · intro w hw
    simp only [frontPages, append_nil, mem_cons, not_mem_nil, or_false] at hw
    rcases hw with rfl | rfl | rfl | rfl <;>
      exact ⟨⟨⟨rfl, by decide⟩, rfl, by decide, by decide, rfl⟩, by simp, .inr rfl⟩
  · exact ⟨⟨rfl, by decide⟩, rfl, by decide, by decide, rfl⟩
  · exact fun p hp => ⟨hpages p hp, rfl⟩
  · intro p hp
    have := hpages p hp
    show p / PAGE_SIZE < 64
    omega

/-- The first page goes, and the three writes move to one page. -/
theorem log_gc_exact_five_pages :
    ∃ st₁ st' A', FastExact fivePages st₁ 17 frontPages [24576] [28672] ∧
      novaInodeLogFastGc fivePages 17 24608 28672 1 = some st' ∧
      ThoroughExact st₁ st' 17 (livePages fivePages.nv (fivePages.info 17) frontPages) A'
        [24576, 28672] ∧
      logChain st' 17 = [32768, 24576, 28672] := by
  have hready : Ready fivePages
      (basesOf frontPages ++ tailPages [] ⟨24576, [24576], 24608⟩ []) [28672] := by
    refine ⟨⟨rfl, trivial⟩, by simp, ?_, ?_, ?_, by decide⟩ <;> intro p hp <;>
      rw [mem_singleton.1 hp]
    · exact ⟨rfl, by decide⟩
    · exact ⟨by decide, rfl⟩
    · show 28672 / PAGE_SIZE < 64
      decide
  have hone : OneSetattr fivePages.nv (fivePages.info 17) (entsOf frontPages) := by
    have hno : ∀ a ∈ entsOf frontPages, (fivePages.nv.slot a).isSetAttr = false := by decide
    intro a ha b _ hset
    rw [hno a ha] at hset
    cases hset
  obtain ⟨st₀, v, hloop, hrun, hfast, hthorough⟩ := log_gc_exact fivePages_inv (by decide)
    (by intro i a hi; cases hi) hone hready
  -- of the state behind the loop only the allocator matters
  have hnext : (fastLoop 17 (pageLimit (.ascending 64)) fivePages
      ⟨fivePages.nv.logHead 17, 0, 0, false, false, 0, 0, 0⟩).map
      (fun r => (show Ascending from (fastFinish r.1 17 24608 28672 1 r.2).alloc).next)
      = some 7 := by decide +kernel
  rw [hloop, Option.map_some, Option.some.injEq] at hnext
  have hchain : (novaInodeLogFastGc fivePages 17 24608 28672 1).map (fun st => logChain st 17)
      = some [32768, 24576, 28672] := by decide +kernel
  have hblocks : blocksFor (liveBytes fivePages.nv (fivePages.info 17) (entsOf frontPages)) = 1 := by
    decide
  have hchecked : (livePages fivePages.nv (fivePages.info 17) frontPages).length = 3 := by decide
  have hsupply : Supplies (.ascending 64) (fastFinish st₀ 17 24608 28672 1 v).alloc 4 :=
    Supplies.ascending (by rw [hnext]; decide)
  obtain ⟨newHead, st₂, halloc, -, hs⟩ := hsupply.allocate
  rw [hblocks, hchecked] at hrun hthorough
  obtain ⟨st', A', hst', hexact⟩ := hthorough newHead st₂ halloc hs
  have hst : novaInodeLogFastGc fivePages 17 24608 28672 1 = some st' := hrun.trans hst'
  rw [hst, Option.map_some, Option.some.injEq] at hchain
  exact ⟨_, st', A', hfast, hst, hexact, hchain⟩

end Themis.Log
