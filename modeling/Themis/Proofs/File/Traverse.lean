/-
The scan of a file at recovery against the rebuild of its tree.

A pass over the log keeps in step with a replay (`InStep`): in the window
at `base` the ring array holds the block of each page that the replay has
mapped so far, and nothing else. The replay ends with the tree that a
rebuild gives, so a pass marks the blocks of its window
(`traversePass_spec`), and the passes together mark the whole file
(`traverseWindows_spec`).

# Why the ring array is left clean

Nothing is mapped behind the size, so clearing the array up to the last
block of the file clears all of it.
-/
import Themis.Proofs.File.Run
import Themis.Traverse

namespace Themis.Traverse

open Lib Log File List Function

variable {al : BlockAllocator} {st : State al} {nv : Nvmm} {ino base a x : Nat}
  {L pages : List Nat} {ring : Nat → Nat} {bm : Nat → Bool} {v : Vars}
  {w : (Nat → Option Nat) × Nat}

/-- The window is not empty. -/
theorem MAX_PGOFF_pos : 0 < MAX_PGOFF := by decide

-- === loops

/-- A range of places is set. -/
theorem foldl_update_range' (g : Nat → Nat) (base : Nat) : ∀ (n start : Nat)
    (ring : Nat → Nat), base ≤ start → ∀ k, (List.range' start n).foldl
        (fun ring pgoff => Function.update ring (pgoff - base) (g pgoff)) ring k
      = if start ≤ base + k ∧ base + k < start + n then g (base + k) else ring k := by
  intro n
  induction n with
  | zero =>
    intro start ring _ k
    rw [if_neg (by omega)]
    rfl
  | succ n ih =>
    intro start ring hbase k
    rw [range'_succ, foldl_cons, ih (start + 1) _ (by omega) k]
    by_cases hk : k = start - base
    · -- the page of this round; later rounds do not come back to it
      have hstart : base + k = start := by omega
      rw [if_neg (by omega), if_pos (by omega), hk, update_self, ← hk, hstart]
    rw [update_of_ne hk]
    by_cases hin : start + 1 ≤ base + k ∧ base + k < start + 1 + n
    · rw [if_pos hin, if_pos (by omega)]
    · rw [if_neg hin, if_neg (by omega)]

/-- The window after an entry. -/
theorem novaSetRingArray_apply (ring : Nat → Nat) (e : FileWriteEntry) (base k : Nat) :
    novaSetRingArray ring e base k
      = if k < MAX_PGOFF ∧ e.pgoff ≤ base + k ∧ base + k < e.pgoff + e.numPages then
          e.block + (base + k) - e.pgoff else ring k := by
  unfold novaSetRingArray
  rw [foldl_update_range' (fun pgoff => e.block + pgoff - e.pgoff) base _ _ _ (by split <;> omega)]
  congr 1
  apply propext
  split <;> split <;> omega

/-- The window after a cut. -/
theorem ringCut_apply (ring : Nat → Nat) (base first last k : Nat) : ringCut ring base first last k
      = if k < MAX_PGOFF ∧ first ≤ base + k ∧ base + k ≤ last then 0 else ring k := by
  have hpos := MAX_PGOFF_pos
  unfold ringCut
  rw [foldl_update_range' (fun _ => 0) base _ _ _ (by split <;> omega)]
  congr 1
  apply propext
  split <;> split <;> omega

/-- The bits after one is set. -/
theorem setBm_eq_true {bit : Nat} : setBm bm bit x = true ↔ bm x = true ∨ x = bit := by
  unfold setBm
  by_cases hx : x = bit
  · rw [hx]
    simp
  · simp [hx]

/-- Marking clears the window and sets its bits. -/
theorem foldl_markPage (ring : Nat → Nat) (bm : Nat → Bool) : ∀ n : Nat,
    (∀ k, ((List.range n).foldl markPage (ring, bm)).1 k = if k < n then 0 else ring k) ∧
    ∀ x, ((List.range n).foldl markPage (ring, bm)).2 x = true ↔
      bm x = true ∨ ∃ k < n, ring k = x ∧ x ≠ 0 := by
  intro n
  induction n with
  | zero => simp
  | succ n ih =>
    obtain ⟨hring, hbm⟩ := ih
    rw [range_succ, foldl_append, foldl_cons, foldl_nil]
    generalize (List.range n).foldl markPage (ring, bm) = v at hring hbm
    have hn : v.1 n = ring n := by rw [hring, if_neg (lt_irrefl n)]
    unfold markPage
    simp only [hn]
    by_cases h0 : ring n = 0
    · rw [if_neg (by simpa using h0)]
      refine ⟨?_, ?_⟩
      · intro k
        rw [hring]
        by_cases hk : k = n
        · rw [if_neg (by omega), if_pos (by omega), hk, h0]
        by_cases hlt : k < n
        · rw [if_pos hlt, if_pos (by omega)]
        · rw [if_neg hlt, if_neg (by omega)]
      intro x
      rw [hbm]
      refine or_congr_right ⟨?_, ?_⟩
      · rintro ⟨k, hk, hx⟩
        exact ⟨k, by omega, hx⟩
      rintro ⟨k, hk, rfl, hx⟩
      have hkn : k ≠ n := by
        rintro rfl
        exact hx h0
      exact ⟨k, by omega, rfl, hx⟩
    rw [if_pos h0]
    refine ⟨?_, ?_⟩
    · intro k
      show Function.update v.1 n 0 k = _
      by_cases hk : k = n
      · rw [hk, update_self, if_pos (by omega)]
      rw [update_of_ne hk, hring]
      by_cases hlt : k < n
      · rw [if_pos hlt, if_pos (by omega)]
      · rw [if_neg hlt, if_neg (by omega)]
    intro x
    rw [setBm_eq_true, hbm, or_assoc]
    refine or_congr_right ⟨?_, ?_⟩
    · rintro (⟨k, hk, hx⟩ | rfl)
      · exact ⟨k, by omega, hx⟩
      · exact ⟨n, by omega, rfl, h0⟩
    rintro ⟨k, hk, hx⟩
    by_cases hkn : k = n
    · right
      rw [← hx.1, hkn]
    · left
      exact ⟨k, by omega, hx⟩

-- === in step with the replay

/-- The block page `i` has in a tree, 0 for none. -/
def blockIn (nv : Nvmm) (tree : Nat → Option Nat) (i : Nat) : Nat :=
  ((tree i).map fun a => getNvmm nv a i).getD 0

/-- A pass at the window `base` and a replay of the same entries. -/
structure InStep (nv : Nvmm) (base : Nat) (v : Vars)
    (w : (Nat → Option Nat) × Nat) : Prop where
  ring : ∀ k, v.ring k = if k < MAX_PGOFF then blockIn nv w.1 (base + k) else 0
  size : v.iSize = w.2

/-- An entry keeps window and replay in step. -/
theorem InStep.entry (h : InStep nv base v w) (hok : EntryOk (nv.slot a)) :
    InStep nv base (traverseEntry nv base a v).1 (replayStep nv.slot (deadWrite nv) w a) ∧
    (traverseEntry nv base a v).2 = (nv.slot a).size ∧ (traverseEntry nv base a v).1.bm = v.bm := by
  cases hs : nv.slot a with
  | fileWrite e =>
    have he : entryAt nv a = e := by simp [entryAt, hs]
    have hdead : deadWrite nv a = decide (e.numPages = nv.invalid a) := by simp [deadWrite, hs]
    simp only [traverseEntry, hs, he]
    refine ⟨⟨?_, ?_⟩, rfl, trivial⟩
    · intro k
      simp only [replayStep, hs, hdead, decide_eq_true_eq]
      by_cases hd : e.numPages = nv.invalid a
      · rw [if_neg (fun hc => hc.1 hd), if_pos hd]
        exact h.ring k
      rw [if_neg hd]
      -- the array is written where the entry reaches into the window
      have hset : (if e.numPages ≠ nv.invalid a ∧ e.pgoff < base + MAX_PGOFF ∧
            e.pgoff + e.numPages > base then novaSetRingArray v.ring e base else v.ring) k
          = if k < MAX_PGOFF ∧ e.pgoff ≤ base + k ∧
              base + k < e.pgoff + e.numPages then e.block + (base + k) - e.pgoff
            else v.ring k := by
        split
        · exact novaSetRingArray_apply v.ring e base k
        rename_i hno
        rw [if_neg]
        rintro ⟨h1, h2, h3⟩
        exact hno ⟨hd, by omega, by omega⟩
      rw [hset, h.ring k]
      by_cases hk : k < MAX_PGOFF
      · by_cases hin : e.pgoff ≤ base + k ∧ base + k < e.pgoff + e.numPages
        · rw [if_pos ⟨hk, hin⟩, if_pos hk]
          simp [blockIn, if_pos hin, getNvmm, he]
        · rw [if_neg (fun hc => hin hc.2), if_pos hk, if_pos hk]
          simp only [blockIn, if_neg hin]
      · rw [if_neg (fun hc => hk hc.1), if_neg hk, if_neg hk]
    · simp only [replayStep, hs]
  | setAttr e =>
    rw [hs] at hok
    have hreg : isReg e.mode = true := hok
    simp only [traverseEntry, hs, novaRingSetattrEntry]
    refine ⟨⟨?_, ?_⟩, rfl, trivial⟩
    · intro k
      simp only [replayStep, hs, hreg, and_true, h.size]
      by_cases hcut : w.2 > e.size
      · have hpos : w.2 > 0 := by omega
        rw [if_pos hcut, if_pos hcut, if_pos hpos]
        have hring : (if pagesFor e.size > (w.2 - 1) / PAGE_SIZE then v.ring
            else ringCut v.ring base (pagesFor e.size) ((w.2 - 1) / PAGE_SIZE)) k
            = if k < MAX_PGOFF ∧ pagesFor e.size ≤ base + k ∧
                base + k ≤ (w.2 - 1) / PAGE_SIZE then 0 else v.ring k := by
          split
          · rw [if_neg (by omega)]
          · exact ringCut_apply v.ring base _ _ k
        rw [hring, h.ring k]
        by_cases hk : k < MAX_PGOFF
        · by_cases hin : pagesFor e.size ≤ base + k ∧ base + k ≤ (w.2 - 1) / PAGE_SIZE
          · rw [if_pos ⟨hk, hin⟩]
            simp [blockIn, if_pos hin]
          · rw [if_neg (fun hc => hin hc.2), if_pos hk, if_pos hk]
            simp only [blockIn, if_neg hin]
        · rw [if_neg (fun hc => hk hc.1), if_neg hk, if_neg hk]
      · rw [if_neg hcut, if_neg hcut]
        exact h.ring k
    · simp only [replayStep, hs]
  | linkChange e =>
    simp only [traverseEntry, hs]
    refine ⟨?_, rfl, trivial⟩
    simp only [replayStep, hs]
    exact h
  | _ => rw [hs] at hok; exact hok.elim

/-- The loop over the entries of a log whose pages are among `B`. The
pages of the entries are marked in the first pass. -/
theorem traverseLoop_walk {t e : Nat} {B : List Nat} (hB : ∀ p ∈ B, IsPage p)
    (hnext : ∀ p ∈ B, nv.next p ≠ 0 → nv.next p ∈ B) : ∀ (L : List Nat)
    {c rounds : Nat} {v : Vars} {w : (Nat → Option Nat) × Nat},
    InStep nv base v w → WalkTo nv t c L e → e = t → L.length < rounds →
    (∀ a ∈ L, EntryOk (nv.slot a)) → blockOff c ∈ B → (base = 0 → v.bm (c / PAGE_SIZE) = true) →
    ∃ v', traverseLoop nv t base rounds c v = some v' ∧
      InStep nv base v' (L.foldl (replayStep nv.slot (deadWrite nv)) w) ∧ ∀ x, v'.bm x = true ↔
        v.bm x = true ∨ (base = 0 ∧ ∃ a ∈ L, x = a / PAGE_SIZE) := by
  intro L
  induction L with
  | nil =>
    intro c rounds v w h hwalk he hr _ _ _
    have hec : e = c := hwalk
    obtain ⟨n, rfl⟩ := Nat.exists_eq_add_of_lt hr
    refine ⟨v, ?_, h, by simp⟩
    rw [traverseLoop, if_pos (by rw [← hec, he])]
  | cons a L ih =>
    intro c rounds v w h hwalk he hr hok hc hmark
    obtain ⟨hct, hc0, ha, ha0, hsize, hpage, hrest⟩ := hwalk
    obtain ⟨n, rfl⟩ := Nat.exists_eq_add_of_lt hr
    have hcurr : (if gotoNextPage nv c = true then nextLogPage nv c else c) = a := by rw [ha, land]
    -- the entry is on a page of the log, a new one after a jump
    have hland : blockOff a ∈ B ∧ (gotoNextPage nv c = true → IsPage a) := by
      by_cases hgo : gotoNextPage nv c = true
      · rw [if_pos hgo] at hcurr
        have hin : a ∈ B := by
          rw [← hcurr] at ha0 ⊢
          exact hnext _ hc ha0
        have hp := hB a hin
        rw [blockOff_eq hp (le_refl a) (Nat.lt_add_of_pos_right (Nat.succ_pos _))]
        exact ⟨hin, fun _ => hp⟩
      rw [if_neg hgo] at hcurr
      rw [← hcurr]
      exact ⟨hc, fun hgo' => absurd hgo' hgo⟩
    rw [traverseLoop, if_neg hct, if_neg hc0]
    simp only [hcurr]
    rw [if_neg (by
      rintro ⟨hm, hmod⟩
      simp only [Bool.and_eq_true] at hm
      exact hmod (hland.2 hm.1).1), if_neg ha0]
    generalize hv1 : (if (gotoNextPage nv c && base == 0) = true then
      { v with bm := setBm v.bm (a / PAGE_SIZE) } else v) = v1
    have h1 : InStep nv base v1 w := by
      rw [← hv1]
      split
      · exact ⟨h.ring, h.size⟩
      · exact h
    have hbm1 : ∀ x, v1.bm x = true ↔ v.bm x = true ∨ (base = 0 ∧ x = a / PAGE_SIZE) := by
      intro x
      rw [← hv1]
      by_cases hb : base = 0
      · by_cases hgo : gotoNextPage nv c = true
        · rw [if_pos (by simp [hgo, hb]), setBm_eq_true]
          simp [hb]
        · -- the page was marked before
          rw [if_neg (by simp [hgo])]
          rw [if_neg hgo] at hcurr
          constructor
          · exact Or.inl
          rintro (hx | ⟨-, hx⟩)
          · exact hx
          · rw [hx, ← hcurr]
            exact hmark hb
      · simp [hb]
    obtain ⟨h2, hlen, hbm2⟩ := h1.entry (hok a mem_cons_self)
    rw [hlen]
    have hlt : L.length < (a :: L).length + n := by
      rw [length_cons]
      omega
    have hdiv : (a + (nv.slot a).size) / PAGE_SIZE = a / PAGE_SIZE :=
      Nat.eq_of_mul_eq_mul_right (Nat.succ_pos _) hpage
    obtain ⟨v', hrun, h', hbm'⟩ := ih h2 hrest he hlt
      (fun b hb => hok b (mem_cons_of_mem _ hb)) (by rw [hpage]; exact hland.1)
      (by
        intro hb
        rw [hbm2, hdiv, hbm1]
        exact .inr ⟨hb, rfl⟩)
    refine ⟨v', hrun, h', ?_⟩
    intro x
    rw [hbm', hbm2, hbm1, or_assoc, ← and_or_left]
    simp only [mem_cons, exists_eq_or_imp]

/-- The pages behind the tail are marked. -/
theorem markRest_chain : ∀ (rest : List Nat) {p rounds : Nat} (bm : Nat → Bool),
    Linked nv.next (p :: rest) 0 → (∀ q ∈ rest, IsPage q) → rest.length < rounds →
    ∃ bm', markRest nv rounds p bm = some bm' ∧
      ∀ x, bm' x = true ↔ bm x = true ∨ ∃ q ∈ rest, x = q / PAGE_SIZE := by
  intro rest
  induction rest with
  | nil =>
    intro p rounds bm hchain _ hr
    obtain ⟨k, rfl⟩ := Nat.exists_eq_add_of_lt hr
    have hnext : nv.next p = 0 := hchain.1
    refine ⟨bm, ?_, by simp⟩
    rw [markRest, if_pos hnext]
  | cons q rest ih =>
    intro p rounds bm hchain hpages hr
    obtain ⟨k, rfl⟩ := Nat.exists_eq_add_of_lt hr
    have hnext : nv.next p = q := hchain.1
    have hq := hpages q mem_cons_self
    have hlt : rest.length < (q :: rest).length + k := by
      rw [length_cons]
      omega
    obtain ⟨bm', hrun, hbm'⟩ := ih (setBm bm (q / PAGE_SIZE)) hchain.2
      (fun r hr => hpages r (mem_cons_of_mem _ hr)) hlt
    refine ⟨bm', ?_, ?_⟩
    · rw [markRest]
      simp only [hnext]
      rw [if_neg (Nat.pos_iff_ne_zero.1 hq.2), if_neg (by simpa using hq.1)]
      exact hrun
    intro x
    rw [hbm', setBm_eq_true, or_assoc]
    simp only [mem_cons, exists_eq_or_imp]

-- === one pass

section Pass

variable {F : List Page} {T : Page} {rest : List Nat}

/-- Links stay among the pages of the log. -/
theorem next_mem (hr : Readable st.nv al.numBlocks ino F T rest) {p : Nat}
    (hp : p ∈ basesOf F ++ T.base :: rest) (h0 : st.nv.next p ≠ 0) :
    st.nv.next p ∈ basesOf F ++ T.base :: rest := by
  obtain ⟨l, m, hsplit⟩ := append_of_mem hp
  have hchain := hr.log.chain
  rw [hsplit] at hchain ⊢
  have hnext := hchain.next_eq
  cases m with
  | nil => exact absurd hnext h0
  | cons q m =>
    rw [hnext]
    simp

/-- The head is a page of the log. -/
theorem head_mem (hr : Readable st.nv al.numBlocks ino F T rest) :
    st.nv.logHead ino ∈ basesOf F ++ T.base :: rest := by
  rw [hr.head]
  cases F <;> simp

/-- A block and its page. -/
theorem eq_div_iff {p : Nat} (hp : IsPage p) : x = p / PAGE_SIZE ↔ x * PAGE_SIZE = p := by
  have hmod := hp.1
  simp only [PAGE_SIZE] at *
  omega

/-- The scan comes to exactly the pages of the log. -/
theorem scanned_pages (hr : Readable st.nv al.numBlocks ino F T rest) :
    x * PAGE_SIZE ∈ basesOf F ++ T.base :: rest ↔ x = st.nv.logHead ino / PAGE_SIZE ∨
        (∃ a ∈ entsOf F ++ T.ents, x = a / PAGE_SIZE) ∨ ∃ q ∈ rest, x = q / PAGE_SIZE := by
  have hnum : ∀ {a : Nat}, x = a / PAGE_SIZE ↔ x * PAGE_SIZE = blockOff a := by
    intro a
    exact (Nat.mul_left_inj (Nat.succ_ne_zero _)).symm
  have hfirst : ∀ {u : Page}, u.Holds st.nv → u.ents ≠ [] → u.base = x * PAGE_SIZE →
      ∃ a ∈ u.ents, x = a / PAGE_SIZE := by
    intro u hu hne hbase
    obtain ⟨a, l, hl⟩ := exists_cons_of_ne_nil hne
    have ha : a ∈ u.ents := by rw [hl]; exact mem_cons_self
    exact ⟨a, ha, hnum.2 (by rw [hu.blockOff_ent ha, hbase])⟩
  constructor
  · intro hx
    rcases mem_append.1 hx with hx | hx
    · obtain ⟨u, hu, hbase⟩ := List.mem_map.1 hx
      have hs := hr.log.full u hu
      obtain ⟨a, ha, hxa⟩ := hfirst hs.toHolds hs.nonempty hbase
      exact .inr (.inl ⟨a, mem_append_left _ (mem_entsOf.2 ⟨u, hu, ha⟩), hxa⟩)
    rcases mem_cons.1 hx with hx | hx
    · by_cases hF : F = []
      · left
        rw [eq_div_iff (hr.log.isPage (head_mem hr)), hx, hr.head, hF]
        rfl
      · obtain ⟨a, ha, hxa⟩ := hfirst hr.log.last (hr.used hF) hx.symm
        exact .inr (.inl ⟨a, mem_append_right _ ha, hxa⟩)
    · exact .inr (.inr ⟨_, hx, (eq_div_iff (hr.log.spare _ hx)).2 rfl⟩)
  rintro (hx | ⟨a, ha, hx⟩ | ⟨q, hq, hx⟩)
  · rw [(eq_div_iff (hr.log.isPage (head_mem hr))).1 hx]
    exact head_mem hr
  · rw [hnum.1 hx]
    rcases mem_append.1 ha with ha | ha
    · obtain ⟨u, hu, hau⟩ := mem_entsOf.1 ha
      rw [(hr.log.full u hu).toHolds.blockOff_ent hau]
      exact mem_append_left _ (List.mem_map_of_mem hu)
    · rw [hr.log.last.blockOff_ent ha]
      simp
  · rw [(eq_div_iff (hr.log.spare q hq)).1 hx]
    simp [hq]

/-- A pass from a clean array: it returns, in step with the replay of the
whole log, and the first one has marked the pages of the log. -/
theorem traversePass_spec (base : Nat) (bm : Nat → Bool)
    (hr : Readable st.nv al.numBlocks ino F T rest)
    (hok : ∀ a ∈ entsOf F ++ T.ents, EntryOk (st.nv.slot a)) (hring : ∀ k, ring k = 0) :
    ∃ v, traversePass st ino base ring bm = some v ∧ InStep st.nv base v
        (replay st.nv.slot (deadWrite st.nv) 0 (entsOf F ++ T.ents)) ∧ ∀ x, v.bm x = true ↔
        bm x = true ∨ (base = 0 ∧ x * PAGE_SIZE ∈ basesOf F ++ T.base :: rest) := by
  have hwalk := hr.log.walk hr.used
  rw [← hr.tail, ← hr.head] at hwalk
  have hlimit := ents_lt_walkLimit hr.log hr.onDevice
  have hhead := hr.log.isPage (head_mem hr)
  have hstart : blockOff (st.nv.logHead ino) ∈ basesOf F ++ T.base :: rest := by
    rw [blockOff_eq hhead le_rfl (Nat.lt_add_of_pos_right (Nat.succ_pos _))]
    exact head_mem hr
  have h0 : ∀ bm, InStep st.nv base ⟨ring, bm, 0⟩ (fun _ => none, 0) := by
    intro bm
    refine ⟨?_, rfl⟩
    intro k
    show ring k = _
    rw [hring]
    simp [blockIn]
  have hloop := fun bm' hmark => traverseLoop_walk (fun p hp => hr.log.isPage hp)
    (fun p hp => next_mem hr hp) _ (h0 bm') hwalk rfl hlimit hok hstart hmark
  unfold traversePass
  by_cases hb : base = 0
  · simp only [if_pos hb]
    rw [if_neg (by simpa using hhead.1)]
    obtain ⟨v, hrun, hin, hbm⟩ := hloop (setBm bm (st.nv.logHead ino / PAGE_SIZE))
      (fun _ => setBm_eq_true.2 (.inr rfl))
    obtain ⟨bm', hrest, hbm'⟩ := markRest_chain rest v.bm
      (Linked.append_iff.1 hr.log.chain).2 hr.log.spare hr.rest_lt
    refine ⟨{ v with bm := bm' }, ?_, ⟨hin.ring, hin.size⟩, ?_⟩
    · rw [hrun, hr.tail_block]
      simp only [Option.bind_eq_bind, Option.bind_some, hrest]
      rfl
    intro x
    show bm' x = true ↔ _
    rw [hbm', hbm, setBm_eq_true, scanned_pages hr]
    simp only [hb, true_and, or_assoc]
  simp only [if_neg hb]
  obtain ⟨v, hrun, hin, hbm⟩ := hloop bm (fun h => absurd h hb)
  refine ⟨v, hrun, hin, ?_⟩
  intro x
  rw [hbm]
  simp [hb]

-- === the windows

/-- The marks of one window, place by place. -/
theorem novaSetFileBm_eq (ring : Nat → Nat) (bm : Nat → Bool) (base last : Nat) :
    novaSetFileBm ring bm base last
      = (List.range ((if last ≥ base + MAX_PGOFF then MAX_PGOFF - 1 else last - base) + 1)
        ).foldl markPage (ring, bm) := rfl

/-- The blocks of a window are marked. -/
theorem InStep.marked (h : InStep nv base v w) (hsize : w.2 ≠ 0)
    (hinside : ∀ i, w.1 i ≠ none → i < pagesFor w.2)
    (hpos : ∀ i a, w.1 i = some a → getNvmm nv a i ≠ 0) :
    (∀ k, (novaSetFileBm v.ring v.bm base ((w.2 - 1) / PAGE_SIZE)).1 k = 0) ∧
    ∀ x, (novaSetFileBm v.ring v.bm base ((w.2 - 1) / PAGE_SIZE)).2 x = true ↔
      v.bm x = true ∨ ∃ i a, base ≤ i ∧ i < base + MAX_PGOFF ∧ w.1 i = some a ∧
        getNvmm nv a i = x := by
  rw [pagesFor_eq (Nat.pos_of_ne_zero hsize)] at hinside
  generalize (w.2 - 1) / PAGE_SIZE = last at hinside ⊢
  rw [novaSetFileBm_eq]
  generalize hn : (if last ≥ base + MAX_PGOFF then MAX_PGOFF - 1 else last - base) + 1 = n
  -- pages of the window behind the loop are behind the size
  have hbehind : ∀ k, n ≤ k → k < MAX_PGOFF → last < base + k := by
    intro k hk hlt
    rw [← hn] at hk
    split at hk <;> omega
  have hfront : ∀ i, base ≤ i → i < base + MAX_PGOFF → i ≤ last → i - base < n := by
    intro i h1 h2 h3
    rw [← hn]
    split <;> omega
  obtain ⟨hring, hbm⟩ := foldl_markPage v.ring v.bm n
  refine ⟨?_, ?_⟩
  · intro k
    rw [hring]
    split
    · rfl
    rw [h.ring]
    split
    · rename_i hlt
      have hnone : w.1 (base + k) = none := by
        by_contra hne
        have := hinside _ hne
        have := hbehind k (by omega) hlt
        omega
      simp [blockIn, hnone]
    · rfl
  intro x
  rw [hbm]
  refine or_congr_right ⟨?_, ?_⟩
  · rintro ⟨k, -, hk, hx⟩
    rw [h.ring] at hk
    split at hk
    · cases hi : w.1 (base + k) with
      | none =>
        rw [blockIn, hi] at hk
        exact absurd hk.symm hx
      | some a =>
        rw [blockIn, hi] at hk
        exact ⟨base + k, a, by omega, by omega, hi, hk⟩
    · exact absurd hk.symm hx
  rintro ⟨i, a, h1, h2, hi, hx⟩
  have hlast := hinside i (by rw [hi]; simp)
  refine ⟨i - base, hfront i h1 h2 (by omega), ?_, ?_⟩
  · rw [h.ring, if_pos (by omega), Nat.add_sub_cancel' h1, blockIn, hi]
    exact hx
  · rw [← hx]
    exact hpos i a hi

/-- All windows together. -/
theorem traverseWindows_spec (hr : Readable st.nv al.numBlocks ino F T rest)
    (hok : ∀ a ∈ entsOf F ++ T.ents, EntryOk (st.nv.slot a))
    (hw : replay st.nv.slot (deadWrite st.nv) 0 (entsOf F ++ T.ents) = w)
    (hinside : ∀ i, w.1 i ≠ none → i < pagesFor w.2)
    (hpos : ∀ i a, w.1 i = some a → getNvmm st.nv a i ≠ 0) :
    ∀ (rounds base : Nat) {ring : Nat → Nat} (bm : Nat → Bool), (∀ k, ring k = 0) →
    0 < rounds → pagesFor w.2 ≤ base + rounds * MAX_PGOFF →
    ∃ ring' bm', traverseWindows st ino rounds base ring bm = some (ring', bm') ∧
      (∀ k, ring' k = 0) ∧ ∀ x, bm' x = true ↔ bm x = true ∨
        (base = 0 ∧ x * PAGE_SIZE ∈ basesOf F ++ T.base :: rest) ∨
        ∃ i a, base ≤ i ∧ w.1 i = some a ∧ getNvmm st.nv a i = x := by
  have hnz : ¬ (st.nv.logHead ino = 0 ∧ st.nv.logTail ino = 0) := by
    rintro ⟨h0, -⟩
    have := (hr.log.isPage (head_mem hr)).2
    omega
  intro rounds
  induction rounds with
  | zero => exact fun _ _ _ _ h => absurd h (lt_irrefl 0)
  | succ rounds ih =>
    intro base ring bm hring _ hfuel
    obtain ⟨v, hrun, hin, hbm⟩ := traversePass_spec base bm hr hok hring
    rw [hw] at hin
    rw [traverseWindows, if_neg hnz, hrun]
    simp only [hin.size]
    by_cases hsize : w.2 = 0
    · -- an empty file has no pages
      have hnone : ∀ i, w.1 i = none := by
        intro i
        by_contra hne
        have := hinside i hne
        rw [hsize] at this
        exact absurd this (Nat.not_lt_zero i)
      rw [if_pos hsize]
      refine ⟨v.ring, v.bm, rfl, ?_, ?_⟩
      · intro k
        rw [hin.ring]
        simp [blockIn, hnone]
      intro x
      rw [hbm]
      simp [hnone]
    rw [if_neg hsize]
    obtain ⟨hclean, hmarked⟩ := hin.marked hsize hinside hpos
    have hlast := pagesFor_eq (Nat.pos_of_ne_zero hsize)
    rw [Nat.succ_mul] at hfuel
    by_cases hmore : (w.2 - 1) / PAGE_SIZE ≥ base + MAX_PGOFF
    · -- one window less
      rw [if_pos hmore]
      have hrounds : 0 < rounds := by
        apply Nat.pos_of_ne_zero
        intro h0
        rw [h0] at hfuel
        omega
      obtain ⟨ring', bm', hrun', hclean', hbm'⟩ := ih (base + MAX_PGOFF)
        (novaSetFileBm v.ring v.bm base ((w.2 - 1) / PAGE_SIZE)).2 hclean hrounds
        (by omega)
      refine ⟨ring', bm', hrun', hclean', ?_⟩
      intro x
      have hb0 : base + MAX_PGOFF ≠ 0 := by
        have := MAX_PGOFF_pos
        omega
      rw [hbm', hmarked, hbm]
      simp only [hb0, false_and, false_or, or_assoc]
      refine or_congr_right (or_congr_right ⟨?_, ?_⟩)
      · rintro (⟨i, a, h1, -, h3⟩ | ⟨i, a, h1, h3⟩)
        · exact ⟨i, a, h1, h3⟩
        · exact ⟨i, a, by omega, h3⟩
      rintro ⟨i, a, h1, h3⟩
      by_cases hlt : i < base + MAX_PGOFF
      · exact .inl ⟨i, a, h1, hlt, h3⟩
      · exact .inr ⟨i, a, by omega, h3⟩
    rw [if_neg hmore]
    refine ⟨(novaSetFileBm v.ring v.bm base ((w.2 - 1) / PAGE_SIZE)).1,
      (novaSetFileBm v.ring v.bm base ((w.2 - 1) / PAGE_SIZE)).2, by rw [Prod.mk.eta], hclean, ?_⟩
    intro x
    rw [hmarked, hbm, or_assoc]
    refine or_congr_right (or_congr_right ⟨?_, ?_⟩)
    · rintro ⟨i, a, h1, -, h3⟩
      exact ⟨i, a, h1, h3⟩
    rintro ⟨i, a, h1, h2, h3⟩
    have hi := hinside i (by rw [h2]; simp)
    exact ⟨i, a, h1, by omega, h2, h3⟩

/-- The chain of a readable log. -/
theorem logChain_eq (hr : Readable st.nv al.numBlocks ino F T rest) :
    logChain st ino = basesOf F ++ T.base :: rest := by
  have hhead : st.nv.logHead ino = (basesOf F ++ T.base :: rest).headD 0 := by
    rw [hr.head]
    cases F <;> rfl
  unfold logChain
  rw [hhead]
  apply pageChain_eq _ hr.log.chain
  · intro p hp
    exact Nat.pos_iff_ne_zero.1 (hr.log.isPage hp).2
  · exact length_lt_pageLimit (fun p hp => hr.log.isPage hp) hr.log.nodup hr.onDevice

end Pass

/-- The chain of a committed log. -/
theorem chain_of_logAt (h : LogAt st ino 0 (st.nv.logTail ino) L [] pages) :
    logChain st ino = pages := by
  rcases readable_of_logAt h with ⟨hempty, -, rfl⟩ | ⟨F, T, rest, hr, -, rfl⟩
  · simp [logChain, pageLimit, pageChain, hempty.head]
  · exact logChain_eq hr

-- === both readers

/-- A replay from size 0 gives the tree. -/
theorem scan_replay (h : FileOk st ino L pages) (hw : replay st.nv.slot (deadWrite st.nv) 0 L = w) :
    w.1 = (st.info ino).tree.get ∧ w.2 ≤ (st.info ino).iSize ∧
      ∀ i, w.1 i ≠ none → i < pagesFor w.2 := by
  have hdead : ∀ a ∈ L, deadWrite st.nv a = true →
      (∃ e, st.nv.slot a = .fileWrite e) ∧ ∀ i, (st.info ino).tree.get i ≠ some a :=
    fun a ha hd => h.dead_unmapped (fun b => le_refl (st.nv.invalid b)) ha hd
  have hattr : ∀ a ∈ L, ∀ e, st.nv.slot a = .setAttr e → deadWrite st.nv a = false := by
    intro a _ e he
    simp [deadWrite, he]
  have hrep := h.file.replayable
  have hreached := fun c0 => reached_replay (deadWrite st.nv) c0 hrep.ok hattr hrep.grow
  have hzero := hreached 0
  rw [hw] at hzero
  refine ⟨?_, ?_, hzero.inside⟩
  · funext i
    have hlive := (hreached (st.nv.record ino).iSize).map i
    rw [hrep.replay_eq (deadWrite st.nv) hdead] at hlive
    rw [hzero.map i, ← hlive]
  · rw [hzero.size]
    exact hrep.last_size_le

/-- The blocks of a file: after any run, and for a file of any size, the
scan at recovery marks exactly the pages of the log and the blocks that a
rebuild of the tree maps, and leaves the ring array as clean as it found
it. One pass for each window of the file is enough. -/
theorem recovery_readers_agree (h : FileRun ino st) {rounds : Nat}
    (hrounds : pagesFor (st.info ino).iSize / MAX_PGOFF < rounds) (hring : ∀ k, ring k = 0) :
    ∃ st' ring' bm', novaRebuildFileInodeTree
        (st.setInfo ino (freshInfo (st.nv.record ino))) ino = some st' ∧
      novaTraverseFileInodeLog st ino rounds ring bm = some (ring', bm') ∧ (∀ k, ring' k = 0) ∧
      ∀ x, bm' x = true ↔ bm x = true ∨ x * PAGE_SIZE ∈ logChain st ino ∨
        ∃ i, pageMap st' ino i = some x := by
  obtain ⟨⟨L, pages, hok⟩, -⟩ := h.ok
  obtain ⟨st', hres, hrec⟩ := hok.recover
  have hmap := hrec.pageMap_eq
  obtain ⟨htree, hsize, hinside⟩ := scan_replay hok rfl
  rcases readable_of_logAt hok.log with ⟨hempty, rfl, -⟩ | ⟨F, T, rest, hr, rfl, -⟩
  · -- nothing was ever logged
    obtain ⟨n, rfl⟩ := Nat.exists_eq_add_of_lt hrounds
    refine ⟨st', ring, bm, hres, ?_, hring, ?_⟩
    · rw [novaTraverseFileInodeLog, traverseWindows, if_pos ⟨hempty.head, hempty.tail⟩]
    intro x
    have hchain : logChain st ino = [] := by simp [logChain, pageLimit, pageChain, hempty.head]
    have hnone : ∀ i, pageMap st' ino i = none := by
      intro i
      rw [hmap]
      apply pageMap_none
      rw [← htree]
      rfl
    simp [hchain, hnone]
  have hpos : ∀ i a, (st.info ino).tree.get i = some a → getNvmm st.nv a i ≠ 0 := by
    intro i a hi
    exact Nat.pos_iff_ne_zero.1 (hok.file.owned.used i _ (pageMap_some hi)).2.1
  have hfuel : pagesFor (replay st.nv.slot (deadWrite st.nv) 0
      (entsOf F ++ T.ents)).2 ≤ 0 + rounds * MAX_PGOFF := by
    have h1 := pagesFor_mono hsize
    have h2 : pagesFor (st.info ino).iSize < rounds * MAX_PGOFF :=
      (Nat.div_lt_iff_lt_mul MAX_PGOFF_pos).1 hrounds
    omega
  obtain ⟨ring', bm', hrun, hclean, hbm⟩ := traverseWindows_spec hr
    hok.file.replayable.ok rfl hinside (by rw [htree]; exact hpos) rounds 0 bm
    hring (Nat.zero_lt_of_lt hrounds) hfuel
  refine ⟨st', ring', bm', hres, hrun, hclean, ?_⟩
  intro x
  rw [hbm, logChain_eq hr, hmap, htree]
  simp only [true_and, Nat.zero_le, pageMap, Option.map_eq_some_iff]

/-- The file with one write: its log page and its two blocks are
marked, in one pass. -/
theorem recovery_readers_agree_one_write :
    FileRun 17 writtenFile ∧ ∃ ring' bm', novaTraverseFileInodeLog writtenFile 17 1 (fun _ => 0)
          (fun _ => false) = some (ring', bm') ∧
        (∀ k, ring' k = 0) ∧ bm' 12 = true ∧ bm' 10 = true ∧ bm' 11 = true := by
  have heval : pagesFor (writtenFile.info 17).iSize / MAX_PGOFF < 1 ∧
      logChain writtenFile 17 = [49152] ∧
      pageMap writtenFile 17 0 = some 10 ∧ pageMap writtenFile 17 1 = some 11 := by decide +kernel
  obtain ⟨hrounds, hchain, h0, h1⟩ := heval
  obtain ⟨st', ring', bm', hres, hrun, hclean, hbm⟩ :=
    recovery_readers_agree writtenFile_run hrounds fun _ => rfl
  -- the rebuild is the one of every run
  obtain ⟨⟨L, pages, hok⟩, -⟩ := writtenFile_run.ok
  obtain ⟨st'', hres', hrec⟩ := hok.recover
  rw [hres, Option.some.injEq] at hres'
  rw [← hrec.pageMap_eq, ← hres'] at h0 h1
  refine ⟨writtenFile_run, ring', bm', hrun, hclean, ?_, ?_, ?_⟩
  · rw [hbm, hchain]
    exact .inr (.inl (mem_singleton.2 rfl))
  · exact (hbm 10).2 (.inr (.inr ⟨0, h0⟩))
  · exact (hbm 11).2 (.inr (.inr ⟨1, h1⟩))

end Themis.Traverse
