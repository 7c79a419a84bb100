/-
What the collectors read and what they give back: the verdict on a page
is the verdict on its entries, and freeing a chain of pages gives back
exactly these.
-/
import Themis.Proofs.Log.NewPages

namespace Themis.Log

open Lib List

variable {al : BlockAllocator}
variable {nv : Nvmm} {sih : InodeInfo} {a p : Nat} {l : List Nat}

-- === verdicts

/-- The collector takes the entry for dead. -/
def entryDead (nv : Nvmm) (sih : InodeInfo) (a : Nat) : Bool :=
  (currLogEntryInvalid nv sih a).1

/-- The collector takes every entry of the page for dead. -/
def pageDead (nv : Nvmm) (sih : InodeInfo) (w : Page) : Bool :=
  w.ents.all (entryDead nv sih)

/-- The bytes of the live entries. -/
def liveBytes (nv : Nvmm) (sih : InodeInfo) (L : List Nat) : Nat :=
  (L.map fun a => if entryDead nv sih a then 0 else (nv.slot a).size).sum

/-- Entries that hold nothing a rebuild needs, whatever the inode in
DRAM says: overwritten write entries, removed names and removal records,
attribute changes that set no size, link changes. -/
def Expendable (nv : Nvmm) (a : Nat) : Prop :=
  match nv.slot a with
  | .fileWrite e => e.numPages = nv.invalid a
  | .dirLog d => d.ino = 0 ∨ nv.invalid a ≠ 0
  | .setAttr e => e.setsSize = false
  | _ => True

instance (nv : Nvmm) (a : Nat) : Decidable (Expendable nv a) := by
  unfold Expendable
  cases nv.slot a <;> infer_instance

/-- A dead entry is expendable. -/
theorem expendable_of_entryDead (h : entryDead nv sih a = true) : Expendable nv a := by
  simp only [entryDead, currLogEntryInvalid] at h
  simp only [Expendable]
  cases hs : nv.slot a with
  | fileWrite e => simpa [hs] using h
  | dirLog d =>
    simp only [hs, ne_eq, decide_not, Bool.not_and, Bool.not_not,
      Bool.or_eq_true, decide_eq_true_eq, Bool.not_eq_eq_eq_not,
      Bool.not_true, decide_eq_false_iff_not] at h
    exact h
  | setAttr e =>
    simp only [hs, Bool.not_or, Bool.and_eq_true, Bool.not_eq_eq_eq_not, Bool.not_true] at h
    exact h.2
  | _ => trivial

/-- The length is that of the entry. -/
theorem currLogEntryInvalid_length (sih : InodeInfo) (h : 32 ≤ (nv.slot a).size) :
    (currLogEntryInvalid nv sih a).2 = (nv.slot a).size := by
  simp only [currLogEntryInvalid]
  cases hs : nv.slot a with
  | nextPage => simp [hs, LogEntry.size] at h
  | unknown t => simp [hs, LogEntry.size] at h
  | _ => rfl

/-- The loop over the entries of a page. -/
theorem pageInvalidLoop_seg {b e : Nat} (hb : IsPage b)
    (hmark : b + LAST_ENTRY ≤ e ∨ nv.slot e = .nextPage) :
    ∀ (L : List Nat) {c rounds : Nat} {ret : Bool} {bytes : Nat},
      Seg nv b c L e → b ≤ c → c ≤ b + LAST_ENTRY → b + LAST_ENTRY - c < rounds →
      pageInvalidLoop nv sih (b + LAST_ENTRY) rounds c ret bytes
        = some (ret && L.all (entryDead nv sih), bytes + liveBytes nv sih L) := by
  intro L
  induction L with
  | nil =>
    intro c rounds ret bytes hseg hbc hcb hrounds
    have hec : e = c := hseg
    subst hec
    obtain ⟨n, rfl⟩ := Nat.exists_eq_add_of_lt hrounds
    rw [pageInvalidLoop]
    split
    · have hnext : nv.slot e = .nextPage := by
        rcases hmark with h | h
        · omega
        · exact h
      have hloc : entryLoc e = e - b := by
        apply entryLoc_eq hb hbc
        simp only [LAST_ENTRY, PAGE_SIZE] at *
        omega
      have hne : e ≠ 0 := by
        have := hb.2
        omega
      have hn : b + LAST_ENTRY - e + n = (b + LAST_ENTRY - e + n - 1) + 1 := by omega
      rw [if_neg hne, hn]
      simp only [currLogEntryInvalid, hnext, if_true]
      rw [pageInvalidLoop, if_neg]
      · simp [liveBytes]
      simp only [LAST_ENTRY, PAGE_SIZE] at *
      omega
    · simp [liveBytes]
  | cons a L ih =>
    intro c rounds ret bytes hseg hbc hcb hrounds
    obtain ⟨rfl, hsize, hfit, hrest⟩ := hseg
    obtain ⟨n, rfl⟩ := Nat.exists_eq_add_of_lt hrounds
    have hne : a ≠ 0 := by
      have := hb.2
      omega
    have hlt : a < b + LAST_ENTRY := by omega
    rw [pageInvalidLoop, if_pos hlt, if_neg hne]
    simp only [currLogEntryInvalid_length sih hsize]
    have hnext : b + LAST_ENTRY - (a + (nv.slot a).size) < b + LAST_ENTRY - a + n := by omega
    split
    · rename_i hdead
      have hdead' : entryDead nv sih a = true := hdead
      rw [ih hrest (by omega) hfit hnext]
      simp [liveBytes, hdead']
    rename_i hlive
    have hlive' : entryDead nv sih a = false := by simpa [entryDead] using hlive
    rw [ih hrest (by omega) hfit hnext]
    simp [liveBytes, hlive', Nat.add_assoc]

/-- The verdict on a full page. -/
theorem currPageInvalid_sealed {w : Page} (sih : InodeInfo) (h : w.Sealed nv) :
    currPageInvalid nv sih w.base = some (pageDead nv sih w, liveBytes nv sih w.ents) := by
  rw [currPageInvalid, pageInvalidLoop_seg h.isPage h.mark w.ents h.seg
    le_rfl (Nat.le_add_right _ _) (by omega)]
  simp [pageDead]

-- === freeing

/-- Blocks and pages. -/
theorem exists_div_eq_iff (hl : ∀ p ∈ l, IsPage p) {x : Nat} :
    (∃ p ∈ l, p / PAGE_SIZE = x) ↔ x * PAGE_SIZE ∈ l := by
  constructor
  · intro h
    obtain ⟨p, hp, rfl⟩ := h
    have hmod := (hl p hp).1
    have heq : p / PAGE_SIZE * PAGE_SIZE = p := by
      simp only [PAGE_SIZE] at *
      omega
    rw [heq]
    exact hp
  intro h
  refine ⟨x * PAGE_SIZE, h, ?_⟩
  simp only [PAGE_SIZE]
  omega

/-- From a page to its block and back. -/
theorem div_mul_page (h : IsPage p) : p / PAGE_SIZE * PAGE_SIZE = p := by
  have hmod := h.1
  simp only [PAGE_SIZE] at *
  omega

/-- Giving log blocks back takes them out of use. -/
theorem novaFreeLogBlocks_inUse (st : State al) (b k : Nat)
    (h : ∀ x, b ≤ x → x < b + k → st.InUse x) (x : Nat) :
    (novaFreeLogBlocks st b k).InUse x ↔ st.InUse x ∧ ¬ (b ≤ x ∧ x < b + k) := al.free_inUse h x

/-- Giving log blocks back stores nothing. -/
theorem novaFreeLogBlocks_frame (st : State al) (b k : Nat) :
    LinksOnly [] st (novaFreeLogBlocks st b k) :=
  ⟨rfl, rfl, rfl, rfl, rfl, rfl, rfl, fun _ _ => rfl⟩

/-- One page is given back. -/
theorem free_page_inUse (st : State al) (hp : IsPage p) (h : st.InUse (p / PAGE_SIZE)) (x : Nat) :
    (novaFreeLogBlocks st (p / PAGE_SIZE) 1).InUse x ↔ st.InUse x ∧ x * PAGE_SIZE ≠ p := by
  rw [novaFreeLogBlocks_inUse]
  · have hmul := div_mul_page hp
    have hiff : (p / PAGE_SIZE ≤ x ∧ x < p / PAGE_SIZE + 1) ↔ x * PAGE_SIZE = p := by
      constructor
      · intro hx
        have : x = p / PAGE_SIZE := by omega
        rw [this, hmul]
      intro hx
      have : x = p / PAGE_SIZE := by
        rw [← hx]
        simp only [PAGE_SIZE]
        omega
      omega
    rw [hiff]
  intro y h1 h2
  have : y = p / PAGE_SIZE := by omega
  rw [this]
  exact h

/-- The blocks of some calls of `nova_free_log_blocks`. -/
def blocksOf (calls : List (Nat × Nat)) : List Nat := calls.flatMap fun c => range' c.1 c.2

/-- The state after the calls. -/
def freeAll (st : State al) (calls : List (Nat × Nat)) : State al :=
  calls.foldl (fun st c => novaFreeLogBlocks st c.1 c.2) st

variable {st : State al}

/-- Giving back stores nothing. -/
theorem freeAll_nv (calls : List (Nat × Nat)) : (freeAll st calls).nv = st.nv := by
  induction calls generalizing st with
  | nil => rfl
  | cons c calls ih => exact ih

/-- One more call. -/
theorem freeAll_snoc (calls : List (Nat × Nat)) (c : Nat × Nat) :
    freeAll st (calls ++ [c]) = novaFreeLogBlocks (freeAll st calls) c.1 c.2 := by
  simp [freeAll]

/-- The loop does what `releaseLoop` lists. -/
theorem freeContiguousLoop_eq (st : State al) (rounds : Nat) (curr start numFree freed : Nat)
    (calls : List (Nat × Nat)) : freeContiguousLoop rounds (freeAll st calls) curr start numFree
      = (releaseLoop st.nv.next rounds curr start numFree freed calls).map
          fun r => freeAll st r.2 := by
  induction rounds generalizing curr start numFree freed calls with
  | zero => rfl
  | succ rounds ih =>
    rw [freeContiguousLoop, releaseLoop, freeAll_nv]
    by_cases hcurr : curr = 0 ∨ entryLoc curr ≠ 0
    · rw [if_pos hcurr, if_pos hcurr]
      by_cases hstart : start = 0
      · simp [hstart]
      · simp [hstart, freeAll_snoc]
    rw [if_neg hcurr]
    dsimp only
    split
    · exact ih ..
    split
    · exact ih ..
    · rw [← ih, freeAll_snoc]

/-- The calls cover the pages of the chain. -/
theorem releaseLoop_spec {next : Nat → Nat} (l : List Nat) (hchain : Linked next l 0)
    (hpages : ∀ p ∈ l, IsPage p) {rounds : Nat} (start numFree freed : Nat)
    (calls : List (Nat × Nat)) (hrounds : l.length < rounds) (hfreed : freed = (blocksOf calls).length)
    (hrun : start = 0 → numFree = 0) :
    ∃ r, releaseLoop next rounds (l.headD 0) start numFree freed calls = some r
      ∧ blocksOf r.2 = blocksOf calls ++ range' start numFree ++ l.map (· / PAGE_SIZE)
      ∧ r.1 = (blocksOf r.2).length := by
  induction l generalizing rounds start numFree freed calls with
  | nil =>
    obtain ⟨rounds, rfl⟩ := Nat.exists_eq_add_of_lt hrounds
    rw [releaseLoop]
    by_cases hstart : start = 0
    · rw [if_neg (not_not.mpr hstart), hrun hstart]
      exact ⟨_, rfl, by simp, hfreed⟩
    · rw [if_pos hstart]
      exact ⟨_, rfl, by simp [blocksOf], by simp [blocksOf, hfreed]⟩
  | cons p l ih =>
    obtain ⟨hp, hpages⟩ := forall_mem_cons.mp hpages
    obtain ⟨rounds, rfl⟩ : ∃ k, rounds = k + 1 := ⟨rounds - 1, by simp at hrounds; omega⟩
    have hlen : l.length < rounds := by simpa using hrounds
    have hgo : ¬ (p = 0 ∨ entryLoc p ≠ 0) := by
      have h1 := hp.1
      have h2 := hp.2
      unfold entryLoc
      omega
    rw [headD_cons, releaseLoop, if_neg hgo, hchain.1]
    have hblock : p / PAGE_SIZE ≠ 0 := by
      have h1 := hp.1
      simp only [PAGE_SIZE] at *
      omega
    dsimp only
    split <;> rename_i hstart
    · obtain ⟨r, hr, hblocks, hcount⟩ := ih hchain.2 hpages (p / PAGE_SIZE) 1 freed calls
        hlen hfreed (fun h => absurd h hblock)
      refine ⟨r, hr, ?_, hcount⟩
      rw [hblocks, hrun hstart]
      simp
    · split <;> rename_i hnext
      · obtain ⟨r, hr, hblocks, hcount⟩ := ih hchain.2 hpages start (numFree + 1) freed calls
          hlen hfreed (fun h => absurd h hstart)
        refine ⟨r, hr, ?_, hcount⟩
        rw [hblocks, range'_1_concat, map_cons, hnext]
        simp
      · -- the run so far goes back
        obtain ⟨r, hr, hblocks, hcount⟩ := ih hchain.2 hpages (p / PAGE_SIZE) 1
          (freed + numFree) (calls ++ [(start, numFree)]) hlen (by simp [blocksOf, hfreed])
          (fun h => absurd h hblock)
        refine ⟨r, hr, ?_, hcount⟩
        rw [hblocks]
        simp [blocksOf]

/-- All calls together. -/
theorem freeAll_spec (st : State al) (calls : List (Nat × Nat)) (hnd : (blocksOf calls).Nodup)
    (huse : ∀ x ∈ blocksOf calls, st.InUse x) : LinksOnly [] st (freeAll st calls) ∧
      ∀ x, (freeAll st calls).InUse x ↔ st.InUse x ∧ x ∉ blocksOf calls := by
  induction calls generalizing st with
  | nil => exact ⟨LinksOnly.refl st, by simp [freeAll, blocksOf]⟩
  | cons c calls ih =>
    rw [blocksOf, flatMap_cons, nodup_append] at hnd
    rw [blocksOf, flatMap_cons] at huse ⊢
    have hfree := novaFreeLogBlocks_inUse st c.1 c.2 fun x h1 h2 =>
      huse x (mem_append_left _ (mem_range'_1.2 ⟨h1, h2⟩))
    simp only [← mem_range'_1] at hfree
    obtain ⟨hframe, hiff⟩ := ih (novaFreeLogBlocks st c.1 c.2) hnd.2.1 fun x hx =>
      (hfree x).2 ⟨huse x (mem_append_right _ hx), fun hc => hnd.2.2 x hc x hx rfl⟩
    refine ⟨(novaFreeLogBlocks_frame st _ _).trans hframe, ?_⟩
    intro x
    rw [mem_append, not_or, ← and_assoc, ← hfree]
    exact hiff x

/-- Different pages are different blocks. -/
theorem nodup_blocks (hpages : ∀ p ∈ l, IsPage p) (hnodup : l.Nodup) :
    (l.map (· / PAGE_SIZE)).Nodup :=
  hnodup.map_on fun p hp q hq => page_eq_of_div_eq (hpages p hp) (hpages q hq)

/-- A chain is shorter than the limit. -/
theorem length_lt_pageLimit (hpages : ∀ p ∈ l, IsPage p) (hnodup : l.Nodup)
    (hdev : ∀ p ∈ l, p / PAGE_SIZE < al.numBlocks) : l.length < pageLimit al := by
  have hnodup' := nodup_blocks hpages hnodup
  have hsub : (l.map (· / PAGE_SIZE)).toFinset ⊆ Finset.range al.numBlocks := by
    intro x hx
    simp only [List.mem_toFinset, List.mem_map] at hx
    obtain ⟨p, hp, rfl⟩ := hx
    exact Finset.mem_range.2 (hdev p hp)
  have hcard := Finset.card_le_card hsub
  rw [toFinset_card_of_nodup hnodup', length_map, Finset.card_range] at hcard
  simp only [pageLimit]
  omega

/-- The loop gets to the end of the chain. -/
theorem release_spec (hchain : Linked st.nv.next l 0) (hpages : ∀ p ∈ l, IsPage p)
    (hlen : l.length < pageLimit al) :
    ∃ calls, releaseLoop st.nv.next (pageLimit al) (l.headD 0) 0 0 0 [] = some (l.length, calls)
      ∧ blocksOf calls = l.map (· / PAGE_SIZE)
      ∧ novaFreeContiguousLogBlocks st (l.headD 0) = some (freeAll st calls) := by
  obtain ⟨⟨freed, calls⟩, hr, hblocks, hcount⟩ := releaseLoop_spec l hchain hpages 0 0 0 []
    hlen rfl (fun _ => rfl)
  have hblocks' : blocksOf calls = l.map (· / PAGE_SIZE) := hblocks
  have hfreed : freed = l.length := by rw [show freed = _ from hcount, hblocks', length_map]
  have hstate := freeContiguousLoop_eq st (pageLimit al) (l.headD 0) 0 0 0 []
  rw [hr] at hstate
  exact ⟨calls, hfreed ▸ hr, hblocks', hstate⟩

/-- The pages of a chain are given back, each once. -/
theorem novaFreeContiguousLogBlocks_spec {st : State al} (hchain : Linked st.nv.next l 0)
    (hpages : ∀ p ∈ l, IsPage p) (hnodup : l.Nodup) (huse : ∀ p ∈ l, st.InUse (p / PAGE_SIZE))
    (hdev : ∀ p ∈ l, p / PAGE_SIZE < al.numBlocks) :
    ∃ st', novaFreeContiguousLogBlocks st (l.headD 0) = some st' ∧ LinksOnly [] st st' ∧
      ∀ x, st'.InUse x ↔ st.InUse x ∧ x * PAGE_SIZE ∉ l := by
  obtain ⟨calls, -, hblocks, hrun⟩ :=
    release_spec hchain hpages (length_lt_pageLimit hpages hnodup hdev)
  obtain ⟨hframe, hiff⟩ := freeAll_spec st calls (hblocks ▸ nodup_blocks hpages hnodup)
    (by rw [hblocks]; exact forall_mem_map.2 huse)
  refine ⟨_, hrun, hframe, ?_⟩
  intro x
  rw [hiff x, hblocks, mem_map, exists_div_eq_iff hpages]

end Themis.Log
