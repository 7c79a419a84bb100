/-
Walking a log the way every reader does: at the end of a page
(`goto_next_page`) go to the next one, read the entry there, step over
it.

`WalkTo nv t c L e` is such a walk from `c` to `e` over the entries `L`
that does not meet the position `t` on the way. Sealed pages that are
linked are walked entry by entry (`walk_pages`).
-/
import Themis.Proofs.Log.Validity

namespace Themis.Log

open Lib List

variable {w T : Page} {F : List Page} {rest : List Nat}

/-- Where a reader goes on. -/
def land (nv : Nvmm) (c : Nat) : Nat :=
  if gotoNextPage nv c then nextLogPage nv c else c

/-- A walk from `c` to `e` over the entries `L` that does not meet `t`
before its end. -/
def WalkTo (nv : Nvmm) (t : Nat) : Nat → List Nat → Nat → Prop
  | c, [], e => e = c
  | c, a :: L, e =>
    c ≠ t ∧ c ≠ 0 ∧ a = land nv c ∧ a ≠ 0 ∧ 32 ≤ (nv.slot a).size ∧
      blockOff (a + (nv.slot a).size) = blockOff a ∧
      WalkTo nv t (a + (nv.slot a).size) L e

variable {nv : Nvmm} {t c e b : Nat} {L M : List Nat}

/-- Two walks. -/
theorem WalkTo.append {d : Nat} (h : WalkTo nv t c L d)
    (h' : WalkTo nv t d M e) : WalkTo nv t c (L ++ M) e := by
  induction L generalizing c with
  | nil =>
    have hdc : d = c := h
    rw [← hdc]
    exact h'
  | cons a L ih =>
    obtain ⟨h1, h2, h3, h4, h5, h6, hrest⟩ := h
    exact ⟨h1, h2, h3, h4, h5, h6, ih hrest⟩

/-- A reader stays on an entry. -/
theorem land_entry (hb : IsPage b) (hc : b ≤ c) (hsize : 32 ≤ (nv.slot c).size)
    (hfit : c + (nv.slot c).size ≤ b + LAST_ENTRY) : land nv c = c := by
  have hloc : entryLoc c = c - b := by
    apply entryLoc_eq hb hc
    simp only [LAST_ENTRY, PAGE_SIZE] at *
    omega
  have hgo : gotoNextPage nv c = false := by
    simp only [gotoNextPage, hloc, Bool.or_eq_false_iff, decide_eq_false_iff_not]
    refine ⟨by omega, ?_⟩
    intro hnext
    simp [hnext, LogEntry.size] at hsize
  simp [land, hgo]

/-- At the end of a full page it goes to the next. -/
theorem land_stop (hw : w.Sealed nv) : land nv w.stop = nv.next w.base := by
  have hgo : gotoNextPage nv w.stop = true := by
    simp only [gotoNextPage, hw.toHolds.entryLoc_stop, Bool.or_eq_true, decide_eq_true_eq]
    rcases hw.mark with h | h
    · left
      omega
    · right
      exact h
  simp [land, hgo, nextLogPage, hw.toHolds.blockOff_stop]

/-- A walk over a segment. -/
theorem walk_seg (hb : IsPage b) (hbc : b ≤ c) (h : Seg nv b c L e)
    (ht : t < c ∨ e ≤ t) : WalkTo nv t c L e := by
  induction L generalizing c with
  | nil => exact h
  | cons a L ih =>
    obtain ⟨rfl, hsize, hfit, hrest⟩ := h
    have hle := hrest.le
    have hb0 := hb.2
    have hoff : ∀ x, a ≤ x → x ≤ b + LAST_ENTRY → blockOff x = b := by
      intro x h1 h2
      apply blockOff_eq hb (by omega)
      simp only [LAST_ENTRY, PAGE_SIZE] at *
      omega
    refine ⟨by omega, by omega, (land_entry hb hbc hsize hfit).symm, by omega, hsize, ?_, ?_⟩
    · rw [hoff _ (by omega) hfit, hoff a (le_refl a) (by omega)]
    · apply ih (by omega) hrest
      omega

/-- A walk over a page. -/
theorem walk_page (hw : w.Holds nv) (ht : blockOff t ≠ w.base ∨ w.stop ≤ t) :
    WalkTo nv t w.base w.ents w.stop := by
  apply walk_seg hw.isPage le_rfl hw.seg
  by_contra hcon
  rw [not_or, not_lt] at hcon
  have hstop := hw.stop_le
  rcases ht with ht | ht
  · apply ht
    apply blockOff_eq hw.isPage hcon.1
    simp only [LAST_ENTRY, PAGE_SIZE] at *
    omega
  · omega

/-- A walk that begins at the end of a page. -/
theorem walk_jump {q : Nat} (hw : w.Sealed nv) (hnext : nv.next w.base = q) (ht : w.stop ≠ t)
    (hq : land nv q = q) (hL : L ≠ []) (h : WalkTo nv t q L e) : WalkTo nv t w.stop L e := by
  cases L with
  | nil => exact absurd rfl hL
  | cons a L =>
    obtain ⟨-, -, ha, ha0, h1, h2, h3⟩ := h
    have hpos := hw.isPage.2
    have hle := hw.toHolds.base_le_stop
    refine ⟨ht, by omega, ?_, ha0, h1, h2, h3⟩
    rw [land_stop hw, hnext, ha, hq]

/-- A page with entries is read from its base. -/
theorem Page.Holds.land_base (hw : w.Holds nv) (hne : w.ents ≠ []) : land nv w.base = w.base := by
  obtain ⟨base, ents, stop⟩ := w
  cases ents with
  | nil => exact absurd rfl hne
  | cons a L =>
    obtain ⟨hpage, -, hsize, hfit, -⟩ := hw
    exact land_entry hpage le_rfl hsize hfit

/-- A walk over pages. -/
theorem walk_pages : ∀ (F : List Page) {T : Page} {z : Nat},
    Linked nv.next (basesOf F ++ [T.base]) z →
    (∀ w ∈ F, w.Sealed nv) → T.Holds nv → (F ≠ [] → T.ents ≠ []) →
    (∀ w ∈ F, blockOff t ≠ w.base) → (blockOff t ≠ T.base ∨ T.stop ≤ t) →
    WalkTo nv t ((basesOf F ++ [T.base]).headD 0) (entsOf F ++ T.ents) T.stop := by
  intro F
  induction F with
  | nil =>
    intro T z _ _ hT _ _ ht
    simpa using walk_page hT ht
  | cons w F ih =>
    intro T z hchain hfull hT hne htF ht
    have hw := hfull w mem_cons_self
    have hTne := hne (by simp)
    have htw := htF w mem_cons_self
    have hstop : w.stop ≠ t := by
      intro heq
      rw [← heq] at htw
      exact htw hw.toHolds.blockOff_stop
    have hrest := ih hchain.2 (fun x hx => hfull x (mem_cons_of_mem _ hx))
      hT (fun _ => hTne) (fun x hx => htF x (mem_cons_of_mem _ hx)) ht
    have hfirst : land nv ((basesOf F ++ [T.base]).headD 0) = (basesOf F ++ [T.base]).headD 0 := by
      cases F with
      | nil => simpa using hT.land_base hTne
      | cons x F =>
        have hx := hfull x (by simp)
        simpa using hx.toHolds.land_base hx.nonempty
    have hlinks : nv.next w.base = (basesOf F ++ [T.base]).headD 0 := by
      have h1 := hchain.1
      cases F with
      | nil => simpa using h1
      | cons x F => simpa using h1
    have hjump := walk_jump hw hlinks hstop hfirst (by simp [hTne]) hrest
    simp only [basesOf_cons, cons_append, headD_cons, entsOf_cons, append_assoc]
    exact (walk_page hw.toHolds (.inl htw)).append hjump

/-- A walk over a log. -/
theorem OpenLog.walk (h : OpenLog nv F T rest) (hused : F ≠ [] → T.ents ≠ []) :
    WalkTo nv T.stop ((basesOf F ++ [T.base]).headD 0) (entsOf F ++ T.ents) T.stop := by
  have hchain : Linked nv.next (basesOf F ++ [T.base]) (rest.headD 0) := by
    have hall : Linked nv.next ((basesOf F ++ [T.base]) ++ rest) 0 := by simpa using h.chain
    exact (Linked.append_iff.1 hall).1
  apply walk_pages F hchain h.full h.last hused
  · intro w hw
    rw [h.last.blockOff_stop]
    exact (h.base_ne hw).symm
  · exact .inr le_rfl

/-- A log has fewer entries than the limit. -/
theorem ents_lt_walkLimit {al : BlockAllocator} {nv : Nvmm} (h : OpenLog nv F T rest)
    (hdev : ∀ p ∈ basesOf F ++ T.base :: rest, p / PAGE_SIZE < al.numBlocks) :
    (entsOf F ++ T.ents).length < walkLimit al := by
  have hpages := length_lt_pageLimit (fun p hp => h.isPage hp) h.nodup hdev
  have hF : ∀ G : List Page, (∀ w ∈ G, w.Holds nv) → (entsOf G).length ≤ 127 * G.length := by
    intro G
    induction G with
    | nil => simp
    | cons w G ih =>
      intro hG
      have h1 := (hG w mem_cons_self).length_le
      have h2 := ih fun x hx => hG x (mem_cons_of_mem _ hx)
      simp only [entsOf_cons, length_append, length_cons]
      omega
  have h1 := hF F fun w hw => (h.full w hw).toHolds
  have h2 := h.last.length_le
  have h3 : (basesOf F).length = F.length := by simp [basesOf]
  simp only [length_append, length_cons, h3, pageLimit, walkLimit]
    at hpages ⊢
  omega

/-- The loop finds the entries of the walk. -/
theorem walkLoop_eq : ∀ (L : List Nat) {c rounds : Nat},
    WalkTo nv t c L t → L.length < rounds → walkLoop nv t rounds c = some L := by
  intro L
  induction L with
  | nil =>
    intro c rounds h hlt
    obtain ⟨rounds, rfl⟩ := Nat.exists_eq_add_of_lt hlt
    have htc : t = c := h
    simp only [length_nil, Nat.zero_add, walkLoop, htc, if_true]
  | cons a L ih =>
    intro c rounds h hlt
    obtain ⟨hct, hc0, ha, ha0, hsize, -, hrest⟩ := h
    cases rounds with
    | zero => exact absurd hlt (by simp)
    | succ rounds =>
      have hland : (if gotoNextPage nv c then nextLogPage nv c else c) = a := ha.symm
      have hpos : (nv.slot a).size ≠ 0 := by omega
      have hlt' : L.length < rounds := by
        simp only [length_cons] at hlt
        omega
      simp only [walkLoop, if_neg hct, if_neg hc0, hland, if_neg ha0,
        if_neg hpos, ih hrest hlt', Option.map_some]

/-- The loop finds the pages of the chain. -/
theorem pageChain_eq : ∀ (l : List Nat) {rounds : Nat},
    Linked nv.next l 0 → (∀ p ∈ l, p ≠ 0) → l.length < rounds →
    pageChain nv rounds (l.headD 0) = l := by
  intro l
  induction l with
  | nil =>
    intro rounds _ _ hlt
    cases rounds with
    | zero => rfl
    | succ rounds => simp [pageChain]
  | cons p l ih =>
    intro rounds hchain hne hlt
    cases rounds with
    | zero => exact absurd hlt (by simp)
    | succ rounds =>
      have hlt' : l.length < rounds := by
        simp only [length_cons] at hlt
        omega
      rw [headD_cons, pageChain, if_neg (hne p mem_cons_self), hchain.1, ih hchain.2
        (fun q hq => hne q (mem_cons_of_mem _ hq)) hlt']

end Themis.Log
