/-
The shape of a log: pages filled with entries one after another, sealed
by a next-page mark or by the end of the page, and linked into a chain.

`Seg nv b c L e` reads the entries at the offsets `L` from `c` to `e`
within the page at `b`. `OpenLog` is a log that can be appended to: sealed
pages, the page being filled, and pages linked behind it but not yet
used. The collector builds its new log as one of these before the inode
points to it.
-/
import Themis.Log
import Themis.Lib.Chain
import Mathlib.Data.Finset.Card
import Mathlib.Data.Finset.Range

namespace Themis.Log

open Lib List

variable {al : BlockAllocator}
variable {b c : Nat} {ws : List Page}

attribute [local simp] novaSetNextPageAddress

-- === page bases

/-- The address of a page. -/
def IsPage (b : Nat) : Prop := b % PAGE_SIZE = 0 ∧ 0 < b

/-- An offset in a page. -/
theorem blockOff_eq (hb : IsPage b) (hc : b ≤ c) (hc' : c < b + PAGE_SIZE) : blockOff c = b := by
  obtain ⟨hmod, -⟩ := hb
  simp only [blockOff, PAGE_SIZE] at *
  omega

/-- An offset and its page have the same block. -/
theorem blockOff_div (a : Nat) : blockOff a / PAGE_SIZE = a / PAGE_SIZE := by
  simp only [blockOff, PAGE_SIZE]
  omega

/-- The place within the page. -/
theorem entryLoc_eq (hb : IsPage b) (hc : b ≤ c) (hc' : c < b + PAGE_SIZE) :
    entryLoc c = c - b := by
  obtain ⟨hmod, -⟩ := hb
  simp only [entryLoc, PAGE_SIZE] at *
  omega

/-- Pages of one block are one page. -/
theorem page_eq_of_div_eq (hb : IsPage b) (hc : IsPage c) (h : b / PAGE_SIZE = c / PAGE_SIZE) :
    b = c := by
  obtain ⟨hb, -⟩ := hb
  obtain ⟨hc, -⟩ := hc
  simp only [PAGE_SIZE] at *
  omega

-- === segments

/-- The entries at the offsets `L` lie one after another from `c` to `e`
in the page at `b`. -/
def Seg (nv : Nvmm) (b : Nat) : Nat → List Nat → Nat → Prop
  | c, [], e => e = c
  | c, a :: L, e =>
    a = c ∧ 32 ≤ (nv.slot c).size ∧
      c + (nv.slot c).size ≤ b + LAST_ENTRY ∧
      Seg nv b (c + (nv.slot c).size) L e

namespace Seg

variable {nv nv' : Nvmm} {b c e : Nat} {L M : List Nat}
variable {a : Nat}

section

variable (h : Seg nv b c L e)
include h

/-- A segment goes forward. -/
theorem le : c ≤ e := by
  induction L generalizing c with
  | nil => exact le_of_eq h.symm
  | cons a L ih =>
    obtain ⟨-, -, -, hrest⟩ := h
    have := ih hrest
    omega

/-- A segment ends in front of the tail of the page. -/
theorem stop_le (hc : c ≤ b + LAST_ENTRY) : e ≤ b + LAST_ENTRY := by
  induction L generalizing c with
  | nil => exact h ▸ hc
  | cons a L ih =>
    obtain ⟨-, -, hfit, hrest⟩ := h
    exact ih hrest hfit

/-- Where the entries of a segment lie. -/
theorem mem (ha : a ∈ L) : c ≤ a ∧ 32 ≤ (nv.slot a).size ∧ a + (nv.slot a).size ≤ b + LAST_ENTRY ∧
      a + (nv.slot a).size ≤ e := by
  induction L generalizing c with
  | nil => cases ha
  | cons x L ih =>
    obtain ⟨rfl, hsize, hfit, hrest⟩ := h
    rcases mem_cons.1 ha with rfl | ha
    · exact ⟨le_rfl, hsize, hfit, hrest.le⟩
    · obtain ⟨hle, h1, h2, h3⟩ := ih hrest ha
      exact ⟨by omega, h1, h2, h3⟩

/-- Entries lie in front of the end. -/
theorem lt_stop (ha : a ∈ L) : a < e := by
  obtain ⟨-, h1, -, h2⟩ := h.mem ha
  omega

/-- Entries are in increasing order. -/
theorem pairwise : L.Pairwise (· < ·) := by
  induction L generalizing c with
  | nil => exact List.Pairwise.nil
  | cons x L ih =>
    obtain ⟨rfl, hsize, -, hrest⟩ := h
    refine List.Pairwise.cons ?_ (ih hrest)
    intro a ha
    have := (hrest.mem ha).1
    omega

/-- Entries do not overlap. -/
theorem apart {x y : Nat} (hx : x ∈ L) (hy : y ∈ L) (hlt : x < y) : x + (nv.slot x).size ≤ y := by
  induction L generalizing c with
  | nil => cases hx
  | cons a L ih =>
    obtain ⟨rfl, hsize, -, hrest⟩ := h
    rcases mem_cons.1 hx with rfl | hx'
    · rcases mem_cons.1 hy with rfl | hy'
      · exact absurd hlt (lt_irrefl _)
      · exact (hrest.mem hy').1
    rcases mem_cons.1 hy with rfl | hy'
    · have := (hrest.mem hx').1
      omega
    · exact ih hrest hx' hy'

/-- No entry twice. -/
theorem nodup : L.Nodup := h.pairwise.imp fun hlt => Nat.ne_of_lt hlt

/-- Every entry takes 32 bytes or more. -/
theorem length_le : 32 * L.length ≤ e - c := by
  induction L generalizing c with
  | nil => simp
  | cons x L ih =>
    obtain ⟨rfl, hsize, -, hrest⟩ := h
    have := ih hrest
    have := hrest.le
    simp only [length_cons]
    omega

/-- A segment depends on the lengths of its entries. -/
theorem resize (hs : ∀ a ∈ L, (nv'.slot a).size = (nv.slot a).size) : Seg nv' b c L e := by
  induction L generalizing c with
  | nil => exact h
  | cons x L ih =>
    obtain ⟨rfl, hsize, hfit, hrest⟩ := h
    have hx : (nv'.slot x).size = (nv.slot x).size := hs x mem_cons_self
    refine ⟨rfl, ?_, ?_, ?_⟩
    · rw [hx]; exact hsize
    · rw [hx]; exact hfit
    rw [hx]
    apply ih hrest
    intro a ha
    exact hs a (mem_cons_of_mem _ ha)

/-- A segment depends on its entries. -/
theorem congr (hs : ∀ a ∈ L, nv'.slot a = nv.slot a) : Seg nv' b c L e :=
  h.resize fun a ha => by rw [hs a ha]

end

/-- Two segments, one behind the other. -/
theorem append_iff : Seg nv b c (L ++ M) e ↔ ∃ d, Seg nv b c L d ∧ Seg nv b d M e := by
  induction L generalizing c with
  | nil => simp [Seg]
  | cons x L ih =>
    simp only [cons_append, Seg, ih]
    constructor
    · intro h
      obtain ⟨h1, h2, h3, d, h4, h5⟩ := h
      exact ⟨d, ⟨h1, h2, h3, h4⟩, h5⟩
    intro h
    obtain ⟨d, ⟨h1, h2, h3, h4⟩, h5⟩ := h
    exact ⟨h1, h2, h3, d, h4, h5⟩

/-- One more entry. -/
theorem snoc (h : Seg nv b c L e) (hsize : 32 ≤ (nv.slot e).size)
    (hfit : e + (nv.slot e).size ≤ b + LAST_ENTRY) : Seg nv b c (L ++ [e]) (e + (nv.slot e).size) :=
  append_iff.2 ⟨e, h, rfl, hsize, hfit, rfl⟩

end Seg

-- === pages

/-- A log page: its base, where its entries lie, and where they stop. -/
structure Page where
  base : Nat
  ents : List Nat
  stop : Nat

/-- The page holds its entries. -/
structure Page.Holds (nv : Nvmm) (w : Page) : Prop where
  isPage : IsPage w.base
  seg : Seg nv w.base w.base w.ents w.stop

/-- The page is full: behind its entries there is a next-page mark or no
room for one. -/
structure Page.Sealed (nv : Nvmm) (w : Page) : Prop extends w.Holds nv where
  nonempty : w.ents ≠ []
  mark : w.base + LAST_ENTRY ≤ w.stop ∨ nv.slot w.stop = .nextPage

namespace Page

variable {nv nv' : Nvmm} {w : Page}

section

variable (h : w.Holds nv)
include h

/-- A page ends in front of its tail. -/
theorem Holds.stop_le : w.stop ≤ w.base + LAST_ENTRY :=
  h.seg.stop_le (Nat.le_add_right _ _)

/-- The end is behind the base. -/
theorem Holds.base_le_stop : w.base ≤ w.stop := h.seg.le

/-- The end is not NULL. -/
theorem Holds.stop_ne_zero : w.stop ≠ 0 := by
  have := h.isPage.2
  have := h.base_le_stop
  omega

/-- The end lies in the page. -/
theorem Holds.blockOff_stop : blockOff w.stop = w.base := by
  have h1 := h.stop_le
  apply blockOff_eq h.isPage h.base_le_stop
  simp only [LAST_ENTRY, PAGE_SIZE] at *
  omega

/-- The end as a place in the page. -/
theorem Holds.entryLoc_stop : entryLoc w.stop = w.stop - w.base := by
  have h1 := h.stop_le
  apply entryLoc_eq h.isPage h.base_le_stop
  simp only [LAST_ENTRY, PAGE_SIZE] at *
  omega

/-- Entries lie in the page. -/
theorem Holds.blockOff_ent {a : Nat} (ha : a ∈ w.ents) : blockOff a = w.base := by
  obtain ⟨h1, h2, h3, -⟩ := h.seg.mem ha
  apply blockOff_eq h.isPage h1
  simp only [LAST_ENTRY, PAGE_SIZE] at *
  omega

/-- A page has at most 127 entries. -/
theorem Holds.length_le : w.ents.length ≤ 127 := by
  have h1 := h.seg.length_le
  have h2 := h.stop_le
  simp only [LAST_ENTRY] at *
  omega

/-- What a page holds depends on its entries. -/
theorem Holds.congr (hs : ∀ a ∈ w.ents, nv'.slot a = nv.slot a) : w.Holds nv' :=
  ⟨h.isPage, h.seg.congr hs⟩

end

/-- A page stays sealed if the mark stays. -/
theorem Sealed.congr (h : w.Sealed nv) (hs : ∀ a ∈ w.ents, nv'.slot a = nv.slot a)
    (hm : nv'.slot w.stop = nv.slot w.stop) : w.Sealed nv' := by
  refine ⟨h.toHolds.congr hs, h.nonempty, ?_⟩
  rw [hm]
  exact h.mark

/-- A page that was not written to. -/
theorem Holds.of_page (h : w.Holds nv)
    (hs : ∀ a, blockOff a = w.base → nv'.slot a = nv.slot a) : w.Holds nv' := by
  apply h.congr
  intro a ha
  exact hs a (h.blockOff_ent ha)

/-- A sealed page that was not written to. -/
theorem Sealed.of_page (h : w.Sealed nv) (hs : ∀ a, blockOff a = w.base → nv'.slot a = nv.slot a) :
    w.Sealed nv' := by
  apply h.congr
  · intro a ha
    exact hs a (h.toHolds.blockOff_ent ha)
  · exact hs _ h.toHolds.blockOff_stop

end Page

/-- The entries of pages. -/
def entsOf (ws : List Page) : List Nat := ws.flatMap Page.ents

/-- The bases of a list of pages. -/
def basesOf (ws : List Page) : List Nat := ws.map Page.base

@[simp] theorem entsOf_nil : entsOf [] = [] := rfl
@[simp] theorem entsOf_cons (w : Page) (ws : List Page) :
    entsOf (w :: ws) = w.ents ++ entsOf ws := rfl
@[simp] theorem entsOf_append (vs ws : List Page) :
    entsOf (vs ++ ws) = entsOf vs ++ entsOf ws := flatMap_append
@[simp] theorem basesOf_nil : basesOf [] = [] := rfl
@[simp] theorem basesOf_cons (w : Page) (ws : List Page) :
    basesOf (w :: ws) = w.base :: basesOf ws := rfl
@[simp] theorem basesOf_append (vs ws : List Page) :
    basesOf (vs ++ ws) = basesOf vs ++ basesOf ws := map_append

/-- The bases are those of the pages. -/
theorem mem_basesOf : b ∈ basesOf ws ↔ ∃ w ∈ ws, w.base = b := List.mem_map

/-- The entries are those of the pages. -/
theorem mem_entsOf {a : Nat} : a ∈ entsOf ws ↔ ∃ w ∈ ws, a ∈ w.ents := mem_flatMap

-- === open logs

/-- A log that can be appended to: sealed pages `F`, the page `T` being
filled, and linked pages `rest` not yet used. -/
structure OpenLog (nv : Nvmm) (F : List Page) (T : Page) (rest : List Nat) :
    Prop where
  chain : Linked nv.next (basesOf F ++ T.base :: rest) 0
  nodup : (basesOf F ++ T.base :: rest).Nodup
  full : ∀ w ∈ F, w.Sealed nv
  last : T.Holds nv
  spare : ∀ p ∈ rest, IsPage p

namespace OpenLog

variable {nv nv' : Nvmm} {F : List Page} {T : Page} {rest : List Nat}

variable (h : OpenLog nv F T rest)
include h

/-- All pages of a log are pages. -/
theorem isPage {p : Nat} (hp : p ∈ basesOf F ++ T.base :: rest) : IsPage p := by
  rcases mem_append.1 hp with hp | hp
  · obtain ⟨w, hw, rfl⟩ := mem_basesOf.1 hp
    exact (h.full w hw).isPage
  rcases mem_cons.1 hp with rfl | hp
  · exact h.last.isPage
  · exact h.spare p hp

/-- A log that was not written to. -/
theorem congr (hn : ∀ p ∈ basesOf F ++ T.base :: rest, nv'.next p = nv.next p)
    (hs : ∀ w ∈ F, ∀ a, blockOff a = w.base → nv'.slot a = nv.slot a)
    (hT : ∀ a ∈ T.ents, nv'.slot a = nv.slot a) : OpenLog nv' F T rest where
  chain := h.chain.congr hn
  nodup := h.nodup
  full w hw := (h.full w hw).of_page (hs w hw)
  last := h.last.congr hT
  spare := h.spare

/-- The page behind the last one. -/
theorem next_last : nv.next T.base = rest.headD 0 := h.chain.next_eq

/-- Full pages are other pages than the last. -/
theorem base_ne {w : Page} (hw : w ∈ F) : w.base ≠ T.base := by
  have hn := h.nodup
  rw [nodup_append] at hn
  exact hn.2.2 w.base (mem_basesOf.2 ⟨w, hw, rfl⟩) T.base mem_cons_self

end OpenLog

-- === state facts

namespace State

variable (st : State al)

section

variable (s : Store)

@[simp] theorem store_nv : (st.store s).nv = st.nv.apply s := rfl
@[simp] theorem store_data : (st.store s).data = st.data := rfl
@[simp] theorem store_alloc : (st.store s).alloc = st.alloc := rfl
@[simp] theorem store_info : (st.store s).info = st.info := rfl
@[simp] theorem ntStore_nv : (st.ntStore s).nv = st.nv.apply s := rfl
@[simp] theorem ntStore_data : (st.ntStore s).data = st.data := rfl
@[simp] theorem ntStore_alloc : (st.ntStore s).alloc = st.alloc := rfl
@[simp] theorem ntStore_info : (st.ntStore s).info = st.info := rfl

end

@[simp] theorem fence_nv : st.fence.nv = st.nv := rfl
@[simp] theorem fence_data : st.fence.data = st.data := rfl
@[simp] theorem fence_alloc : st.fence.alloc = st.alloc := rfl
@[simp] theorem fence_info : st.fence.info = st.info := rfl
@[simp] theorem flush_nv (f : Flush) (b : Bool) : (st.flush f b).nv = st.nv := by cases b <;> rfl
@[simp] theorem flush_data (f : Flush) (b : Bool) : (st.flush f b).data = st.data := by
  cases b <;> rfl
@[simp] theorem flush_alloc (f : Flush) (b : Bool) : (st.flush f b).alloc = st.alloc := by
  cases b <;> rfl
@[simp] theorem flush_info (f : Flush) (b : Bool) : (st.flush f b).info = st.info := by
  cases b <;> rfl
@[simp] theorem setInfo_nv (ino : Nat) (i : InodeInfo) : (st.setInfo ino i).nv = st.nv := rfl
@[simp] theorem setInfo_data (ino : Nat) (i : InodeInfo) : (st.setInfo ino i).data = st.data := rfl
@[simp] theorem setInfo_alloc (ino : Nat) (i : InodeInfo) :
    (st.setInfo ino i).alloc = st.alloc := rfl
@[simp] theorem setInfo_info (ino : Nat) (i : InodeInfo) :
    (st.setInfo ino i).info = Function.update st.info ino i := rfl

/-- A block is in use. -/
def InUse (st : State al) (x : Nat) : Prop := al.InUse st.alloc x

end State

section setNext

variable (st : State al) (page q : Nat) (b : Bool)

/-- A link is one store. -/
@[simp] theorem novaSetNextPageAddress_nv :
    (novaSetNextPageAddress st page q b).nv = st.nv.apply (.next page q) := by
  cases b <;> simp

@[simp] theorem novaSetNextPageAddress_data :
    (novaSetNextPageAddress st page q b).data = st.data := by
  cases b <;> simp

@[simp] theorem novaSetNextPageAddress_alloc :
    (novaSetNextPageAddress st page q b).alloc = st.alloc := by
  cases b <;> simp

@[simp] theorem novaSetNextPageAddress_info :
    (novaSetNextPageAddress st page q b).info = st.info := by
  cases b <;> simp

end setNext

end Themis.Log
