/-
The log of an inode: an open log that starts at `log_head`, with the
committed tail somewhere on its pages, every page of it in use.

The pages `A` lie in front of the page of the committed tail; only these
are collected. `B` and `T` are the tail page and what was written behind
it, `rest` pages linked but not used yet.
-/
import Themis.Proofs.Log.Moves

namespace Themis.Log

open Lib List

variable {al : BlockAllocator}

/-- From the tail page to the end of the chain. -/
def tailPages (B : List Page) (T : Page) (rest : List Nat) : List Nat :=
  basesOf B ++ T.base :: rest

/-- There is a tail page. -/
theorem tailPages_ne_nil (B : List Page) (T : Page) (rest : List Nat) :
    tailPages B T rest ≠ [] := by simp [tailPages]

/-- The tail page is the first of them. -/
theorem head_mem_tailPages (B : List Page) (T : Page) (rest : List Nat) :
    (tailPages B T rest).headD 0 ∈ tailPages B T rest := by cases B <;> simp [tailPages]

/-- The log of an inode. -/
structure LogInv (st : State al) (ino : Nat) (A B : List Page) (T : Page)
    (rest : List Nat) : Prop where
  log : OpenLog st.nv (A ++ B) T rest
  head : st.nv.logHead ino = (basesOf A ++ tailPages B T rest).headD 0
  tail : blockOff (st.nv.logTail ino) = (tailPages B T rest).headD 0
  inUse : ∀ p ∈ basesOf A ++ tailPages B T rest, st.InUse (p / PAGE_SIZE)
  onDevice : ∀ p ∈ basesOf A ++ tailPages B T rest,
    p / PAGE_SIZE < al.numBlocks
  count : (basesOf A ++ tailPages B T rest).length ≤ (st.info ino).logPages

namespace LogInv

variable {st st' : State al} {ino : Nat} {A B : List Page} {T : Page}
  {rest : List Nat}

/-- The pages of a log, from the head and from the tail. -/
theorem pages_eq (A B : List Page) (T : Page) (rest : List Nat) :
    basesOf (A ++ B) ++ T.base :: rest = basesOf A ++ tailPages B T rest := by simp [tailPages]

variable (h : LogInv st ino A B T rest)
include h

/-- The pages are linked. -/
theorem chain : Linked st.nv.next (basesOf A ++ tailPages B T rest) 0 := by
  rw [← pages_eq]
  exact h.log.chain

/-- No page twice. -/
theorem nodup : (basesOf A ++ tailPages B T rest).Nodup := by
  rw [← pages_eq]
  exact h.log.nodup

/-- All of them are pages. -/
theorem isPage {p : Nat} (hp : p ∈ basesOf A ++ tailPages B T rest) : IsPage p := by
  rw [← pages_eq] at hp
  exact h.log.isPage hp

/-- The pages in front of the tail page are full. -/
theorem full {w : Page} (hw : w ∈ A) : w.Sealed st.nv := h.log.full w (mem_append_left _ hw)

/-- The tail lies in the tail page. -/
theorem tail_div : st.nv.logTail ino / PAGE_SIZE = (tailPages B T rest).headD 0 / PAGE_SIZE := by
  rw [← h.tail]
  simp only [blockOff, PAGE_SIZE]
  omega

/-- They are other pages than the tail page. -/
theorem base_ne_tail {w : Page} (hw : w ∈ A) : w.base ≠ (tailPages B T rest).headD 0 := by
  have hn := h.nodup
  rw [nodup_append] at hn
  exact hn.2.2 w.base (mem_basesOf.2 ⟨w, hw, rfl⟩) _ (head_mem_tailPages B T rest)

/-- The log has a head. -/
theorem head_pos : 0 < st.nv.logHead ino := by
  rw [h.head]
  have hmem : (basesOf A ++ tailPages B T rest).headD 0 ∈ basesOf A ++ tailPages B T rest := by
    cases A with
    | nil => exact head_mem_tailPages B T rest
    | cons w A => simp
  exact (h.isPage hmem).2

/-- Other pages stand in front of the tail page. -/
theorem replace {A' : List Page} (hfull : ∀ w ∈ A', w.Sealed st'.nv)
    (hchain : Linked st'.nv.next (basesOf A' ++ tailPages B T rest) 0)
    (hnodup : (basesOf A' ++ tailPages B T rest).Nodup)
    (hslot : ∀ a, blockOff a ∈ tailPages B T rest → st'.nv.slot a = st.nv.slot a)
    (hhead : st'.nv.logHead ino = (basesOf A' ++ tailPages B T rest).headD 0)
    (htail : st'.nv.logTail ino = st.nv.logTail ino)
    (huse : ∀ p ∈ basesOf A' ++ tailPages B T rest, st'.InUse (p / PAGE_SIZE))
    (hdev : ∀ p ∈ basesOf A', p / PAGE_SIZE < al.numBlocks)
    (hcount : (basesOf A' ++ tailPages B T rest).length
      ≤ (st'.info ino).logPages) : LogInv st' ino A' B T rest where
  log := by
    refine ⟨?_, ?_, ?_, ?_, h.log.spare⟩
    · rw [pages_eq]
      exact hchain
    · rw [pages_eq]
      exact hnodup
    · intro w hw
      rcases mem_append.1 hw with hw | hw
      · exact hfull w hw
      apply (h.log.full w (mem_append_right _ hw)).of_page
      intro a ha
      apply hslot
      rw [ha]
      exact mem_append_left _ (mem_basesOf.2 ⟨w, hw, rfl⟩)
    apply h.log.last.of_page
    intro a ha
    apply hslot
    rw [ha]
    simp [tailPages]
  head := hhead
  tail := by
    rw [htail]
    exact h.tail
  inUse := huse
  onDevice p hp := by
    rcases mem_append.1 hp with hp | hp
    · exact hdev p hp
    · exact h.onDevice p (mem_append_right _ hp)
  count := hcount

end LogInv

-- === collections

/-- What a collection leaves: the pages `A` in front of the tail page
are replaced by `A'`, whose entries are those of `A` moved along `kept`.
Pages in use other than `A` stay in use and keep their contents, and
their links except those in `X`. -/
structure Collected (st st' : State al) (ino : Nat) (A A' : List Page)
    (X : List Nat) (kept : List (Nat × Nat)) : Prop where
  moves : Moves st st' ino (entsOf A) kept
  ents : entsOf A' = kept.map Prod.snd
  slot : ∀ a, st.InUse (a / PAGE_SIZE) → blockOff a ∉ basesOf A →
    st'.nv.slot a = st.nv.slot a
  invalid : ∀ a, st.InUse (a / PAGE_SIZE) → blockOff a ∉ basesOf A →
    st'.nv.invalid a = st.nv.invalid a
  next : ∀ b, IsPage b → st.InUse (b / PAGE_SIZE) → b ∉ basesOf A → b ∉ X →
    st'.nv.next b = st.nv.next b
  logHead : ∀ j, j ≠ ino → st'.nv.logHead j = st.nv.logHead j
  logTail : st'.nv.logTail = st.nv.logTail
  record : st'.nv.record = st.nv.record
  data : st'.data = st.data
  others : ∀ j, j ≠ ino → st'.info j = st.info j
  sihSize : (st'.info ino).sihSize = (st.info ino).sihSize
  iSize : (st'.info ino).iSize = (st.info ino).iSize
  attrs : (st'.info ino).attrs = (st.info ino).attrs
  inUse : ∀ x, st.InUse x → x * PAGE_SIZE ∉ basesOf A → st'.InUse x
  fresh : ∀ b ∈ basesOf A', b ∈ basesOf A ∨ ¬ st.InUse (b / PAGE_SIZE)
  unmoved : (∀ b ∈ basesOf A, b ∈ basesOf A') →
    A' = A ∧ kept = stay (entsOf A)
  setattr : SetattrFollows st st' ino (entsOf A) kept

/-- A collection is nobody's size. -/
theorem Collected.owner {st st' : State al} {ino : Nat} {A A' : List Page} {X : List Nat}
    {kept : List (Nat × Nat)} (h : Collected st st' ino A A' X kept) : OwnerOnly ino st st' :=
  ⟨h.logHead, h.record, h.data, h.others, h.sihSize, h.iSize, h.attrs⟩

/-- Dropping pages, then a collection of the rest. -/
theorem Collected.trans {st st1 st' : State al} {ino : Nat}
    {A K A' : List Page} {X Y : List Nat} {kept : List (Nat × Nat)}
    (h1 : Collected st st1 ino A K X (stay (entsOf K))) (hKA : ∀ b ∈ basesOf K, b ∈ basesOf A)
    (hpage : ∀ b ∈ basesOf A', IsPage b)
    (hlast : (st1.info ino).lastSetattr = (st.info ino).lastSetattr)
    (hkeep : (st.info ino).lastSetattr ∈ entsOf A →
      (st.nv.slot (st.info ino).lastSetattr).isSetAttr = true →
      (st.info ino).lastSetattr ∈ entsOf K) (h : Collected st1 st' ino K A' Y kept) :
    Collected st st' ino A A' (X ++ Y) kept := by
  have huse : ∀ a, st.InUse (a / PAGE_SIZE) → blockOff a ∉ basesOf A →
      st1.InUse (a / PAGE_SIZE) ∧ blockOff a ∉ basesOf K := by
    intro a ha hA
    refine ⟨h1.inUse _ ha ?_, fun hK => hA (hKA _ hK)⟩
    exact hA
  have ho := h1.owner.trans h.owner
  refine ⟨h1.moves.drop_then h.moves, h.ents, ?_, ?_, ?_, ho.logHead, h.logTail.trans h1.logTail,
    ho.record, ho.data, ho.others, ho.sihSize, ho.iSize, ho.attrs, ?_, ?_, ?_, ?_⟩
  · intro a ha hA
    obtain ⟨h2, h3⟩ := huse a ha hA
    rw [h.slot a h2 h3, h1.slot a ha hA]
  · intro a ha hA
    obtain ⟨h2, h3⟩ := huse a ha hA
    rw [h.invalid a h2 h3, h1.invalid a ha hA]
  · intro b hb hbu hA hX
    rw [mem_append, not_or] at hX
    have hoff : blockOff b = b := div_mul_page hb
    obtain ⟨h2, h3⟩ := huse b hbu (by rw [hoff]; exact hA)
    rw [hoff] at h3
    rw [h.next b hb h2 h3 hX.2, h1.next b hb hbu hA hX.1]
  · intro x hx hA
    exact h.inUse x (h1.inUse x hx hA) fun hK => hA (hKA _ hK)
  · intro b hb
    rcases h.fresh b hb with hK | hnot
    · exact .inl (hKA b hK)
    by_cases hA : b ∈ basesOf A
    · exact .inl hA
    refine .inr fun hu => hnot (h1.inUse _ hu ?_)
    rw [div_mul_page (hpage b hb)]
    exact hA
  · intro hall
    obtain ⟨hA', hkept⟩ := h.unmoved fun b hb => hall b (hKA b hb)
    obtain ⟨hK, -⟩ := h1.unmoved fun b hb => by
      rw [← hA']
      exact hall b hb
    exact ⟨hA'.trans hK, by rw [hkept, hK]⟩
  refine h.setattr.drop_then ?_ ?_ hlast hkeep
  · intro q hq
    exact h.moves.sub.subset (List.mem_map.2 ⟨q, hq, rfl⟩)
  · intro a ha
    exact (h1.moves.same (a, a) (List.mem_map.2 ⟨a, ha, rfl⟩)).1

end Themis.Log
