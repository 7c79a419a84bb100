/-
The invariant of a file: the committed entries stand for its page map
and size (`Replayable`), `invalid_pages` counts the pages an entry has
lost, and the blocks of its pages are its own.

It is carried over an entry appended to the log, with whatever
collection that triggers, over the mapping of a write entry, and over
the cut of a size change.
-/
import Themis.Lib.Owned
import Themis.Proofs.File.Rebuild
import Themis.Proofs.Log.Open

namespace Themis.File

open Lib Log Option

variable {al : BlockAllocator} {st st' : State al} {ino size : Nat}
  {L P pages : List Nat} {R : Nat → Prop}
variable {kept : List (Nat × Nat)}

/-- A block of the log. -/
def LogBlock (pages : List Nat) (x : Nat) : Prop := x * PAGE_SIZE ∈ pages

/-- `invalid_pages` and the mapped pages make up each entry. -/
def Counted (nv : Nvmm) (tree : Nat → Option Nat) (L : List Nat) : Prop :=
  ∀ a ∈ L, ∀ e, nv.slot a = .fileWrite e →
    nv.invalid a + mapped tree a e.pgoff (e.pgoff + e.numPages) = e.numPages

/-- A file with the committed entries `L`, its log on `pages`, holding
the blocks `R` besides those of its pages. -/
structure FileInv (st : State al) (ino : Nat) (L pages : List Nat) (size : Nat)
    (R : Nat → Prop) : Prop where
  replayable : Replayable st.nv.slot (st.info ino).tree.get size
    (st.nv.record ino).iSize L
  counted : Counted st.nv (st.info ino).tree.get L
  owned : Owned st.InUse (LogBlock pages) (pageMap st ino) R

/-- An entry that has lost all its pages is mapped nowhere. -/
theorem Counted.unmapped {nv : Nvmm} {tree : Nat → Option Nat} {a i : Nat}
    {e : FileWriteEntry} (h : Counted nv tree L) (ha : a ∈ L)
    (he : nv.slot a = .fileWrite e) (hdead : e.numPages = nv.invalid a)
    (hkey : tree i = some a → e.pgoff ≤ i ∧ i < e.pgoff + e.numPages) : tree i ≠ some a := by
  intro hi
  have hcount := h a ha e he
  have hzero : mapped tree a e.pgoff (e.pgoff + e.numPages) = 0 := by omega
  rw [mapped, Finset.card_eq_zero, Finset.filter_eq_empty_iff] at hzero
  exact hzero (Finset.mem_Ico.2 (hkey hi)) hi

/-- Moving entries moves no page. -/
theorem pageMap_moved (hm : Moves st st' ino L kept)
    (hkept : ∀ i a, (st.info ino).tree.get i = some a →
      a ∈ kept.map Prod.fst) : pageMap st' ino = pageMap st ino := by
  funext i
  simp only [pageMap, hm.tree i]
  cases hget : (st.info ino).tree.get i with
  | none => rfl
  | some a =>
    have hpair := reloc_mem (hkept i a hget)
    obtain ⟨hslot, -⟩ := hm.same _ hpair
    simp [getNvmm, entryAt, hslot]

/-- Moved entries map as much. -/
theorem mapped_moved (hm : Moves st st' ino L kept) (hL : L.Nodup) (hn : (kept.map Prod.snd).Nodup)
    (hkept : ∀ i a, (st.info ino).tree.get i = some a →
      a ∈ kept.map Prod.fst) {q : Nat × Nat} (hq : q ∈ kept) (lo hi : Nat) :
    mapped (st'.info ino).tree.get q.2 lo hi = mapped (st.info ino).tree.get q.1 lo hi := by
  have hfst : (kept.map Prod.fst).Nodup := hm.sub.nodup hL
  unfold mapped
  congr 1
  apply Finset.filter_congr
  intro i _
  rw [hm.tree i]
  constructor
  · intro hi
    obtain ⟨a, ha, hr⟩ := map_eq_some_iff.1 hi
    have hpair := reloc_mem (hkept i a ha)
    rw [hr] at hpair
    have heq := List.inj_on_of_nodup_map hn hpair hq rfl
    rw [ha, show a = q.1 from congrArg Prod.fst heq]
  intro hi
  have hpair := reloc_mem (List.mem_map.2 ⟨q, hq, rfl⟩)
  have heq := List.inj_on_of_nodup_map hfst hpair hq rfl
  rw [hi, map_some, show reloc kept q.1 = q.2 from congrArg Prod.snd heq]

-- === mapped pages

/-- What holds of the pages of a file, wherever its size is: the tree
refers to committed write entries that cover the page, they count what
they have lost, and the blocks are the file's own. -/
structure PagesInv (st : State al) (ino : Nat) (L pages : List Nat) (R : Nat → Prop) :
    Prop where
  member : ∀ i a, (st.info ino).tree.get i = some a → a ∈ L
  entry : ∀ i a, (st.info ino).tree.get i = some a →
    st.nv.slot a = .fileWrite (entryAt st.nv a) ∧ (entryAt st.nv a).pgoff ≤ i ∧
      i < (entryAt st.nv a).pgoff + (entryAt st.nv a).numPages
  counted : Counted st.nv (st.info ino).tree.get L
  owned : Owned st.InUse (LogBlock pages) (pageMap st ino) R

namespace PagesInv

variable {i b : Nat} {R' : Nat → Prop} {kept : List (Nat × Nat)}

variable (h : PagesInv st ino L pages R)
include h

/-- The tree refers to entries under their keys. -/
theorem keysOk : KeysOk st.nv (st.info ino).tree := by
  intro i a hi
  obtain ⟨hs, hrange⟩ := h.entry i a hi
  rw [hs]
  exact hrange

/-- Entries start in front of their pages. -/
theorem startsOk : StartsOk st ino :=
  fun i a hi => (h.entry i a hi).2.1

/-- A mapped page is covered by its entry. -/
theorem key {e : FileWriteEntry} (he : st.nv.slot b = .fileWrite e)
    (hi : (st.info ino).tree.get i = some b) : e.pgoff ≤ i ∧ i < e.pgoff + e.numPages := by
  have hentry : entryAt st.nv b = e := by simp [entryAt, he]
  rw [← hentry]
  exact (h.entry i b hi).2

/-- Only these parts matter. -/
theorem congr (hslot : st'.nv.slot = st.nv.slot) (hinv : st'.nv.invalid = st.nv.invalid)
    (halloc : st'.alloc = st.alloc) (htree : (st'.info ino).tree = (st.info ino).tree) :
    PagesInv st' ino L pages R := by
  have hentry : ∀ a, entryAt st'.nv a = entryAt st.nv a := by
    intro a
    rw [entryAt, entryAt, hslot]
  have hmap : pageMap st' ino = pageMap st ino := by
    funext i
    simp only [pageMap, htree, getNvmm, hentry]
  refine ⟨?_, ?_, ?_, ?_⟩
  · rw [htree]
    exact h.member
  · intro i a hi
    rw [htree] at hi
    rw [hentry, hslot]
    exact h.entry i a hi
  · intro a ha e he
    rw [hslot] at he
    rw [hinv, htree]
    exact h.counted a ha e he
  rw [hmap, show st'.InUse = st.InUse by
    funext x
    rw [State.InUse, State.InUse, halloc]]
  exact h.owned

/-- The held blocks, said otherwise. -/
theorem held_congr (hR : ∀ x, R' x ↔ R x) : PagesInv st ino L pages R' := by
  have heq : R' = R := funext fun x => propext (hR x)
  rw [heq]
  exact h

/-- Blocks are let go. -/
theorem drop (hR : ∀ x, R' x → R x) : PagesInv st ino L pages R' where
  member := h.member
  entry := h.entry
  counted := h.counted
  owned := ⟨h.owned.used, h.owned.inj, fun x hx => h.owned.hold x (hR x hx),
    fun i x hi hx => h.owned.apart i x hi (hR x hx)⟩

/-- A mapped entry is not dropped. -/
theorem kept_of_mapped (hm : Moves st st' ino L kept) {a : Nat}
    (hi : (st.info ino).tree.get i = some a) : a ∈ kept.map Prod.fst := by
  by_contra hnot
  have ha := h.member i a hi
  have hexp := hm.dropped a ha hnot
  obtain ⟨hs, -⟩ := h.entry i a hi
  rw [Expendable, hs] at hexp
  exact h.counted.unmapped ha hs hexp (h.key hs) hi

/-- What is mapped was mapped before. -/
theorem moved (hm : Moves st st' ino L kept) (hi : (st'.info ino).tree.get i = some b) :
    ∃ a, (st.info ino).tree.get i = some a ∧ (a, b) ∈ kept ∧
      entryAt st'.nv b = entryAt st.nv a := by
  rw [hm.tree i] at hi
  obtain ⟨a, ha, rfl⟩ := map_eq_some_iff.1 hi
  have hpair := reloc_mem (h.kept_of_mapped hm ha)
  have hslot := (hm.same _ hpair).1
  exact ⟨a, ha, hpair, by rw [entryAt, entryAt, hslot]⟩

/-- One more entry in the log. -/
theorem grown {p : Nat} {e : LogEntry} {L' pages' : List Nat}
    (hL : L.Nodup) (hg : Grown st st' ino L P pages p e L' pages' kept) (hn : L'.Nodup) :
    PagesInv st' ino L' pages' R ∧ pageMap st' ino = pageMap st ino := by
  have hm := hg.moves
  have hkept : ∀ i a, (st.info ino).tree.get i = some a →
      a ∈ kept.map Prod.fst := fun i a hi => h.kept_of_mapped hm hi
  have hmap := pageMap_moved hm hkept
  rw [hg.ents] at hn
  refine ⟨⟨?_, ?_, ?_, ?_⟩, hmap⟩
  · intro i b hi
    obtain ⟨a, -, hpair, -⟩ := h.moved hm hi
    rw [hg.ents]
    exact List.mem_map.2 ⟨_, hpair, rfl⟩
  · intro i b hi
    obtain ⟨a, ha, hpair, hentry⟩ := h.moved hm hi
    rw [hentry, (hm.same _ hpair).1]
    exact h.entry i a ha
  · intro b hb e' he'
    rw [hg.ents] at hb
    obtain ⟨q, hq, rfl⟩ := List.mem_map.1 hb
    obtain ⟨hslot, hinv⟩ := hm.same q hq
    have hq1 : q.1 ∈ kept.map Prod.fst := List.mem_map.2 ⟨q, hq, rfl⟩
    rw [hslot] at he'
    rw [hinv, mapped_moved hm hL hn hkept hq]
    exact h.counted q.1 (hm.sub.subset hq1) e' he'
  rw [hmap]
  apply h.owned.change
  · intro x hx hlog
    exact hg.inUse x hx hlog
  intro x hx
  rcases hg.fresh _ hx with hp | hp
  · exact .inl hp
  · right
    rwa [Nat.mul_div_cancel x (by decide : 0 < PAGE_SIZE)] at hp

/-- A pending entry is assigned. -/
theorem assign {p : Nat} {e : FileWriteEntry} (hp : p ∉ L)
    (he : st.nv.slot p = .fileWrite e) (hinv : st.nv.invalid p = 0)
    (hheld : ∀ k, k < e.numPages → R (e.block + k)) :
    PagesInv (novaAssignWriteEntry st ino p true) ino (L ++ [p]) pages
        (fun x => R x ∧ ¬ (e.block ≤ x ∧ x < e.block + e.numPages)) ∧
      Assigned st (novaAssignWriteEntry st ino p true) ino p e.pgoff e.numPages ∧
      (∀ i, pageMap (novaAssignWriteEntry st ino p true) ino i
        = if e.pgoff ≤ i ∧ i < e.pgoff + e.numPages
          then some (e.block + i - e.pgoff) else pageMap st ino i) ∧
      (∀ b, (∀ i, (st.info ino).tree.get i ≠ some b) →
        (novaAssignWriteEntry st ino p true).nv.invalid b = st.nv.invalid b) ∧
      ∀ x, LogBlock pages x → st.InUse x → (novaAssignWriteEntry st ino p true).InUse x := by
  have hentry : entryAt st.nv p = e := by simp [entryAt, he]
  have hnew : ∀ i, (st.info ino).tree.get i ≠ some p := fun i hi =>
    hp (h.member i p hi)
  have hres : Assigned st (novaAssignWriteEntry st ino p true) ino p e.pgoff
      e.numPages := by
    simp only [novaAssignWriteEntry, hentry]
    apply assignLoop_free
    · exact fun i x _ _ hx => (h.owned.used i x hx).1
    · exact fun i j x _ _ _ _ hi hj => h.owned.inj i j x hi hj
  have hfresh := hres.fresh fun i _ _ => hnew i
  have hmap : ∀ i, pageMap (novaAssignWriteEntry st ino p true) ino i
      = if e.pgoff ≤ i ∧ i < e.pgoff + e.numPages
        then some (e.block + i - e.pgoff) else pageMap st ino i := by
    intro i
    have ht := hres.tree i
    split
    · rename_i hr
      rw [if_pos hr] at ht
      rw [pageMap_some ht, hres.only.getNvmm, getNvmm, hentry]
    rename_i hr
    rw [if_neg hr] at ht
    exact hres.only.pageMap ht
  refine ⟨⟨?_, ?_, ?_, ?_⟩, hres, hmap, ?_, ?_⟩
  · intro i a hi
    rw [hres.tree i] at hi
    split at hi
    · rw [← some.inj hi]
      simp
    · exact List.mem_append_left _ (h.member i a hi)
  · intro i a hi
    rw [hres.tree i] at hi
    rw [hres.only.slot, hres.only.entryAt]
    split at hi
    · rename_i hr
      rw [← some.inj hi, hentry]
      exact ⟨he, hr⟩
    · exact h.entry i a hi
  · intro b hb e' he'
    rw [hres.only.slot] at he'
    rcases List.mem_append.1 hb with hb | hb
    · have hbp : b ≠ p := fun heq => hp (heq ▸ hb)
      have hkeys : ∀ i, (st.info ino).tree.get i = some b →
          e'.pgoff ≤ i ∧ i < e'.pgoff + e'.numPages := fun i hi => h.key he' hi
      have hin : ∀ i, e.pgoff ≤ i → i < e.pgoff + e.numPages →
          ((novaAssignWriteEntry st ino p true).info ino).tree.get i ≠ some b := by
        intro i h1 h2
        rw [hres.tree i, if_pos ⟨h1, h2⟩]
        intro heq
        exact hbp (some.inj heq).symm
      have htaken := mapped_taken hkeys hin fun i hi => by rw [hres.tree i, if_neg hi]
      rw [hres.invalid b hbp]
      have := h.counted b hb e' he'
      omega
    rw [List.mem_singleton] at hb
    subst hb
    rw [he, LogEntry.fileWrite.injEq] at he'
    subst he'
    -- all its pages are mapped to it
    have hall : mapped ((novaAssignWriteEntry st ino b true).info ino).tree.get b
        e.pgoff (e.pgoff + e.numPages) = e.numPages := by
      rw [mapped, Finset.filter_true_of_mem]
      · rw [Nat.card_Ico, Nat.add_sub_cancel_left]
      intro i hi
      rw [Finset.mem_Ico] at hi
      rw [hres.tree i, if_pos hi]
    rw [hfresh, hinv, hall, Nat.zero_add]
  · exact h.owned.assign hheld hmap hres.inUse
  · intro b hb
    by_cases hbp : b = p
    · rw [hbp]
      exact hfresh
    rw [hres.invalid b hbp]
    have hzero : mapped (st.info ino).tree.get b e.pgoff
        (e.pgoff + e.numPages) = 0 := by
      rw [mapped, Finset.card_eq_zero, Finset.filter_eq_empty_iff]
      exact fun i _ => hb i
    rw [hzero, Nat.add_zero]
  intro x hx hu
  refine (hres.inUse x).2 ⟨hu, ?_⟩
  intro i _ _ hi
  exact (h.owned.used i x hi).2.2 hx

/-- Any range can be deleted. -/
theorem removable (first last : Nat) : Removable st ino first last ⟨0, 0, 0⟩ where
  starts := h.startsOk
  room a ha := by
    obtain ⟨i, -, -, hi⟩ := ha
    obtain ⟨hs, -⟩ := h.entry i a hi
    have hcount := h.counted a (h.member i a hi) _ hs
    have hle : mapped (st.info ino).tree.get a first (last + 1)
        ≤ mapped (st.info ino).tree.get a (entryAt st.nv a).pgoff
          ((entryAt st.nv a).pgoff + (entryAt st.nv a).numPages) := by
      apply Finset.card_le_card
      intro j hj
      obtain ⟨-, hj⟩ := Finset.mem_filter.1 hj
      obtain ⟨-, h1, h2⟩ := h.entry j a hj
      exact Finset.mem_filter.2 ⟨Finset.mem_Ico.2 ⟨h1, h2⟩, hj⟩
    omega
  inUse i x _ _ hx := by
    obtain ⟨h1, h2, -⟩ := h.owned.used i x hx
    exact ⟨h1, by omega⟩
  inj i j x _ _ _ _ hi hj := h.owned.inj i j x hi hj
  held x hx := absurd rfl hx.1

/-- A range was deleted. -/
theorem deleted {first last : Nat}
    (hd : Deleted st st' ino first last) : PagesInv st' ino L pages R := by
  have hback : ∀ i a, (st'.info ino).tree.get i = some a → (st.info ino).tree.get i = some a := by
    intro i a hi
    rw [hd.tree i] at hi
    split at hi
    · cases hi
    · exact hi
  refine ⟨fun i a hi => h.member i a (hback i a hi), ?_, ?_, ?_⟩
  · intro i a hi
    rw [hd.only.slot, hd.only.entryAt]
    exact h.entry i a (hback i a hi)
  · intro b hb e he
    rw [hd.only.slot] at he
    have hkeys : ∀ i, (st.info ino).tree.get i = some b →
        e.pgoff ≤ i ∧ i < e.pgoff + e.numPages := fun i hi => h.key he hi
    have hin : ∀ i, first ≤ i → i < last + 1 → (st'.info ino).tree.get i ≠ some b := by
      intro i h1 h2
      rw [hd.tree i, if_pos ⟨h1, by omega⟩]
      simp
    have htaken := mapped_taken hkeys hin fun i hi => by rw [hd.tree i, if_neg (by omega)]
    rw [hd.invalid b]
    have := h.counted b hb e he
    omega
  apply h.owned.cut (S := fun i => first ≤ i ∧ i ≤ last)
  · intro i hi
    apply pageMap_none
    rw [hd.tree i, if_pos hi]
  · intro i hi
    apply hd.only.pageMap
    rw [hd.tree i, if_neg hi]
  intro x
  rw [hd.inUse x]
  apply and_congr_right
  intro _
  constructor
  · exact fun hx i hi => hx i hi.1 hi.2
  · exact fun hx i h1 h2 => hx i ⟨h1, h2⟩

end PagesInv

namespace FileInv

variable {a : Nat}

variable (h : FileInv st ino L pages size R)
include h

/-- The tree refers to entries of the log. -/
theorem tree_mem : ∀ i a, (st.info ino).tree.get i = some a → a ∈ L :=
  fun _ _ hi => (h.replayable.mem hi).1

/-- A mapped page has a write entry that covers it. -/
theorem entry {i : Nat} (hi : (st.info ino).tree.get i = some a) :
    st.nv.slot a = .fileWrite (entryAt st.nv a) ∧ (entryAt st.nv a).pgoff ≤ i ∧
      i < (entryAt st.nv a).pgoff + (entryAt st.nv a).numPages := by
  obtain ⟨e, he, h1, h2⟩ := h.replayable.fileWrite hi
  have hentry : entryAt st.nv a = e := by simp [entryAt, he]
  rw [hentry]
  exact ⟨he, h1, h2⟩

/-- The part about pages. -/
theorem pagesInv : PagesInv st ino L pages R :=
  ⟨h.tree_mem, fun _ _ hi => h.entry hi, h.counted, h.owned⟩

/-- Only these parts matter. -/
theorem congr (hslot : st'.nv.slot = st.nv.slot) (hinv : st'.nv.invalid = st.nv.invalid)
    (hrec : st'.nv.record ino = st.nv.record ino) (halloc : st'.alloc = st.alloc)
    (htree : (st'.info ino).tree = (st.info ino).tree) : FileInv st' ino L pages size R := by
  have hpages := h.pagesInv.congr hslot hinv halloc htree
  refine ⟨?_, hpages.counted, hpages.owned⟩
  rw [hslot, htree, hrec]
  exact h.replayable

/-- An expendable entry can be dropped. -/
theorem droppable (ha : a ∈ L) (hexp : Expendable st.nv a) :
    Replayable.Droppable st.nv.slot (st.info ino).tree.get a := by
  unfold Expendable at hexp
  unfold Replayable.Droppable
  cases hs : st.nv.slot a with
  | fileWrite e =>
    rw [hs] at hexp
    exact fun i => h.counted.unmapped ha hs hexp (h.pagesInv.key hs)
  | setAttr e =>
    rw [hs] at hexp
    exact hexp
  | _ => trivial

/-- One more entry in the log. -/
theorem grown {p : Nat} {e : LogEntry} {L' pages' : List Nat}
    {kept : List (Nat × Nat)} (hg : Grown st st' ino L P pages p e L' pages' kept) (hn : L'.Nodup) :
    FileInv st' ino L' pages' size R ∧ pageMap st' ino = pageMap st ino := by
  have hm := hg.moves
  obtain ⟨hpages, hmap⟩ := h.pagesInv.grown h.replayable.nodup hg hn
  rw [hg.ents] at hn
  have hmoved : Replayable st'.nv.slot (st'.info ino).tree.get size
      (st.nv.record ino).iSize (kept.map Prod.snd) := by
    apply Replayable.move _ (fun q hq => (hm.same q hq).1) hn hm.tree
    apply h.replayable.drop hm.sub
    exact fun a ha hnot => h.droppable ha (hm.dropped a ha hnot)
  refine ⟨⟨?_, hpages.counted, hpages.owned⟩, hmap⟩
  rw [hg.ents, hg.record]
  exact hmoved

end FileInv

end Themis.File
