/-
The invariant of a directory.

# The records

A record is valid at the hash of its name if it added the name and was not
marked since (`ValidAt`). Behind a valid record there is no other one with
its hash, neither of an addition nor of a removal (`Listed`).

The tree holds exactly the valid records (`DirAt.tree`), so a rebuild that
skips marked records finds no name twice, and a removal that it replays
finds nothing to remove.

# Collections

A collection never drops a valid record, and keeps the others in order
(`Listed.moves`). The records of "." and ".." stay at the head of the log,
next to each other (`Heads`).
-/
import Themis.Dir
import Themis.Proofs.File.Write

namespace Themis.Dir

open Lib Log File List

variable {al : BlockAllocator} {U : Set (List UInt8)} {nv nv' : Nvmm}
  {L P pages : List Nat} {a p i : Nat}

-- === records

/-- A valid record with a name of hash `i`. -/
def ValidAt (nv : Nvmm) (i a : Nat) : Prop :=
  ∃ d, nv.slot a = .dirLog d ∧ d.ino ≠ 0 ∧ nv.invalid a = 0 ∧ bkdrHash d.name = i

/-- A removal record of hash `i`. -/
def RemovesAt (nv : Nvmm) (i a : Nat) : Prop :=
  ∃ d, nv.slot a = .dirLog d ∧ d.ino = 0 ∧ bkdrHash d.name = i

/-- A record of hash `i`. -/
def NamedAt (nv : Nvmm) (i a : Nat) : Prop :=
  ∃ d, nv.slot a = .dirLog d ∧ bkdrHash d.name = i

/-- A directory record. -/
def IsRecord (nv : Nvmm) (a : Nat) : Prop := ∃ d, nv.slot a = .dirLog d

section

variable (h : ValidAt nv i a)
include h

/-- A valid record names its hash. -/
theorem ValidAt.namedAt : NamedAt nv i a := by
  obtain ⟨d, hd, -, -, hi⟩ := h
  exact ⟨d, hd, hi⟩

/-- A valid record is one. -/
theorem ValidAt.isRecord : IsRecord nv a := by
  obtain ⟨d, hd, -⟩ := h
  exact ⟨d, hd⟩

/-- A record has one hash. -/
theorem ValidAt.hash_eq {j : Nat} (h' : ValidAt nv j a) : i = j := by
  obtain ⟨d, hd, -, -, rfl⟩ := h
  obtain ⟨d', hd', -, -, rfl⟩ := h'
  rw [hd, LogEntry.dirLog.injEq] at hd'
  rw [hd']

/-- Only contents and mark matter. -/
theorem ValidAt.congr {b : Nat} (hslot : nv'.slot b = nv.slot a)
    (hinv : nv'.invalid b = nv.invalid a) : ValidAt nv' i b := by
  obtain ⟨d, hd, h0, hv, hi⟩ := h
  exact ⟨d, hslot.trans hd, h0, hinv.trans hv, hi⟩

end

/-- Only the contents matter. -/
theorem NamedAt.congr (h : NamedAt nv i a) {b : Nat}
    (hslot : nv'.slot b = nv.slot a) : NamedAt nv' i b := by
  obtain ⟨d, hd, hi⟩ := h
  exact ⟨d, hslot.trans hd, hi⟩

/-- Only the contents matter. -/
theorem IsRecord.congr (h : IsRecord nv a) {b : Nat} (hslot : nv'.slot b = nv.slot a) :
    IsRecord nv' b := by
  obtain ⟨d, hd⟩ := h
  exact ⟨d, hslot.trans hd⟩

/-- A valid record is not expendable. -/
theorem not_expendable_of_validAt (h : ValidAt nv i a) : ¬ Expendable nv a := by
  obtain ⟨d, hd, h0, hv, -⟩ := h
  unfold Expendable
  rw [hd]
  simp [h0, hv]

/-- A name of `U`, or one of the dots. -/
def Known (U : Set (List UInt8)) (name : List UInt8) : Prop :=
  name ∈ U ∨ name = dot ∨ name = dotdot

/-- Names that callers may use: not empty, not too long, not one of the
directory's own, and no two names with one hash. -/
structure Names (U : Set (List UInt8)) : Prop where
  pos : ∀ name ∈ U, 0 < name.length
  short : ∀ name ∈ U, name.length ≤ 255
  foreign : dot ∉ U ∧ dotdot ∉ U
  inj : ∀ m n, Known U m → Known U n → bkdrHash m = bkdrHash n → m = n

/-- An entry a directory may have. -/
def DirEntryOk (U : Set (List UInt8)) : LogEntry → Prop
  | .dirLog d => 0 < d.name.length ∧ Known U d.name
  | .setAttr e => isReg e.mode = false
  | .linkChange _ => True
  | _ => False

-- === lists of records

/-- How the records of a log stand to each other. -/
structure Listed (U : Set (List UInt8)) (nv : Nvmm) (L : List Nat) : Prop where
  ok : ∀ a ∈ L, DirEntryOk U (nv.slot a)
  once : L.Pairwise fun a b => ∀ i, ValidAt nv i a → ¬ NamedAt nv i b
  first : ∃ a ∈ L, ValidAt nv (bkdrHash dot) a ∧
    L.Pairwise fun x y => y = a → ¬ IsRecord nv x

namespace Listed

variable (h : Listed U nv L)
include h

/-- Entries that move stay listed. -/
theorem moves {sel : List (Nat × Nat)}
    (hsub : (sel.map Prod.fst).Sublist L) (hnodup : (sel.map Prod.snd).Nodup)
    (hsame : ∀ q ∈ sel, nv'.slot q.2 = nv.slot q.1 ∧ nv'.invalid q.2 = nv.invalid q.1)
    (hdrop : ∀ a ∈ L, a ∉ sel.map Prod.fst → ∀ i, ¬ ValidAt nv i a) :
    Listed U nv' (sel.map Prod.snd) := by
  have hback : ∀ q ∈ sel, ∀ i, ValidAt nv' i q.2 → ValidAt nv i q.1 := by
    intro q hq i hv
    obtain ⟨h1, h2⟩ := hsame q hq
    exact hv.congr h1.symm h2.symm
  refine ⟨?_, ?_, ?_⟩
  · intro b hb
    obtain ⟨q, hq, rfl⟩ := List.mem_map.1 hb
    rw [(hsame q hq).1]
    exact h.ok q.1 (hsub.subset (List.mem_map.2 ⟨q, hq, rfl⟩))
  · have hpair := pairwise_map.1 (h.once.sublist hsub)
    apply pairwise_map.2
    apply hpair.imp_of_mem
    intro q r hq hr hqr i hv hn
    exact hqr i (hback q hq i hv) (hn.congr (hsame r hr).1.symm)
  obtain ⟨a, ha, hv, hfirst⟩ := h.first
  have hmem : a ∈ sel.map Prod.fst := by
    by_contra hnot
    exact hdrop a ha hnot _ hv
  obtain ⟨q, hq, rfl⟩ := List.mem_map.1 hmem
  obtain ⟨h1, h2⟩ := hsame q hq
  refine ⟨q.2, List.mem_map.2 ⟨q, hq, rfl⟩, hv.congr h1 h2, ?_⟩
  have hpair := pairwise_map.1 (hfirst.sublist hsub)
  apply pairwise_map.2
  apply hpair.imp_of_mem
  intro x y hx hy hxy heq hrec
  -- one offset, one record
  have hyq : y = q := inj_on_of_nodup_map hnodup hy hq heq
  exact hxy (by rw [hyq]) (hrec.congr (hsame x hx).1.symm)

/-- One more entry. -/
theorem snoc (hp : p ∉ L) (hok : DirEntryOk U (nv.slot p))
    (hnew : ∀ x ∈ L, ∀ i, ValidAt nv i x → ¬ NamedAt nv i p) : Listed U nv (L ++ [p]) := by
  refine ⟨?_, ?_, ?_⟩
  · intro a ha
    rcases mem_append.1 ha with ha | ha
    · exact h.ok a ha
    · rw [mem_singleton.1 ha]
      exact hok
  · apply pairwise_append.2
    refine ⟨h.once, pairwise_singleton _ _, ?_⟩
    intro x hx y hy i hv
    rw [mem_singleton.1 hy]
    exact hnew x hx i hv
  obtain ⟨a, ha, hv, hfirst⟩ := h.first
  refine ⟨a, mem_append_left _ ha, hv, ?_⟩
  apply pairwise_append.2
  refine ⟨hfirst, pairwise_singleton _ _, ?_⟩
  intro x _ y hy heq
  rw [mem_singleton.1 hy] at heq
  exact absurd (heq ▸ ha) hp

/-- Fewer valid records. -/
theorem weaken (hslot : ∀ a ∈ L, nv'.slot a = nv.slot a)
    (hvalid : ∀ a ∈ L, ∀ i, ValidAt nv' i a → ValidAt nv i a)
    (hdot : ∀ a ∈ L, ValidAt nv (bkdrHash dot) a → ValidAt nv' (bkdrHash dot) a) :
    Listed U nv' L := by
  refine ⟨?_, ?_, ?_⟩
  · intro a ha
    rw [hslot a ha]
    exact h.ok a ha
  · apply h.once.imp_of_mem
    intro x y hx hy hxy i hv hn
    exact hxy i (hvalid x hx i hv) (hn.congr (hslot y hy).symm)
  obtain ⟨f, hf, hv, hfirst⟩ := h.first
  refine ⟨f, hf, hdot f hf hv, ?_⟩
  apply hfirst.imp_of_mem
  intro x y hx _ hxy heq hrec
  exact hxy heq (hrec.congr (hslot x hx).symm)

/-- Only contents and marks matter. -/
theorem congr
    (hsame : ∀ a ∈ L, nv'.slot a = nv.slot a ∧ nv'.invalid a = nv.invalid a) : Listed U nv' L := by
  apply h.weaken fun a ha => (hsame a ha).1
  · intro a ha i hv
    exact hv.congr (hsame a ha).1.symm (hsame a ha).2.symm
  · intro a ha hv
    exact hv.congr (hsame a ha).1 (hsame a ha).2

end Listed

-- === the first two records

/-- The log starts with the records of "." and "..", one right behind the
other. -/
def Heads (nv : Nvmm) (L : List Nat) : Prop :=
  ∃ a Y, L = a :: (a + 32) :: Y ∧
    (ValidAt nv (bkdrHash dot) a ∧ (nv.slot a).size = 32) ∧
    ValidAt nv (bkdrHash dotdot) (a + 32) ∧ (nv.slot (a + 32)).size = 32

namespace Heads

/-- More entries behind. -/
theorem append (h : Heads nv L) (P : List Nat) : Heads nv (L ++ P) := by
  obtain ⟨a, Y, rfl, hrest⟩ := h
  exact ⟨a, Y ++ P, rfl, hrest⟩

/-- Fewer valid records. -/
theorem weaken (h : Heads nv L) (hsize : ∀ a ∈ L, (nv'.slot a).size = (nv.slot a).size)
    (hvalid : ∀ a ∈ L, ∀ i, i = bkdrHash dot ∨ i = bkdrHash dotdot → ValidAt nv i a →
      ValidAt nv' i a) : Heads nv' L := by
  obtain ⟨a, Y, rfl, ⟨hdot, hs⟩, hdotdot, hs'⟩ := h
  refine ⟨a, Y, rfl, ⟨hvalid a (by simp) _ (.inl rfl) hdot, ?_⟩,
    hvalid _ (by simp) _ (.inr rfl) hdotdot, ?_⟩
  · rw [hsize a (by simp)]
    exact hs
  · rw [hsize (a + 32) (by simp)]
    exact hs'

/-- Only contents and marks matter. -/
theorem congr (h : Heads nv L)
    (hsame : ∀ a ∈ L, nv'.slot a = nv.slot a ∧ nv'.invalid a = nv.invalid a) : Heads nv' L := by
  apply h.weaken
  · intro a ha
    rw [(hsame a ha).1]
  · intro a ha i _ hv
    exact hv.congr (hsame a ha).1 (hsame a ha).2

/-- A sublist that keeps the first element. -/
theorem sublist_cons {α : Type} {a : α} {M L : List α} (h : M.Sublist (a :: L))
    (hn : (a :: L).Nodup) (ha : a ∈ M) : ∃ M', M = a :: M' ∧ M'.Sublist L := by
  cases h with
  | cons _ h => exact absurd (h.subset ha) (nodup_cons.1 hn).1
  | cons_cons _ h => exact ⟨_, rfl, h⟩

/-- The dots move first. -/
theorem moves {st st' : State al} {dir : Nat} {kept : List (Nat × Nat)}
    (h : Heads st.nv L) (hm : Moves st st' dir L kept) (hn : L.Nodup) :
    Heads st'.nv (kept.map Prod.snd) := by
  obtain ⟨a, Y, rfl, ⟨hdot, hs⟩, hdotdot, hs'⟩ := h
  have hkept : ∀ x ∈ a :: (a + 32) :: Y, ∀ i, ValidAt st.nv i x → x ∈ kept.map Prod.fst := by
    intro x hx i hv
    by_contra hnot
    exact not_expendable_of_validAt hv (hm.dropped x hx hnot)
  obtain ⟨M, hM, hsub⟩ := sublist_cons hm.sub hn (hkept a (by simp) _ hdot)
  have hmem : a + 32 ∈ M := by
    have hmem := hkept (a + 32) (by simp) _ hdotdot
    rw [hM] at hmem
    rcases mem_cons.1 hmem with heq | hmem
    · omega
    · exact hmem
  obtain ⟨M', rfl, -⟩ := sublist_cons hsub (nodup_cons.1 hn).2 hmem
  obtain ⟨q, k, rfl, hq, hM⟩ := map_eq_cons_iff.1 hM
  obtain ⟨r, k, rfl, hr, -⟩ := map_eq_cons_iff.1 hM
  have hpair := hm.pair q r k rfl
  obtain ⟨hq1, hq2⟩ := hm.same q (by simp)
  obtain ⟨hr1, hr2⟩ := hm.same r (by simp)
  rw [hq] at hpair hq1 hq2
  rw [hr] at hpair hr1 hr2
  rw [hs, hs'] at hpair
  have hnext := hpair rfl (by decide)
  refine ⟨q.2, k.map Prod.snd, by rw [hnext]; rfl, ⟨hdot.congr hq1 hq2, ?_⟩, ?_⟩
  · rw [hq1]
    exact hs
  · rw [hnext]
    exact ⟨hdotdot.congr hr1 hr2, by rw [hr1]; exact hs'⟩

end Heads

-- === the directory

variable {st st' : State al} {dir cur : Nat}

/-- The longest record. -/
def maxRecLen : Nat := novaDirLogRecLen 255

/-- The tree has exactly the valid records. -/
def TreeOk (st : State al) (dir : Nat) (L : List Nat) : Prop :=
  ∀ i a, (st.info dir).tree.get i = some a ↔ a ∈ L ∧ ValidAt st.nv i a

/-- A directory whose log holds the committed entries `L` and behind them
`P`; the next one goes to `cur`. -/
structure DirAt (U : Set (List UInt8)) (st : State al) (dir cur : Nat)
    (L P pages : List Nat) : Prop where
  log : LogAt st dir maxRecLen cur L P pages
  listed : Listed U st.nv (L ++ P)
  tree : TreeOk st dir (L ++ P)
  heads : Heads st.nv L

namespace DirAt

variable (h : DirAt U st dir cur L P pages)
include h

/-- The tree points at records of its keys. -/
theorem keysOk : KeysOk st.nv (st.info dir).tree := by
  intro i a ha
  obtain ⟨-, d, hd, -, -, hi⟩ := (h.tree i a).1 ha
  rw [hd]
  exact hi.symm

/-- The tree points into the log. -/
theorem tree_mem : ∀ i a, (st.info dir).tree.get i = some a → a ∈ L ++ P :=
  fun i a ha => ((h.tree i a).1 ha).1

/-- Only these parts matter. -/
theorem congr (hnv : st'.nv = st.nv)
    (halloc : st'.alloc = st.alloc) (htree : (st'.info dir).tree = (st.info dir).tree)
    (hpages : (st'.info dir).logPages = (st.info dir).logPages) :
    DirAt U st' dir cur L P pages := by
  refine ⟨?_, ?_, ?_, by rw [hnv]; exact h.heads⟩
  · apply h.log.congr
    · rw [hnv]
    · rw [hnv]
    · rw [hnv]
    · rw [hnv]
    · intro p hp
      rw [State.InUse, halloc]
      exact h.log.inUse p hp
    · exact hpages
  · rw [hnv]
    exact h.listed
  intro i a
  rw [htree, hnv]
  exact h.tree i a

/-- Growth keeps records and tree. -/
theorem grown {e : LogEntry} {L' pages' : List Nat} {kept : List (Nat × Nat)}
    (hg : Grown st st' dir L P pages p e L' pages' kept)
    (hnodup : (L' ++ P).Nodup) : Listed U st'.nv (L' ++ P) ∧ TreeOk st' dir (L' ++ P) := by
  have hn := h.log.nodup
  have hn' := nodup_append.1 hn
  have hfst : (kept ++ stay P).map Prod.fst = kept.map Prod.fst ++ P := by simp
  have hsnd : (kept ++ stay P).map Prod.snd = L' ++ P := by simp [hg.ents]
  have hsame : ∀ q ∈ kept ++ stay P,
      st'.nv.slot q.2 = st.nv.slot q.1 ∧ st'.nv.invalid q.2 = st.nv.invalid q.1 := by
    intro q hq
    rcases mem_append.1 hq with hq | hq
    · exact hg.moves.same q hq
    · obtain ⟨a, ha, rfl⟩ := List.mem_map.1 hq
      exact hg.pending a ha
  have hvalid : ∀ a ∈ L, ∀ i, ValidAt st.nv i a → a ∈ kept.map Prod.fst := by
    intro a ha i hv
    by_contra hnot
    exact not_expendable_of_validAt hv (hg.moves.dropped a ha hnot)
  constructor
  · rw [← hsnd]
    apply h.listed.moves
    · rw [hfst]
      exact hg.moves.sub.append (List.Sublist.refl P)
    · rw [hsnd]
      exact hnodup
    · exact hsame
    intro a ha hnot i hv
    rw [hfst, mem_append, not_or] at hnot
    rcases mem_append.1 ha with ha | ha
    · exact hnot.1 (hvalid a ha i hv)
    · exact hnot.2 ha
  intro i b
  rw [hg.moves.tree i, Option.map_eq_some_iff]
  have hfstn : (kept.map Prod.fst).Nodup := hg.moves.sub.nodup hn'.1
  constructor
  · rintro ⟨a, ha, rfl⟩
    obtain ⟨hmem, hv⟩ := (h.tree i a).1 ha
    rcases mem_append.1 hmem with hL | hP
    · have hpair := reloc_mem (hvalid a hL i hv)
      obtain ⟨h1, h2⟩ := hg.moves.same _ hpair
      refine ⟨mem_append_left _ ?_, hv.congr h1 h2⟩
      rw [hg.ents]
      exact List.mem_map.2 ⟨_, hpair, rfl⟩
    have hnot : a ∉ kept.map Prod.fst := fun hk =>
      hn'.2.2 a (hg.moves.sub.subset hk) a hP rfl
    rw [reloc_of_notMem hnot]
    obtain ⟨h1, h2⟩ := hg.pending a hP
    exact ⟨mem_append_right _ hP, hv.congr h1 h2⟩
  rintro ⟨hmem, hv⟩
  rcases mem_append.1 hmem with hL | hP
  · rw [hg.ents] at hL
    obtain ⟨q, hq, rfl⟩ := List.mem_map.1 hL
    obtain ⟨h1, h2⟩ := hg.moves.same q hq
    have hk : q.1 ∈ kept.map Prod.fst := List.mem_map.2 ⟨q, hq, rfl⟩
    have hqL := hg.moves.sub.subset hk
    refine ⟨q.1, (h.tree i q.1).2 ⟨mem_append_left _ hqL, hv.congr h1.symm h2.symm⟩, ?_⟩
    have heq : (q.1, reloc kept q.1) = q := inj_on_of_nodup_map hfstn (reloc_mem hk) hq rfl
    exact congrArg Prod.snd heq
  have hnot : b ∉ kept.map Prod.fst := fun hk =>
    hn'.2.2 b (hg.moves.sub.subset hk) b hP rfl
  obtain ⟨h1, h2⟩ := hg.pending b hP
  exact ⟨b, (h.tree i b).2 ⟨mem_append_right _ hP, hv.congr h1.symm h2.symm⟩, reloc_of_notMem hnot⟩

end DirAt

end Themis.Dir
