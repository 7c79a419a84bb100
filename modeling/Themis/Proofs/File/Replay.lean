/-
Replaying the log of a file, as a function on lists of entries.

`Replayable` ties a list of entries to the page map and the size they stand
for. It is kept by new entries of each kind, and by collections, which drop
and move entries. `replay_eq` is the purpose: a replay that skips write
entries nobody refers to gives back the page map and the size.

# Why a collection is harmless

A page of the file is decided by the last entry that has an event on it:
a write that covers it, or a size change that cuts it off. Size changes
are never dropped and a write entry is dropped only when no page refers
to it, so the last event on a page stays.
-/
import Themis.File
import Themis.Lib.LastEvent
import Themis.Proofs.Log.Moves

namespace Themis.File

open Lib Log List Option

variable {kept : List (Nat × Nat)} {n : Nat} {dead : Nat → Bool} {v : (Nat → Option Nat) × Nat}
variable {p q : Nat}

-- === events

/-- What an entry says about a page. -/
def pageEvent (slot : Nat → LogEntry) (i a : Nat) : Option (Option Nat) :=
  match slot a with
  | .fileWrite e =>
    if e.pgoff ≤ i ∧ i < e.pgoff + e.numPages then some (some a) else none
  | .setAttr e =>
    if e.setsSize ∧ pagesFor e.size ≤ i then some none else none
  | _ => none

/-- The size an entry tells. -/
def sizeEvent (slot : Nat → LogEntry) (a : Nat) : Option Nat :=
  match slot a with
  | .fileWrite e => some e.size
  | .setAttr e => some e.size
  | _ => none

/-- The size an entry tells for certain. -/
def strongEvent (slot : Nat → LogEntry) (a : Nat) : Option Nat :=
  match slot a with
  | .fileWrite e => some e.size
  | .setAttr e => if e.setsSize then some e.size else none
  | _ => none

variable {slot slot' : Nat → LogEntry} {i a b c s size c₀ : Nat}
  {L M K : List Nat} {tree : Nat → Option Nat}

/-- An entry about pages tells a size for certain. -/
theorem strongEvent_of_pageEvent (h : pageEvent slot i a ≠ none) : strongEvent slot a ≠ none := by
  unfold pageEvent at h
  unfold strongEvent
  split at h
  · simp
  · rename_i e _
    by_cases he : e.setsSize
    · simp [he]
    · simp [he] at h
  · exact absurd rfl h

/-- What is told for certain is told. -/
theorem sizeEvent_of_strongEvent (h : strongEvent slot a = some s) : sizeEvent slot a = some s := by
  unfold strongEvent at h
  unfold sizeEvent
  split at h
  · exact h
  · split at h
    · exact h
    · cases h
  · cases h

/-- A page is mapped by an entry that covers it. -/
theorem hasKey_of_pageEvent (h : pageEvent slot i a = some (some b)) :
    b = a ∧ (slot a).HasKey i := by
  unfold pageEvent at h
  split at h
  · rename_i e he
    split at h
    · rename_i hcov
      simp only [some.injEq] at h
      rw [he]
      exact ⟨h.symm, hcov⟩
    · cases h
  · split at h <;> cases h
  · cases h

-- === sizes

/-- Sizes grow along the list, starting from `c`, except where a size
change sets one. -/
def Growing (slot : Nat → LogEntry) : Nat → List Nat → Prop
  | _, [] => True
  | c, a :: L =>
    match slot a with
    | .fileWrite e => c ≤ e.size ∧ Growing slot e.size L
    | .setAttr e => (e.setsSize = false → c ≤ e.size) ∧ Growing slot e.size L
    | _ => Growing slot c L

/-- An entry may follow on a size. -/
def Follows (slot : Nat → LogEntry) (c a : Nat) : Prop :=
  match slot a with
  | .fileWrite e => c ≤ e.size
  | .setAttr e => e.setsSize = false → c ≤ e.size
  | _ => True

/-- And so on a smaller one. -/
theorem Follows.anti {c' : Nat} (hc : c' ≤ c) (h : Follows slot c a) : Follows slot c' a := by
  unfold Follows at h ⊢
  split at h
  · exact hc.trans h
  · exact fun he => hc.trans (h he)
  · trivial

/-- A growing list, from its front. -/
theorem growing_cons : Growing slot c (a :: L) ↔
    Follows slot c a ∧ Growing slot ((sizeEvent slot a).getD c) L := by
  simp only [Growing, Follows, sizeEvent]
  cases slot a <;> simp

/-- It also grows from a smaller size. -/
theorem Growing.anti {c' : Nat} (hc : c' ≤ c) (h : Growing slot c L) : Growing slot c' L := by
  induction L generalizing c c' with
  | nil => trivial
  | cons a L ih =>
    rw [growing_cons] at h ⊢
    refine ⟨h.1.anti hc, ?_⟩
    cases hs : sizeEvent slot a with
    | none =>
      rw [hs] at h
      exact ih hc h.2
    | some s =>
      rw [hs] at h
      exact h.2

/-- A growing list, from its end. -/
theorem growing_snoc : Growing slot c (L ++ [a]) ↔ Growing slot c L ∧
      Follows slot ((lastEvent (sizeEvent slot) L).getD c) a := by
  induction L generalizing c with
  | nil => simp [growing_cons, Growing]
  | cons b L ih =>
    rw [cons_append, growing_cons, growing_cons, ih, and_assoc]
    simp only [lastEvent]
    cases lastEvent (sizeEvent slot) L <;> rfl

/-- Dropping entries keeps a list growing. -/
theorem Growing.sublist (hsub : K.Sublist L) (hn : L.Nodup)
    (hdrop : ∀ a ∈ L, a ∉ K → ∀ e, slot a = .setAttr e → e.setsSize = false)
    (h : Growing slot c L) : Growing slot c K := by
  induction hsub generalizing c with
  | slnil => trivial
  | @cons K L a hsub ih =>
    rw [growing_cons] at h
    obtain ⟨hnot, hn⟩ := nodup_cons.1 hn
    have haK : a ∉ K := fun hK => hnot (hsub.subset hK)
    apply ih hn fun b hb => hdrop b (mem_cons_of_mem _ hb)
    apply h.2.anti
    have h1 := h.1
    have h2 := hdrop a mem_cons_self haK
    unfold Follows at h1
    unfold sizeEvent
    cases hs : slot a with
    | fileWrite e =>
      rw [hs] at h1
      exact h1
    | setAttr e =>
      rw [hs] at h1
      exact h1 (h2 e hs)
    | _ => exact le_rfl
  | @cons_cons K L a hsub ih =>
    rw [growing_cons] at h ⊢
    obtain ⟨hnot, hn⟩ := nodup_cons.1 hn
    refine ⟨h.1, ih hn ?_ h.2⟩
    intro b hb hbK
    apply hdrop b (mem_cons_of_mem _ hb)
    intro hmem
    rcases mem_cons.1 hmem with rfl | hmem
    · exact hnot hb
    · exact hbK hmem

/-- What is told behind the last certain size agrees with it. -/
def Settled (slot : Nat → LogEntry) (size : Nat) : List Nat → Prop
  | [] => True
  | a :: L =>
    (lastEvent (strongEvent slot) L = none →
      ∀ s, sizeEvent slot a = some s → s = size) ∧ Settled slot size L

/-- The end of a settled list. -/
theorem settled_append : Settled slot size (L ++ M) → Settled slot size M := by
  intro h
  induction L with
  | nil => exact h
  | cons a L ih => exact ih h.2

/-- A certain size settles the list. -/
theorem settled_strong (hs : strongEvent slot a = some s) : Settled slot s (L ++ [a]) := by
  induction L with
  | nil =>
    refine ⟨?_, trivial⟩
    intro _ s' hs'
    rw [sizeEvent_of_strongEvent hs, some.injEq] at hs'
    exact hs'.symm
  | cons b L ih =>
    refine ⟨?_, ih⟩
    intro hnone
    change lastEvent (strongEvent slot) (L ++ [a]) = none at hnone
    rw [lastEvent_snoc, hs] at hnone
    cases hnone

/-- Another entry that agrees. -/
theorem settled_weak (hw : strongEvent slot a = none)
    (hs : ∀ s, sizeEvent slot a = some s → s = size)
    (h : Settled slot size L) : Settled slot size (L ++ [a]) := by
  induction L with
  | nil => exact ⟨fun _ => hs, trivial⟩
  | cons b L ih =>
    refine ⟨?_, ih h.2⟩
    intro hnone
    change lastEvent (strongEvent slot) (L ++ [a]) = none at hnone
    rw [lastEvent_snoc, hw] at hnone
    exact h.1 hnone

/-- Dropping covered entries keeps a list settled. -/
theorem Settled.sublist (hsub : K.Sublist L) (hn : L.Nodup)
    (hcov : Covered (strongEvent slot) L K) (h : Settled slot size L) : Settled slot size K := by
  induction hsub with
  | slnil => trivial
  | @cons K L a hsub ih =>
    apply ih (nodup_cons.1 hn).2 _ h.2
    intro L1 x L2 hL
    exact hcov (a :: L1) x L2 (by rw [hL]; rfl)
  | @cons_cons K L a hsub ih =>
    obtain ⟨hnot, hn⟩ := nodup_cons.1 hn
    have hcov' : Covered (strongEvent slot) L K := by
      intro L1 x L2 hL hx
      apply hcov (a :: L1) x L2 (by rw [hL]; rfl)
      intro hmem
      rcases mem_cons.1 hmem with rfl | hmem
      · apply hnot
        rw [hL]
        simp
      · exact hx hmem
    refine ⟨?_, ih hn hcov' h.2⟩
    rw [lastEvent_sublist hn hsub hcov']
    exact h.1

-- === replayable

/-- An entry as the code writes it. -/
def EntryOk : LogEntry → Prop
  | .fileWrite e => 0 < e.numPages ∧ e.pgoff + e.numPages ≤ pagesFor e.size
  | .setAttr e => isReg e.mode = true
  | .linkChange _ => True
  | _ => False

/-- The entries `L` stand for a page map and a size; `c₀` is the size in
the record, which counts as long as no entry decides it. -/
structure Replayable (slot : Nat → LogEntry) (tree : Nat → Option Nat)
    (size c₀ : Nat) (L : List Nat) : Prop where
  nodup : L.Nodup
  ok : ∀ a ∈ L, EntryOk (slot a)
  map : ∀ i, tree i = (lastEvent (pageEvent slot i) L).join
  grow : Growing slot 0 L
  settled : Settled slot size L
  start : lastEvent (strongEvent slot) L = none → c₀ = size

/-- The empty log. -/
theorem Replayable.nil (slot : Nat → LogEntry) (size : Nat) :
    Replayable slot (fun _ => none) size size [] :=
  ⟨nodup_nil, by simp, fun _ => rfl, trivial, trivial, fun _ => rfl⟩

namespace Replayable

variable {slot : Nat → LogEntry} {tree : Nat → Option Nat} {size c₀ : Nat}
  {L : List Nat} {p : Nat}
variable {tree' : Nat → Option Nat}

/-- A mapped page has an entry of the log. -/
theorem mem (h : Replayable slot tree size c₀ L) (hi : tree i = some a) :
    a ∈ L ∧ (slot a).HasKey i := by
  rw [h.map i, join_eq_some_iff] at hi
  obtain ⟨b, hb, hev⟩ := lastEvent_mem hi
  obtain ⟨rfl, hkey⟩ := hasKey_of_pageEvent hev
  exact ⟨hb, hkey⟩

/-- It is a write entry. -/
theorem fileWrite (h : Replayable slot tree size c₀ L) (hi : tree i = some a) :
    ∃ e, slot a = .fileWrite e ∧ e.pgoff ≤ i ∧ i < e.pgoff + e.numPages := by
  obtain ⟨ha, hkey⟩ := h.mem hi
  have hok := h.ok a ha
  cases hs : slot a with
  | fileWrite e =>
    rw [hs] at hkey
    exact ⟨e, rfl, hkey.1, hkey.2⟩
  | dirLog d =>
    rw [hs] at hok
    cases hok
  | _ =>
    rw [hs] at hkey
    cases hkey

/-- No size, no certain size. -/
theorem no_strongEvent (h : ∀ a ∈ L, sizeEvent slot a = none) :
    lastEvent (strongEvent slot) L = none := by
  rw [lastEvent_eq_none]
  intro a ha
  by_contra hne
  obtain ⟨s, hs⟩ := ne_none_iff_exists'.1 hne
  have := h a ha
  rw [sizeEvent_of_strongEvent hs] at this
  cases this

section

variable (h : Replayable slot tree size c₀ L)
include h

/-- The size is the last one told. -/
theorem size_eq : (lastEvent (sizeEvent slot) L).getD c₀ = size := by
  cases hl : lastEvent (sizeEvent slot) L with
  | none =>
    exact h.start (no_strongEvent (lastEvent_eq_none.1 hl))
  | some s =>
    obtain ⟨L1, a, L2, rfl, ha, hrest⟩ := exists_of_lastEvent hl
    have hset : Settled slot size (a :: L2) := settled_append h.settled
    exact hset.1 (no_strongEvent hrest) s ha

/-- No size told is larger. -/
theorem last_size_le : (lastEvent (sizeEvent slot) L).getD 0 ≤ size := by
  have := h.size_eq
  cases hl : lastEvent (sizeEvent slot) L with
  | none => exact Nat.zero_le _
  | some s =>
    rw [hl] at this
    exact le_of_eq this

/-- A fresh entry. -/
theorem nodup_snoc (hp : p ∉ L) : (L ++ [p]).Nodup := by
  rw [nodup_append]
  refine ⟨h.nodup, by simp, ?_⟩
  intro a ha b hb hab
  rw [mem_singleton] at hb
  exact hp (hb ▸ hab ▸ ha)

/-- One more entry as the code writes it. -/
theorem ok_snoc (hp : EntryOk (slot p)) : ∀ a ∈ L ++ [p], EntryOk (slot a) := by
  intro a ha
  rcases mem_append.1 ha with ha | ha
  · exact h.ok a ha
  · rw [mem_singleton.1 ha]
    exact hp

/-- A write is logged. -/
theorem write {e : FileWriteEntry} (hp : p ∉ L)
    (he : slot p = .fileWrite e) (hok : EntryOk (slot p)) (hsize : size ≤ e.size)
    (htree : ∀ i, tree' i = if e.pgoff ≤ i ∧ i < e.pgoff + e.numPages then some p else tree i) :
    Replayable slot tree' e.size c₀ (L ++ [p]) where
  nodup := h.nodup_snoc hp
  ok := h.ok_snoc hok
  map i := by
    rw [htree i, lastEvent_snoc, h.map i]
    simp only [pageEvent, he]
    split <;> simp
  grow := by
    rw [growing_snoc]
    refine ⟨h.grow, ?_⟩
    simp only [Follows, he]
    exact h.last_size_le.trans hsize
  settled := settled_strong (by simp [strongEvent, he])
  start hnone := by
    simp [strongEvent, he] at hnone

/-- A change of the size is logged. -/
theorem setsSize {e : SetattrEntry} (hp : p ∉ L)
    (he : slot p = .setAttr e) (hset : e.setsSize = true) (hreg : isReg e.mode = true)
    (htree : ∀ i, tree' i = if pagesFor e.size ≤ i then none else tree i) :
    Replayable slot tree' e.size c₀ (L ++ [p]) where
  nodup := h.nodup_snoc hp
  ok := h.ok_snoc (by rw [he]; exact hreg)
  map i := by
    rw [htree i, lastEvent_snoc, h.map i]
    simp only [pageEvent, he, hset, true_and]
    split <;> simp
  grow := by
    rw [growing_snoc]
    refine ⟨h.grow, ?_⟩
    simp [Follows, he, hset]
  settled := settled_strong (by simp [strongEvent, he, hset])
  start hnone := by
    simp [strongEvent, he, hset] at hnone

/-- Any other entry is logged. -/
theorem weak (hp : p ∉ L) (hok : EntryOk (slot p)) (hweak : strongEvent slot p = none)
    (hsize : ∀ s, sizeEvent slot p = some s → s = size) :
    Replayable slot tree size c₀ (L ++ [p]) where
  nodup := h.nodup_snoc hp
  ok := h.ok_snoc hok
  map i := by
    have hnone : pageEvent slot i p = none := by
      by_contra hne
      exact strongEvent_of_pageEvent hne hweak
    rw [lastEvent_snoc, hnone]
    exact h.map i
  grow := by
    rw [growing_snoc]
    refine ⟨h.grow, ?_⟩
    have hle := h.last_size_le
    unfold Follows
    unfold sizeEvent at hsize
    unfold strongEvent at hweak
    cases hs : slot p with
    | fileWrite e => simp [hs] at hweak
    | setAttr e =>
      intro _
      rw [hs] at hsize
      rw [hsize e.size rfl]
      exact hle
    | _ => trivial
  settled := settled_weak hweak hsize h.settled
  start hnone := by
    rw [lastEvent_snoc, hweak] at hnone
    exact h.start hnone

end

-- === collections

/-- An entry that maps nothing and decides no size. -/
def Droppable (slot : Nat → LogEntry) (tree : Nat → Option Nat) (a : Nat) :
    Prop :=
  match slot a with
  | .fileWrite _ => ∀ i, tree i ≠ some a
  | .setAttr e => e.setsSize = false
  | _ => True

variable (h : Replayable slot tree size c₀ L)
include h

/-- Its pages are decided by others. -/
theorem covered_page (hdrop : ∀ a ∈ L, a ∉ K → Droppable slot tree a) (i : Nat) :
    Covered (pageEvent slot i) L K := by
  intro L1 a L2 hL ha hev
  have hd := hdrop a (by rw [hL]; simp) ha
  obtain ⟨v, hv⟩ := ne_none_iff_exists'.1 hev
  apply lastEvent_ne_none_of_ne hv
  intro hlast
  rw [← hL] at hlast
  unfold Droppable at hd
  unfold pageEvent at hv
  cases hs : slot a with
  | fileWrite e =>
    rw [hs] at hd hv
    simp only at hd hv
    split at hv
    · apply hd i
      rw [h.map i, hlast, ← hv]
      rfl
    · cases hv
  | setAttr e =>
    rw [hs] at hd hv
    simp only at hd hv
    rw [hd] at hv
    simp at hv
  | _ => simp [hs] at hv

/-- Its size is decided by others. -/
theorem covered_strong
    (hdrop : ∀ a ∈ L, a ∉ K → Droppable slot tree a) : Covered (strongEvent slot) L K := by
  intro L1 a L2 hL ha hev
  have haL : a ∈ L := by
    rw [hL]
    simp
  have hd := hdrop a haL ha
  have hok := h.ok a haL
  unfold Droppable at hd
  unfold strongEvent at hev
  cases hs : slot a with
  | fileWrite e =>
    -- the next event on its first page
    rw [hs] at hok
    have hpage : pageEvent slot e.pgoff a ≠ none := by
      have := hok.1
      simp [pageEvent, hs, this]
    have hnext := h.covered_page hdrop e.pgoff L1 a L2 hL ha hpage
    obtain ⟨v, hv⟩ := ne_none_iff_exists'.1 hnext
    obtain ⟨b, hb, hbv⟩ := lastEvent_mem hv
    intro hnone
    rw [lastEvent_eq_none] at hnone
    apply strongEvent_of_pageEvent _ (hnone b hb)
    · exact e.pgoff
    · rw [hbv]
      simp
  | setAttr e =>
    rw [hs] at hd hev
    simp [hd] at hev
  | _ => simp [hs] at hev

/-- Droppable entries are dropped. -/
theorem drop (hsub : K.Sublist L) (hdrop : ∀ a ∈ L, a ∉ K → Droppable slot tree a) :
    Replayable slot tree size c₀ K where
  nodup := hsub.nodup h.nodup
  ok a ha := h.ok a (hsub.subset ha)
  map i := by
    rw [lastEvent_sublist h.nodup hsub (h.covered_page hdrop i)]
    exact h.map i
  grow := by
    apply h.grow.sublist hsub h.nodup
    intro a ha haK e he
    have hd := hdrop a ha haK
    simp only [Droppable, he] at hd
    exact hd
  settled := h.settled.sublist hsub h.nodup (h.covered_strong hdrop)
  start := by
    rw [lastEvent_sublist h.nodup hsub (h.covered_strong hdrop)]
    exact h.start

end Replayable

/-- Moved entries still grow. -/
theorem growing_moved (hslot : ∀ q ∈ kept, slot' q.2 = slot q.1)
    (h : Growing slot c (kept.map Prod.fst)) : Growing slot' c (kept.map Prod.snd) := by
  induction kept generalizing c with
  | nil => trivial
  | cons q kept ih =>
    have hq := hslot q mem_cons_self
    rw [map_cons, growing_cons] at h ⊢
    simp only [Follows, sizeEvent, hq] at h ⊢
    exact ⟨h.1, ih (fun r hr => hslot r (mem_cons_of_mem _ hr)) h.2⟩

/-- Moved entries tell the same. -/
theorem lastEvent_moved {β : Type} {ev ev' : Nat → Option β} (hev : ∀ q ∈ kept, ev' q.2 = ev q.1) :
    lastEvent ev' (kept.map Prod.snd) = lastEvent ev (kept.map Prod.fst) := by
  rw [lastEvent_map, lastEvent_map]
  exact lastEvent_congr hev

/-- Moved entries are still settled. -/
theorem settled_moved (hslot : ∀ q ∈ kept, slot' q.2 = slot q.1)
    (h : Settled slot size (kept.map Prod.fst)) : Settled slot' size (kept.map Prod.snd) := by
  induction kept with
  | nil => trivial
  | cons q kept ih =>
    have hq := hslot q mem_cons_self
    have hrest := fun r hr => hslot r (mem_cons_of_mem q hr)
    refine ⟨?_, ih hrest h.2⟩
    have hlast : lastEvent (strongEvent slot') (kept.map Prod.snd)
        = lastEvent (strongEvent slot) (kept.map Prod.fst) := by
      apply lastEvent_moved
      intro r hr
      simp only [strongEvent, hrest r hr]
    have h1 := h.1
    simp only [sizeEvent] at h1 ⊢
    rw [hlast, hq]
    exact h1

/-- The entries are moved. -/
theorem Replayable.move {tree' : Nat → Option Nat}
    (h : Replayable slot tree size c₀ (kept.map Prod.fst))
    (hslot : ∀ q ∈ kept, slot' q.2 = slot q.1) (hn : (kept.map Prod.snd).Nodup)
    (htree : ∀ i, tree' i = (tree i).map (reloc kept)) :
    Replayable slot' tree' size c₀ (kept.map Prod.snd) where
  nodup := hn
  ok := by
    intro b hb
    obtain ⟨q, hq, rfl⟩ := List.mem_map.1 hb
    rw [hslot q hq]
    exact h.ok q.1 (List.mem_map.2 ⟨q, hq, rfl⟩)
  map i := by
    have hreloc : ∀ q ∈ kept, reloc kept q.1 = q.2 := by
      intro q hq
      have hmem := reloc_mem (List.mem_map.2 ⟨q, hq, rfl⟩)
      have hinj := inj_on_of_nodup_map h.nodup hmem hq rfl
      rw [← hinj]
    have hev : ∀ q ∈ kept, pageEvent slot' i q.2
        = (pageEvent slot i q.1).map (Option.map (reloc kept)) := by
      intro q hq
      simp only [pageEvent, hslot q hq]
      cases slot q.1 with
      | fileWrite e =>
        simp only
        split
        · simp [hreloc q hq]
        · rfl
      | setAttr e =>
        simp only
        split <;> rfl
      | _ => rfl
    have hmoved : lastEvent (pageEvent slot' i) (kept.map Prod.snd)
        = (lastEvent (pageEvent slot i) (kept.map Prod.fst)).map
            (Option.map (reloc kept)) := by
      rw [← lastEvent_translate]
      exact lastEvent_moved hev
    rw [htree i, h.map i, hmoved]
    cases lastEvent (pageEvent slot i) (kept.map Prod.fst) <;> rfl
  grow := growing_moved hslot h.grow
  settled := settled_moved hslot h.settled
  start := by
    have hlast : lastEvent (strongEvent slot') (kept.map Prod.snd)
        = lastEvent (strongEvent slot) (kept.map Prod.fst) := by
      apply lastEvent_moved
      intro r hr
      simp only [strongEvent, hslot r hr]
    rw [hlast]
    exact h.start

-- === replay

/-- One entry of a replay: the page map and the size so far. Write
entries that are `dead` are not mapped. -/
def replayStep (slot : Nat → LogEntry) (dead : Nat → Bool)
    (v : (Nat → Option Nat) × Nat) (a : Nat) : (Nat → Option Nat) × Nat :=
  match slot a with
  | .fileWrite e =>
    (if dead a then v.1 else fun i =>
      if e.pgoff ≤ i ∧ i < e.pgoff + e.numPages then some a else v.1 i, e.size)
  | .setAttr e =>
    (if v.2 > e.size ∧ isReg e.mode then fun i =>
        if pagesFor e.size ≤ i ∧ i ≤ (v.2 - 1) / PAGE_SIZE then none else v.1 i
      else v.1, e.size)
  | _ => v

/-- The tree and the size that a list of entries gives. -/
def replay (slot : Nat → LogEntry) (dead : Nat → Bool) (c₀ : Nat)
    (L : List Nat) : (Nat → Option Nat) × Nat :=
  L.foldl (replayStep slot dead) (fun _ => none, c₀)

/-- One more entry. -/
theorem replay_snoc (dead : Nat → Bool) (c₀ : Nat) (L : List Nat) (a : Nat) :
    replay slot dead c₀ (L ++ [a]) = replayStep slot dead (replay slot dead c₀ L) a := by
  simp [replay]

/-- More bytes need more pages. -/
theorem pagesFor_mono {m : Nat} (h : m ≤ n) : pagesFor m ≤ pagesFor n := by
  apply Nat.div_le_div_right
  omega

/-- The pages of some bytes. -/
theorem pagesFor_eq (h : 0 < n) : pagesFor n = (n - 1) / PAGE_SIZE + 1 := by
  unfold pagesFor PAGE_SIZE
  omega

/-- What a replay of part of a log has reached: the pages of the entries
that are not dead, none behind the size. -/
structure Reached (slot : Nat → LogEntry) (dead : Nat → Bool) (c₀ : Nat)
    (L : List Nat) (v : (Nat → Option Nat) × Nat) : Prop where
  map : ∀ i, v.1 i
    = (lastEvent (pageEvent slot i) (L.filter fun a => !dead a)).join
  size : v.2 = (lastEvent (sizeEvent slot) L).getD c₀
  inside : ∀ i, v.1 i ≠ none → i < pagesFor v.2

section

variable (h : Reached slot dead c₀ L v)
include h

/-- Without a size no page is mapped. -/
theorem Reached.empty (hnone : lastEvent (sizeEvent slot) L = none) (i : Nat) : v.1 i = none := by
  rw [h.map i]
  have hpage : lastEvent (pageEvent slot i) (L.filter fun a => !dead a) = none := by
    rw [lastEvent_eq_none]
    intro a ha
    by_contra hne
    have hstrong := strongEvent_of_pageEvent hne
    obtain ⟨s, hs⟩ := ne_none_iff_exists'.1 hstrong
    have := lastEvent_eq_none.1 hnone a (mem_filter.1 ha).1
    rw [sizeEvent_of_strongEvent hs] at this
    cases this
  rw [hpage]
  rfl

/-- A mapped page bounds the size. -/
theorem Reached.size_le
    (hn : (lastEvent (sizeEvent slot) L).getD 0 ≤ n) (hi : v.1 i ≠ none) : v.2 ≤ n := by
  cases hl : lastEvent (sizeEvent slot) L with
  | none => exact absurd (h.empty hl i) hi
  | some s =>
    rw [h.size, hl]
    rw [hl] at hn
    exact hn

/-- A replay reads one more entry. -/
theorem Reached.step (hok : EntryOk (slot a)) (hdead : ∀ e, slot a = .setAttr e → dead a = false)
    (hfol : Follows slot ((lastEvent (sizeEvent slot) L).getD 0) a) :
    Reached slot dead c₀ (L ++ [a]) (replayStep slot dead v a) := by
  cases hs : slot a with
  | fileWrite e =>
    simp only [Follows, hs] at hfol
    rw [hs] at hok
    refine ⟨?_, ?_, ?_⟩
    · intro i
      simp only [replayStep, hs, filter_append]
      by_cases hd : dead a
      · simp [hd, h.map i]
      simp only [hd, Bool.false_eq_true, if_false, filter_cons,
        Bool.not_false, if_true, filter_nil, lastEvent_snoc]
      simp only [pageEvent, hs]
      split
      · rfl
      · rw [h.map i]
        rfl
    · simp [replayStep, hs, sizeEvent]
    intro i hi
    simp only [replayStep, hs] at hi ⊢
    have hold : v.1 i ≠ none → i < pagesFor e.size := by
      intro hne
      exact lt_of_lt_of_le (h.inside i hne)
        (pagesFor_mono (h.size_le hfol hne))
    split at hi
    · exact hold hi
    simp only at hi
    split at hi
    · rename_i hcov
      exact lt_of_lt_of_le hcov.2 hok.2
    · exact hold hi
  | setAttr e =>
    simp only [Follows, hs] at hfol
    rw [hs] at hok
    have hreg : isReg e.mode = true := hok
    have hd := hdead e hs
    -- what is cut off is everything behind the new size
    have hcut : ∀ i, (replayStep slot dead v a).1 i
        = if e.setsSize ∧ pagesFor e.size ≤ i then none else v.1 i := by
      intro i
      by_cases hv : v.1 i = none
      · simp only [replayStep, hs, hv]
        split
        · simp [hv]
        · simp [hv]
      have hin := h.inside i hv
      simp only [replayStep, hs, hreg, and_true]
      by_cases hset : e.setsSize = true
      · by_cases hgt : v.2 > e.size
        · have hpos : 0 < v.2 := by omega
          rw [pagesFor_eq hpos] at hin
          have hle : i ≤ (v.2 - 1) / PAGE_SIZE := by omega
          rw [if_pos hgt]
          simp [hset, hle]
        · have := pagesFor_mono (Nat.le_of_not_lt hgt)
          rw [if_neg hgt, if_neg (by omega)]
      have hset' : e.setsSize = false := by simpa using hset
      have hle := h.size_le (hfol hset') hv
      rw [if_neg (by omega), if_neg (by simp [hset'])]
    refine ⟨?_, ?_, ?_⟩
    · intro i
      rw [hcut i, filter_append]
      simp only [hd, filter_cons, Bool.not_false, if_true, filter_nil, lastEvent_snoc]
      simp only [pageEvent, hs]
      split
      · rfl
      · rw [h.map i]
        rfl
    · simp [replayStep, hs, sizeEvent]
    intro i hi
    rw [hcut i] at hi
    have hsize : (replayStep slot dead v a).2 = e.size := by simp [replayStep, hs]
    rw [hsize]
    split at hi
    · exact absurd rfl hi
    rename_i hnot
    by_cases hset : e.setsSize = true
    · by_contra hge
      exact hnot ⟨hset, Nat.le_of_not_lt hge⟩
    · have hle := h.size_le (hfol (by simpa using hset)) hi
      exact lt_of_lt_of_le (h.inside i hi) (pagesFor_mono hle)
  | linkChange e =>
    have hpage : ∀ i, pageEvent slot i a = none := by
      intro i
      simp [pageEvent, hs]
    have hstep : replayStep slot dead v a = v := by simp [replayStep, hs]
    rw [hstep]
    refine ⟨?_, ?_, h.inside⟩
    · intro i
      by_cases hd : dead a
      · simp [hd, h.map i]
      · simp [hd, hpage, h.map i]
    · simp [sizeEvent, hs, h.size]
  | _ =>
    rw [hs] at hok
    cases hok

end

/-- A replay reaches what the events say. -/
theorem reached_replay (dead : Nat → Bool) (c₀ : Nat) (hok : ∀ a ∈ L, EntryOk (slot a))
    (hdead : ∀ a ∈ L, ∀ e, slot a = .setAttr e → dead a = false) (hgrow : Growing slot 0 L) :
    Reached slot dead c₀ L (replay slot dead c₀ L) := by
  induction L using reverseRecOn with
  | nil => exact ⟨fun _ => rfl, rfl, fun _ h => absurd rfl h⟩
  | append_singleton L a ih =>
    rw [growing_snoc] at hgrow
    rw [replay_snoc]
    apply (ih _ _ hgrow.1).step
    · exact hok a (by simp)
    · exact hdead a (by simp)
    · exact hgrow.2
    · exact fun b hb => hok b (mem_append_left _ hb)
    · exact fun b hb => hdead b (mem_append_left _ hb)

/-- A replay gives the tree and the size. -/
theorem Replayable.replay_eq (dead : Nat → Bool) (h : Replayable slot tree size c₀ L)
    (hdead : ∀ a ∈ L, dead a = true → (∃ e, slot a = .fileWrite e) ∧ ∀ i, tree i ≠ some a) :
    replay slot dead c₀ L = (tree, size) := by
  have hattr : ∀ a ∈ L, ∀ e, slot a = .setAttr e → dead a = false := by
    intro a ha e he
    by_contra hne
    obtain ⟨⟨e', he'⟩, -⟩ := hdead a ha (by simpa using hne)
    rw [he] at he'
    cases he'
  have hr := reached_replay dead c₀ h.ok hattr h.grow
  apply Prod.ext
  · funext i
    change _ = tree i
    rw [hr.map i, h.map i]
    congr 1
    apply lastEvent_sublist h.nodup filter_sublist
    apply h.covered_page
    intro a ha hnot
    have hd : dead a = true := by
      by_contra hne
      apply hnot
      rw [mem_filter]
      exact ⟨ha, by simpa using hne⟩
    obtain ⟨⟨e, he⟩, hun⟩ := hdead a ha hd
    simp only [Replayable.Droppable, he]
    exact hun
  · rw [hr.size]
    exact h.size_eq

/-- Pages are mapped inside the size. -/
theorem Replayable.inside (h : Replayable slot tree size c₀ L)
    (hi : tree i ≠ none) : i < pagesFor size := by
  have hr := reached_replay (fun _ => false) c₀ h.ok (fun _ _ _ _ => rfl) h.grow
  have heq := h.replay_eq (fun _ => false) (by simp)
  rw [heq] at hr
  exact hr.inside i hi

/-- Pages in front of a mapped one are not cut. -/
theorem pageEvent_front (hpq : p ≤ q) (hq : pageEvent slot q a = none) :
    pageEvent slot p a ≠ some none := by
  unfold pageEvent at hq ⊢
  cases hs : slot a with
  | fileWrite e =>
    simp only
    split <;> simp
  | setAttr e =>
    simp only [hs] at hq ⊢
    rw [if_neg]
    · simp
    intro hcut
    rw [if_pos ⟨hcut.1, by omega⟩] at hq
    cases hq
  | _ => simp

/-- An entry has no hole in front of a mapped page. -/
theorem Replayable.front_mapped {e : FileWriteEntry} (h : Replayable slot tree size c₀ L)
    (hq : tree q = some a) (he : slot a = .fileWrite e) (hp : e.pgoff ≤ p) (hpq : p ≤ q) :
    tree p ≠ none := by
  have hlast := h.map q
  rw [hq] at hlast
  have hev : lastEvent (pageEvent slot q) L = some (some a) := join_eq_some_iff.1 hlast.symm
  obtain ⟨L1, b, L2, hL, hb, hrest⟩ := exists_of_lastEvent hev
  obtain ⟨rfl, hkey⟩ := hasKey_of_pageEvent hb
  rw [he] at hkey
  have hpa : pageEvent slot p a = some (some a) := by
    simp only [pageEvent, he]
    rw [if_pos ⟨hp, lt_of_le_of_lt hpq hkey.2⟩]
  rw [h.map p, hL, lastEvent_append, lastEvent, hpa]
  -- nothing behind the entry cuts the page off
  cases hl : lastEvent (pageEvent slot p) L2 with
  | none => simp
  | some x =>
    obtain ⟨c, hc, hx⟩ := lastEvent_mem hl
    have hne := pageEvent_front hpq (hrest c hc)
    rw [hx] at hne
    cases x with
    | none => exact absurd rfl hne
    | some d => simp

end Themis.File
