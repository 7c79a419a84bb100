/-
The last SET_ATTR entry of a log under collections.

A collection keeps the entry `last_setattr` points to and every SET_ATTR
entry that sets a size, and lets the pointer follow each SET_ATTR entry
that it copies. If the last one of the log is not the last one copied,
the pointer is wrong afterwards.

`SetattrSafe` leaves no room for either, and every collection keeps it
(`Grown.setattr_kept`).
-/
import Themis.Lib.LastEvent
import Themis.Proofs.Log.Open

namespace Themis.Log

open Lib List Option

variable {al : BlockAllocator} {st st' : State al} {ino : Nat} {L L' P : List Nat}
variable {slot : Nat → LogEntry} {a : Nat}
variable {e : LogEntry} {kept : List (Nat × Nat)}

-- === the last SET_ATTR entry

/-- A SET_ATTR entry, as an event. -/
def setattrEvent (slot : Nat → LogEntry) (a : Nat) : Option Nat :=
  if (slot a).isSetAttr then some a else none

/-- The last SET_ATTR entry. -/
def lastSetattrIn (slot : Nat → LogEntry) (L : List Nat) : Option Nat :=
  lastEvent (setattrEvent slot) L

/-- Only SET_ATTR entries are events. -/
theorem setattrEvent_eq_some {b : Nat} :
    setattrEvent slot a = some b ↔ b = a ∧ (slot a).isSetAttr = true := by
  unfold setattrEvent
  split
  · rename_i h
    simp [h, eq_comm]
  · rename_i h
    simp [h]

/-- The last one is one. -/
theorem lastSetattrIn_mem (h : lastSetattrIn slot L = some a) :
    a ∈ L ∧ (slot a).isSetAttr = true := by
  obtain ⟨b, hb, hev⟩ := lastEvent_mem h
  obtain ⟨rfl, hset⟩ := setattrEvent_eq_some.1 hev
  exact ⟨hb, hset⟩

/-- There is none. -/
theorem lastSetattrIn_eq_none :
    lastSetattrIn slot L = none ↔ ∀ a ∈ L, (slot a).isSetAttr = false := by
  unfold lastSetattrIn
  rw [lastEvent_eq_none]
  apply forall_congr'
  intro a
  apply imp_congr_right
  intro _
  unfold setattrEvent
  cases (slot a).isSetAttr with
  | true => simp
  | false => simp

/-- An entry that sets the size is a SET_ATTR entry. -/
theorem isSetAttr_of_setsSize (h : e.setsSize = true) : e.isSetAttr = true := by
  cases e with
  | setAttr e => rfl
  | _ => exact h

/-- An expendable entry does not set the size. -/
theorem setsSize_of_expendable {nv : Nvmm} (h : Expendable nv a) :
    (nv.slot a).setsSize = false := by
  unfold Expendable at h
  cases hs : nv.slot a with
  | setAttr e =>
    rw [hs] at h
    exact h
  | _ => rfl

/-- `last_setattr` is the last SET_ATTR entry. -/
def PointsAtLast (st : State al) (ino : Nat) (L : List Nat) : Prop :=
  ∀ a, lastSetattrIn st.nv.slot L = some a → (st.info ino).lastSetattr = a

/-- A collection copies no SET_ATTR entry before the last one that would
take its place: those off the tail page that set a size are the last one,
or the last one is itself among them. -/
def SetattrSafe (st : State al) (ino : Nat) (L : List Nat) : Prop :=
  (∀ a ∈ L, (st.nv.slot a).setsSize = true →
    blockOff a ≠ blockOff (st.nv.logTail ino) → lastSetattrIn st.nv.slot L = some a) ∨
  ∃ a, lastSetattrIn st.nv.slot L = some a ∧ (st.nv.slot a).setsSize = true ∧
    blockOff a ≠ blockOff (st.nv.logTail ino)

/-- The last attributes in the log. -/
def lastAttrs (slot : Nat → LogEntry) (L : List Nat) : Option LogEntry :=
  (lastSetattrIn slot L).map slot

/-- Collections from `L` to `L'` kept the last SET_ATTR entry, and the
pointer to it. -/
def SetattrKept (st st' : State al) (ino : Nat) (L L' : List Nat) : Prop :=
  PointsAtLast st ino L → SetattrSafe st ino L →
    PointsAtLast st' ino L' ∧ SetattrSafe st' ino L' ∧
      lastAttrs st'.nv.slot L' = lastAttrs st.nv.slot L

/-- Nothing was done. -/
theorem SetattrKept.refl (st : State al) (ino : Nat) (L : List Nat) :
    SetattrKept st st ino L L := fun hp hs => ⟨hp, hs, rfl⟩

/-- One after the other. -/
theorem SetattrKept.trans {st1 : State al} {L1 : List Nat}
    (h : SetattrKept st st1 ino L L1) (h' : SetattrKept st1 st' ino L1 L') :
    SetattrKept st st' ino L L' := by
  intro hp hs
  obtain ⟨hp1, hs1, hl1⟩ := h hp hs
  obtain ⟨hp', hs', hl'⟩ := h' hp1 hs1
  exact ⟨hp', hs', hl'.trans hl1⟩

/-- Only these parts matter. -/
theorem SetattrKept.congr {st1 : State al} (h : SetattrKept st st1 ino L L')
    (hslot : st'.nv.slot = st1.nv.slot) (htail : st'.nv.logTail ino = st1.nv.logTail ino)
    (hlast : (st'.info ino).lastSetattr = (st1.info ino).lastSetattr) :
    SetattrKept st st' ino L L' := by
  intro hp hs
  obtain ⟨hp1, hs1, hl1⟩ := h hp hs
  refine ⟨?_, ?_, by rw [hslot]; exact hl1⟩
  · unfold PointsAtLast
    rw [hslot, hlast]
    exact hp1
  unfold SetattrSafe
  rw [hslot, htail]
  exact hs1

-- === collections

/-- The copy of a SET_ATTR entry, as an event. -/
def copyEvent (slot : Nat → LogEntry) (q : Nat × Nat) : Option (Nat × Nat) :=
  if (slot q.1).isSetAttr then some q else none

/-- Only copies of SET_ATTR entries are events. -/
theorem copyEvent_eq_some {q r : Nat × Nat} :
    copyEvent slot q = some r ↔ r = q ∧ (slot q.1).isSetAttr = true := by
  unfold copyEvent
  split
  · rename_i h
    simp [h, eq_comm]
  · rename_i h
    simp [h]

/-- `last_setattr` after copying. -/
theorem lastCopied_eq (nv : Nvmm) (last : Nat) (kept : List (Nat × Nat)) :
    lastCopied nv last kept = ((lastEvent (copyEvent nv.slot) kept).map Prod.snd).getD last := by
  induction kept using reverseRecOn with
  | nil => rfl
  | append_singleton kept q ih =>
    rw [lastCopied_snoc, lastEvent_snoc, ih]
    unfold copyEvent
    split
    · rfl
    · rfl

/-- The last one of those copied. -/
theorem lastSetattrIn_fst (slot : Nat → LogEntry) (kept : List (Nat × Nat)) :
    lastSetattrIn slot (kept.map Prod.fst) = (lastEvent (copyEvent slot) kept).map Prod.fst := by
  rw [lastSetattrIn, lastEvent_map, ← lastEvent_translate]
  apply lastEvent_congr
  intro q _
  unfold setattrEvent copyEvent
  split <;> rfl

/-- The last copy. -/
theorem lastSetattrIn_snd (hsame : ∀ q ∈ kept, st'.nv.slot q.2 = st.nv.slot q.1) :
    lastSetattrIn st'.nv.slot (kept.map Prod.snd)
      = (lastEvent (copyEvent st.nv.slot) kept).map Prod.snd := by
  rw [lastSetattrIn, lastEvent_map, ← lastEvent_translate]
  apply lastEvent_congr
  intro q hq
  unfold setattrEvent copyEvent
  rw [hsame q hq]
  split <;> rfl

/-- The last one, if it is kept. -/
theorem lastSetattrIn_sublist {K : List Nat} (hn : L.Nodup) (hsub : K.Sublist L)
    (hlast : lastSetattrIn slot L = some a) (ha : a ∈ K) : lastSetattrIn slot K = some a := by
  rw [← hlast]
  apply lastEvent_sublist hn hsub
  intro L1 b L2 hL hb hev
  have hset : setattrEvent slot b = some b := by
    obtain ⟨c, hc⟩ := ne_none_iff_exists'.1 hev
    obtain ⟨rfl, -⟩ := setattrEvent_eq_some.1 hc
    exact hc
  apply lastEvent_ne_none_of_ne hset
  rw [← hL]
  intro heq
  have hba : b = a := some.inj (heq.symm.trans hlast)
  exact hb (hba ▸ ha)

section Collection

variable {kept : List (Nat × Nat)} {a : Nat}
variable {C : List Nat}

/-- The last one was copied. -/
theorem Moves.last_copied (h : Moves st st' ino L kept) (hn : L.Nodup)
    (hlast : lastSetattrIn st.nv.slot L = some a) (ha : a ∈ kept.map Prod.fst) :
    ∃ b, (a, b) ∈ kept ∧ lastEvent (copyEvent st.nv.slot) kept = some (a, b) ∧
      lastSetattrIn st'.nv.slot (kept.map Prod.snd) = some b := by
  have hfst := lastSetattrIn_sublist hn h.sub hlast ha
  rw [lastSetattrIn_fst] at hfst
  obtain ⟨q, hq, rfl⟩ := map_eq_some_iff.1 hfst
  obtain ⟨r, hr, hev⟩ := lastEvent_mem hq
  obtain ⟨rfl, -⟩ := copyEvent_eq_some.1 hev
  refine ⟨q.2, hr, hq, ?_⟩
  rw [lastSetattrIn_snd fun q hq => (h.same q hq).1, hq]
  rfl

/-- There was none and there is none. -/
theorem Moves.no_setattr (h : Moves st st' ino L kept) (hnone : lastSetattrIn st.nv.slot L = none) :
    lastSetattrIn st'.nv.slot (kept.map Prod.snd) = none := by
  rw [lastSetattrIn_eq_none] at hnone ⊢
  intro b hb
  obtain ⟨q, hq, rfl⟩ := List.mem_map.1 hb
  rw [(h.same q hq).1]
  exact hnone q.1 (h.sub.subset (List.mem_map.2 ⟨q, hq, rfl⟩))

/-- What stays. -/
theorem stay_mem {q : Nat × Nat} (hq : q ∈ stay C) : q.1 ∈ C ∧ q.2 = q.1 := by
  obtain ⟨c, hc, rfl⟩ := List.mem_map.1 hq
  exact ⟨hc, rfl⟩

/-- Behind the last one there is none. -/
theorem no_setattr_behind {F : List Nat} {slot : Nat → LogEntry} (hn : (F ++ C).Nodup)
    (hlast : lastSetattrIn slot (F ++ C) = some a) (haF : a ∈ F) :
    lastEvent (copyEvent slot) (stay C) = none := by
  rw [lastEvent_eq_none]
  intro q hq
  obtain ⟨hqC, -⟩ := stay_mem hq
  by_contra hne
  have hC : lastSetattrIn slot C ≠ none := by
    intro hnone
    rw [lastSetattrIn_eq_none] at hnone
    simp [copyEvent, hnone q.1 hqC] at hne
  obtain ⟨c, hc⟩ := ne_none_iff_exists'.1 hC
  rw [lastSetattrIn, lastEvent_append] at hlast
  rw [lastSetattrIn] at hc
  rw [hc, some_or, some.injEq] at hlast
  subst hlast
  exact (nodup_append.1 hn).2.2 c haF c (lastSetattrIn_mem hc).1 rfl

/-- `last_setattr` follows the last SET_ATTR entry. -/
theorem FrontMoved.pointer (h : FrontMoved st st' ino L kept) (hm : Moves st st' ino L kept)
    (hn : L.Nodup) (hsafe : SetattrSafe st ino L)
    (hlast : lastSetattrIn st.nv.slot L = some a) (hptr : (st.info ino).lastSetattr = a) :
    ∃ b, (a, b) ∈ kept ∧ lastSetattrIn st'.nv.slot (kept.map Prod.snd) = some b ∧
      (st'.info ino).lastSetattr = b := by
  obtain ⟨F, C, front, rfl, rfl, hfol, hF, hC, -, -⟩ := h
  obtain ⟨haL, hset⟩ := lastSetattrIn_mem hlast
  -- kept on the tail page anyway; in front it has to be shown
  have hkept : (a ∈ F → a ∈ front.map Prod.fst) → a ∈ (front ++ stay C).map Prod.fst := by
    intro hfront
    rw [map_append, stay_fst, mem_append]
    rcases mem_append.1 haL with haF | haC
    · exact .inl (hfront haF)
    · exact .inr haC
  rcases hfol with ⟨hsame, hid, hin⟩ | ⟨hcopied, hwhy, hfound⟩
  · -- nothing was moved
    rw [hptr] at hin hsame
    obtain ⟨b, hmem, -, hb⟩ := hm.last_copied hn hlast (hkept fun haF => hin haF hset)
    refine ⟨b, hmem, hb, ?_⟩
    rw [hsame]
    rcases mem_append.1 hmem with hq | hq
    · exact (hid _ hq).symm
    · exact (stay_mem hq).2.symm
  rw [hptr] at hcopied hwhy hfound
  rw [lastCopied_eq] at hcopied
  -- among the entries copied only the last one sets a size, or it does so itself
  have honly : (∀ q ∈ front, (st.nv.slot q.1).isSetAttr = true → q.1 = a) ∨
      (a ∈ F ∧ (st.nv.slot a).setsSize = true) := by
    rcases hsafe with hsafe | ⟨c, hc, hsize, hoff⟩
    · left
      intro q hq hqset
      rcases hwhy q hq hqset with hsize | heq
      · have hqF : q.1 ∈ F := by
          have hsub := hm.sub.subset
            (List.mem_map.2 ⟨q, mem_append_left _ hq, rfl⟩)
          rcases mem_append.1 hsub with hqF | hqC
          · exact hqF
          exfalso
          have hnd := (hm.sub.nodup hn)
          rw [map_append, stay_fst, nodup_append] at hnd
          exact hnd.2.2 q.1 (List.mem_map.2 ⟨q, hq, rfl⟩) q.1 hqC rfl
        have hq1 := hsafe q.1 (mem_append_left _ hqF) hsize (hF q.1 hqF)
        exact some.inj (hq1.symm.trans hlast)
      · exact heq
    right
    have hca : c = a := some.inj (hc.symm.trans hlast)
    subst hca
    refine ⟨?_, hsize⟩
    rcases mem_append.1 haL with haF | haC
    · exact haF
    · exact absurd (hC c haC) hoff
  have hfront : a ∈ F → a ∈ front.map Prod.fst := by
    intro haF
    rcases honly with honly | ⟨-, hsize⟩
    · rcases hfound haF hset with hin | ⟨q, hq, hqset⟩
      · exact hin
      · rw [← honly q hq hqset]
        exact List.mem_map.2 ⟨q, hq, rfl⟩
    by_contra hnot
    have haC : a ∉ C := fun haC =>
      (nodup_append.1 hn).2.2 a haF a haC rfl
    have hexp := hm.dropped a haL (by
      rw [map_append, stay_fst, mem_append, not_or]
      exact ⟨hnot, haC⟩)
    rw [setsSize_of_expendable hexp] at hsize
    cases hsize
  obtain ⟨b, hmem, hev, hb⟩ := hm.last_copied hn hlast (hkept hfront)
  refine ⟨b, hmem, hb, ?_⟩
  rw [hcopied]
  rw [lastEvent_append] at hev
  rcases mem_append.1 haL with haF | haC
  · rw [no_setattr_behind hn hlast haF, none_or] at hev
    rw [hev]
    rfl
  -- nothing in front was copied
  have hnone : lastEvent (copyEvent st.nv.slot) front = none := by
    rw [lastEvent_eq_none]
    intro q hq
    by_contra hne
    obtain ⟨r, hr⟩ := ne_none_iff_exists'.1 hne
    obtain ⟨-, hqset⟩ := copyEvent_eq_some.1 hr
    have hnd := hm.sub.nodup hn
    rw [map_append, stay_fst, nodup_append] at hnd
    rcases honly with honly | ⟨haF, -⟩
    · have hqa := honly q hq hqset
      exact hnd.2.2 q.1 (List.mem_map.2 ⟨q, hq, rfl⟩) a haC hqa
    · exact (nodup_append.1 hn).2.2 a haF a haC rfl
  rw [hnone, or_none] at hev
  obtain ⟨r, hr, hrev⟩ := lastEvent_mem hev
  obtain ⟨hra, -⟩ := copyEvent_eq_some.1 hrev
  have := (stay_mem hr).2
  rw [← hra] at this
  rw [hnone]
  exact this.symm

/-- And the next collection is safe too. -/
theorem FrontMoved.safe {b : Nat} (h : FrontMoved st st' ino L kept)
    (hm : Moves st st' ino L kept) (hn : L.Nodup) (hsafe : SetattrSafe st ino L)
    (hlast : lastSetattrIn st.nv.slot L = some a) (hmem : (a, b) ∈ kept)
    (hb : lastSetattrIn st'.nv.slot (kept.map Prod.snd) = some b) :
    SetattrSafe st' ino (kept.map Prod.snd) := by
  obtain ⟨F, C, front, rfl, rfl, -, hF, hC, htail, hfront⟩ := h
  have hne : F ++ C ≠ [] := by
    intro hnil
    rw [hnil] at hlast
    cases hlast
  have htail' := htail hne
  have huniq : ∀ {q}, q ∈ front ++ stay C → q.1 = a → q = (a, b) := fun hq heq =>
    inj_on_of_nodup_map (hm.sub.nodup hn) hq hmem heq
  rcases hsafe with hsafe | ⟨c, hc, hsize, hoff⟩
  · left
    intro x hx hsize hoff
    obtain ⟨q, hq, rfl⟩ := List.mem_map.1 hx
    have hq1 : q.1 ∈ F ++ C := hm.sub.subset (List.mem_map.2 ⟨q, hq, rfl⟩)
    rw [(hm.same q hq).1] at hsize
    have hoff1 : blockOff q.1 ≠ blockOff (st.nv.logTail ino) := by
      rcases mem_append.1 hq with hqf | hqs
      · rcases mem_append.1 hq1 with hqF | hqC
        · exact hF q.1 hqF
        · exfalso
          have hnd := hm.sub.nodup hn
          rw [map_append, stay_fst, nodup_append] at hnd
          exact hnd.2.2 q.1 (List.mem_map.2 ⟨q, hqf, rfl⟩) q.1 hqC rfl
      obtain ⟨hqC, heq⟩ := stay_mem hqs
      rw [htail', heq] at hoff
      exact hoff
    have hq1a := hsafe q.1 hq1 hsize hoff1
    have := huniq hq (some.inj (hq1a.symm.trans hlast))
    rw [this]
    exact hb
  right
  have hca : c = a := some.inj (hc.symm.trans hlast)
  subst hca
  refine ⟨b, hb, ?_, ?_⟩
  · rw [(hm.same _ hmem).1]
    exact hsize
  rcases mem_append.1 hmem with hqf | hqs
  · exact hfront (c, b) hqf
  · exact absurd (hC c (stay_mem hqs).1) hoff

end Collection

/-- One more entry in the log. -/
theorem Grown.setattr_kept {pages pages' : List Nat} {p : Nat}
    (hg : Grown st st' ino L P pages p e L' pages' kept) (hn : L.Nodup) :
    SetattrKept st st' ino L L' := by
  intro hp hs
  have hm := hg.moves
  rw [hg.ents]
  cases hlast : lastSetattrIn st.nv.slot L with
  | none =>
    have hnone := hm.no_setattr hlast
    refine ⟨?_, .inl ?_, ?_⟩
    · intro a ha
      rw [hnone] at ha
      cases ha
    · intro x hx hsize _
      have := lastSetattrIn_eq_none.1 hnone x hx
      rw [isSetAttr_of_setsSize hsize] at this
      cases this
    · rw [lastAttrs, lastAttrs, hnone, hlast]
      rfl
  | some a =>
    obtain ⟨b, hmem, hb, hptr⟩ := hg.setattr.pointer hm hn hs hlast (hp a hlast)
    refine ⟨?_, hg.setattr.safe hm hn hs hlast hmem hb, ?_⟩
    · intro c hc
      rw [hb, some.injEq] at hc
      rw [hptr, hc]
    · rw [lastAttrs, lastAttrs, hb, hlast, map_some, map_some, (hm.same _ hmem).1]

end Themis.Log
