/-
Mode, owner and group of a file and the log. They are in order
(`OwnerOk`) when the last SET_ATTR entry of the log says what the inode
says, or there is none and the record does, and `last_setattr` points to
that entry. A rebuild then brings them back (`foldl_ownerStep`).
-/
import Themis.Proofs.File.Inv
import Themis.Proofs.Log.Setattr

namespace Themis.File

open Lib Log

variable {al : BlockAllocator} {st st' : State al} {ino : Nat} {L L' P : List Nat}

/-- Mode, user and group. -/
def ownerTriple (a : Attrs) : Nat × Nat × Nat := (a.mode, a.uid, a.gid)

/-- What an entry says about them. -/
def entryOwner : LogEntry → Nat × Nat × Nat
  | .setAttr e => (e.mode, e.uid, e.gid)
  | _ => (0, 0, 0)

/-- What the log says about them. -/
def loggedOwner (st : State al) (ino : Nat) (L : List Nat) : Nat × Nat × Nat :=
  ((lastAttrs st.nv.slot L).map entryOwner).getD (ownerTriple (st.nv.record ino).attrs)

/-- The inode says the same, and knows where its last change is. -/
structure OwnerOk (st : State al) (ino : Nat) (L : List Nat) : Prop where
  pointed : PointsAtLast st ino L
  owner : ownerTriple (st.info ino).attrs = loggedOwner st ino L

/-- A collection keeps them. -/
theorem OwnerOk.kept (h : OwnerOk st ino L) (hk : SetattrKept st st' ino L L')
    (hs : SetattrSafe st ino L)
    (hattrs : ownerTriple (st'.info ino).attrs = ownerTriple (st.info ino).attrs)
    (hrec : st'.nv.record = st.nv.record) : OwnerOk st' ino L' := by
  obtain ⟨hp, -, hl⟩ := hk h.pointed hs
  refine ⟨hp, ?_⟩
  rw [hattrs, h.owner, loggedOwner, loggedOwner, hl, hrec]

/-- Only these parts matter. -/
theorem OwnerOk.congr (h : OwnerOk st ino L) (hslot : st'.nv.slot = st.nv.slot)
    (hlast : (st'.info ino).lastSetattr = (st.info ino).lastSetattr)
    (hattrs : ownerTriple (st'.info ino).attrs = ownerTriple (st.info ino).attrs)
    (hrec : st'.nv.record = st.nv.record) : OwnerOk st' ino L := by
  refine ⟨?_, ?_⟩
  · unfold PointsAtLast
    rw [hslot, hlast]
    exact h.pointed
  · rw [hattrs, h.owner, loggedOwner, loggedOwner, hslot, hrec]

/-- Entries of other kinds. -/
theorem OwnerOk.append (h : OwnerOk st ino L)
    (hP : ∀ a ∈ P, (st.nv.slot a).isSetAttr = false) : OwnerOk st ino (L ++ P) := by
  have hlast : lastSetattrIn st.nv.slot (L ++ P) = lastSetattrIn st.nv.slot L := by
    have hnone : lastEvent (setattrEvent st.nv.slot) P = none := lastSetattrIn_eq_none.2 hP
    rw [lastSetattrIn, lastEvent_append, hnone]
    rfl
  refine ⟨?_, ?_⟩
  · unfold PointsAtLast
    rw [hlast]
    exact h.pointed
  · rw [h.owner, loggedOwner, loggedOwner, lastAttrs, lastAttrs, hlast]

/-- A SET_ATTR entry is logged. -/
theorem OwnerOk.of_setattr {p : Nat} {e : SetattrEntry}
    (hentry : st.nv.slot p = .setAttr e) (hptr : (st.info ino).lastSetattr = p)
    (howner : ownerTriple (st.info ino).attrs = (e.mode, e.uid, e.gid)) :
    OwnerOk st ino (L ++ [p]) := by
  have hlast : lastSetattrIn st.nv.slot (L ++ [p]) = some p := by
    rw [lastSetattrIn]
    simp [setattrEvent, hentry, LogEntry.isSetAttr]
  refine ⟨?_, ?_⟩
  · intro a ha
    rw [hlast, Option.some.injEq] at ha
    rw [hptr, ha]
  · rw [howner, loggedOwner, lastAttrs, hlast, Option.map_some, hentry]
    rfl

/-- Such an entry has attributes. -/
theorem exists_of_isSetAttr {e : LogEntry} (h : e.isSetAttr = true) : ∃ a, e = .setAttr a := by
  cases e with
  | setAttr a => exact ⟨a, rfl⟩
  | _ => cases h

/-- Entries of other kinds do not matter. -/
theorem ownerStep_other {slot : Nat → LogEntry} {a : Nat} (o : Owner)
    (h : (slot a).isSetAttr = false) : ownerStep slot o a = o := by
  unfold ownerStep
  cases hs : slot a with
  | setAttr e =>
    rw [hs] at h
    cases h
  | _ => rfl

/-- A replay ends with the last SET_ATTR entry. -/
theorem foldl_ownerStep (slot : Nat → LogEntry) (o : Owner) (L : List Nat) :
    (L.foldl (ownerStep slot) o).last = (lastSetattrIn slot L).getD o.last ∧
      ((L.foldl (ownerStep slot) o).mode, (L.foldl (ownerStep slot) o).uid,
        (L.foldl (ownerStep slot) o).gid)
        = ((lastAttrs slot L).map entryOwner).getD (o.mode, o.uid, o.gid) := by
  induction L using List.reverseRecOn with
  | nil => exact ⟨rfl, rfl⟩
  | append_singleton L a ih =>
    rw [List.foldl_append, List.foldl_cons, List.foldl_nil, lastAttrs, lastSetattrIn,
      lastEvent_snoc]
    generalize L.foldl (ownerStep slot) o = r at *
    cases hset : (slot a).isSetAttr with
    | true =>
      obtain ⟨e, he⟩ := exists_of_isSetAttr hset
      have hev : setattrEvent slot a = some a := setattrEvent_eq_some.2 ⟨rfl, hset⟩
      simp [hev, ownerStep, he, entryOwner]
    | false =>
      have hev : setattrEvent slot a = none := by simp [setattrEvent, hset]
      rw [hev, ownerStep_other r hset]
      exact ih

end Themis.File
