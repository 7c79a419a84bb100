/-
What `get_occupySpace` says after any sequence of writes.

The chains are a map from pids to the size recorded last
(`findSpace_recordSizes`); what is lost is lost on the way in and out. A
size survives the `int` if it is below `2 ^ 31`, or if the sign extension
puts back the very bits that were cut off (`megabytes_iff`).
-/
import Themis.OccupySpace

namespace Themis.OccupySpace

open List Function

variable {t : SpaceTable} {pid q s : Nat} {size : Int} {calls : List (Nat × Nat)}

/-- The list is searched from the front. -/
theorem insertSpace_cons (curr : Space) (l : List Space) : insertSpace pid size (curr :: l)
    = if curr.pid = pid then { curr with size := toUlong size } :: l
      else curr :: insertSpace pid size l := by
  cases l <;> rfl

/-- What is found after an insertion. -/
theorem find_insertSpace (l : List Space) :
    (insertSpace pid size l).find? (fun curr => curr.pid = q)
      = if pid = q then some ⟨q, toUlong size⟩ else l.find? fun curr => curr.pid = q := by
  induction l with
  | nil => by_cases h : pid = q <;> simp [insertSpace, h]
  | cons curr l ih =>
    rw [insertSpace_cons]
    by_cases hc : curr.pid = pid
    · by_cases h : pid = q <;> simp [hc, h]
    rw [if_neg hc, find?_cons, find?_cons, ih]
    by_cases h : pid = q
    · have hq : ¬ curr.pid = q := h ▸ hc
      simp [h, hq]
    · simp only [if_neg h]

/-- What is found in the table. -/
theorem findSpace_insert : findSpace (insertIntoSpaceTable t pid size) q
    = if pid = q then some ⟨q, toUlong size⟩ else findSpace t q := by
  unfold findSpace insertIntoSpaceTable
  by_cases hk : spaceKey q = spaceKey pid
  · rw [hk, update_self, find_insertSpace]
  · have hne : pid ≠ q := fun h => hk (h ▸ rfl)
    rw [update_of_ne hk, if_neg hne]

/-- The size recorded last for a pid. -/
def lastSize : List (Nat × Nat) → Nat → Option Nat
  | [], _ => none
  | c :: calls, pid => (lastSize calls pid).or (if c.1 = pid then some c.2 else none)

/-- The last size is one of the sizes. -/
theorem lastSize_mem (h : lastSize calls pid = some s) : (pid, s) ∈ calls := by
  induction calls with
  | nil => simp [lastSize] at h
  | cons c calls ih =>
    rcases Option.or_eq_some_iff.mp h with h | ⟨-, h⟩
    · exact mem_cons_of_mem c (ih h)
    rw [Option.ite_none_right_eq_some, Option.some_inj] at h
    obtain ⟨rfl, rfl⟩ := h
    exact mem_cons_self

/-- The last size is found. -/
theorem findSpace_recordSizes (t : SpaceTable) (calls : List (Nat × Nat)) (q : Nat) :
    findSpace (recordSizes t calls) q
      = ((lastSize calls q).map fun s => ⟨q, toUlong (toInt s)⟩).or (findSpace t q) := by
  induction calls generalizing t with
  | nil => rfl
  | cons c calls ih =>
    show findSpace (recordSizes (insertIntoSpaceTable t c.1 (toInt c.2)) calls) q = _
    rw [ih, findSpace_insert, lastSize]
    cases lastSize calls q with
    | some s => rfl
    | none => by_cases h : c.1 = q <;> simp [h]

/-- The sizes that come out as they went in. -/
def Survives (s : Nat) : Prop := s < 2 ^ 31 ∨ 2 ^ 52 - 2 ^ 31 ≤ s

/-- When the megabytes come out right. -/
theorem megabytes_iff (hs : s < 2 ^ 52) :
    toUlong (toInt s) / byteToM % 2 ^ 32 = s / 2 ^ 20 ↔ Survives s := by
  unfold toUlong toInt byteToM Survives
  split <;> omega

/-- The space reported for a pid is right exactly if the size last recorded
for it survives the `int`. -/
theorem getOccupySpace_iff (calls : List (Nat × Nat)) (hsize : ∀ c ∈ calls, c.2 < 2 ^ 52)
    (pid : Nat) :
    getOccupySpace (recordSizes initSpaceTable calls) pid
        = ((lastSize calls pid).map (· / 2 ^ 20)).getD 0
      ↔ ∀ s, lastSize calls pid = some s → Survives s := by
  have hinit : findSpace initSpaceTable pid = none := rfl
  unfold getOccupySpace
  rw [findSpace_recordSizes, hinit, Option.or_none]
  cases hlast : lastSize calls pid with
  | none => simp
  | some s =>
    have hs : s < 2 ^ 52 := hsize _ (lastSize_mem hlast)
    simpa using megabytes_iff hs

/-- Process 5 has one megabyte. -/
theorem getOccupySpace_iff_megabyte :
    getOccupySpace (recordSizes initSpaceTable [(5, 3145728), (15, 7), (5, 1048576)]) 5
      = ((lastSize [(5, 3145728), (15, 7), (5, 1048576)] 5).map (· / 2 ^ 20)).getD 0 := by
  refine (getOccupySpace_iff [(5, 3145728), (15, 7), (5, 1048576)] (by decide) 5).2 ?_
  intro s hs
  cases hs
  exact .inl (by decide)

/-- A file of 2 GiB counts for four petabytes. -/
theorem getOccupySpace_two_gigabytes : ¬ ∀ (calls : List (Nat × Nat)) (pid : Nat),
    (∀ c ∈ calls, c.2 < 2 ^ 52) → getOccupySpace (recordSizes initSpaceTable calls) pid
      = ((lastSize calls pid).map (· / 2 ^ 20)).getD 0 := by
  intro h
  exact absurd (h [(5, 2 ^ 31)] 5 (by decide)) (by decide)

end Themis.OccupySpace
