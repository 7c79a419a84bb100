/-
The last event of a log. Each element of a list has at most one event on
some subject; what holds of the subject in the end is the last of them.

Dropping elements from the list does not matter as long as an event that
is dropped has another one behind it (`lastEvent_sublist`).
-/
import Mathlib.Data.List.Nodup

namespace Themis.Lib

open List

variable {α β γ : Type}

/-- The last event in a list. -/
def lastEvent (ev : α → Option β) : List α → Option β
  | [] => none
  | a :: L => (lastEvent ev L).or (ev a)

variable {ev ev' : α → Option β} {L K M : List α}

@[simp] theorem lastEvent_nil : lastEvent ev ([] : List α) = none := rfl

/-- The last event of two lists is that of the second, if it has one. -/
theorem lastEvent_append : lastEvent ev (L ++ M) = (lastEvent ev M).or (lastEvent ev L) := by
  induction L with
  | nil => simp
  | cons a L ih =>
    simp only [cons_append, lastEvent, ih]
    rw [Option.or_assoc]

/-- The last element decides, if it has an event. -/
@[simp] theorem lastEvent_snoc (a : α) : lastEvent ev (L ++ [a]) = (ev a).or (lastEvent ev L) := by
  rw [lastEvent_append]
  simp [lastEvent]

/-- The last event depends on the events of the list. -/
theorem lastEvent_congr (h : ∀ a ∈ L, ev a = ev' a) : lastEvent ev L = lastEvent ev' L := by
  induction L with
  | nil => rfl
  | cons a L ih =>
    simp only [lastEvent]
    rw [h a mem_cons_self, ih fun b hb => h b (mem_cons_of_mem _ hb)]

/-- There is no last event if there is none. -/
theorem lastEvent_eq_none : lastEvent ev L = none ↔ ∀ a ∈ L, ev a = none := by
  induction L with
  | nil => simp
  | cons a L ih => simp [lastEvent, ih, and_comm]

/-- Where the last event is. -/
theorem exists_of_lastEvent {b : β} (h : lastEvent ev L = some b) :
    ∃ L1 a L2, L = L1 ++ a :: L2 ∧ ev a = some b ∧ ∀ c ∈ L2, ev c = none := by
  induction L with
  | nil => cases h
  | cons a L ih =>
    simp only [lastEvent] at h
    cases hL : lastEvent ev L with
    | none =>
      rw [hL] at h
      exact ⟨[], a, L, rfl, by simpa using h, lastEvent_eq_none.1 hL⟩
    | some c =>
      rw [hL] at h
      obtain ⟨L1, x, L2, rfl, hx, hrest⟩ := ih (by rw [hL]; simpa using h)
      exact ⟨a :: L1, x, L2, rfl, hx, hrest⟩

/-- The last event is that of some element. -/
theorem lastEvent_mem {b : β} (h : lastEvent ev L = some b) : ∃ a ∈ L, ev a = some b := by
  obtain ⟨L1, a, L2, rfl, ha, -⟩ := exists_of_lastEvent h
  exact ⟨a, by simp, ha⟩

/-- Events through a map. -/
theorem lastEvent_map (f : γ → α) (L : List γ) :
    lastEvent ev (L.map f) = lastEvent (fun x => ev (f x)) L := by
  induction L with
  | nil => rfl
  | cons a L ih => simp [lastEvent, ih]

/-- Events translated. -/
theorem lastEvent_translate (g : β → γ) :
    lastEvent (fun a => (ev a).map g) L = (lastEvent ev L).map g := by
  induction L with
  | nil => rfl
  | cons a L ih =>
    simp only [lastEvent, ih]
    cases lastEvent ev L <;> rfl

/-- What has an event in `L` and is not in `K` is followed by another. -/
def Covered (ev : α → Option β) (L K : List α) : Prop :=
  ∀ L₁ a L₂, L = L₁ ++ a :: L₂ → a ∉ K → ev a ≠ none → lastEvent ev L₂ ≠ none

/-- The last event survives what drops only covered elements. -/
theorem lastEvent_sublist (hn : L.Nodup) (hsub : K.Sublist L)
    (hcov : Covered ev L K) : lastEvent ev K = lastEvent ev L := by
  induction hsub with
  | slnil => rfl
  | @cons K L a hsub ih =>
    have haK : a ∉ K := fun h => (nodup_cons.1 hn).1 (hsub.subset h)
    have hrest : lastEvent ev K = lastEvent ev L := by
      apply ih (nodup_cons.1 hn).2
      intro L1 x L2 hL hx hev
      exact hcov (a :: L1) x L2 (by rw [hL]; rfl) hx hev
    simp only [lastEvent, hrest]
    cases hL : lastEvent ev L with
    | some b => rfl
    | none =>
      have hnone : ev a = none := by
        by_contra hne
        exact hcov [] a L rfl haK hne hL
      simp [hnone]
  | @cons_cons K L a hsub ih =>
    have hrest : lastEvent ev K = lastEvent ev L := by
      apply ih (nodup_cons.1 hn).2
      intro L1 x L2 hL hx hev
      apply hcov (a :: L1) x L2 (by rw [hL]; rfl) _ hev
      intro hmem
      rcases mem_cons.1 hmem with rfl | hmem
      · apply (nodup_cons.1 hn).1
        rw [hL]
        simp
      · exact hx hmem
    simp only [lastEvent, hrest]

/-- An event that is not the last is followed by another. -/
theorem lastEvent_ne_none_of_ne {L1 L2 : List α} {a : α} {b : β}
    (ha : ev a = some b) (hne : lastEvent ev (L1 ++ a :: L2) ≠ some b) :
    lastEvent ev L2 ≠ none := by
  intro hnone
  apply hne
  rw [lastEvent_append]
  simp [lastEvent, hnone, ha]

end Themis.Lib
