/-
Chains of cells linked by a `next` function: `Linked next l z` says that
every cell of `l` points to the one after it and the last one to `z`.

The lemmas are the ways a program edits a chain: change a cell off the
chain, point the last cell elsewhere, take a cell out, put two chains
together.
-/
import Mathlib.Data.List.Basic
import Mathlib.Logic.Function.Basic

namespace Themis.Lib

open List Function

/-- From each element to the next, and from the last to `z`. -/
def Linked (next : Nat → Nat) : List Nat → Nat → Prop
  | [], _ => True
  | p :: l, z => next p = l.headD z ∧ Linked next l z

namespace Linked

variable {next next' : Nat → Nat} {l m : List Nat} {p q z : Nat}

/-- Two chains, one behind the other. -/
theorem append_iff : Linked next (l ++ m) z ↔ Linked next l (m.headD z) ∧ Linked next m z := by
  induction l with
  | nil => simp [Linked]
  | cons p l ih =>
    have hhead : (l ++ m).headD z = l.headD (m.headD z) := by cases l <;> simp
    simp only [cons_append, Linked, ih, hhead]
    exact and_assoc.symm

/-- A chain depends on its own links. -/
theorem congr (h : Linked next l z) (hn : ∀ p ∈ l, next' p = next p) : Linked next' l z := by
  induction l with
  | nil => trivial
  | cons p l ih =>
    refine ⟨?_, ?_⟩
    · rw [hn p mem_cons_self]
      exact h.1
    apply ih h.2
    intro q hq
    exact hn q (mem_cons_of_mem _ hq)

/-- A link elsewhere. -/
theorem update_of_notMem (h : Linked next l z) (hp : p ∉ l) : Linked (update next p q) l z := by
  apply h.congr
  intro r hr
  have hne : r ≠ p := by
    intro he
    exact hp (he ▸ hr)
  exact update_of_ne hne _ _

/-- The last link is changed. -/
theorem update_last (h : Linked next (l ++ [p]) z) (hp : p ∉ l) :
    Linked (update next p q) (l ++ [p]) q := by
  rw [append_iff] at h ⊢
  refine ⟨?_, ?_⟩
  · apply update_of_notMem _ hp
    simpa using h.1
  · simp [Linked]

/-- An element is taken out. -/
theorem unlink {d : Nat} (h : Linked next (l ++ p :: d :: m) z) (hn : (l ++ p :: d :: m).Nodup) :
    Linked (update next p (next d)) (l ++ p :: m) z := by
  rw [append_iff] at h ⊢
  rw [nodup_append] at hn
  obtain ⟨-, hright, hdisj⟩ := hn
  have hpl : p ∉ l := by
    intro hp
    exact hdisj p hp p mem_cons_self rfl
  have hpm : p ∉ m := by
    simp only [nodup_cons, mem_cons, not_or] at hright
    exact hright.1.2
  refine ⟨h.1.update_of_notMem hpl, ?_, h.2.2.2.update_of_notMem hpm⟩
  rw [update_self]
  exact h.2.2.1

/-- The link of an element. -/
theorem next_eq (h : Linked next (l ++ p :: m) z) : next p = m.headD z := by
  rw [append_iff] at h
  exact h.2.1

end Linked

end Themis.Lib
