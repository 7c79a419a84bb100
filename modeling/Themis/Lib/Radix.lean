/-
A radix tree as a finite map from indices: lookup, insertion, deletion
and the gang lookup of one entry, which returns the entry at the least
occupied index from a starting point on.

The tree carries a bound above every occupied index, so that the gang
lookup is a search that ends.
-/
import Mathlib.Data.Set.Finite.Lattice
import Mathlib.Data.Set.Finite.Range

namespace Themis.Lib

open Function

variable {α β : Type}

/-- A radix tree. -/
structure Radix (α : Type) where
  get : Nat → Option α
  bound : Nat
  get_none : ∀ i, bound ≤ i → get i = none

namespace Radix

variable {i j n : Nat} {get : Nat → Option α} {a : α} {t : Radix α}

/-- The tree with no index. -/
def empty : Radix α := ⟨fun _ => none, 0, fun _ _ => rfl⟩

/-- `radix_tree_insert`, over what was there. -/
def set (t : Radix α) (i : Nat) (a : α) : Radix α where
  get := Function.update t.get i (some a)
  bound := max t.bound (i + 1)
  get_none := by
    intro j hj
    have hji : j ≠ i := by omega
    rw [Function.update_of_ne hji]
    apply t.get_none
    omega

/-- `radix_tree_delete`. -/
def delete (t : Radix α) (i : Nat) : Radix α where
  get := Function.update t.get i none
  bound := t.bound
  get_none := by
    intro j hj
    by_cases hji : j = i
    · rw [hji, Function.update_self]
    · rw [Function.update_of_ne hji]
      exact t.get_none j hj

/-- What stands at the first of `n` indices that has something. -/
def nextFrom (get : Nat → Option α) : Nat → Nat → Option α
  | _, 0 => none
  | i, n + 1 =>
    match get i with
    | some a => some a
    | none => nextFrom get (i + 1) n

/-- `radix_tree_gang_lookup` for one item. -/
def gangLookup (t : Radix α) (i : Nat) : Option α :=
  nextFrom t.get i (t.bound - i)

/-- What was set. -/
@[simp] theorem get_set_self (t : Radix α) (i : Nat) (a : α) :
    (t.set i a).get i = some a := update_self _ _ _

/-- Other indices stay. -/
theorem get_set_of_ne (t : Radix α) (a : α) (h : j ≠ i) :
    (t.set i a).get j = t.get j := update_of_ne h _ _

/-- What was deleted. -/
@[simp] theorem get_delete_self (t : Radix α) (i : Nat) :
    (t.delete i).get i = none := update_self _ _ _

/-- Other indices stay. -/
theorem get_delete_of_ne (t : Radix α) (h : j ≠ i) :
    (t.delete i).get j = t.get j := update_of_ne h _ _

/-- Nothing was found, so nothing is there. -/
theorem nextFrom_eq_none (h : nextFrom get i n = none) (hij : i ≤ j) (hj : j < i + n) :
    get j = none := by
  induction n generalizing i with
  | zero => omega
  | succ n ih =>
    simp only [nextFrom] at h
    split at h
    · cases h
    rename_i hi
    by_cases hji : j = i
    · rw [hji]; exact hi
    · apply ih h <;> omega

/-- What was found is the first. -/
theorem nextFrom_eq_some (h : nextFrom get i n = some a) :
    ∃ j, i ≤ j ∧ get j = some a ∧ ∀ k, i ≤ k → k < j → get k = none := by
  induction n generalizing i with
  | zero => cases h
  | succ n ih =>
    simp only [nextFrom] at h
    split at h
    · rename_i b hi
      refine ⟨i, le_refl i, ?_, ?_⟩
      · rw [hi]; exact h
      · intro k hk hki
        omega
    rename_i hi
    obtain ⟨j, hij, hget, hgap⟩ := ih h
    refine ⟨j, by omega, hget, ?_⟩
    intro k hk hkj
    by_cases hki : k = i
    · rw [hki]; exact hi
    · exact hgap k (by omega) hkj

/-- No index from `i` on has something. -/
theorem gangLookup_eq_none (h : t.gangLookup i = none) (hij : i ≤ j) : t.get j = none := by
  by_cases hj : j < t.bound
  · exact nextFrom_eq_none h hij (by omega)
  · exact t.get_none j (by omega)

/-- The lookup finds the first index from `i` on. -/
theorem gangLookup_eq_some (h : t.gangLookup i = some a) :
    ∃ j, i ≤ j ∧ t.get j = some a ∧ ∀ k, i ≤ k → k < j → t.get k = none := nextFrom_eq_some h

end Radix

end Themis.Lib
