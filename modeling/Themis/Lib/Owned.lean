/-
Blocks behind a map. A partial map sends indices to blocks, no two
indices to the same one; some further blocks are held in hand. All of
them are in use, and none belongs to somebody else (`foreign`).

Each way to change the map together with what is in use is one lemma:
hold new blocks, map held blocks over a range and give back what was
there, cut off indices and give back their blocks.
-/
import Mathlib.Order.Basic

namespace Themis.Lib

open Option

/-- The blocks of a map and the blocks held are in use, and apart. -/
structure Owned (inUse foreign : Nat → Prop) (map : Nat → Option Nat)
    (held : Nat → Prop) : Prop where
  used : ∀ i x, map i = some x → inUse x ∧ 0 < x ∧ ¬ foreign x
  inj : ∀ i j x, map i = some x → map j = some x → i = j
  hold : ∀ x, held x → inUse x ∧ 0 < x ∧ ¬ foreign x
  apart : ∀ i x, map i = some x → ¬ held x

namespace Owned

variable {inUse inUse' foreign foreign' : Nat → Prop} {map map' : Nat → Option Nat}
  {held held' : Nat → Prop}

variable (h : Owned inUse foreign map held)
include h

/-- Blocks in use may change outside. -/
theorem change (huse : ∀ x, inUse x → ¬ foreign x → inUse' x)
    (hforeign : ∀ x, foreign' x → foreign x ∨ ¬ inUse x) : Owned inUse' foreign' map held := by
  have hmine : ∀ x, inUse x ∧ 0 < x ∧ ¬ foreign x → inUse' x ∧ 0 < x ∧ ¬ foreign' x := by
    intro x ⟨h1, h2, h3⟩
    refine ⟨huse x h1 h3, h2, ?_⟩
    intro hf
    rcases hforeign x hf with hf | hf
    · exact h3 hf
    · exact hf h1
  exact ⟨fun i x hi => hmine x (h.used i x hi), h.inj, fun x hx => hmine x (h.hold x hx), h.apart⟩

/-- New blocks are held. -/
theorem take {new : Nat → Prop}
    (hnew : ∀ x, new x → ¬ inUse x ∧ 0 < x) (huse : ∀ x, inUse' x ↔ inUse x ∨ new x)
    (hforeign : ∀ x, foreign x → inUse x) : Owned inUse' foreign map fun x => held x ∨ new x where
  used i x hi := by
    obtain ⟨h1, h2, h3⟩ := h.used i x hi
    exact ⟨(huse x).2 (.inl h1), h2, h3⟩
  inj := h.inj
  hold x hx := by
    rcases hx with hx | hx
    · obtain ⟨h1, h2, h3⟩ := h.hold x hx
      exact ⟨(huse x).2 (.inl h1), h2, h3⟩
    · exact ⟨(huse x).2 (.inr hx), (hnew x hx).2, fun hf => (hnew x hx).1 (hforeign x hf)⟩
  apart i x hi hx := by
    rcases hx with hx | hx
    · exact h.apart i x hi hx
    · exact (hnew x hx).1 (h.used i x hi).1

/-- The range `[start, start + num)` is mapped to the held blocks from
`b` on, and the blocks that were there are given back. -/
theorem assign {start num b : Nat} (hb : ∀ k, k < num → held (b + k))
    (hmap : ∀ i, map' i = if start ≤ i ∧ i < start + num then some (b + i - start) else map i)
    (huse : ∀ x, inUse' x ↔ inUse x ∧ ∀ i, start ≤ i → i < start + num → map i ≠ some x) :
    Owned inUse' foreign map' fun x => held x ∧ ¬ (b ≤ x ∧ x < b + num) := by
  have hrun : ∀ i, start ≤ i → i < start + num → held (b + i - start) := by
    intro i h1 h2
    have := hb (i - start) (by omega)
    rwa [show b + (i - start) = b + i - start by omega] at this
  have hkeep : ∀ x, held x → inUse' x ∧ 0 < x ∧ ¬ foreign x := by
    intro x hx
    obtain ⟨h1, h2, h3⟩ := h.hold x hx
    exact ⟨(huse x).2 ⟨h1, fun i _ _ hi => h.apart i x hi hx⟩, h2, h3⟩
  refine ⟨?_, ?_, ?_, ?_⟩
  · intro i x hi
    rw [hmap i] at hi
    split at hi
    · rename_i hr
      rw [some.injEq] at hi
      rw [← hi]
      exact hkeep _ (hrun i hr.1 hr.2)
    rename_i hr
    obtain ⟨h1, h2, h3⟩ := h.used i x hi
    refine ⟨(huse x).2 ⟨h1, ?_⟩, h2, h3⟩
    intro j hj1 hj2 hj
    rw [h.inj j i x hj hi] at hj1 hj2
    exact hr ⟨hj1, hj2⟩
  · intro i j x hi hj
    rw [hmap i] at hi
    rw [hmap j] at hj
    split at hi
    · rename_i hri
      split at hj
      · rw [some.injEq] at hi hj
        omega
      rw [← hi] at hj
      exact absurd (hrun i hri.1 hri.2) (h.apart j _ hj)
    split at hj
    · rename_i hrj
      rw [← hj] at hi
      exact absurd (hrun j hrj.1 hrj.2) (h.apart i _ hi)
    · exact h.inj i j x hi hj
  · exact fun x hx => hkeep x hx.1
  intro i x hi hx
  rw [hmap i] at hi
  split at hi
  · rw [some.injEq] at hi
    apply hx.2
    omega
  · exact h.apart i x hi hx.1

/-- Blocks cut off are given back. -/
theorem cut {S : Nat → Prop} (hin : ∀ i, S i → map' i = none) (hout : ∀ i, ¬ S i → map' i = map i)
    (huse : ∀ x, inUse' x ↔ inUse x ∧ ∀ i, S i → map i ≠ some x) :
    Owned inUse' foreign map' held := by
  have hback : ∀ i x, map' i = some x → ¬ S i ∧ map i = some x := by
    intro i x hi
    by_cases hs : S i
    · rw [hin i hs] at hi
      cases hi
    · rw [hout i hs] at hi
      exact ⟨hs, hi⟩
  refine ⟨?_, ?_, ?_, ?_⟩
  · intro i x hi
    obtain ⟨hs, hi⟩ := hback i x hi
    obtain ⟨h1, h2, h3⟩ := h.used i x hi
    refine ⟨(huse x).2 ⟨h1, ?_⟩, h2, h3⟩
    intro j hj hjx
    rw [h.inj j i x hjx hi] at hj
    exact hs hj
  · intro i j x hi hj
    exact h.inj i j x (hback i x hi).2 (hback j x hj).2
  · intro x hx
    obtain ⟨h1, h2, h3⟩ := h.hold x hx
    exact ⟨(huse x).2 ⟨h1, fun i _ hi => h.apart i x hi hx⟩, h2, h3⟩
  · intro i x hi
    exact h.apart i x (hback i x hi).2

end Owned

end Themis.Lib
