/-
Searches in a bitmap, and the runs of zero bits they find.

`findNext` is the search for the next bit of a given value below a
limit; it returns the limit if there is none (`Found`). A run is maximal
in a window when the bits beside it are set or outside the window
(`MaxRun`). A scan from the left that alternates the two searches adds
one maximal run at a time: the runs of the scanned part of a window and
the new one are the runs of the longer part (`maxRun_grow`,
`maxRun_skip`), provided the scan has stopped at a set bit
(`Boundary`).
-/
import Mathlib.Data.Nat.Basic
import Mathlib.Tactic.Common

namespace Themis.Lib

variable {bits : Nat → Bool} {v : Bool} {lo hi start low next : Nat}

-- === the search

/-- The first of `n` bits from `i` that is `v`. -/
def findNextFrom (bits : Nat → Bool) (v : Bool) : Nat → Nat → Nat
  | 0, i => i
  | n + 1, i => if bits i = v then i else findNextFrom bits v n (i + 1)

/-- The first bit from `offset` on that is `v`. -/
def findNext (bits : Nat → Bool) (v : Bool) (size offset : Nat) : Nat :=
  if offset ≥ size then size else findNextFrom bits v (size - offset) offset

/-- What a search from `start` to `hi` has found at `next`. -/
structure Found (bits : Nat → Bool) (v : Bool) (hi start next : Nat) : Prop where
  ge : start ≤ next
  le : next ≤ hi
  before : ∀ x, start ≤ x → x < next → bits x = !v
  here : next = hi ∨ bits next = v

/-- The search finds what it looks for, or the end. -/
theorem findNextFrom_spec (n i : Nat) : Found bits v (i + n) i (findNextFrom bits v n i) := by
  induction n generalizing i with
  | zero =>
    refine ⟨le_refl _, le_refl _, fun x h1 h2 => ?_, .inl rfl⟩
    exact absurd h2 (not_lt.mpr h1)
  | succ n ih =>
    rw [findNextFrom]
    by_cases hi : bits i = v
    · rw [if_pos hi]
      refine ⟨le_refl _, Nat.le_add_right _ _, fun x h1 h2 => ?_, .inr hi⟩
      exact absurd h2 (not_lt.mpr h1)
    rw [if_neg hi]
    have h := ih (i + 1)
    rw [Nat.add_assoc, Nat.add_comm 1 n] at h
    refine ⟨Nat.le_of_succ_le h.ge, h.le, fun x h1 h2 => ?_, h.here⟩
    by_cases hx : x = i
    · cases hb : bits i <;> cases v <;> simp_all
    · exact h.before x (by omega) h2

/-- The search up to `hi`. -/
theorem findNext_spec (h : start ≤ hi) : Found bits v hi start (findNext bits v hi start) := by
  rw [findNext]
  by_cases hge : start ≥ hi
  · rw [if_pos hge]
    exact ⟨h, le_refl _, fun x h1 h2 => by omega, .inl rfl⟩
  rw [if_neg hge]
  have hspec : Found bits v (start + (hi - start)) start _ := findNextFrom_spec _ _
  rw [Nat.add_sub_cancel' h] at hspec
  exact hspec

-- === the runs

/-- The bits from `a` to `b` are zero, and the run cannot be made longer
inside the window from `lo` to `hi`. -/
structure MaxRun (bits : Nat → Bool) (lo hi a b : Nat) : Prop where
  left : lo ≤ a
  le : a ≤ b
  right : b < hi
  zero : ∀ x, a ≤ x → x ≤ b → bits x = false
  before : a = lo ∨ bits (a - 1) = true
  behind : b + 1 = hi ∨ bits (b + 1) = true

/-- Where a scan of the window from `lo` on may stand: nothing is scanned
yet, or the bit is set. -/
def Boundary (bits : Nat → Bool) (lo start : Nat) : Prop := start = lo ∨ bits start = true

/-- There is no run in an empty window. -/
theorem not_maxRun_empty (a b : Nat) : ¬ MaxRun bits lo lo a b := by
  intro h
  have := h.left
  have := h.le
  have := h.right
  omega

/-- Behind a run is the end or a set bit. -/
theorem MaxRun.behind_of {a b : Nat} (h : MaxRun bits lo start a b) (hb : Boundary bits lo start) (hi : Nat) :
    b + 1 = hi ∨ bits (b + 1) = true := by
  cases h.behind with
  | inr hone => exact .inr hone
  | inl he =>
    cases hb with
    | inl hlo =>
      have := h.left
      have := h.le
      omega
    | inr hone => exact .inr (he ▸ hone)

/-- Set bits add no run. -/
theorem maxRun_skip (hb : Boundary bits lo start) (hle : start ≤ hi)
    (hset : ∀ x, start ≤ x → x < hi → bits x = true) (a b : Nat) :
    MaxRun bits lo hi a b ↔ MaxRun bits lo start a b := by
  constructor
  · intro h
    have hlt : b < start := by
      by_contra hge
      have hone := hset b (Nat.le_of_not_lt hge) h.right
      rw [h.zero b h.le (le_refl b)] at hone
      cases hone
    refine ⟨h.left, h.le, hlt, h.zero, h.before, ?_⟩
    cases h.behind with
    | inl he =>
      exact .inl (by omega)
    | inr hone => exact .inr hone
  intro h
  exact ⟨h.left, h.le, lt_of_lt_of_le h.right hle, h.zero, h.before, h.behind_of hb hi⟩

/-- A free stretch adds one run. -/
theorem maxRun_grow (hb : Boundary bits lo start) (hlo : lo ≤ start) (hsl : start ≤ low)
    (hln : low < next) (hset : ∀ x, start ≤ x → x < low → bits x = true)
    (hzero : ∀ x, low ≤ x → x < next → bits x = false) (a b : Nat) :
    MaxRun bits lo next a b ↔ MaxRun bits lo start a b ∨ (a = low ∧ b = next - 1) := by
  -- the bit in front of the new run is set, if it is in the window
  have hfront : low = lo ∨ bits (low - 1) = true := by
    by_cases hs : low = start
    · cases hb with
      | inl h => exact .inl (hs.trans h)
      | inr h =>
        rw [← hs, hzero low (le_refl _) hln] at h
        cases h
    · exact .inr (hset (low - 1) (by omega) (by omega))
  constructor
  · intro h
    by_cases hbs : b < start
    · refine .inl ⟨h.left, h.le, hbs, h.zero, h.before, ?_⟩
      cases h.behind with
      | inl he => exact .inl (by omega)
      | inr hone => exact .inr hone
    -- it reaches the new zero bits, so it is the new run
    have hblow : low ≤ b := by
      by_contra hlt
      have hone := hset b (Nat.le_of_not_lt hbs) (Nat.lt_of_not_le hlt)
      rw [h.zero b h.le (le_refl b)] at hone
      cases hone
    have hale : a ≤ low := by
      by_contra hgt
      cases h.before with
      | inl he => omega
      | inr hone =>
        have := h.right
        have := h.le
        rw [hzero (a - 1) (by omega) (by omega)] at hone
        cases hone
    have halow : a = low := by
      by_contra hne
      cases hfront with
      | inl he =>
        have := h.left
        omega
      | inr hone =>
        rw [h.zero (low - 1) (by omega) (by omega)] at hone
        cases hone
    refine .inr ⟨halow, ?_⟩
    have hbn := h.right
    cases h.behind with
    | inl he => omega
    | inr hone =>
      by_contra hne
      rw [hzero (b + 1) (by omega) (by omega)] at hone
      cases hone
  · intro h
    cases h with
    | inl h =>
      exact ⟨h.left, h.le, by have := h.right; omega, h.zero, h.before, h.behind_of hb next⟩
    | inr h =>
      rw [h.1]
      exact ⟨by omega, by omega, by omega, fun x h1 h2 => hzero x h1 (by omega), hfront,
        .inl (by omega)⟩

end Themis.Lib
