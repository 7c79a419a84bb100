/-
Little-endian words in a byte-addressed memory.

A memory is a function from addresses to bytes. Reading is by recursion
on the width; writing is a pointwise update, so that what a write leaves
alone is read off its definition.
-/
import Mathlib.Algebra.Ring.Nat

namespace Themis.Lib

/-- The little-endian number in `n` bytes. -/
def readLE (m : Nat → UInt8) (a : Nat) : Nat → Nat
  | 0 => 0
  | n + 1 => (m a).toNat + 256 * readLE m (a + 1) n

/-- A number stored in `n` bytes. -/
def writeLE (m : Nat → UInt8) (a n v : Nat) : Nat → UInt8 :=
  fun x => if a ≤ x ∧ x < a + n then UInt8.ofNat (v / 256 ^ (x - a)) else m x

/-- `memcpy`. -/
def copyBytes (m : Nat → UInt8) (dst src n : Nat) : Nat → UInt8 :=
  fun x => if dst ≤ x ∧ x < dst + n then m (x - dst + src) else m x

/-- Bytes filled from a function. -/
def fillBytes (m : Nat → UInt8) (a n : Nat) (g : Nat → UInt8) : Nat → UInt8 :=
  fun x => if a ≤ x ∧ x < a + n then g (x - a) else m x

variable {m m' : Nat → UInt8} {a b n k v : Nat}

/-- A number depends on its bytes. -/
theorem readLE_congr (h : ∀ x, a ≤ x → x < a + n → m x = m' x) : readLE m a n = readLE m' a n := by
  induction n generalizing a with
  | zero => rfl
  | succ n ih =>
    have hfirst := h a (le_refl _) (by omega)
    have hrest := ih (a := a + 1) fun x h1 h2 => h x (by omega) (by omega)
    simp only [readLE]
    rw [hfirst, hrest]

/-- Other bytes are not written. -/
theorem writeLE_outside {x : Nat} (h : x < a ∨ a + n ≤ x) : writeLE m a n v x = m x := by
  unfold writeLE
  rw [if_neg (by omega)]

/-- Other bytes are not copied to. -/
theorem copyBytes_outside {dst src x : Nat} (h : x < dst ∨ dst + n ≤ x) :
    copyBytes m dst src n x = m x := by
  unfold copyBytes
  rw [if_neg (by omega)]

/-- A number beside the store is not changed. -/
theorem readLE_writeLE_of_disjoint (h : b + k ≤ a ∨ a + n ≤ b) :
    readLE (writeLE m a n v) b k = readLE m b k := by
  apply readLE_congr
  intro x h1 h2
  exact writeLE_outside (by omega)

/-- What was stored is read back. -/
theorem readLE_writeLE_self : readLE (writeLE m a n v) a n = v % 256 ^ n := by
  induction n generalizing a v m with
  | zero =>
    rw [Nat.pow_zero, Nat.mod_one]
    rfl
  | succ n ih =>
    -- past the first byte the write is the write of `v / 256`
    have hrest : readLE (writeLE m a (n + 1) v) (a + 1) n
        = readLE (writeLE m (a + 1) n (v / 256)) (a + 1) n := by
      apply readLE_congr
      intro x h1 h2
      unfold writeLE
      rw [if_pos (by omega), if_pos (by omega)]
      have hpow : x - a = (x - (a + 1)) + 1 := by omega
      rw [hpow, Nat.pow_succ, Nat.mul_comm, Nat.div_div_eq_div_mul]
    have hfirst : (writeLE m a (n + 1) v a).toNat = v % 256 := by
      unfold writeLE
      rw [if_pos (by omega), Nat.sub_self, Nat.pow_zero, Nat.div_one]
      rfl
    simp only [readLE]
    rw [hrest, ih, hfirst, Nat.pow_succ, Nat.mul_comm (256 ^ n), Nat.mod_mul]

/-- A byte of a number. -/
theorem ofNat_readLE_div {j : Nat} (hj : j < n) :
    UInt8.ofNat (readLE m a n / 256 ^ j) = m (a + j) := by
  induction n generalizing a j with
  | zero => omega
  | succ n ih =>
    have hlt : (m a).toNat < 256 := UInt8.toNat_lt _
    simp only [readLE]
    cases j with
    | zero =>
      apply UInt8.toNat_inj.1
      rw [Nat.pow_zero, Nat.div_one]
      show ((m a).toNat + 256 * readLE m (a + 1) n) % 256 = (m a).toNat
      omega
    | succ j =>
      have hrest : ((m a).toNat + 256 * readLE m (a + 1) n) / 256 = readLE m (a + 1) n := by omega
      rw [Nat.pow_succ', ← Nat.div_div_eq_div_mul, hrest, ih (by omega)]
      congr 1
      omega

/-- Words copied one by one are bytes copied. -/
theorem foldl_writeLE_words {src : Nat → UInt8} {dst c : Nat} (n : Nat) :
    (List.range n).foldl (fun m i => writeLE m (dst + 8 * i) 8 (readLE src (c + 8 * i) 8)) m
      = fun x => if dst ≤ x ∧ x < dst + 8 * n then src (x - dst + c) else m x := by
  induction n with
  | zero =>
    funext x
    rw [if_neg (by omega)]
    rfl
  | succ n ih =>
    rw [List.range_succ, List.foldl_append, ih]
    funext x
    simp only [List.foldl_cons, List.foldl_nil, writeLE]
    by_cases hlast : dst + 8 * n ≤ x ∧ x < dst + 8 * n + 8
    · rw [if_pos hlast, if_pos (by omega), ofNat_readLE_div (by omega)]
      congr 1
      omega
    rw [if_neg hlast]
    by_cases hin : dst ≤ x ∧ x < dst + 8 * n
    · rw [if_pos hin, if_pos (by omega)]
    · rw [if_neg hin, if_neg (by omega)]

end Themis.Lib
