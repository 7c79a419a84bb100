/-
What `knapSack` returns and whom it puts on the list.

# The table

Column 0 is never filled and no column above the capacity is, so a suspect
can be chosen only while at least one megabyte, and not more than the
capacity, is left (`Admits`). The rows of the table are the `best` of these
selections (`fillRows_rows`), and the way back finds one that is worth it
(`traceBack_eq`).

# Weights

The weight is an `int`. A process of 2 GiB or more has a negative one: it
is always chosen from a column further right, which may be past the end of
the table (`fillRows_none`).
-/
import Mathlib.Algebra.Order.BigOperators.Group.List
import Mathlib.Algebra.Order.Group.Nat
import Mathlib.Data.List.Sublists
import Mathlib.Order.Bounds.Basic
import Themis.Malice

namespace Themis.Malice

open Detect OccupySpace List Function

variable {t : SpaceTable} {c i : Nat} {j w : Int} {v : Nat} {V V' : Table} {s : Suspect}
  {l done S suspects : List Suspect} {b : Budget}

-- === selections

/-- What a selection is worth. -/
def worth (S : List Suspect) : Nat := (S.map value).sum

/-- The space it takes. -/
def space (t : SpaceTable) (S : List Suspect) : Nat := (S.map fun s => getOccupySpace t s.pid).sum

/-- The selections that the table knows, the last suspect first, with `j`
left. -/
def Admits (t : SpaceTable) (c : Nat) : List Suspect → Int → Prop
  | [], _ => True
  | s :: S, j =>
    (1 ≤ j ∧ j ≤ c) ∧ weight t s.pid ≤ j ∧ Admits t c S (j - weight t s.pid)

/-- The best worth with room `j`. -/
def best (t : SpaceTable) (c : Nat) : List Suspect → Int → Nat
  | [], _ => 0
  | s :: prev, j =>
    if 1 ≤ j ∧ j ≤ c then
      if j < weight t s.pid then best t c prev j
      else max (best t c prev j) (best t c prev (j - weight t s.pid) + value s)
    else 0

/-- A choice with that worth. -/
def chosen (t : SpaceTable) (c : Nat) : List Suspect → Int → List Suspect
  | [], _ => []
  | s :: prev, j =>
    if best t c prev j < best t c (s :: prev) j then s :: chosen t c prev (j - weight t s.pid)
    else chosen t c prev j

/-- No choice is worth more. -/
theorem worth_le_best (hS : S <+ l) (hadm : Admits t c S j) : worth S ≤ best t c l j := by
  induction hS generalizing j with
  | slnil => exact le_refl 0
  | @cons S l s hS ih =>
    have hprev := ih hadm
    cases S with
    | nil => exact Nat.zero_le _
    | cons s' S =>
      rw [best, if_pos hadm.1]
      split
      · exact hprev
      · exact hprev.trans (le_max_left _ _)
  | @cons_cons S l s hS ih =>
    obtain ⟨hj, hw, hadm⟩ := hadm
    have hprev := ih hadm
    rw [best, if_pos hj, if_neg (not_lt.mpr hw)]
    apply le_max_of_le_right
    simp only [worth, map_cons, sum_cons] at hprev ⊢
    omega

/-- The process is taken. -/
theorem best_cons (h : best t c l j < best t c (s :: l) j) : (1 ≤ j ∧ j ≤ c)
    ∧ weight t s.pid ≤ j ∧ best t c (s :: l) j = best t c l (j - weight t s.pid) + value s := by
  rw [best] at h ⊢
  by_cases hj : 1 ≤ j ∧ j ≤ c
  · rw [if_pos hj] at h ⊢
    by_cases hw : j < weight t s.pid
    · rw [if_pos hw] at h
      omega
    · rw [if_neg hw] at h ⊢
      exact ⟨hj, by omega, by omega⟩
  · rw [if_neg hj] at h
    omega

/-- The process is left. -/
theorem best_cons_eq (h : ¬ best t c l j < best t c (s :: l) j) :
    best t c (s :: l) j = best t c l j := by
  rw [best] at h ⊢
  by_cases hj : 1 ≤ j ∧ j ≤ c
  · rw [if_pos hj] at h ⊢
    split at h <;> rename_i hw
    · rw [if_pos hw]
    · rw [if_neg hw]
      omega
  rw [if_neg hj]
  -- the columns outside are zero in every row
  cases l with
  | nil => rfl
  | cons s' l => rw [best, if_neg hj]

/-- The choice is one, with the best worth. -/
theorem chosen_spec (l : List Suspect) (j : Int) :
    chosen t c l j <+ l ∧ Admits t c (chosen t c l j) j ∧ worth (chosen t c l j) = best t c l j := by
  induction l generalizing j with
  | nil => exact ⟨Sublist.refl [], trivial, rfl⟩
  | cons s l ih =>
    rw [chosen]
    by_cases h : best t c l j < best t c (s :: l) j
    · obtain ⟨hj, hw, heq⟩ := best_cons h
      obtain ⟨hsub, hadm, hworth⟩ := ih (j - weight t s.pid)
      rw [if_pos h]
      refine ⟨hsub.cons_cons s, ⟨hj, hw, hadm⟩, ?_⟩
      rw [heq, ← hworth, Nat.add_comm]
      rfl
    obtain ⟨hsub, hadm, hworth⟩ := ih j
    rw [if_neg h, best_cons_eq h]
    exact ⟨hsub.cons s, hadm, hworth⟩

/-- The best is at most everything. -/
theorem best_le_worth (l : List Suspect) (j : Int) : best t c l j ≤ worth l := by
  obtain ⟨hsub, -, hworth⟩ := chosen_spec (t := t) (c := c) l j
  rw [← hworth]
  exact (hsub.map value).sum_le_sum (fun _ _ => Nat.zero_le _)

-- === rows

/-- No column that a weight leads to is past the end. -/
def InTable (t : SpaceTable) (c : Nat) (l : List Suspect) : Prop :=
  ∀ s ∈ l, c - weight t s.pid < sizeV

/-- One row from the row above. -/
def nextRow (row : Nat → Int) (w : Int) (v : Nat) (b : Nat) : Int :=
  if b < w then row b else maxValue (row b) (toInt (toUlong (row (b - w).toNat) + v))

/-- A row is filled. -/
theorem fillRow_spec {n : Nat} (hi : i < sizeV) (hn : n < sizeV) (hw : n - w < sizeV) :
    ∃ V', fillRow V (i + 1) w v n = some V' ∧ (∀ a, a ≠ i + 1 → V' a = V a)
      ∧ ∀ b, V' (i + 1) b = if 1 ≤ b ∧ b ≤ n then nextRow (V i) w v b else V (i + 1) b := by
  induction n with
  | zero => exact ⟨V, rfl, fun _ _ => rfl, fun b => by rw [if_neg (by omega)]⟩
  | succ n ih =>
    obtain ⟨V', heq, hother, hrow⟩ := ih (by omega) (by omega)
    have hcell : cell V' (i + 1) w v (n + 1) = some (nextRow (V i) w v (n + 1)) := by
      have habove : V' i = V i := hother i (by omega)
      have hread : readV V' i ((n + 1 : Nat) : Int) = some (V i (n + 1)) := by
        rw [readV, if_pos ⟨hi, by omega, by omega⟩, habove]
        rfl
      rw [cell, Nat.add_sub_cancel, hread]
      simp only [Option.bind_eq_bind, Option.bind_some, nextRow]
      split
      · rfl
      · rw [readV, if_pos ⟨hi, by omega, by omega⟩, habove]
        rfl
    refine ⟨update V' (i + 1) (update (V' (i + 1)) (n + 1)
      (nextRow (V i) w v (n + 1))), ?_, ?_, ?_⟩
    · rw [fillRow, heq]
      simp only [Option.bind_eq_bind, Option.bind_some, hcell]
    · intro a ha
      rw [update_of_ne ha, hother a ha]
    intro b
    rw [update_self]
    by_cases hb : b = n + 1
    · rw [hb, update_self, if_pos (by omega)]
    rw [update_of_ne hb, hrow]
    congr 1
    exact propext (by omega)

/-- A row that leaves the table. -/
theorem fillRow_none {n : Nat} (hn : 1 ≤ n) (hlt : n < sizeV) (hw : ¬ n - w < sizeV) :
    fillRow V i w v n = none := by
  obtain ⟨n, rfl⟩ := Nat.exists_eq_add_of_le' hn
  have hcell : ∀ V', cell V' i w v (n + 1) = none := by
    intro V'
    have hpast : readV V' (i - 1) ((n + 1 : Nat) - w) = none := if_neg (by omega)
    unfold cell
    rw [hpast]
    cases readV V' (i - 1) ((n + 1 : Nat) : Int) with
    | none => rfl
    | some x => exact if_neg (by omega)
  rw [fillRow]
  cases fillRow V i w v n with
  | none => rfl
  | some V' => simp [hcell]

/-- The rows filled so far. -/
def Rows (t : SpaceTable) (c : Nat) (V : Table) : List Suspect → Prop
  | [] => ∀ j < sizeV, V 0 j = 0
  | s :: prev => (∀ j < sizeV, V (prev.length + 1) j = best t c (s :: prev) j) ∧ Rows t c V prev

/-- The last row has the best worths. -/
theorem Rows.last (h : Rows t c V l) {k : Nat} (hk : k < sizeV) : V l.length k = best t c l k := by
  cases l with
  | nil => exact h k hk
  | cons s l => exact h.1 k hk

/-- Only these rows matter. -/
theorem Rows.congr (h : Rows t c V l) (heq : ∀ i ≤ l.length, V' i = V i) : Rows t c V' l := by
  induction l with
  | nil =>
    intro j hj
    rw [heq 0 (le_refl 0)]
    exact h j hj
  | cons s l ih =>
    refine ⟨?_, ih h.2 fun i hi => heq i (by simp; omega)⟩
    intro j hj
    rw [heq (l.length + 1) le_rfl]
    exact h.1 j hj

/-- The sum fits an `int`. -/
theorem toInt_add {x : Int} (hx : 0 ≤ x) (h : x + v < 2 ^ 31) : toInt (toUlong x + v) = x + v := by
  unfold toInt toUlong
  split <;> omega

/-- One more row. -/
theorem Rows.next (h : Rows t c V done) (hzero : ∀ k, V (done.length + 1) k = 0)
    (hlen : done.length < sizeV) (hc : c < sizeV) (hs : c - weight t s.pid < sizeV)
    (hworth : worth (s :: done) < 2 ^ 31) :
    ∃ V', fillRow V (done.length + 1) (weight t s.pid) (value s) c = some V'
      ∧ Rows t c V' (s :: done) ∧ ∀ a > done.length + 1, V' a = V a := by
  obtain ⟨V', heq, hother, hrow⟩ := fillRow_spec (V := V) (v := value s) hlen hc hs
  refine ⟨V', heq, ⟨?_, ?_⟩, fun a ha => hother a (by omega)⟩
  · intro k hk
    rw [hrow, best]
    by_cases hkc : 1 ≤ k ∧ k ≤ c
    · have hkc' : (1 : Int) ≤ k ∧ (k : Int) ≤ c := by omega
      rw [if_pos hkc, if_pos hkc', nextRow, h.last hk]
      by_cases hw : (k : Int) < weight t s.pid
      · rw [if_pos hw, if_pos hw]
      rw [h.last (by omega)]
      have hcast : (((k - weight t s.pid).toNat : Nat) : Int) = k - weight t s.pid := by omega
      have hle := best_le_worth (t := t) (c := c) done (k - weight t s.pid)
      have hsum : worth (s :: done) = value s + worth done := by simp [worth]
      rw [hcast, toInt_add (by omega) (by omega), maxValue]
      split <;> omega
    have hkc' : ¬ ((1 : Int) ≤ k ∧ (k : Int) ≤ c) := by omega
    rw [if_neg hkc, if_neg hkc', hzero]
    rfl
  · exact h.congr fun i hi => hother i (by omega)

/-- All rows. -/
theorem fillRows_rows (done : List Suspect) (hc : c < sizeV) (l : List Suspect) (hin : InTable t c l)
    (hlen : done.length + l.length < sizeV) (hworth : worth done + worth l < 2 ^ 31)
    (h : Rows t c V done) (hzero : ∀ a > done.length, ∀ k, V a k = 0) :
    ∃ V', fillRows t c V (done.length + 1) l = some V' ∧ Rows t c V' (l.reverse ++ done) := by
  induction l generalizing V done with
  | nil => exact ⟨V, rfl, h⟩
  | cons s l ih =>
    have hsum : worth (s :: done) = value s + worth done := by simp [worth]
    have hsum' : worth (s :: l) = value s + worth l := by simp [worth]
    rw [length_cons] at hlen
    obtain ⟨V1, heq, hrows, habove⟩ := h.next (hzero _ (by omega)) (by omega) hc
      (hin s mem_cons_self) (by omega)
    obtain ⟨V2, heq2, hrows2⟩ := ih (s :: done)
      (fun x hx => hin x (mem_cons_of_mem s hx)) (by simp; omega) (by omega) hrows
      (fun a ha k => by
        rw [length_cons] at ha
        rw [habove a ha, hzero a (by omega)])
    refine ⟨V2, ?_, by simpa using hrows2⟩
    rw [fillRows, heq]
    exact heq2

/-- An index outside the table. -/
theorem fillRows_none (hc : 1 ≤ c) (hlt : c < sizeV) (hin : ¬ InTable t c l) :
    fillRows t c V i l = none := by
  induction l generalizing V i with
  | nil => exact absurd (by simp [InTable]) hin
  | cons s l ih =>
    rw [fillRows]
    by_cases hs : c - weight t s.pid < sizeV
    · have hrest : ¬ InTable t c l := fun h => hin (forall_mem_cons.mpr ⟨hs, h⟩)
      cases fillRow V i (weight t s.pid) (value s) c with
      | none => rfl
      | some V' => exact ih hrest
    · rw [fillRow_none hc hlt hs]
      rfl

-- === the way back

/-- The way back finds the choice. -/
theorem traceBack_eq (h : Rows t c V l) (hlen : l.length < sizeV) (hin : InTable t c l)
    (hmal : ∀ s ∈ l, s.pid ∉ b.malicious) (hnd : (l.map Suspect.pid).Nodup)
    (hj : 0 ≤ j ∧ j < sizeV) : ∃ j', 0 ≤ j' ∧ traceBack t V l j b = some (j',
      { malicious := b.malicious ++ (chosen t c l j).map Suspect.pid
        memoryCap := b.memoryCap - ((chosen t c l j).map fun s => weight t s.pid).sum }) := by
  induction l generalizing j b with
  | nil => exact ⟨j, hj.1, by simp [traceBack, chosen]⟩
  | cons s l ih =>
    obtain ⟨hs, hnd⟩ := nodup_cons.mp hnd
    rw [length_cons] at hlen
    have hread : ∀ i < sizeV, readV V i j = some (V i j.toNat) := fun i hi => if_pos ⟨hi, hj⟩
    have hcast : ((j.toNat : Nat) : Int) = j := by omega
    have hhere : V (l.length + 1) j.toNat = best t c (s :: l) j := by rw [h.1 _ (by omega), hcast]
    have habove : V l.length j.toNat = best t c l j := by rw [h.2.last (by omega), hcast]
    have hin' : InTable t c l := fun x hx => hin x (mem_cons_of_mem s hx)
    have hmal' : ∀ x ∈ l, x.pid ∉ b.malicious := fun x hx => hmal x (mem_cons_of_mem s hx)
    rw [traceBack, hread _ hlen, hread _ (by omega), chosen]
    simp only [Option.bind_eq_bind, Option.bind_some]
    by_cases hgt : best t c l j < best t c (s :: l) j
    · obtain ⟨hjc, hw, -⟩ := best_cons hgt
      have hnot : isInMaliciousProcessList b.malicious s.pid = false := by
        simpa [isInMaliciousProcessList] using hmal s mem_cons_self
      have hcol := hin s mem_cons_self
      rw [if_pos (by omega), if_pos hgt, hnot, if_neg (by simp), if_neg (by omega)]
      have hfresh : ∀ x ∈ l, x.pid ∉ insertIntoMaliciousProcess b.malicious s.pid := by
        intro x hx hmem
        rcases mem_append.mp hmem with hmem | hmem
        · exact hmal' x hx hmem
        · exact hs (mem_map.mpr ⟨x, hx, mem_singleton.mp hmem⟩)
      obtain ⟨j', hj', heq⟩ := ih (j := j - weight t s.pid)
        (b := ⟨insertIntoMaliciousProcess b.malicious s.pid, b.memoryCap - weight t s.pid⟩)
        h.2 (by omega) hin' hfresh hnd ⟨by omega, by omega⟩
      refine ⟨j', hj', ?_⟩
      rw [heq]
      simp [insertIntoMaliciousProcess, Int.sub_sub]
    · rw [if_neg (by omega), if_neg hgt]
      exact ih h.2 (by omega) hin' hmal' hnd hj

-- === knapSack

/-- A call as it may be made. -/
structure Call (t : SpaceTable) (suspects : List Suspect) (b : Budget) (c : Nat) : Prop where
  length : suspects.length ≤ sizeV - 1
  nodup : (suspects.map Suspect.pid).Nodup
  fresh : ∀ s ∈ suspects, s.pid ∉ b.malicious
  capacity : 1 ≤ c ∧ c ≤ sizeV - 1
  values : worth suspects < 2 ^ 31

section
variable (h : Call t suspects b c)
include h

/-- A call inside the table. -/
theorem Call.knapSack_some (hne : suspects ≠ []) (hin : InTable t c suspects) :
    ∃ j, 0 ≤ j ∧ knapSack t suspects b c = some
      { result := best t c suspects.reverse c
        j := j
        budget :=
          { malicious := b.malicious ++ (chosen t c suspects.reverse c).map Suspect.pid
            memoryCap := b.memoryCap
              - ((chosen t c suspects.reverse c).map fun s => weight t s.pid).sum } } := by
  have hlen := h.length
  have hc := h.capacity
  obtain ⟨V, hfill, hrows⟩ := fillRows_rows (t := t) (c := c) (V := zeroV) []
    (by omega) suspects hin (by simp; omega) (by simpa [worth] using h.values)
    (fun _ _ => rfl) (fun _ _ _ => rfl)
  rw [append_nil] at hrows
  obtain ⟨j, hj, htrace⟩ := traceBack_eq (b := b) (j := c) hrows (by simp; omega)
    (fun s hs => hin s (mem_reverse.mp hs)) (fun s hs => h.fresh s (mem_reverse.mp hs))
    (by rw [map_reverse]; exact nodup_reverse.mpr h.nodup) (by omega)
  have hlast : V suspects.length c = best t c suspects.reverse c := by
    have := hrows.last (k := c) (by omega)
    rwa [length_reverse] at this
  have hresult : readV V suspects.length (c : Int) = some (best t c suspects.reverse c : Int) := by
    rw [readV, if_pos ⟨by omega, by omega, by omega⟩, Int.toNat_natCast, hlast]
  refine ⟨j, hj, ?_⟩
  rw [knapSack, if_neg hne]
  rw [length_nil] at hfill
  rw [hfill]
  simp only [Option.bind_eq_bind, Option.bind_some, htrace, hresult]

/-- A call outside the table. -/
theorem Call.knapSack_none (hne : suspects ≠ []) (hin : ¬ InTable t c suspects) :
    knapSack t suspects b c = none := by
  have hc := h.capacity
  rw [knapSack, if_neg hne, fillRows_none hc.1 (by omega) hin]
  rfl

end

/-- The greatest worth of a selection that meets `P`. -/
def Greatest (l : List Suspect) (P : List Suspect → Prop) (r : Int) : Prop :=
  IsGreatest { x | ∃ S, S <+ l ∧ P S ∧ (worth S : Int) = x } r

/-- The best is the greatest. -/
theorem greatest_best (l : List Suspect) (j : Int) :
    Greatest l (Admits t c · j) (best t c l j) := by
  obtain ⟨hsub, hadm, hworth⟩ := chosen_spec (t := t) (c := c) l j
  refine ⟨⟨_, hsub, hadm, by rw [hworth]⟩, ?_⟩
  rintro x ⟨S, hS, hSadm, rfl⟩
  exact Int.ofNat_le.mpr (worth_le_best hS hSadm)

/-- A call without processes. -/
theorem knapSack_nil {k : Knapsack} (hk : knapSack t [] b c = some k) : k.result ≠ worth S := by
  have hempty : knapSack t [] b c = some ⟨-1, c, b⟩ := rfl
  rw [hempty, Option.some_inj] at hk
  rw [← hk]
  change (-1 : Int) ≠ worth S
  omega

/-- `knapSack` is optimal exactly if there is a suspect, no weight leads
past the end of the table, and the best selection that the table knows is
worth as much as the best one within the capacity. -/
theorem knapSack_optimal_iff (h : Call t suspects b c) :
    (∃ k, knapSack t suspects b c = some k
        ∧ Greatest suspects.reverse (fun S => space t S ≤ c) k.result)
      ↔ suspects ≠ [] ∧ InTable t c suspects ∧
        ∃ r, Greatest suspects.reverse (fun S => space t S ≤ c) r
          ∧ Greatest suspects.reverse (Admits t c · c) r := by
  by_cases hne : suspects = []
  · subst hne
    refine ⟨?_, fun h => absurd rfl h.1⟩
    rintro ⟨k, hk, ⟨S, -, -, hS⟩, -⟩
    exact absurd hS.symm (knapSack_nil hk)
  by_cases hin : InTable t c suspects
  · obtain ⟨j, -, hk⟩ := h.knapSack_some hne hin
    have hbest := greatest_best (t := t) (c := c) suspects.reverse c
    rw [hk]
    constructor
    · rintro ⟨k, hk, hgreat⟩
      cases hk
      exact ⟨hne, hin, _, hgreat, hbest⟩
    rintro ⟨-, -, r, hgreat, hadm⟩
    refine ⟨_, rfl, ?_⟩
    rwa [← hadm.unique hbest]
  rw [h.knapSack_none hne hin]
  refine ⟨?_, fun h => absurd h.2.1 hin⟩
  rintro ⟨k, hk, -⟩
  cases hk

/-- Two suspects of a megabyte each, worth 3 and 2. -/
def twoSuspects : List Suspect := [⟨2, 3, 1⟩, ⟨4, 2, 1⟩]

/-- Two processes of one megabyte. -/
def twoMegabytes : SpaceTable := recordSizes initSpaceTable [(2, 2 ^ 20), (4, 2 ^ 20)]

/-- With one megabyte left the first is chosen. -/
theorem knapSack_optimal_iff_one_megabyte :
    ∃ k, knapSack twoMegabytes twoSuspects ⟨[], 1⟩ 1 = some k
      ∧ Greatest twoSuspects.reverse (fun S => space twoMegabytes S ≤ 1) k.result := by
  have hcall : Call twoMegabytes twoSuspects ⟨[], 1⟩ 1 :=
    ⟨by decide, by decide, by decide, by decide, by decide⟩
  have hbound : ∀ S ∈ twoSuspects.reverse.sublists, space twoMegabytes S ≤ 1 → worth S ≤ 3 := by
    decide
  have hbest : Greatest twoSuspects.reverse (Admits twoMegabytes 1 · 1) 3 :=
    greatest_best (t := twoMegabytes) (c := 1) twoSuspects.reverse 1
  refine (knapSack_optimal_iff hcall).2 ⟨by decide, by unfold InTable; decide, 3, ⟨?_, ?_⟩, hbest⟩
  · exact ⟨[⟨2, 3, 1⟩], by decide, by decide, by decide⟩
  · rintro x ⟨S, hS, hfits, rfl⟩
    exact Int.ofNat_le.mpr (hbound S (mem_sublists.2 hS) hfits)

/-- A suspect of no weight before one that fills the capacity: worth 8
together, but column 0 has forgotten the first. -/
theorem knapSack_weightless : ¬ ∀ t suspects b c, Call t suspects b c →
    ∃ k, knapSack t suspects b c = some k
      ∧ Greatest suspects.reverse (fun S => space t S ≤ c) k.result := by
  intro h
  have hcall : Call (recordSizes initSpaceTable [(2, 2 ^ 20)]) [⟨1, 5, 1⟩, ⟨2, 3, 1⟩] ⟨[], 1⟩ 1 :=
    ⟨by decide, by decide, by decide, by decide, by decide⟩
  obtain ⟨k, hk, -, hbound⟩ := h _ _ _ _ hcall
  have hboth : (8 : Int) ≤ k.result :=
    hbound ⟨[⟨2, 3, 1⟩, ⟨1, 5, 1⟩], Sublist.refl _, by decide, by decide⟩
  have hfive : (knapSack (recordSizes initSpaceTable [(2, 2 ^ 20)]) [⟨1, 5, 1⟩, ⟨2, 3, 1⟩] ⟨[], 1⟩ 1).map
      Knapsack.result = some 5 := by decide
  rw [hk, Option.map_some, Option.some_inj] at hfive
  omega

/-- What is asked of the processes put on the list. -/
structure Realises (t : SpaceTable) (suspects : List Suspect) (b : Budget) (c : Nat)
    (k : Knapsack) (S : List Suspect) : Prop where
  malicious : k.budget.malicious = b.malicious ++ S.map Suspect.pid
  suspects : ∀ s ∈ S, s ∈ suspects
  nodup : (S.map Suspect.pid).Nodup
  fits : space t S ≤ c
  result : k.result = worth S
  j_nonneg : 0 ≤ k.j
  memoryCap : k.budget.memoryCap = b.memoryCap - space t S

/-- A size that fits an `int`. -/
theorem weight_eq {pid : Nat} (h : getOccupySpace t pid < 2 ^ 31) :
    weight t pid = getOccupySpace t pid := by
  unfold weight toInt
  split <;> omega

/-- The weights add up. -/
theorem sum_weight (hS : ∀ s ∈ S, getOccupySpace t s.pid < 2 ^ 31) :
    (S.map fun s => weight t s.pid).sum = space t S := by
  induction S with
  | nil => rfl
  | cons s S ih =>
    rw [forall_mem_cons] at hS
    simp only [space, map_cons, sum_cons] at ih ⊢
    rw [ih hS.2, weight_eq hS.1]
    rfl

/-- A choice fits its room. -/
theorem Admits.weight_le (h : Admits t c S j) (hj : 0 ≤ j) :
    (S.map fun s => weight t s.pid).sum ≤ j := by
  induction S generalizing j with
  | nil => exact hj
  | cons s S ih =>
    have hrest := ih h.2.2 (by have := h.2.1; omega)
    rw [map_cons, sum_cons]
    omega

/-- Light processes are chosen as they should. -/
theorem realises_of_light (h : Call t suspects b c) (hne : suspects ≠ [])
    (hlight : ∀ s ∈ suspects, getOccupySpace t s.pid < 2 ^ 31) :
    ∃ k S, knapSack t suspects b c = some k ∧ Realises t suspects b c k S := by
  have hin : InTable t c suspects := by
    intro s hs
    have hc := h.capacity
    rw [weight_eq (hlight s hs)]
    omega
  obtain ⟨j, hj, hk⟩ := h.knapSack_some hne hin
  obtain ⟨hsub, hadm, hworth⟩ := chosen_spec (t := t) (c := c) suspects.reverse c
  have hmem : ∀ s ∈ chosen t c suspects.reverse c, s ∈ suspects := fun s hs =>
    mem_reverse.mp (hsub.subset hs)
  have hsum := sum_weight fun s hs => hlight s (hmem s hs)
  have hle := hadm.weight_le (by omega)
  rw [hsum] at hk hle
  refine ⟨_, chosen t c suspects.reverse c, hk, rfl, hmem, ?_, by omega, by rw [hworth], hj, rfl⟩
  apply (hsub.map Suspect.pid).nodup
  rw [map_reverse]
  exact nodup_reverse.mpr h.nodup

/-- A size that does not fit is negative. -/
theorem weight_neg {pid : Nat} (h : ¬ getOccupySpace t pid < 2 ^ 31) : weight t pid < 0 := by
  have hlt : getOccupySpace t pid < 2 ^ 32 := by
    unfold getOccupySpace
    split
    · exact Nat.mod_lt _ (by decide)
    · decide
  unfold weight toInt
  split <;> omega

/-- Only process `p` has a value. -/
def soleSuspect (p pid : Nat) : Suspect := ⟨pid, if pid = p then 1 else 0, 1⟩

/-- The value of a process. -/
theorem value_soleSuspect (p pid : Nat) : value (soleSuspect p pid) = if pid = p then 1 else 0 := by
  by_cases h : pid = p <;> simp [value, soleSuspect, h]

/-- The worth of all. -/
theorem worth_soleSuspect_le (p : Nat) (pids : List Nat) :
    worth (pids.map (soleSuspect p)) ≤ pids.length := by
  induction pids with
  | nil => exact le_refl 0
  | cons pid pids ih =>
    have hone : value (soleSuspect p pid) ≤ 1 := by
      rw [value_soleSuspect]
      split <;> decide
    simp only [worth, map_cons, sum_cons, length_cons] at ih ⊢
    omega

/-- One heavy process spoils the choice. -/
theorem not_realises_of_heavy {p : Nat} {pids : List Nat} {k : Knapsack} (hp : p ∈ pids)
    (hheavy : ¬ getOccupySpace t p < 2 ^ 31) (h : Call t (pids.map (soleSuspect p)) b c)
    (hk : knapSack t (pids.map (soleSuspect p)) b c = some k) :
    ¬ Realises t (pids.map (soleSuspect p)) b c k S := by
  intro hreal
  have hc := h.capacity
  have hpos : sizeV < 2 ^ 31 := by decide
  have hmem := mem_map_of_mem (f := soleSuspect p) hp
  have hne := ne_nil_of_mem hmem
  have hvalue : value (soleSuspect p p) = 1 := by rw [value_soleSuspect, if_pos rfl]
  have hzero : worth S = 0 := by
    apply sum_eq_zero
    intro x hx
    obtain ⟨s, hs, rfl⟩ := mem_map.mp hx
    obtain ⟨q, -, rfl⟩ := mem_map.mp (hreal.suspects s hs)
    rw [value_soleSuspect, if_neg]
    rintro rfl
    have hle : getOccupySpace t q ≤ space t S :=
      single_le_sum (fun _ _ => Nat.zero_le _) _ (mem_map.mpr ⟨_, hs, rfl⟩)
    have hfits := hreal.fits
    omega
  by_cases hin : InTable t c (pids.map (soleSuspect p))
  · obtain ⟨j, -, hk'⟩ := h.knapSack_some hne hin
    have hneg : weight t (soleSuspect p p).pid < 0 := weight_neg hheavy
    have hadm : Admits t c [soleSuspect p p] c := ⟨by omega, by omega, trivial⟩
    have hle := worth_le_best (singleton_sublist.mpr (mem_reverse.mpr hmem)) hadm
    simp only [worth, map_cons, map_nil, sum_cons, sum_nil, hvalue] at hle
    have hresult := hreal.result
    rw [hk', Option.some_inj] at hk
    rw [← hk, hzero] at hresult
    change (best t c _ c : Int) = 0 at hresult
    omega
  · rw [h.knapSack_none hne hin] at hk
    cases hk

/-- The selection realises the result within the budget, whatever the values
are, exactly if there is a suspect and none occupies `2 ^ 31` megabytes or
more. -/
theorem knapSack_realises_iff (t : SpaceTable) (pids : List Nat) (b : Budget) (c : Nat)
    (hlen : pids.length ≤ sizeV - 1) (hnd : pids.Nodup) (hfresh : ∀ p ∈ pids, p ∉ b.malicious)
    (hc : 1 ≤ c ∧ c ≤ sizeV - 1) :
    (∀ suspects : List Suspect, suspects.map Suspect.pid = pids → worth suspects < 2 ^ 31 →
        ∃ k S, knapSack t suspects b c = some k ∧ Realises t suspects b c k S)
      ↔ pids ≠ [] ∧ ∀ p ∈ pids, getOccupySpace t p < 2 ^ 31 := by
  have hcall : ∀ suspects : List Suspect, suspects.map Suspect.pid = pids →
      worth suspects < 2 ^ 31 → Call t suspects b c := by
    rintro suspects rfl hworth
    exact ⟨by simpa using hlen, hnd, fun s hs => hfresh _ (mem_map_of_mem hs), hc, hworth⟩
  constructor
  · intro hall
    refine ⟨?_, ?_⟩
    · rintro rfl
      obtain ⟨k, S, hk, hreal⟩ := hall [] rfl (by decide)
      exact knapSack_nil hk hreal.result
    intro p hp
    by_contra hheavy
    have hpids : (pids.map (soleSuspect p)).map Suspect.pid = pids := by
      rw [map_map]
      exact map_id pids
    have hworth : worth (pids.map (soleSuspect p)) < 2 ^ 31 := by
      have hle := worth_soleSuspect_le p pids
      have hsize : sizeV < 2 ^ 31 := by decide
      omega
    obtain ⟨k, S, hk, hreal⟩ := hall _ hpids hworth
    exact not_realises_of_heavy hp hheavy (hcall _ hpids hworth) hk hreal
  rintro ⟨hne, hlight⟩ suspects rfl hworth
  exact realises_of_light (hcall suspects rfl hworth) (by simpa using hne)
    fun s hs => hlight _ (mem_map_of_mem hs)

/-- Room for one of two. -/
theorem knapSack_realises_iff_one_megabyte :
    ∃ k S, knapSack twoMegabytes twoSuspects ⟨[7], 256⟩ 1 = some k
      ∧ Realises twoMegabytes twoSuspects ⟨[7], 256⟩ 1 k S :=
  (knapSack_realises_iff twoMegabytes [2, 4] ⟨[7], 256⟩ 1 (by decide) (by decide) (by decide)
    (by decide)).mpr (by decide) twoSuspects rfl (by decide)

/-- A suspect with a file of 2 GiB and the whole memory: column 2304 is past
the end. -/
theorem knapSack_past_end : ¬ ∀ t suspects b c, Call t suspects b c →
    ∃ k S, knapSack t suspects b c = some k ∧ Realises t suspects b c k S := by
  intro h
  have hcall : Call (recordSizes initSpaceTable [(5, 2 ^ 31)]) [⟨5, 1, 1⟩] ⟨[], 256⟩ 256 :=
    ⟨by decide, by decide, by decide, by decide, by decide⟩
  obtain ⟨k, S, hk, -⟩ := h _ _ _ _ hcall
  rw [hcall.knapSack_none (by decide) (by unfold InTable; decide)] at hk
  cases hk

end Themis.Malice
