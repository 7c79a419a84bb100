/-
Buckets of a chained hash table that takes up keys one after the other.

`Bucket` says what is in the bucket `k` after the keys `seen`: one element
for each of them that hashes to `k`, with the property `P`. A key that comes
next is of another bucket, has its element already, or gets one; in each
case the others keep their property if they may.
-/
import Mathlib.Data.List.Nodup

namespace Themis.Lib

open List

variable {α κ ι : Type} {f : α → κ} {hash : κ → ι} {seen : List κ} {P Q : α → Prop} {k : ι}
  {l A B : List α} {a a' : α} {x : κ}

/-- A bucket after some keys. -/
structure Bucket (f : α → κ) (hash : κ → ι) (seen : List κ) (P : α → Prop) (k : ι)
    (l : List α) : Prop where
  nodup : (l.map f).Nodup
  mem : ∀ x, x ∈ l.map f ↔ x ∈ seen ∧ hash x = k
  all : ∀ a ∈ l, P a

namespace Bucket

section
variable (hP : ∀ a, f a ≠ x → P a → Q a)
include hP

/-- An element of another bucket. -/
theorem other (h : Bucket f hash seen P k l) (hx : hash x ≠ k) :
    Bucket f hash (seen ++ [x]) Q k l := by
  have hne : ∀ y, hash y = k → y ≠ x := fun y hy he => hx (he ▸ hy)
  refine ⟨h.nodup, ?_, fun a ha => hP a (hne _ ((h.mem _).mp (mem_map_of_mem ha)).2) (h.all a ha)⟩
  intro y
  rw [h.mem, mem_append, mem_singleton]
  exact and_congr_left fun hy => (or_iff_left (hne y hy)).symm

/-- An element that is there. -/
theorem hit (h : Bucket f hash seen P k (A ++ a :: B)) (ha : f a = x) (ha' : f a' = x)
    (hQ : Q a') : Bucket f hash (seen ++ [x]) Q k (A ++ a' :: B) := by
  have hmap : (A ++ a' :: B).map f = (A ++ a :: B).map f := by simp [ha, ha']
  have hnd := h.nodup
  have hseen := (h.mem x).mp (mem_map.mpr ⟨a, by simp, ha⟩)
  refine ⟨hmap ▸ hnd, ?_, ?_⟩
  · intro y
    rw [hmap, h.mem, mem_append, mem_singleton]
    refine and_congr_left fun _ => (or_iff_left_of_imp ?_).symm
    rintro rfl
    exact hseen.1
  -- the other elements have other keys
  rw [map_append, map_cons, nodup_append, nodup_cons, ha] at hnd
  intro b hb
  rw [mem_append, mem_cons] at hb
  rcases hb with hb | rfl | hb
  · exact hP b (fun he => hnd.2.2 _ (mem_map_of_mem hb) _ mem_cons_self he) (h.all b (by simp [hb]))
  · exact hQ
  · exact hP b (fun he => hnd.2.1.1 (mem_map.mpr ⟨b, hb, he⟩)) (h.all b (by simp [hb]))

/-- An element that is new. -/
theorem miss (h : Bucket f hash seen P k l) (hx : hash x = k) (hnot : x ∉ l.map f) (ha : f a = x)
    (hQ : Q a) : Bucket f hash (seen ++ [x]) Q k (l ++ [a]) := by
  refine ⟨?_, ?_, ?_⟩
  · rw [map_append, nodup_append]
    refine ⟨h.nodup, by simp, ?_⟩
    intro y hy z hz hyz
    rw [map_singleton, mem_singleton, ha] at hz
    rw [hyz, hz] at hy
    exact hnot hy
  · intro y
    rw [map_append, mem_append, h.mem, mem_append, map_singleton, mem_singleton, mem_singleton, ha,
      or_and_right]
    refine or_congr_right (iff_self_and.mpr ?_)
    rintro rfl
    exact hx
  intro b hb
  rcases mem_append.mp hb with hb | hb
  · exact hP b (fun he => hnot (he ▸ mem_map_of_mem hb)) (h.all b hb)
  · rw [mem_singleton.mp hb]
    exact hQ

end

end Bucket

end Themis.Lib
