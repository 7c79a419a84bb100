/-
Search trees as the kernel's `rbtree` library offers them: a binary
tree whose nodes are reached by pointer, with the in-order list as its
only observable content.

# What is fixed and what is left open

A caller sees the SHAPE of a tree only through its own descents. The
library promises that rebalancing keeps the in-order list and that
`rb_erase` removes exactly one node from it. `RbLib` is that promise and no
more, so what is proved for every `RbLib` holds for every shape a correct
red-black implementation can produce.

Descents are parametrised by the three-way comparison the caller runs at
each node (`descend`, `linkLeaf`). Without a hit the last visited node is
one of the two in-order neighbours of the key (`descend_split`).
-/
import Mathlib.Data.List.Basic
import Mathlib.Data.List.Nodup

namespace Themis.Lib

open List

variable {α : Type}

/-- A binary tree with a value at every inner node. -/
inductive RbTree (α : Type) where
  | nil : RbTree α
  | node (left : RbTree α) (val : α) (right : RbTree α) : RbTree α
  deriving Repr

namespace RbTree

variable {α β : Type}
variable {cmp : α → Ordering} {x : α} {t : RbTree α} {A B : List α}
variable {L R : List α} {curr : Option α}

/-- The elements in order. -/
def toList : RbTree α → List α
  | nil => []
  | node l x r => l.toList ++ x :: r.toList

/-- A function applied to every element in place. -/
def map (f : α → α) : RbTree α → RbTree α
  | nil => nil
  | node l x r => node (l.map f) (f x) (r.map f)

@[simp] theorem toList_nil : (nil : RbTree α).toList = [] := rfl

/-- Left, root, right. -/
@[simp] theorem toList_node (l : RbTree α) (x : α) (r : RbTree α) :
    (node l x r).toList = l.toList ++ x :: r.toList := rfl

/-- Mapping keeps the order. -/
@[simp] theorem toList_map (f : α → α) (t : RbTree α) : (t.map f).toList = t.toList.map f := by
  induction t with
  | nil => rfl
  | node l x r ihl ihr => simp [map, ihl, ihr]

/-- The right spine holding a given list: the simplest tree with that
in-order list. -/
def ofList : List α → RbTree α
  | [] => nil
  | x :: xs => node nil x (ofList xs)

/-- A spine holds its list. -/
@[simp] theorem toList_ofList (xs : List α) : (ofList xs).toList = xs := by
  induction xs with
  | nil => rfl
  | cons x xs ih => simp [ofList, ih]

-- === descents

/-- Descend from the root, comparing the key with each node: `.lt` goes
left, `.gt` goes right, `.eq` stops. Returns whether the key was hit
and the last node visited (`curr` when the tree is empty). -/
def descend (cmp : α → Ordering) : RbTree α → Option α → Bool × Option α
  | nil, curr => (false, curr)
  | node l x r, _ =>
    match cmp x with
    | .lt => descend cmp l (some x)
    | .gt => descend cmp r (some x)
    | .eq => (true, some x)

/-- Link a new leaf where a descent for its key runs off the tree;
`none` when the descent hits a node instead. -/
def linkLeaf (cmp : α → Ordering) (new : α) : RbTree α → Option (RbTree α)
  | nil => some (node nil new nil)
  | node l x r =>
    match cmp x with
    | .lt => (linkLeaf cmp new l).map fun l' => node l' x r
    | .gt => (linkLeaf cmp new r).map fun r' => node l x r'
    | .eq => none

/-- The comparison is monotone along a list: left of a node above the
key everything may be anything, right of it everything is above the
key, and dually. -/
def CmpSorted (cmp : α → Ordering) (L : List α) : Prop :=
  L.Pairwise fun a b => (cmp a = .lt → cmp b = .lt) ∧ (cmp b = .gt → cmp a = .gt)

/-- Where a key falls in a list it does not hit: below it `A`, above it
`B`. -/
structure Split (cmp : α → Ordering) (L A B : List α) : Prop where
  eq : L = A ++ B
  below : ∀ a ∈ A, cmp a = .gt
  above : ∀ b ∈ B, cmp b = .lt

/-- The last node a missing descent visits is one of the key's two
in-order neighbours (or the seed, on an empty list). -/
def LastVisited (A B : List α) (curr res : Option α) : Prop :=
  (A ≠ [] ∧ res = A.getLast?) ∨ (B ≠ [] ∧ res = B.head?)
    ∨ (A = [] ∧ B = [] ∧ res = curr)

/-- Right of an element that compares below, all do. -/
theorem CmpSorted.right_of_lt (hs : CmpSorted cmp (L ++ x :: R)) (hx : cmp x = .lt) :
    ∀ b ∈ x :: R, cmp b = .lt := by
  intro b hb
  rcases mem_cons.mp hb with rfl | hb
  · exact hx
  · have hR := (pairwise_append.mp hs).2.1
    exact ((pairwise_cons.mp hR).1 b hb).1 hx

/-- Left of an element that compares above, all do. -/
theorem CmpSorted.left_of_gt (hs : CmpSorted cmp (L ++ x :: R)) (hx : cmp x = .gt) :
    ∀ a ∈ L ++ [x], cmp a = .gt := by
  intro a ha
  rcases mem_append.mp ha with ha | ha
  · exact ((pairwise_append.mp hs).2.2 a ha x mem_cons_self).2 hx
  · rw [mem_singleton.mp ha]
    exact hx

/-- A descent that finds something found an equal element. -/
theorem descend_found (h : (descend cmp t curr).1 = true) :
    ∃ x ∈ t.toList, cmp x = .eq ∧ (descend cmp t curr).2 = some x := by
  induction t generalizing curr with
  | nil => cases h
  | node l x r ihl ihr =>
    simp only [descend] at h ⊢
    cases hx : cmp x with
    | lt =>
      simp only [hx] at h
      obtain ⟨y, hy, hc, hr⟩ := ihl h
      exact ⟨y, by simp [hy], hc, hr⟩
    | gt =>
      simp only [hx] at h
      obtain ⟨y, hy, hc, hr⟩ := ihr h
      exact ⟨y, by simp [hy], hc, hr⟩
    | eq => exact ⟨x, by simp, hx, rfl⟩

/-- A descent that finds nothing comes to the gap in the order. -/
theorem descend_split (hs : CmpSorted cmp t.toList) (h : (descend cmp t curr).1 = false) :
    ∃ A B, Split cmp t.toList A B ∧ LastVisited A B curr (descend cmp t curr).2 := by
  induction t generalizing curr with
  | nil => exact ⟨[], [], ⟨rfl, by simp, by simp⟩, .inr (.inr ⟨rfl, rfl, rfl⟩)⟩
  | node l x r ihl ihr =>
    have hsl : CmpSorted cmp l.toList := (pairwise_append.mp hs).1
    have hsr : CmpSorted cmp r.toList := (pairwise_cons.mp (pairwise_append.mp hs).2.1).2
    simp only [descend] at h ⊢
    cases hx : cmp x with
    | eq => simp [hx] at h
    | lt =>
      simp only [hx] at h
      obtain ⟨A, B, hsp, hlv⟩ := ihl hsl h
      refine ⟨A, B ++ x :: r.toList, ⟨?_, hsp.below, ?_⟩, ?_⟩
      · rw [toList_node, hsp.eq, append_assoc]
      · intro b hb
        rcases mem_append.mp hb with hb | hb
        · exact hsp.above b hb
        · exact hs.right_of_lt hx b hb
      rcases hlv with ⟨hA, hr⟩ | ⟨hB, hr⟩ | ⟨hA, hB, hr⟩
      · exact .inl ⟨hA, hr⟩
      · refine .inr (.inl ⟨by simp, ?_⟩)
        rw [hr, head?_append_of_ne_nil _ hB]
      refine .inr (.inl ⟨by simp, ?_⟩)
      rw [hr, hB]
      rfl
    | gt =>
      simp only [hx] at h
      obtain ⟨A, B, hsp, hlv⟩ := ihr hsr h
      refine ⟨l.toList ++ x :: A, B, ⟨?_, ?_, hsp.above⟩, ?_⟩
      · rw [toList_node, hsp.eq, append_assoc, cons_append]
      · intro a ha
        have hmem : a ∈ l.toList ++ [x] ∨ a ∈ A := by
          simp only [mem_append, mem_cons] at ha ⊢
          tauto
        rcases hmem with ha | ha
        · exact hs.left_of_gt hx a ha
        · exact hsp.below a ha
      rcases hlv with ⟨hA, hr⟩ | ⟨hB, hr⟩ | ⟨hA, hB, hr⟩
      · refine .inl ⟨by simp, ?_⟩
        rw [hr, getLast?_append_of_ne_nil _ (by simp), getLast?_cons, getLast?_eq_some_getLast hA]
        rfl
      · exact .inr (.inl ⟨hB, hr⟩)
      refine .inl ⟨by simp, ?_⟩
      rw [hr, hA]
      simp

/-- A leaf is linked exactly if the descent finds nothing. -/
theorem linkLeaf_isSome (cmp : α → Ordering) (new : α) (t : RbTree α) (curr : Option α) :
    (linkLeaf cmp new t).isSome = !(descend cmp t curr).1 := by
  induction t generalizing curr with
  | nil => rfl
  | node l x r ihl ihr =>
    simp only [linkLeaf, descend]
    cases cmp x with
    | lt => simpa using ihl (some x)
    | gt => simpa using ihr (some x)
    | eq => rfl

/-- The new leaf stands in the gap. -/
theorem toList_linkLeaf {new : α} {t' : RbTree α} (hsp : Split cmp t.toList A B)
    (h : linkLeaf cmp new t = some t') : t'.toList = A ++ new :: B := by
  induction t generalizing t' A B with
  | nil =>
    have hnil : A = [] ∧ B = [] := append_eq_nil_iff.mp hsp.eq.symm
    injection h with h
    rw [← h, hnil.1, hnil.2]
    rfl
  | node l x r ihl ihr =>
    simp only [linkLeaf] at h
    have heq := hsp.eq
    -- the comparison at the root says on which side of the split it lies
    cases hx : cmp x with
    | eq => simp [hx] at h
    | lt =>
      simp only [hx, Option.map_eq_some_iff] at h
      obtain ⟨l', hl', rfl⟩ := h
      have hxA : x ∉ A := fun hmem => by
        have := hsp.below x hmem
        rw [hx] at this
        cases this
      obtain ⟨B', hB⟩ : ∃ B', l.toList = A ++ B' ∧ B = B' ++ x :: r.toList := by
        rcases append_eq_append_iff.mp heq with ⟨C, hA, hC⟩ | ⟨C, hl, hC⟩
        · cases C with
          | nil =>
            refine ⟨[], ?_, ?_⟩
            · simpa using hA.symm
            · simpa using hC.symm
          | cons y C =>
            have hyx : x = y := by
              have := congrArg head? hC
              simpa using this
            exact absurd (by rw [hA, hyx]; simp) hxA
        · exact ⟨C, hl, hC⟩
      have hsub : Split cmp l.toList A B' :=
        ⟨hB.1, hsp.below, fun b hb => hsp.above b (by rw [hB.2]; simp [hb])⟩
      rw [toList_node, ihl hsub hl', hB.2]
      simp
    | gt =>
      simp only [hx, Option.map_eq_some_iff] at h
      obtain ⟨r', hr', rfl⟩ := h
      have hxB : x ∉ B := fun hmem => by
        have := hsp.above x hmem
        rw [hx] at this
        cases this
      obtain ⟨A', hA⟩ : ∃ A', A = l.toList ++ x :: A' ∧ r.toList = A' ++ B := by
        rcases append_eq_append_iff.mp heq with ⟨C, hA, hC⟩ | ⟨C, hl, hC⟩
        · cases C with
          | nil => exact absurd (by rw [← nil_append B, ← hC]; simp) hxB
          | cons y C =>
            have hyx := cons_eq_cons.mp hC
            exact ⟨C, by rw [hA, hyx.1], hyx.2⟩
        · exact absurd (by rw [hC]; simp) hxB
      have hsub : Split cmp r.toList A' B :=
        ⟨hA.2, fun a ha => hsp.below a (by rw [hA.1]; simp [ha]), hsp.above⟩
      rw [toList_node, ihr hsub hr', hA.1]
      simp

-- === pointer queries

variable (ptr : α → Nat)

/-- The nodes from the one at `p` on, in `rb_next` order; empty when no
node of the tree has that address. -/
def fromPtr (p : Nat) (t : RbTree α) : List α :=
  t.toList.dropWhile fun x => ptr x != p

/-- `rb_first`. -/
def first (t : RbTree α) : Option α := t.toList.head?

/-- `rb_next`. -/
def next (p : Nat) (t : RbTree α) : Option α := (t.fromPtr ptr p).tail.head?

/-- `rb_prev`. -/
def prev (p : Nat) (t : RbTree α) : Option α :=
  (t.toList.takeWhile fun x => ptr x != p).getLast?

variable {ptr}

/-- The neighbours have other addresses. -/
theorem ptr_ne (hnd : ((A ++ x :: B).map ptr).Nodup) :
    (∀ a ∈ A, ptr a ≠ ptr x) ∧ ∀ b ∈ B, ptr b ≠ ptr x := by
  rw [map_append, map_cons, nodup_append, nodup_cons] at hnd
  obtain ⟨-, ⟨hxB, -⟩, hAx⟩ := hnd
  exact ⟨fun a ha => hAx _ (List.mem_map_of_mem ha) _ mem_cons_self,
    fun b hb he => hxB (he ▸ List.mem_map_of_mem hb)⟩

/-- The list cut at the address of an element. -/
theorem cut_at_ptr (hnd : ((A ++ x :: B).map ptr).Nodup) :
    ((A ++ x :: B).takeWhile fun y => ptr y != ptr x) = A
      ∧ ((A ++ x :: B).dropWhile fun y => ptr y != ptr x) = x :: B := by
  have hA : ∀ a ∈ A, (ptr a != ptr x) = true := fun a ha => bne_iff_ne.2 ((ptr_ne hnd).1 a ha)
  constructor
  · rw [takeWhile_append_of_pos hA]
    simp
  · rw [dropWhile_append_of_pos hA]
    simp

variable (ht : t.toList = A ++ x :: B)
include ht

/-- From the address of an element on. -/
theorem fromPtr_eq (hnd : (t.toList.map ptr).Nodup) : t.fromPtr ptr (ptr x) = x :: B := by
  rw [ht] at hnd
  rw [fromPtr, ht]
  exact (cut_at_ptr hnd).2

/-- The next element is the head of what follows. -/
theorem next_eq (hnd : (t.toList.map ptr).Nodup) : t.next ptr (ptr x) = B.head? := by
  rw [next, fromPtr_eq ht hnd]
  rfl

/-- The previous element is the last in front. -/
theorem prev_eq (hnd : (t.toList.map ptr).Nodup) : t.prev ptr (ptr x) = A.getLast? := by
  rw [ht] at hnd
  rw [prev, ht, (cut_at_ptr hnd).1]

end RbTree

-- === the library

/-- What `rb_insert_color` and `rb_erase` promise: rebalancing keeps the
in-order list, erasing removes the node at the given address and
nothing else. -/
structure RbLib {α : Type} (ptr : α → Nat) where
  insertColor : RbTree α → RbTree α
  erase : Nat → RbTree α → RbTree α
  toList_insertColor : ∀ t, (insertColor t).toList = t.toList
  toList_erase : ∀ p t, (erase p t).toList = t.toList.filter fun x => ptr x != p

attribute [simp] RbLib.toList_insertColor RbLib.toList_erase

/-- A library that never rebalances and flattens on erase: the smallest
implementation of the promise. -/
def RbLib.spine {α : Type} (ptr : α → Nat) : RbLib ptr where
  insertColor := id
  erase p t := .ofList (t.toList.filter fun x => ptr x != p)
  toList_insertColor _ := rfl
  toList_erase _ _ := RbTree.toList_ofList _

/-- Erasing by address takes one element out. -/
theorem filter_ptr_eq {ptr : α → Nat} {A B : List α} {x : α} (hnd : ((A ++ x :: B).map ptr).Nodup) :
    ((A ++ x :: B).filter fun y => ptr y != ptr x) = A ++ B := by
  obtain ⟨hA, hB⟩ := RbTree.ptr_ne hnd
  rw [filter_append, filter_cons, filter_eq_self.2 fun a ha => bne_iff_ne.2 (hA a ha),
    filter_eq_self.2 fun b hb => bne_iff_ne.2 (hB b hb)]
  simp

/-- Changing by address changes one element. -/
theorem map_ptr_eq {ptr : α → Nat} {A B : List α} {x : α} (f : α → α)
    (hnd : ((A ++ x :: B).map ptr).Nodup) :
    ((A ++ x :: B).map fun y => if ptr y = ptr x then f y else y) = A ++ f x :: B := by
  obtain ⟨hA, hB⟩ := RbTree.ptr_ne hnd
  have hid : ∀ L : List α, (∀ y ∈ L, ptr y ≠ ptr x) →
      (L.map fun y => if ptr y = ptr x then f y else y) = L := fun L hL =>
    (map_congr_left fun y hy => if_neg (hL y hy)).trans (List.map_id L)
  rw [map_append, map_cons, hid A hA, hid B hB, if_pos rfl]

end Themis.Lib
