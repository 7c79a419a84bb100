/-
Node lists: what an allocation takes out of an ordered list of ranges
and what a free puts back, independent of trees and cursors.

Both directions are stated as a relation between the list before and
after (`Takes`, `Puts`) with one constructor per branch of balloc.c,
and each relation is cashed in once: order, block count and coverage
of the new list. The free-list layer above only has to say which
constructor a call produces.
-/
import Themis.Balloc
import Mathlib.Tactic.Linarith

namespace Themis.Balloc

open List

variable {A B : List RangeNode} {n : RangeNode}

-- === coverage

/-- Block `b` lies in some node of the list. -/
def Covers (L : List RangeNode) (b : Nat) : Prop :=
  ∃ n ∈ L, n.rangeLow ≤ b ∧ b ≤ n.rangeHigh

/-- A block of the run of `k` blocks at `low`. -/
def InRun (low k b : Nat) : Prop := low ≤ b ∧ b < low + k

/-- The blocks of a node. -/
def RangeNode.len (n : RangeNode) : Nat := n.rangeHigh - n.rangeLow + 1

/-- The blocks of all nodes. -/
def totalBlocks (L : List RangeNode) : Nat := (L.map RangeNode.len).sum

/-- Ordered, non-empty, pairwise disjoint ranges at distinct
addresses. -/
structure NodesOk (L : List RangeNode) : Prop where
  range : ∀ n ∈ L, n.rangeLow ≤ n.rangeHigh
  ordered : L.Pairwise fun a b => a.rangeHigh < b.rangeLow
  addrs : (L.map RangeNode.addr).Nodup

@[simp] theorem covers_nil (b : Nat) : ¬ Covers [] b := by
  rintro ⟨n, hn, -⟩
  cases hn

/-- A block is covered on one side or the other. -/
theorem covers_append (A B : List RangeNode) (b : Nat) :
    Covers (A ++ B) b ↔ Covers A b ∨ Covers B b := by
  simp only [Covers, mem_append, or_and_right, exists_or]

/-- A block is covered by the first node or the others. -/
theorem covers_cons (n : RangeNode) (B : List RangeNode) (b : Nat) :
    Covers (n :: B) b ↔ (n.rangeLow ≤ b ∧ b ≤ n.rangeHigh) ∨ Covers B b := by simp [Covers]

theorem totalBlocks_append (A B : List RangeNode) :
    totalBlocks (A ++ B) = totalBlocks A + totalBlocks B := by simp [totalBlocks]

theorem totalBlocks_cons (n : RangeNode) (B : List RangeNode) :
    totalBlocks (n :: B) = n.len + totalBlocks B := by simp [totalBlocks]

-- === splitting at a node

/-- A node lies between its neighbours. -/
theorem NodesOk.at_node (h : NodesOk (A ++ n :: B)) :
    (∀ a ∈ A, a.rangeHigh < n.rangeLow) ∧ (∀ b ∈ B, n.rangeHigh < b.rangeLow)
      ∧ n.rangeLow ≤ n.rangeHigh := by
  obtain ⟨-, hB, hAB⟩ := pairwise_append.mp h.ordered
  refine ⟨fun a ha => hAB a ha n mem_cons_self, ?_, h.range n (by simp)⟩
  exact fun b hb => (pairwise_cons.mp hB).1 b hb

/-- A list without one of its nodes. -/
theorem NodesOk.remove (h : NodesOk (A ++ n :: B)) : NodesOk (A ++ B) := by
  have hsub : (A ++ B).Sublist (A ++ n :: B) :=
    (List.Sublist.refl A).append (sublist_cons_self n B)
  exact ⟨fun m hm => h.range m (hsub.subset hm), h.ordered.sublist hsub,
    h.addrs.sublist (hsub.map _)⟩

/-- A node put into a gap. -/
theorem NodesOk.insert {m : RangeNode} (h : NodesOk (A ++ B))
    (haddr : m.addr ∉ (A ++ B).map RangeNode.addr) (hm : m.rangeLow ≤ m.rangeHigh)
    (hA : ∀ a ∈ A, a.rangeHigh < m.rangeLow) (hB : ∀ b ∈ B, m.rangeHigh < b.rangeLow) :
    NodesOk (A ++ m :: B) := by
  obtain ⟨hpA, hpB, hAB⟩ := pairwise_append.mp h.ordered
  refine ⟨?_, pairwise_append.mpr ⟨hpA, ?_, ?_⟩, ?_⟩
  · intro x hx
    rcases mem_append.mp hx with hx | hx
    · exact h.range x (by simp [hx])
    rcases mem_cons.mp hx with rfl | hx
    · exact hm
    · exact h.range x (by simp [hx])
  · exact pairwise_cons.mpr ⟨hB, hpB⟩
  · intro a ha b hb
    rcases mem_cons.mp hb with rfl | hb
    · exact hA a ha
    · exact hAB a ha b hb
  have hperm : ((A ++ m :: B).map RangeNode.addr).Perm
      (m.addr :: (A ++ B).map RangeNode.addr) := by simp
  exact hperm.nodup_iff.mpr (nodup_cons.mpr ⟨haddr, h.addrs⟩)

/-- A node changed in its place. -/
theorem NodesOk.replace {m : RangeNode} (h : NodesOk (A ++ n :: B)) (haddr : m.addr = n.addr)
    (hm : m.rangeLow ≤ m.rangeHigh) (hA : ∀ a ∈ A, a.rangeHigh < m.rangeLow)
    (hB : ∀ b ∈ B, m.rangeHigh < b.rangeLow) : NodesOk (A ++ m :: B) := by
  have hperm : ((A ++ n :: B).map RangeNode.addr).Perm
      (n.addr :: (A ++ B).map RangeNode.addr) := by simp
  apply h.remove.insert _ hm hA hB
  rw [haddr]
  exact (nodup_cons.mp (hperm.nodup_iff.mp h.addrs)).1

-- === taking

/-- An allocation takes `k` blocks from `b` on out of one node: the
whole node, or a proper prefix of it. -/
inductive Takes : List RangeNode → List RangeNode → Nat → Nat → Prop
  | whole (A B : List RangeNode) (n : RangeNode) :
      Takes (A ++ n :: B) (A ++ B) n.rangeLow n.len
  | part (A B : List RangeNode) (n : RangeNode) {k : Nat} (hk : k < n.len) :
      Takes (A ++ n :: B) (A ++ { n with rangeLow := n.rangeLow + k } :: B)
        n.rangeLow k

variable {L L' : List RangeNode} {b k : Nat}

section

variable (ht : Takes L L' b k)
include ht

/-- Taking blocks leaves a list in order. -/
theorem Takes.nodesOk (h : NodesOk L) : NodesOk L' := by
  cases ht with
  | whole A B n => exact h.remove
  | part A B n hk =>
    obtain ⟨hA, hB, hn⟩ := h.at_node
    refine h.replace rfl ?_ ?_ hB
    · simp only [RangeNode.len] at hk ⊢
      omega
    intro a ha
    have := hA a ha
    simp only
    omega

/-- Taking `k` blocks leaves `k` less. -/
theorem Takes.total (h : NodesOk L) : totalBlocks L = totalBlocks L' + k := by
  cases ht with
  | whole A B n =>
    simp only [totalBlocks_append, totalBlocks_cons]
    omega
  | part A B n hk =>
    simp only [totalBlocks_append, totalBlocks_cons, RangeNode.len] at hk ⊢
    omega

/-- What is taken is no longer covered. -/
theorem Takes.covers (h : NodesOk L) (x : Nat) : Covers L' x ↔ Covers L x ∧ ¬ InRun b k x := by
  cases ht with
  | whole A B n =>
    obtain ⟨hA, hB, hn⟩ := h.at_node
    simp only [covers_append, covers_cons, InRun, RangeNode.len]
    constructor
    · rintro (⟨a, ha, h1, h2⟩ | ⟨m, hm, h1, h2⟩)
      · have := hA a ha
        exact ⟨.inl ⟨a, ha, h1, h2⟩, by omega⟩
      · have := hB m hm
        exact ⟨.inr (.inr ⟨m, hm, h1, h2⟩), by omega⟩
    rintro ⟨hc | hc | hc, hnr⟩
    · exact .inl hc
    · omega
    · exact .inr hc
  | part A B n hk =>
    obtain ⟨hA, hB, hn⟩ := h.at_node
    simp only [covers_append, covers_cons, InRun, RangeNode.len] at hk ⊢
    constructor
    · rintro (⟨a, ha, h1, h2⟩ | h1 | ⟨m, hm, h1, h2⟩)
      · have := hA a ha
        exact ⟨.inl ⟨a, ha, h1, h2⟩, by omega⟩
      · exact ⟨.inr (.inl (by omega)), by omega⟩
      · have := hB m hm
        exact ⟨.inr (.inr ⟨m, hm, h1, h2⟩), by omega⟩
    rintro ⟨hc | hc | hc, hnr⟩
    · exact .inl hc
    · exact .inr (.inl (by omega))
    · exact .inr (.inr hc)

/-- What is taken was covered. -/
theorem Takes.run_covered (h : NodesOk L) {x : Nat} (hx : InRun b k x) : Covers L x := by
  cases ht with
  | whole A B n =>
    have hn := h.at_node.2.2
    refine ⟨n, by simp, ?_⟩
    simp only [InRun, RangeNode.len] at hx
    omega
  | part A B n hk =>
    refine ⟨n, by simp, ?_⟩
    simp only [InRun, RangeNode.len] at hx hk
    omega

/-- Taking brings no new node. -/
theorem Takes.addrs_subset {p : Nat}
    (hp : p ∈ L'.map RangeNode.addr) : p ∈ L.map RangeNode.addr := by
  cases ht with
  | whole A B n =>
    simp only [map_append, map_cons, mem_append, mem_cons] at hp ⊢
    tauto
  | part A B n hk => simpa using hp

end

-- === putting

/-- A free puts the `k` blocks from `low` on back between the halves
`A` and `B` of a list: into the hole between two neighbours, onto one
of them, or as a node of its own. -/
inductive Puts (fresh low k : Nat) : List RangeNode → List RangeNode → Prop
  | hole (A B : List RangeNode) (p n : RangeNode)
      (hp : p.rangeHigh + 1 = low) (hn : low + k = n.rangeLow) :
      Puts fresh low k (A ++ p :: n :: B)
        (A ++ { p with rangeHigh := n.rangeHigh } :: B)
  | left (A B : List RangeNode) (p : RangeNode) (hp : p.rangeHigh + 1 = low)
      (hB : ∀ b ∈ B, low + k ≤ b.rangeLow) :
      Puts fresh low k (A ++ p :: B)
        (A ++ { p with rangeHigh := p.rangeHigh + k } :: B)
  | right (A B : List RangeNode) (n : RangeNode)
      (hA : ∀ a ∈ A, a.rangeHigh < low) (hn : low + k = n.rangeLow) :
      Puts fresh low k (A ++ n :: B)
        (A ++ { n with rangeLow := n.rangeLow - k } :: B)
  | middle (A B : List RangeNode) (hA : ∀ a ∈ A, a.rangeHigh < low)
      (hB : ∀ b ∈ B, low + k ≤ b.rangeLow)
      (hf : fresh ∉ (A ++ B).map RangeNode.addr) :
      Puts fresh low k (A ++ B) (A ++ ⟨fresh, low, low + k - 1⟩ :: B)

variable {fresh low : Nat}

variable (ht : Puts fresh low k L L')
include ht

/-- Putting blocks back leaves a list in order. -/
theorem Puts.nodesOk (hk : 0 < k) (h : NodesOk L) : NodesOk L' := by
  cases ht with
  | hole A B p n hp hn =>
    obtain ⟨hA, hB, hpr⟩ := h.at_node
    have hsnd : NodesOk ((A ++ [p]) ++ n :: B) := by simpa using h
    obtain ⟨-, hnB, hnr⟩ := hsnd.at_node
    have hrem : NodesOk (A ++ p :: B) := by simpa using hsnd.remove
    refine hrem.replace rfl ?_ hA hnB
    simp only
    omega
  | left A B p hp hB =>
    obtain ⟨hA, -, hpr⟩ := h.at_node
    refine h.replace rfl ?_ hA ?_
    · simp only
      omega
    intro b hb
    have := hB b hb
    simp only
    omega
  | right A B n hA hn =>
    obtain ⟨-, hB, hnr⟩ := h.at_node
    refine h.replace rfl ?_ ?_ hB
    · simp only
      omega
    intro a ha
    have := hA a ha
    simp only
    omega
  | middle A B hA hB hf =>
    refine h.insert hf ?_ hA ?_
    · simp only
      omega
    intro b hb
    have := hB b hb
    simp only
    omega

/-- Putting `k` blocks back adds `k`. -/
theorem Puts.total (hk : 0 < k) (h : NodesOk L) : totalBlocks L' = totalBlocks L + k := by
  cases ht with
  | hole A B p n hp hn =>
    have hpr := h.range p (by simp)
    have hnr := h.range n (by simp)
    simp only [totalBlocks_append, totalBlocks_cons, RangeNode.len]
    omega
  | left A B p hp hB =>
    have hpr := h.range p (by simp)
    simp only [totalBlocks_append, totalBlocks_cons, RangeNode.len]
    omega
  | right A B n hA hn =>
    have hnr := h.range n (by simp)
    simp only [totalBlocks_append, totalBlocks_cons, RangeNode.len]
    omega
  | middle A B hA hB hf =>
    simp only [totalBlocks_append, totalBlocks_cons, RangeNode.len]
    omega

omit ht in
/-- A disjunct that grows in the middle. -/
theorem or_middle {P I I' Q R : Prop} (h : I' ↔ I ∨ R) : P ∨ I' ∨ Q ↔ (P ∨ I ∨ Q) ∨ R := by
  tauto

/-- What is put back is covered. -/
theorem Puts.covers (hk : 0 < k) (h : NodesOk L)
    (x : Nat) : Covers L' x ↔ Covers L x ∨ InRun low k x := by
  cases ht with
  | hole A B p n hp hn =>
    have hpr := h.range p (by simp)
    have hnr := h.range n (by simp)
    simp only [covers_append, covers_cons, InRun]
    rw [← or_assoc (b := n.rangeLow ≤ x ∧ x ≤ n.rangeHigh)]
    exact or_middle (by omega)
  | left A B p hp hB =>
    have hpr := h.range p (by simp)
    simp only [covers_append, covers_cons, InRun]
    exact or_middle (by omega)
  | right A B n hA hn =>
    have hnr := h.range n (by simp)
    simp only [covers_append, covers_cons, InRun]
    exact or_middle (by omega)
  | middle A B hA hB hf =>
    simp only [covers_append, covers_cons, InRun]
    have hrun : (low ≤ x ∧ x ≤ low + k - 1) ↔ False ∨ low ≤ x ∧ x < low + k := by
      rw [false_or]
      omega
    simpa only [false_or] using or_middle hrun

/-- Putting back brings at most the fresh node. -/
theorem Puts.addrs_subset {p : Nat} (hp : p ∈ L'.map RangeNode.addr) :
    p ∈ L.map RangeNode.addr ∨ p = fresh := by
  cases ht with
  | left A B p hp' hB => exact .inl (by simpa using hp)
  | right A B n hA hn => exact .inl (by simpa using hp)
  | _ =>
    simp only [map_append, map_cons, mem_append, mem_cons] at hp ⊢
    tauto

end Themis.Balloc
