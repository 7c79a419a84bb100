/-
Inode number allocation over whole runs.

# Ranges

`RangesOk` is the order of a CPU's ranges: two of them always have an
unused number between them. Every branch of the source replaces one or
two neighbouring ranges by none, one or two others, so its preservation
is proved once (`RangesOk.splice`).

# Why the first range suffices

Allocation only ever extends the first range. It starts at 0, so the number
after its end is the smallest unused one (`FirstOk.next_unused`,
`FirstOk.le_of_unused`). The reserved numbers are never freed.
-/
import Mathlib.Data.Finset.Card
import Themis.InodeList
import Themis.Proofs.Balloc.FreeList

namespace Themis.InodeList

open Lib Balloc List Option RangeNode

variable {A B M N L : List RangeNode} {f i n : RangeNode}
variable {rest : List RangeNode} {tree : RbTree RangeNode} {cpuid ino : Nat} {m' : InodeMap}
variable {m : InodeMap} {bound high : Nat}

-- === ranges

/-- Non-empty ranges in ascending order, separated by at least one
number, at distinct addresses. -/
structure RangesOk (L : List RangeNode) : Prop where
  range : ∀ n ∈ L, n.rangeLow ≤ n.rangeHigh
  sep : L.Pairwise fun a b => a.rangeHigh + 1 < b.rangeLow
  addrs : (L.map RangeNode.addr).Nodup

/-- Such ranges are nodes in order. -/
theorem RangesOk.nodesOk (h : RangesOk L) : NodesOk L :=
  ⟨h.range, h.sep.imp fun hab => by omega, h.addrs⟩

/-- One range. -/
theorem RangesOk.single (h : n.rangeLow ≤ n.rangeHigh) : RangesOk [n] := by
  refine ⟨?_, pairwise_singleton _ _, ?_⟩
  · intro m hm
    rw [mem_singleton.1 hm]
    exact h
  · exact nodup_singleton _

/-- A range lies apart from its neighbours. -/
theorem RangesOk.at_node (h : RangesOk (A ++ i :: B)) : (∀ a ∈ A, a.rangeHigh + 1 < i.rangeLow) ∧
      (∀ b ∈ B, i.rangeHigh + 1 < b.rangeLow) ∧ i.rangeLow ≤ i.rangeHigh := by
  obtain ⟨-, hB, hAB⟩ := pairwise_append.1 h.sep
  refine ⟨fun a ha => hAB a ha i mem_cons_self, ?_, h.range i (by simp)⟩
  exact fun b hb => (pairwise_cons.1 hB).1 b hb

/-- Some ranges are replaced by others. -/
theorem RangesOk.splice (h : RangesOk (A ++ (M ++ B))) (hM : RangesOk N)
    (hA : ∀ a ∈ A, ∀ m ∈ N, a.rangeHigh + 1 < m.rangeLow)
    (hB : ∀ m ∈ N, ∀ b ∈ B, m.rangeHigh + 1 < b.rangeLow)
    (haddr : ∀ m ∈ N, m.addr ∈ M.map addr ∨ m.addr ∉ A.map addr ∧ m.addr ∉ B.map addr) :
    RangesOk (A ++ (N ++ B)) := by
  obtain ⟨hpA, hpMB, hAMB⟩ := pairwise_append.1 h.sep
  obtain ⟨-, hpB, -⟩ := pairwise_append.1 hpMB
  have hnd := h.addrs
  simp only [map_append, nodup_append] at hnd
  obtain ⟨hdA, ⟨hdM, hdB, hdMB⟩, hdAMB⟩ := hnd
  refine ⟨?_, ?_, ?_⟩
  · intro x hx
    rcases mem_append.1 hx with hx | hx
    · exact h.range x (mem_append_left _ hx)
    rcases mem_append.1 hx with hx | hx
    · exact hM.range x hx
    · exact h.range x (mem_append_right _ (mem_append_right _ hx))
  · refine pairwise_append.2 ⟨hpA, pairwise_append.2 ⟨hM.sep, hpB, hB⟩, ?_⟩
    intro a ha x hx
    rcases mem_append.1 hx with hx | hx
    · exact hA a ha x hx
    · exact hAMB a ha x (mem_append_right _ hx)
  simp only [map_append, nodup_append]
  refine ⟨hdA, ⟨hM.addrs, hdB, ?_⟩, ?_⟩
  · intro p hp q hq heq
    obtain ⟨m, hm, rfl⟩ := List.mem_map.1 hp
    rcases haddr m hm with hin | ⟨-, hout⟩
    · exact hdMB _ hin q hq heq
    · exact hout (heq ▸ hq)
  intro p hp q hq heq
  rcases mem_append.1 hq with hq | hq
  · obtain ⟨m, hm, rfl⟩ := List.mem_map.1 hq
    rcases haddr m hm with hin | ⟨hout, -⟩
    · exact hdAMB p hp _ (mem_append_left _ hin) heq
    · exact hout (heq ▸ hp)
  · exact hdAMB p hp q (mem_append_right _ hq) heq

/-- The first range begins at 0 and is the one recorded. -/
def FirstOk (L : List RangeNode) (first : Option Nat) : Prop :=
  ∃ f rest, L = f :: rest ∧ f.rangeLow = 0 ∧ first = some f.addr

/-- The number behind the first range is free. -/
theorem not_covers_next (h : RangesOk (f :: rest)) : ¬ Covers (f :: rest) (f.rangeHigh + 1) := by
  intro hcov
  have hB := (pairwise_cons.1 h.sep).1
  rcases (covers_cons _ _ _).1 hcov with hf | ⟨m, hm, hlow, -⟩
  · omega
  · have := hB m hm
    omega

/-- A free number is behind the first range. -/
theorem le_of_not_covers {x : Nat} (h0 : f.rangeLow = 0) (hx : ¬ Covers (f :: rest) x) :
    f.rangeHigh + 1 ≤ x := by
  by_contra hlt
  apply hx
  refine (covers_cons _ _ _).2 (.inl ?_)
  omega

/-- A test cuts a list in one way only. -/
theorem split_unique {A B C D : List RangeNode} (p : RangeNode → Bool)
    (h : A ++ B = C ++ D) (hA : ∀ a ∈ A, p a = true) (hB : ∀ b ∈ B, p b = false)
    (hC : ∀ a ∈ C, p a = true) (hD : ∀ b ∈ D, p b = false) : A = C ∧ B = D := by
  have hAC : A = C := by
    have hfilter := congrArg (List.filter p) h
    rw [filter_append, filter_append, filter_eq_self.2 hA, filter_eq_self.2 hC,
      filter_eq_nil_iff.2 fun b hb => by rw [hB b hb]; decide,
      filter_eq_nil_iff.2 fun b hb => by rw [hD b hb]; decide, append_nil, append_nil] at hfilter
    exact hfilter
  subst hAC
  exact ⟨rfl, append_cancel_left h⟩

-- === one inode map

/-- The ranges of an inode map, in order. -/
def InodeMap.nodes (m : InodeMap) : List RangeNode := m.inodeInuseTree.toList

/-- The representation invariant of an inode map. `bound` is above every
address in use. -/
structure MapInv (m : InodeMap) (bound : Nat) : Prop where
  ranges : RangesOk m.nodes
  first : FirstOk m.nodes m.firstInodeRange
  count : m.numRangeNodeInode = m.nodes.length
  addr_lt : ∀ n ∈ m.nodes, n.addr < bound

/-- A higher bound on the addresses. -/
theorem MapInv.mono {bound' : Nat} (h : MapInv m bound) (hb : bound ≤ bound') : MapInv m bound' :=
  { h with addr_lt := fun n hn => lt_of_lt_of_le (h.addr_lt n hn) hb }

/-- The first range is found by its address. -/
theorem nodeAt_first (h : tree.toList = f :: rest) (hnd : (tree.toList.map addr).Nodup) :
    nodeAt tree f.addr = some f := by
  unfold nodeAt
  rw [RbTree.fromPtr_eq (A := []) h hnd]
  rfl

/-- A range is erased. -/
theorem nodes_erase (rb : RbLib addr) (h : tree.toList = A ++ i :: B)
    (hnd : (tree.toList.map addr).Nodup) : (rb.erase i.addr tree).toList = A ++ B := by
  rw [rb.toList_erase, h]
  exact filter_ptr_eq (h ▸ hnd)

variable (rb : RbLib addr) {s s' : SbInfo}

/-- A call of `nova_alloc_unused_inode` that hands out the internal
number `k`. -/
structure HandedOut (s s' : SbInfo) (cpuid k : Nat) (m' : InodeMap) : Prop where
  state : s' = { s with inodesUsedCount := s.inodesUsedCount + 1 }.setMap cpuid m'
  inv : MapInv m' s.nextNode
  covers : ∀ x, Covers m'.nodes x ↔ Covers (s.inodeMaps cpuid).nodes x ∨ x = k
  unused : ¬ Covers (s.inodeMaps cpuid).nodes k
  least : ∀ x, ¬ Covers (s.inodeMaps cpuid).nodes x → k ≤ x

section

variable (h : MapInv (s.inodeMaps cpuid) s.nextNode)
include h

/-- A number is handed out. -/
theorem handOut_spec {f' : RangeNode}
    (hL : (s.inodeMaps cpuid).nodes = f :: (M ++ B)) (hL' : m'.nodes = f' :: B)
    (h0 : f.rangeLow = 0) (hfirst : m'.firstInodeRange = some f.addr) (haddr : f'.addr = f.addr)
    (hlow : f'.rangeLow = f.rangeLow) (hcount : m'.numRangeNodeInode = m'.nodes.length)
    (hB : ∀ b ∈ B, f'.rangeHigh + 1 < b.rangeLow)
    (hcov : ∀ x, x ≤ f'.rangeHigh ↔ x ≤ f.rangeHigh ∨ Covers M x ∨ x = f.rangeHigh + 1) :
    ∃ s' m'', handOut s cpuid (f.rangeHigh + 1) m' = (0, (f.rangeHigh + 1) * s.cpus + cpuid, s') ∧
      HandedOut s s' cpuid (f.rangeHigh + 1) m'' := by
  have hr := h.ranges
  rw [hL] at hr
  have hsplice : RangesOk ([] ++ ([f'] ++ B)) := by
    apply RangesOk.splice (M := f :: M) (by simpa using hr)
      (RangesOk.single (by omega))
    · intro a ha
      cases ha
    · intro m hm b hb
      rw [mem_singleton.1 hm]
      exact hB b hb
    intro m hm
    rw [mem_singleton.1 hm, haddr]
    exact .inl (by simp)
  refine ⟨_, { m' with allocated := m'.allocated + 1 }, rfl, rfl, ⟨?_, ?_, hcount, ?_⟩, ?_, ?_, ?_⟩
  · change RangesOk m'.nodes
    rw [hL']
    exact hsplice
  · exact ⟨f', B, hL', by omega, by rw [haddr]; exact hfirst⟩
  · intro m hm
    change m ∈ m'.nodes at hm
    rw [hL'] at hm
    have hlt := h.addr_lt
    rw [hL] at hlt
    rcases mem_cons.1 hm with rfl | hm
    · rw [haddr]
      exact hlt f mem_cons_self
    · exact hlt m (mem_cons_of_mem _ (mem_append_right _ hm))
  · intro x
    change Covers m'.nodes x ↔ _
    rw [hL', hL]
    simp only [covers_cons, covers_append]
    have hnew : (f'.rangeLow ≤ x ∧ x ≤ f'.rangeHigh) ↔ x ≤ f'.rangeHigh :=
      and_iff_right (by omega)
    have hold : (f.rangeLow ≤ x ∧ x ≤ f.rangeHigh) ↔ x ≤ f.rangeHigh := and_iff_right (by omega)
    rw [hnew, hcov x]
    tauto
  · rw [hL]
    exact not_covers_next hr
  intro x hx
  rw [hL] at hx
  exact le_of_not_covers h0 hx

/-- `nova_alloc_unused_inode` never follows a bad pointer; it hands out
the smallest unused number of the CPU, or leaves everything as it was. -/
theorem novaAllocUnusedInode_spec : novaAllocUnusedInode rb s cpuid = some (-ENOSPC, 0, s) ∨
      ∃ k s' m', novaAllocUnusedInode rb s cpuid = some (0, k * s.cpus + cpuid, s') ∧
        HandedOut s s' cpuid k m' := by
  obtain ⟨f, rest, hL, h0, hfirst⟩ := h.first
  have hnd : ((s.inodeMaps cpuid).inodeInuseTree.toList.map addr).Nodup := h.ranges.addrs
  have hr := h.ranges
  rw [hL] at hr
  have hgrow : ∀ high, (modifyNode f.addr (fun n => { n with rangeHigh := high })
      (s.inodeMaps cpuid).inodeInuseTree).toList
      = { f with rangeHigh := high } :: rest := fun high =>
    nodes_modifyNode (A := []) _ hL hnd
  unfold novaAllocUnusedInode
  simp only [hfirst, bind_some, nodeAt_first hL hnd, RbTree.next_eq (A := []) hL hnd]
  cases rest with
  | nil =>
    simp only [head?_nil]
    split
    · refine .inr ⟨f.rangeHigh + 1, ?_⟩
      simp only [some.injEq]
      refine handOut_spec (M := []) (B := []) h hL (hgrow (f.rangeHigh + 1)) h0
        rfl rfl rfl ?_ ?_ ?_
      · have hc := h.count
        rw [hL] at hc
        change (s.inodeMaps cpuid).numRangeNodeInode = (RbTree.toList _).length
        rw [hgrow, hc]
        rfl
      · intro b hb
        cases hb
      intro x
      simp only [covers_nil, false_or]
      omega
    · exact .inl rfl
  | cons n rest =>
    simp only [head?_cons]
    split
    · refine .inr ⟨f.rangeHigh + 1, ?_⟩
      have herase : (rb.erase n.addr (modifyNode f.addr
          (fun m => { m with rangeHigh := n.rangeHigh }) (s.inodeMaps cpuid).inodeInuseTree)).toList
          = { f with rangeHigh := n.rangeHigh } :: rest := by
        apply nodes_erase rb (A := [_]) (hgrow _)
        rw [hgrow]
        have hnd' := hnd
        change ((s.inodeMaps cpuid).nodes.map addr).Nodup at hnd'
        rw [hL] at hnd'
        exact hnd'
      have hrest : RangesOk (n :: rest) := ⟨fun m hm => hr.range m (mem_cons_of_mem _ hm),
          (pairwise_cons.1 hr.sep).2, (nodup_cons.1 hr.addrs).2⟩
      simp only [some.injEq]
      refine handOut_spec (M := [n]) (B := rest) h hL herase h0 rfl rfl rfl ?_ ?_ ?_
      · have hc := h.count
        rw [hL] at hc
        change (s.inodeMaps cpuid).numRangeNodeInode - 1 = (RbTree.toList _).length
        rw [herase, hc]
        rfl
      · exact (pairwise_cons.1 hrest.sep).1
      intro x
      have hnr := hrest.range n mem_cons_self
      simp only [covers_cons, covers_nil, or_false]
      omega
    split
    · refine .inr ⟨f.rangeHigh + 1, ?_⟩
      simp only [some.injEq]
      refine handOut_spec (M := []) (B := n :: rest) h hL
        (hgrow (f.rangeHigh + 1)) h0 rfl rfl rfl ?_ ?_ ?_
      · have hc := h.count
        rw [hL] at hc
        change (s.inodeMaps cpuid).numRangeNodeInode = (RbTree.toList _).length
        rw [hgrow, hc]
        rfl
      · intro b hb
        have hle : n.rangeLow ≤ b.rangeLow := by
          rcases mem_cons.1 hb with rfl | hb
          · exact le_rfl
          have hsep := (pairwise_cons.1 (pairwise_cons.1 hr.sep).2).1 b hb
          have hnr := hr.range n (by simp)
          omega
        simp only
        omega
      intro x
      simp only [covers_nil, false_or]
      omega
    · exact .inl rfl

/-- Without room every number is in use. -/
theorem novaAllocUnusedInode_full
    (hfull : novaAllocUnusedInode rb s cpuid = some (-ENOSPC, 0, s)) {k : Nat}
    (hk : k < MAX_INODE - 1) : Covers (s.inodeMaps cpuid).nodes k := by
  obtain ⟨f, rest, hL, h0, hfirst⟩ := h.first
  have hnd : ((s.inodeMaps cpuid).inodeInuseTree.toList.map addr).Nodup := h.ranges.addrs
  have hr := h.ranges
  rw [hL] at hr
  have hret : ∀ newIno m, handOut s cpuid newIno m ≠ (-ENOSPC, 0, s) := by
    intro newIno m heq
    have := congrArg Prod.fst heq
    revert this
    show (0 : Int) ≠ -ENOSPC
    decide
  unfold novaAllocUnusedInode at hfull
  simp only [hfirst, bind_some, nodeAt_first hL hnd, RbTree.next_eq (A := []) hL hnd] at hfull
  cases rest with
  | nil =>
    simp only [head?_nil] at hfull
    split at hfull
    · exact absurd (some.inj hfull) (hret _ _)
    · rw [hL]
      exact ⟨f, mem_cons_self, by omega, by omega⟩
  | cons n rest =>
    have hsep := (pairwise_cons.1 hr.sep).1 n mem_cons_self
    simp only [head?_cons] at hfull
    split at hfull
    · exact absurd (some.inj hfull) (hret _ _)
    split at hfull
    · exact absurd (some.inj hfull) (hret _ _)
    · omega

end

-- === freeing

/-- A free number is not found. -/
theorem search_miss (h : ¬ Covers (s.inodeMaps (ino % s.cpus)).nodes (ino / s.cpus)) :
    (novaSearchInodetree s ino).1 = false := by
  by_contra hhit
  rw [Bool.not_eq_false] at hhit
  obtain ⟨n, hn, hcmp, -⟩ := RbTree.descend_found hhit
  exact h ⟨n, hn, compare_eq_eq hcmp⟩

/-- A number in use is found. -/
theorem search_hit (hr : RangesOk (s.inodeMaps (ino % s.cpus)).nodes)
    (h : Covers (s.inodeMaps (ino % s.cpus)).nodes (ino / s.cpus)) :
    ∃ i ∈ (s.inodeMaps (ino % s.cpus)).nodes, novaSearchInodetree s ino = (true, some i) ∧
        i.rangeLow ≤ ino / s.cpus ∧ ino / s.cpus ≤ i.rangeHigh := by
  cases hhit : (novaSearchInodetree s ino).1 with
  | true =>
    obtain ⟨i, hi, hcmp, hres⟩ := RbTree.descend_found hhit
    exact ⟨i, hi, Prod.ext hhit hres, compare_eq_eq hcmp⟩
  | false =>
    obtain ⟨A, B, hsp, -⟩ := RbTree.descend_split (hr.nodesOk.cmpSorted _) hhit
    obtain ⟨n, hn, hlow, hhigh⟩ := h
    rw [show (s.inodeMaps (ino % s.cpus)).nodes = A ++ B from hsp.eq] at hn
    rcases mem_append.1 hn with hn | hn
    · have := compare_eq_gt (hsp.below n hn)
      omega
    · have := compare_eq_lt (hsp.above n hn)
      omega

/-- A free number cannot be freed. -/
theorem novaFreeInuseInode_unused (oom : Bool)
    (h : ¬ Covers (s.inodeMaps (ino % s.cpus)).nodes (ino / s.cpus)) :
    novaFreeInuseInode rb s ino oom = (-EINVAL, s) := by
  have hmiss := search_miss h
  unfold novaFreeInuseInode
  generalize novaSearchInodetree s ino = r at *
  obtain ⟨hit, i⟩ := r
  cases hmiss
  rfl

/-- The ways a number is taken out of a list of ranges. -/
inductive Drops (fresh k : Nat) : List RangeNode → List RangeNode → Prop
  | whole (A B : List RangeNode) (i : RangeNode) (hlow : k = i.rangeLow)
      (hhigh : k = i.rangeHigh) : Drops fresh k (A ++ i :: B) (A ++ B)
  | left (A B : List RangeNode) (i : RangeNode) (hlow : k = i.rangeLow)
      (hhigh : k < i.rangeHigh) :
      Drops fresh k (A ++ i :: B) (A ++ { i with rangeLow := k + 1 } :: B)
  | right (A B : List RangeNode) (i : RangeNode) (hlow : i.rangeLow < k)
      (hhigh : k = i.rangeHigh) :
      Drops fresh k (A ++ i :: B) (A ++ { i with rangeHigh := k - 1 } :: B)
  | middle (A B : List RangeNode) (i : RangeNode) (hlow : i.rangeLow < k)
      (hhigh : k < i.rangeHigh) :
      Drops fresh k (A ++ i :: B)
        (A ++ { i with rangeHigh := k - 1 } :: ⟨fresh, k + 1, i.rangeHigh⟩ :: B)

variable {fresh k : Nat} {L' : List RangeNode}

/-- Freeing keeps the ranges in order. -/
theorem Drops.rangesOk (hd : Drops fresh k L L') (h : RangesOk L)
    (hf : ∀ n ∈ L, n.addr < fresh) : RangesOk L' := by
  cases hd with
  | whole A B i hlow hhigh =>
    apply RangesOk.splice (M := [i]) (N := []) h
    · exact ⟨by simp, List.Pairwise.nil, by simp⟩
    · simp
    · simp
    · simp
  | left A B i hlow hhigh =>
    obtain ⟨hA, hB, hi⟩ := h.at_node
    apply RangesOk.splice (M := [i]) (N := [_]) h (RangesOk.single (by simpa))
    · intro a ha m hm
      have := hA a ha
      rw [mem_singleton.1 hm]
      simp only
      omega
    · intro m hm b hb
      rw [mem_singleton.1 hm]
      exact hB b hb
    intro m hm
    rw [mem_singleton.1 hm]
    exact .inl (by simp)
  | right A B i hlow hhigh =>
    obtain ⟨hA, hB, hi⟩ := h.at_node
    apply RangesOk.splice (M := [i]) (N := [_]) h
      (RangesOk.single (by simp only; omega))
    · intro a ha m hm
      rw [mem_singleton.1 hm]
      exact hA a ha
    · intro m hm b hb
      have := hB b hb
      rw [mem_singleton.1 hm]
      simp only
      omega
    intro m hm
    rw [mem_singleton.1 hm]
    exact .inl (by simp)
  | middle A B i hlow hhigh =>
    obtain ⟨hA, hB, hi⟩ := h.at_node
    have hfi : i.addr ≠ fresh := by
      have := hf i (by simp)
      omega
    apply RangesOk.splice (M := [i]) (N := [_, _]) h
    · refine ⟨?_, ?_, ?_⟩
      · simp only [mem_cons, not_mem_nil, or_false, forall_eq_or_imp, forall_eq]
        omega
      · simp only [pairwise_cons, mem_singleton, forall_eq,
          not_mem_nil, false_imp_iff, implies_true, List.Pairwise.nil, and_true]
        omega
      · simp [hfi]
    · intro a ha
      have := hA a ha
      simp only [mem_cons, not_mem_nil, or_false, forall_eq_or_imp, forall_eq]
      omega
    · intro m hm b hb
      have := hB b hb
      simp only [mem_cons, not_mem_nil, or_false] at hm
      rcases hm with rfl | rfl
      · simp only
        omega
      · exact this
    intro m hm
    simp only [mem_cons, not_mem_nil, or_false] at hm
    rcases hm with rfl | rfl
    · exact .inl (by simp)
    refine .inr ⟨?_, ?_⟩
    · intro hin
      obtain ⟨a, ha, haddr⟩ := List.mem_map.1 hin
      exact absurd haddr (Nat.ne_of_lt (hf a (by simp [ha])))
    intro hin
    obtain ⟨b, hb, haddr⟩ := List.mem_map.1 hin
    exact absurd haddr (Nat.ne_of_lt (hf b (by simp [hb])))

/-- A disjunct that shrinks in the middle. -/
theorem leaves_middle {p q r r' s : Prop} (hp : p → s) (hq : q → s) (hr : r' ↔ r ∧ s) :
    p ∨ r' ∨ q ↔ (p ∨ r ∨ q) ∧ s := by
  rw [hr, or_and_right, or_and_right, and_iff_left_of_imp hp, and_iff_left_of_imp hq]

/-- The freed number is free, and no other. -/
theorem Drops.covers (hd : Drops fresh k L L') (h : RangesOk L) (x : Nat) :
    Covers L' x ↔ Covers L x ∧ x ≠ k := by
  -- a range left or right of the number's own does not hold it
  have hside : ∀ A B : List RangeNode, ∀ i, RangesOk (A ++ i :: B) →
      i.rangeLow ≤ k → k ≤ i.rangeHigh → (Covers A x → x ≠ k) ∧ (Covers B x → x ≠ k) := by
    intro A B i hok hlow hhigh
    obtain ⟨hA, hB, -⟩ := hok.at_node
    constructor
    · rintro ⟨a, ha, -, hxa⟩
      have := hA a ha
      omega
    rintro ⟨b, hb, hxb, -⟩
    have := hB b hb
    omega
  cases hd with
  | whole A B i hlow hhigh =>
    obtain ⟨hA, hB⟩ := hside A B i h (by omega) (by omega)
    have hi : False ↔ (i.rangeLow ≤ x ∧ x ≤ i.rangeHigh) ∧ x ≠ k := by
      refine ⟨False.elim, ?_⟩
      intro ⟨hx, hne⟩
      omega
    simp only [covers_append, covers_cons]
    rw [← leaves_middle hA hB hi, false_or]
  | left A B i hlow hhigh =>
    obtain ⟨hA, hB⟩ := hside A B i h (by omega) (by omega)
    have hi : (k + 1 ≤ x ∧ x ≤ i.rangeHigh) ↔ (i.rangeLow ≤ x ∧ x ≤ i.rangeHigh) ∧ x ≠ k := by omega
    simp only [covers_append, covers_cons]
    exact leaves_middle hA hB hi
  | right A B i hlow hhigh =>
    obtain ⟨hA, hB⟩ := hside A B i h (by omega) (by omega)
    have hi : (i.rangeLow ≤ x ∧ x ≤ k - 1) ↔ (i.rangeLow ≤ x ∧ x ≤ i.rangeHigh) ∧ x ≠ k := by omega
    simp only [covers_append, covers_cons]
    exact leaves_middle hA hB hi
  | middle A B i hlow hhigh =>
    obtain ⟨hA, hB⟩ := hside A B i h (by omega) (by omega)
    have hi : ((i.rangeLow ≤ x ∧ x ≤ k - 1) ∨ (k + 1 ≤ x ∧ x ≤ i.rangeHigh)) ↔
        (i.rangeLow ≤ x ∧ x ≤ i.rangeHigh) ∧ x ≠ k := by omega
    simp only [covers_append, covers_cons]
    rw [← or_assoc (a := _ ∧ _)]
    exact leaves_middle hA hB hi

/-- The first range stays the first. -/
theorem Drops.firstOk {first : Option Nat} (hd : Drops fresh k L L')
    (h : FirstOk L first) (hk : 0 < k) : FirstOk L' first := by
  obtain ⟨f, rest, hL, h0, hfirst⟩ := h
  have hkeep : ∀ A B B' : List RangeNode, ∀ i, A ++ i :: B = f :: rest →
      i.rangeLow = k → FirstOk (A ++ B') first := by
    intro A B B' i heq hlow
    cases A with
    | nil =>
      cases heq
      omega
    | cons a A =>
      cases heq
      exact ⟨f, A ++ B', rfl, h0, hfirst⟩
  have hgrow : ∀ A B B' : List RangeNode, ∀ i i' : RangeNode,
      A ++ i :: B = f :: rest → i'.rangeLow = i.rangeLow → i'.addr = i.addr →
      FirstOk (A ++ i' :: B') first := by
    intro A B B' i i' heq hlow haddr
    cases A with
    | nil =>
      cases heq
      exact ⟨i', B', rfl, hlow.trans h0, by rw [haddr]; exact hfirst⟩
    | cons a A =>
      cases heq
      exact ⟨f, A ++ i' :: B', rfl, h0, hfirst⟩
  cases hd with
  | whole A B i hlow hhigh => exact hkeep A B B i hL hlow.symm
  | left A B i hlow hhigh => exact hkeep A B _ i hL hlow.symm
  | right A B i hlow hhigh => exact hgrow A B B i _ hL rfl rfl
  | middle A B i hlow hhigh => exact hgrow A B _ i _ hL rfl rfl

/-- Freeing adds at most the fresh node. -/
theorem Drops.addrs_subset (hd : Drops fresh k L L') :
    ∀ n ∈ L', n.addr ∈ L.map addr ∨ n.addr = fresh := by
  intro n hn
  have hmem := List.mem_map_of_mem (f := addr) hn
  cases hd with
  | _ =>
    simp only [map_append, map_cons, mem_append, mem_cons] at hmem ⊢
    tauto

/-- A call of `nova_free_inuse_inode` that gives back the internal
number `k`. -/
structure GivenBack (s s' : SbInfo) (cpuid k : Nat) (m' : InodeMap) : Prop where
  cpus : s'.cpus = s.cpus
  next : s.nextNode ≤ s'.nextNode
  used : s'.inodesUsedCount = s.inodesUsedCount - 1
  maps : ∀ c, s'.inodeMaps c = if c = cpuid then m' else s.inodeMaps c
  inv : MapInv m' s'.nextNode
  covers : ∀ x, Covers m'.nodes x ↔ Covers (s.inodeMaps cpuid).nodes x ∧ x ≠ k

/-- The back of a cut range can be inserted. -/
theorem insert_cut (h : RangesOk (A ++ i :: B))
    (hL : tree.toList = A ++ { i with rangeHigh := k - 1 } :: B) (hlow : i.rangeLow < k)
    (hhigh : k < i.rangeHigh) (node : RangeNode) (hnode : node.rangeLow = k + 1) :
    ∃ tree', novaInsertRangeNode rb tree node = some tree' ∧
      tree'.toList = A ++ { i with rangeHigh := k - 1 } :: node :: B := by
  obtain ⟨hA, hB, -⟩ := h.at_node
  have hok : NodesOk tree.toList := by
    rw [hL]
    refine h.nodesOk.replace rfl ?_ ?_ ?_
    · simp only
      omega
    · intro a ha
      have := hA a ha
      simp only
      omega
    intro b hb
    have := hB b hb
    simp only
    omega
  have hfree : ∀ x, InRun (k + 1) (i.rangeHigh - k) x → ¬ Covers tree.toList x := by
    intro x hx hcov
    unfold InRun at hx
    rw [hL] at hcov
    simp only [covers_append, covers_cons] at hcov
    rcases hcov with ⟨a, ha, -, hxa⟩ | hxi | ⟨b, hb, hxb, -⟩
    · have := hA a ha
      omega
    · omega
    · have := hB b hb
      omega
  obtain ⟨A', B', hslot, -, hins⟩ := findFreeSlot_eq rb hok (by omega) hfree
  obtain ⟨tree', htree', hlist⟩ := hins node hnode
  refine ⟨tree', htree', ?_⟩
  rw [hlist]
  -- both splits put exactly the ranges that end below `k + 1` on the left
  have hsplit : A' = A ++ [{ i with rangeHigh := k - 1 }] ∧ B' = B := by
    apply split_unique fun n : RangeNode => decide (n.rangeHigh < k + 1)
    · rw [← hslot.eq, hL]
      simp
    · intro a ha
      exact decide_eq_true (hslot.below a ha)
    · intro b hb
      have hab := hslot.above b hb
      have hr := hok.range b (by rw [hslot.eq]; exact mem_append_right _ hb)
      exact decide_eq_false (by omega)
    · intro a ha
      apply decide_eq_true
      rcases mem_append.1 ha with ha | ha
      · have := hA a ha
        omega
      rw [mem_singleton.1 ha]
      simp only
      omega
    intro b hb
    have hbi := hB b hb
    have hr := h.range b (by simp [hb])
    exact decide_eq_false (by omega)
  rw [hsplit.1, hsplit.2]
  simp

/-- A number is given back. -/
theorem blockFound_spec (h : MapInv (s.inodeMaps cpuid) s.nextNode) (hk : 0 < k)
    (hbound : s.nextNode ≤ bound) (hd : Drops s.nextNode k (s.inodeMaps cpuid).nodes m'.nodes)
    (hfirst : m'.firstInodeRange = (s.inodeMaps cpuid).firstInodeRange)
    (hcount : m'.numRangeNodeInode = m'.nodes.length) (haddr : ∀ n ∈ m'.nodes, n.addr < bound) :
    ∃ s' m'', blockFound { s with nextNode := bound } cpuid m' = (0, s') ∧
      GivenBack s s' cpuid k m'' := by
  refine ⟨_, { m' with freed := m'.freed + 1 }, rfl, rfl, hbound, rfl,
    fun _ => rfl, ⟨?_, ?_, hcount, haddr⟩, ?_⟩
  · exact hd.rangesOk h.ranges h.addr_lt
  · rw [hfirst]
    exact hd.firstOk h.first hk
  · exact hd.covers h.ranges

/-- A number is given back without a new node. -/
theorem blockFound_same (h : MapInv (s.inodeMaps cpuid) s.nextNode) (hk : 0 < k)
    (hd : ∀ fresh, Drops fresh k (s.inodeMaps cpuid).nodes m'.nodes)
    (hfirst : m'.firstInodeRange = (s.inodeMaps cpuid).firstInodeRange)
    (hcount : m'.numRangeNodeInode = m'.nodes.length) :
    ∃ s' m'', blockFound s cpuid m' = (0, s') ∧ GivenBack s s' cpuid k m'' := by
  apply blockFound_spec h hk le_rfl (hd _) hfirst hcount
  obtain ⟨f, rest, hL, -⟩ := h.first
  intro n hn
  have hin : n.addr ∈ (s.inodeMaps cpuid).nodes.map addr := by
    rcases (hd f.addr).addrs_subset n hn with hin | heq
    · exact hin
    · rw [heq, hL]
      simp
  obtain ⟨m, hm, heq⟩ := List.mem_map.1 hin
  rw [← heq]
  exact h.addr_lt m hm

/-- `nova_free_inuse_inode` of a number in use. -/
theorem novaFreeInuseInode_spec (h : MapInv (s.inodeMaps (ino % s.cpus)) s.nextNode)
    (hcov : Covers (s.inodeMaps (ino % s.cpus)).nodes (ino / s.cpus)) (hpos : 0 < ino / s.cpus) :
    ∃ s' m', novaFreeInuseInode rb s ino false = (0, s') ∧
      GivenBack s s' (ino % s.cpus) (ino / s.cpus) m' := by
  obtain ⟨i, hi, hsearch, hlow, hhigh⟩ := search_hit h.ranges hcov
  obtain ⟨A, B, hL⟩ := append_of_mem hi
  have hnd : ((s.inodeMaps (ino % s.cpus)).inodeInuseTree.toList.map
      addr).Nodup := h.ranges.addrs
  have hmod : ∀ f : RangeNode → RangeNode, (modifyNode i.addr f
      (s.inodeMaps (ino % s.cpus)).inodeInuseTree).toList = A ++ f i :: B :=
    fun f => nodes_modifyNode f hL hnd
  have hcount := h.count
  rw [hL] at hcount
  unfold novaFreeInuseInode
  simp only [hsearch]
  generalize ino / s.cpus = k at *
  generalize ino % s.cpus = c at *
  split
  · rename_i hwhole
    have herase : (rb.erase i.addr (s.inodeMaps c).inodeInuseTree).toList
        = A ++ B := nodes_erase rb hL hnd
    refine blockFound_same h hpos ?_ rfl ?_
    · intro fresh
      change Drops fresh k _ (RbTree.toList _)
      rw [hL, herase]
      exact Drops.whole A B i hwhole.1 hwhole.2
    change (s.inodeMaps c).numRangeNodeInode - 1 = (RbTree.toList _).length
    rw [herase, hcount]
    simp only [length_append, length_cons]
    omega
  split
  · rename_i hleft
    refine blockFound_same h hpos ?_ rfl ?_
    · intro fresh
      change Drops fresh k _ (RbTree.toList _)
      rw [hL, hmod]
      exact Drops.left A B i hleft.1 hleft.2
    change (s.inodeMaps c).numRangeNodeInode = (RbTree.toList _).length
    rw [hmod, hcount]
    simp
  split
  · rename_i hright
    refine blockFound_same h hpos ?_ rfl ?_
    · intro fresh
      change Drops fresh k _ (RbTree.toList _)
      rw [hL, hmod]
      exact Drops.right A B i hright.1 hright.2
    change (s.inodeMaps c).numRangeNodeInode = (RbTree.toList _).length
    rw [hmod, hcount]
    simp
  rw [if_pos (by omega)]
  have hdrop : Drops s.nextNode k (A ++ i :: B) (A ++
      { i with rangeHigh := k - 1 } :: ⟨s.nextNode, k + 1, i.rangeHigh⟩ :: B) :=
    Drops.middle A B i (by omega) (by omega)
  obtain ⟨tree, hins, htree⟩ := insert_cut rb (hL ▸ h.ranges)
    (hmod fun n => { n with rangeHigh := k - 1 }) (by omega) (by omega)
    ⟨s.nextNode, k + 1, i.rangeHigh⟩ rfl
  simp only [novaAllocInodeNode, Bool.false_eq_true, if_false, novaInsertInodetree, hins]
  refine blockFound_spec h hpos (Nat.le_succ _) ?_ rfl ?_ ?_
  · change Drops s.nextNode k _ tree.toList
    rw [hL, htree]
    exact hdrop
  · change (s.inodeMaps c).numRangeNodeInode + 1 = (RbTree.toList _).length
    rw [htree, hcount]
    simp only [length_append, length_cons]
    omega
  intro n hn
  change n ∈ tree.toList at hn
  rw [htree] at hn
  rcases hdrop.addrs_subset n hn with hin | heq
  · obtain ⟨m, hm, heq⟩ := List.mem_map.1 hin
    have := h.addr_lt m (hL ▸ hm)
    omega
  · omega

-- === initialisation

/-- The first ranges hold the reserved numbers. -/
theorem reserved_le {cpus : Nat} (hcpus : 0 < cpus) :
    NOVA_NORMAL_INODE_START ≤ (reservedHigh cpus + 1) * cpus := by
  have hlow : 15 / cpus ≤ reservedHigh cpus := by
    change 15 / cpus ≤ if 16 % cpus ≠ 0 then 15 / cpus + 1 else 15 / cpus
    split <;> omega
  have hdiv := Nat.div_add_mod' 15 cpus
  have hmod := Nat.mod_lt 15 hcpus
  calc NOVA_NORMAL_INODE_START = 15 / cpus * cpus + 15 % cpus + 1 := by
        rw [hdiv]
        rfl
    _ ≤ (15 / cpus + 1) * cpus := by
        rw [Nat.add_one_mul]
        omega
    _ ≤ (reservedHigh cpus + 1) * cpus := Nat.mul_le_mul_right _ (Nat.succ_le_succ hlow)

/-- The map of one CPU after a format. -/
theorem initMap_spec {node : Nat} (hm : m = .empty)
    (hins : novaInsertInodetree rb m.inodeInuseTree ⟨node, 0, high⟩ = some tree) :
    MapInv { m with inodeInuseTree := tree, numRangeNodeInode := 1
                    firstInodeRange := some node } (node + 1) ∧
      ∀ x, Covers tree.toList x ↔ x ≤ high := by
  subst hm
  have htree : tree.toList = [⟨node, 0, high⟩] := by
    simp only [novaInsertInodetree, novaInsertRangeNode, InodeMap.empty,
      RbTree.linkLeaf, map_some, some.injEq] at hins
    rw [← hins, rb.toList_insertColor]
    rfl
  refine ⟨⟨?_, ?_, ?_, ?_⟩, ?_⟩
  · change RangesOk tree.toList
    rw [htree]
    exact RangesOk.single (Nat.zero_le _)
  · exact ⟨_, [], htree, rfl, rfl⟩
  · change 1 = tree.toList.length
    rw [htree]
    rfl
  · intro n hn
    change n ∈ tree.toList at hn
    rw [htree, mem_singleton] at hn
    rw [hn]
    exact Nat.lt_succ_self _
  intro x
  rw [htree, covers_cons]
  simp

/-- The maps of the CPUs in `done` are built, the others empty. -/
structure Built (cpus high : Nat) (done : List Nat) (s : SbInfo) : Prop where
  cpus_eq : s.cpus = cpus
  used : s.inodesUsedCount = NOVA_NORMAL_INODE_START
  built : ∀ c ∈ done, MapInv (s.inodeMaps c) s.nextNode ∧
    ∀ x, Covers (s.inodeMaps c).nodes x ↔ x ≤ high
  others : ∀ c, c ∉ done → s.inodeMaps c = .empty

/-- The maps of all CPUs. -/
theorem initList_spec {cpus : Nat} {todo done : List Nat} (h : Built cpus high done s)
    (hnd : (done ++ todo).Nodup) : ∃ s', initList rb (fun _ => false) high s todo = (0, s') ∧
      Built cpus high (done ++ todo) s' := by
  induction todo generalizing s done with
  | nil => exact ⟨s, rfl, by simpa using h⟩
  | cons c todo ih =>
    have hc : c ∉ done := by
      intro hmem
      exact (nodup_append.1 hnd).2.2 c hmem c mem_cons_self rfl
    have hempty := h.others c hc
    obtain ⟨tree, hins⟩ : ∃ tree, novaInsertInodetree rb
        (s.inodeMaps c).inodeInuseTree ⟨s.nextNode, 0, high⟩ = some tree := by
      rw [hempty]
      exact ⟨_, rfl⟩
    obtain ⟨hinv, hcov⟩ := initMap_spec rb hempty hins
    unfold initList
    simp only [novaAllocInodeNode, Bool.false_eq_true, if_false, hins]
    rw [show done ++ c :: todo = (done ++ [c]) ++ todo by simp] at hnd ⊢
    apply ih _ hnd
    refine ⟨h.cpus_eq, h.used, ?_, ?_⟩
    · intro c' hc'
      by_cases hcc : c' = c
      · simp only [SbInfo.setMap, hcc, if_pos]
        exact ⟨hinv, hcov⟩
      have hin : c' ∈ done := by simpa [hcc] using hc'
      obtain ⟨hold, hcov'⟩ := h.built c' hin
      simp only [SbInfo.setMap, if_neg hcc]
      exact ⟨hold.mono (Nat.le_succ _), hcov'⟩
    intro c' hc'
    simp only [mem_append, mem_singleton, not_or] at hc'
    simp only [SbInfo.setMap, if_neg hc'.2]
    exact h.others c' hc'.1

-- === runs

/-- The number is in use. -/
def InUse (s : SbInfo) (ino : Nat) : Prop :=
  Covers (s.inodeMaps (ino % s.cpus)).nodes (ino / s.cpus)

/-- The invariant of a run that has handed out, and not got back, the
numbers in `held`. -/
structure ListInv (cpus : Nat) (s : SbInfo) (held : Finset Nat) : Prop where
  cpus_eq : s.cpus = cpus
  maps : ∀ c, c < cpus → MapInv (s.inodeMaps c) s.nextNode
  use : ∀ c, c < cpus → ∀ k, Covers (s.inodeMaps c).nodes k ↔
    k ≤ reservedHigh cpus ∨ k * cpus + c ∈ held
  fresh : ∀ ino ∈ held, reservedHigh cpus < ino / cpus
  used : s.inodesUsedCount = NOVA_NORMAL_INODE_START + held.card

variable {cpus : Nat} {held : Finset Nat}

/-- CPU and place of a number. -/
theorem ino_parts (hcpus : 0 < cpus) {c k : Nat} (hc : c < cpus) :
    (k * cpus + c) % cpus = c ∧ (k * cpus + c) / cpus = k := by
  constructor
  · rw [Nat.mul_comm, Nat.mul_add_mod, Nat.mod_eq_of_lt hc]
  · rw [Nat.mul_comm, Nat.mul_add_div hcpus, Nat.div_eq_of_lt hc, Nat.add_zero]

/-- A number from its CPU and place. -/
theorem ino_eq (ino cpus : Nat) : ino / cpus * cpus + ino % cpus = ino := Nat.div_add_mod' ino cpus

/-- In use are the reserved and the held numbers. -/
theorem ListInv.inUse_iff (h : ListInv cpus s held) (hcpus : 0 < cpus) (ino : Nat) :
    InUse s ino ↔ ino / cpus ≤ reservedHigh cpus ∨ ino ∈ held := by
  unfold InUse
  rw [h.cpus_eq, h.use _ (Nat.mod_lt _ hcpus), ino_eq]

/-- The states a run reaches, with the numbers handed out there. -/
inductive Reach (rb : RbLib RangeNode.addr) (s₀ : SbInfo) :
    SbInfo → Finset Nat → Prop
  | start : Reach rb s₀ s₀ ∅
  | alloc {s s' : SbInfo} {held : Finset Nat} {ino : Nat} (cpuid : Nat)
      (h : Reach rb s₀ s held) (hcpu : cpuid < s.cpus)
      (hret : novaAllocUnusedInode rb s cpuid = some (0, ino, s')) :
      Reach rb s₀ s' (insert ino held)
  | full {s s' : SbInfo} {held : Finset Nat} {ret : Int} {ino : Nat}
      (cpuid : Nat) (h : Reach rb s₀ s held) (hcpu : cpuid < s.cpus)
      (hret : novaAllocUnusedInode rb s cpuid = some (ret, ino, s'))
      (hne : ret ≠ 0) : Reach rb s₀ s' held
  | free {s : SbInfo} {held : Finset Nat} (ino : Nat)
      (h : Reach rb s₀ s held) (hheld : ino ∈ held) :
      Reach rb s₀ (novaFreeInuseInode rb s ino false).2 (held.erase ino)

section

variable (hcpus : 0 < cpus)
include hcpus

/-- A number is handed out. -/
theorem ListInv.handedOut (h : ListInv cpus s held) (hc : cpuid < cpus)
    (ho : HandedOut s s' cpuid k m') : ListInv cpus s' (insert (k * cpus + cpuid) held) := by
  have hnew : k * cpus + cpuid ∉ held := fun hin =>
    ho.unused ((h.use cpuid hc k).2 (.inr hin))
  have hmaps : ∀ c, s'.inodeMaps c = if c = cpuid then m' else s.inodeMaps c := by
    intro c
    rw [ho.state]
    rfl
  have hnext : s'.nextNode = s.nextNode := by
    rw [ho.state]
    rfl
  refine ⟨?_, ?_, ?_, ?_, ?_⟩
  · rw [ho.state]
    exact h.cpus_eq
  · intro c hc'
    rw [hmaps, hnext]
    split
    · exact ho.inv
    · exact h.maps c hc'
  · intro c hc' x
    rw [hmaps, Finset.mem_insert]
    split
    · rename_i heq
      subst heq
      rw [ho.covers, h.use c hc' x]
      have hinj : x * cpus + c = k * cpus + c ↔ x = k := by
        rw [Nat.add_right_cancel_iff, Nat.mul_left_inj (by omega)]
      tauto
    rename_i hne
    rw [h.use c hc' x]
    have hother : x * cpus + c ≠ k * cpus + cpuid := by
      intro heq
      have hmod := congrArg (· % cpus) heq
      simp only [(ino_parts hcpus hc').1, (ino_parts hcpus hc).1] at hmod
      exact hne hmod
    tauto
  · intro ino hin
    rcases Finset.mem_insert.1 hin with rfl | hin
    · rw [(ino_parts hcpus hc).2]
      by_contra hle
      exact ho.unused ((h.use cpuid hc k).2 (.inl (by omega)))
    · exact h.fresh ino hin
  rw [ho.state, Finset.card_insert_of_notMem hnew]
  change s.inodesUsedCount + 1 = _
  rw [h.used]
  omega

/-- A number is given back. -/
theorem ListInv.givenBack (h : ListInv cpus s held) (hin : ino ∈ held)
    (hg : GivenBack s s' (ino % cpus) (ino / cpus) m') : ListInv cpus s' (held.erase ino) := by
  refine ⟨?_, ?_, ?_, ?_, ?_⟩
  · rw [hg.cpus]
    exact h.cpus_eq
  · intro c hc
    rw [hg.maps]
    split
    · exact hg.inv
    · exact (h.maps c hc).mono hg.next
  · intro c hc x
    rw [hg.maps, Finset.mem_erase]
    split
    · rename_i heq
      subst heq
      rw [hg.covers, h.use _ hc x]
      have hinj : x * cpus + ino % cpus = ino ↔ x = ino / cpus := by
        constructor
        · intro heq
          rw [← (ino_parts (k := x) hcpus hc).2, heq]
        · intro heq
          rw [heq, ino_eq]
      have hres := h.fresh ino hin
      by_cases hx : x = ino / cpus
      · rw [hx, ino_eq]
        constructor
        · intro hh
          exact absurd rfl hh.2
        intro hh
        rcases hh with hh | hh
        · omega
        · exact absurd rfl hh.1
      · tauto
    rename_i hne
    rw [h.use c hc x]
    have hother : x * cpus + c ≠ ino := by
      intro heq
      apply hne
      rw [← heq, (ino_parts hcpus hc).1]
    tauto
  · intro i hi
    exact h.fresh i (Finset.mem_of_mem_erase hi)
  · rw [hg.used, h.used, Finset.card_erase_of_mem hin]
    have : 0 < held.card := Finset.card_pos.2 ⟨ino, hin⟩
    omega

/-- A held number can be freed. -/
theorem ListInv.free_spec (h : ListInv cpus s held) (hin : ino ∈ held) :
    ∃ s' m', novaFreeInuseInode rb s ino false = (0, s') ∧
      GivenBack s s' (ino % cpus) (ino / cpus) m' := by
  have hcpu := h.cpus_eq
  subst hcpu
  have hcov : InUse s ino := (h.inUse_iff hcpus ino).2 (.inr hin)
  have hpos := h.fresh ino hin
  exact novaFreeInuseInode_spec rb (h.maps _ (Nat.mod_lt _ hcpus)) hcov (by omega)

/-- Every reachable state keeps the invariant. -/
theorem Reach.inv {s0 : SbInfo} (h0 : ListInv cpus s0 ∅)
    (h : Reach rb s0 s held) : ListInv cpus s held := by
  induction h with
  | start => exact h0
  | alloc cpuid _ hcpu hret ih =>
    rw [ih.cpus_eq] at hcpu
    rcases novaAllocUnusedInode_spec rb (ih.maps cpuid hcpu)
      with hfull | ⟨k, s1, m', hok, ho⟩
    · rw [hfull] at hret
      cases hret
    rw [hok, ih.cpus_eq] at hret
    cases hret
    exact ih.handedOut hcpus hcpu ho
  | full cpuid _ hcpu hret hne ih =>
    rw [ih.cpus_eq] at hcpu
    rcases novaAllocUnusedInode_spec rb (ih.maps cpuid hcpu)
      with hfull | ⟨k, s1, m', hok, -⟩
    · rw [hfull] at hret
      cases hret
      exact ih
    rw [hok] at hret
    cases hret
    exact absurd rfl hne
  | free ino _ hheld ih =>
    obtain ⟨s1, m', hfree, hg⟩ := ih.free_spec rb hcpus hheld
    rw [hfree]
    exact ih.givenBack hcpus hheld hg

end

/-- What the caller of `nova_alloc_unused_inode` gets. -/
structure AllocOk (s : SbInfo) (cpuid : Nat) (ret : Int) (ino : Nat)
    (s' : SbInfo) : Prop where
  onFailure : ret ≠ 0 → ret = -ENOSPC ∧ s' = s
  normal : ret = 0 → NOVA_NORMAL_INODE_START ≤ ino
  ofCpu : ret = 0 → ino % s.cpus = cpuid
  unused : ret = 0 → ¬ InUse s ino
  least : ret = 0 → ∀ j, j % s.cpus = cpuid → ¬ InUse s j → ino ≤ j

/-- The lists after a format keep it. -/
theorem novaInitInodeInuseList_inv :
    ∃ s0, novaInitInodeInuseList rb (fun _ => false) (mountInfo cpus) = (0, s0) ∧
      ListInv cpus s0 ∅ := by
  have hnone : Built cpus (reservedHigh cpus) []
      { mountInfo cpus with inodesUsedCount := NOVA_NORMAL_INODE_START } :=
    ⟨rfl, rfl, by simp, fun _ _ => rfl⟩
  have hrange : ([] ++ List.range cpus).Nodup := by simpa using nodup_range
  obtain ⟨s0, hinit, hbuilt⟩ := initList_spec rb hnone hrange
  refine ⟨s0, hinit, hbuilt.cpus_eq, ?_, ?_, by simp, by simpa using hbuilt.used⟩
  · intro c hc
    exact (hbuilt.built c (by simpa using hc)).1
  intro c hc x
  rw [(hbuilt.built c (by simpa using hc)).2]
  simp

/-- Inode number allocation. In every state of a run from
`nova_init_inode_inuse_list`, with node allocation succeeding, each
CPU's ranges are in order and separated, the cached first range is the
lowest one and starts at 0, the count is right and the numbers in use
are the reserved ones and those handed out; an allocation hands out the
smallest unused number of its CPU, freeing a number handed out succeeds,
and freeing one not in use fails and changes nothing. -/
theorem inode_numbers_safe (cpus : Nat) (hcpus : 1 ≤ cpus) :
    ∃ s₀, novaInitInodeInuseList rb (fun _ => false) (mountInfo cpus) = (0, s₀)
      ∧ ∀ s held, Reach rb s₀ s held → (∀ c, c < cpus → MapInv (s.inodeMaps c) s.nextNode)
        ∧ (∀ ino, InUse s ino ↔ ino / cpus ≤ reservedHigh cpus ∨ ino ∈ held)
        ∧ (∀ ino ∈ held, NOVA_NORMAL_INODE_START ≤ ino)
        ∧ (∀ ino, ino < NOVA_NORMAL_INODE_START → InUse s ino)
        ∧ (∀ cpuid, cpuid < cpus → ∃ ret ino s',
            novaAllocUnusedInode rb s cpuid = some (ret, ino, s') ∧ AllocOk s cpuid ret ino s')
        ∧ (∀ ino ∈ held, (novaFreeInuseInode rb s ino false).1 = 0) ∧ ∀ ino oom, ¬ InUse s ino →
            novaFreeInuseInode rb s ino oom = (-EINVAL, s) := by
  have hpos : 0 < cpus := hcpus
  obtain ⟨s₀, hinit, h₀⟩ := novaInitInodeInuseList_inv rb
  have hres := reserved_le hpos
  have hnormal : ∀ ino, reservedHigh cpus < ino / cpus → NOVA_NORMAL_INODE_START ≤ ino := by
    intro ino hlt
    calc NOVA_NORMAL_INODE_START ≤ (reservedHigh cpus + 1) * cpus := hres
      _ ≤ ino / cpus * cpus := Nat.mul_le_mul_right _ hlt
      _ ≤ ino := Nat.div_mul_le_self _ _
  refine ⟨s₀, hinit, fun s held hreach => ?_⟩
  have h := hreach.inv rb hpos h₀
  refine ⟨h.maps, h.inUse_iff hpos, ?_, ?_, ?_, ?_, ?_⟩
  · intro ino hin
    exact hnormal ino (h.fresh ino hin)
  · intro ino hlt
    rw [h.inUse_iff hpos]
    apply Or.inl
    by_contra hgt
    have := hnormal ino (by omega)
    omega
  · intro cpuid hc
    rcases novaAllocUnusedInode_spec rb (h.maps cpuid hc)
      with hfull | ⟨k, s₁, m', hok, ho⟩
    · refine ⟨_, _, _, hfull, fun _ => ⟨rfl, rfl⟩, ?_, ?_, ?_, ?_⟩ <;>
        · intro hzero
          cases hzero
    rw [h.cpus_eq] at hok
    have hparts := ino_parts hpos hc (k := k)
    have hunused : ¬ InUse s (k * cpus + cpuid) := by
      unfold InUse
      rw [h.cpus_eq, hparts.1, hparts.2]
      exact ho.unused
    refine ⟨_, _, _, hok, fun hne => absurd rfl hne, fun _ => ?_, fun _ => ?_,
      fun _ => hunused, fun _ => ?_⟩
    · apply hnormal
      by_contra hle
      rw [h.inUse_iff hpos] at hunused
      exact hunused (.inl (by omega))
    · rw [h.cpus_eq]
      exact hparts.1
    intro j hj hjun
    unfold InUse at hjun
    rw [hj] at hjun
    rw [h.cpus_eq] at hj hjun
    have hle := ho.least _ hjun
    calc k * cpus + cpuid ≤ j / cpus * cpus + cpuid :=
          Nat.add_le_add_right (Nat.mul_le_mul_right _ hle) _
      _ = j := by rw [← hj, ino_eq]
  · intro ino hin
    obtain ⟨s₁, m', hfree, -⟩ := h.free_spec rb hpos hin
    rw [hfree]
  · intro ino oom hun
    exact novaFreeInuseInode_unused rb oom hun

/-- Three CPUs, where the reserved prefix is rounded up. -/
theorem inode_numbers_safe_three_cpus :
    let rb := RbLib.spine addr
    ∃ s₀, novaInitInodeInuseList rb (fun _ => false) (mountInfo 3) = (0, s₀)
      ∧ ∀ s held, Reach rb s₀ s held →
        ∀ ino, InUse s ino ↔ ino / 3 ≤ reservedHigh 3 ∨ ino ∈ held := by
  intro rb
  obtain ⟨s₀, hinit, hrun⟩ := inode_numbers_safe rb 3 (by decide)
  exact ⟨s₀, hinit, fun s held hreach => (hrun s held hreach).2.1⟩

end Themis.InodeList
