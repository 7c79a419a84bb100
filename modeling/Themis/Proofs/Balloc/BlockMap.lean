/-
The free lists rebuilt from the bitmap are exact.

The scan goes through the block intervals of the lists in order. Every
list up to the current one holds the maximal zero runs of the scanned
part of its interval, and the others are empty (`Scanned`). A round adds
one run (`insertNode_exact`), or passes set bits only; at the end of an
interval it goes on to the next list (`Upto.switch`). Each round comes
closer to the end of the device or to the last list (`Scanned.run`).

The exit is taken when the scan stands at the end of the bitmap, so the
bitmap has to end where the last interval does. It does if the number of
blocks is a multiple of eight (`recovery_copes_iff`).
-/
import Themis.BlockMap
import Themis.Proofs.Balloc.Safety

namespace Themis.BlockMap

open Lib Balloc List RangeNode

variable (rb : RbLib addr) {bits : Nat → Bool} {fl : FreeList} {s : NovaSbInfo}
  {bound lo start low next cpus numBlocks : Nat}
variable {hi i cpuid : Nat}

-- === one list

/-- The list holds the maximal zero runs of the window from `lo` to
`hi`, with counts and first node to match and no cursor. -/
structure ListExact (fl : FreeList) (bound : Nat) (bits : Nat → Bool) (lo hi : Nat) :
    Prop where
  inv : FreeListInv fl bound
  noCursor : fl.pNode = none
  runs : ∀ a b, (∃ n ∈ fl.nodes, n.rangeLow = a ∧ n.rangeHigh = b) ↔ MaxRun bits lo hi a b

/-- A higher bound on the addresses. -/
theorem ListExact.mono {hi bound' : Nat} (h : ListExact fl bound bits lo hi)
    (hb : bound ≤ bound') : ListExact fl bound' bits lo hi := ⟨h.inv.mono hb, h.noCursor, h.runs⟩

/-- Nodes end inside the window. -/
theorem ListExact.node_lt (h : ListExact fl bound bits lo hi) {n : RangeNode} (hn : n ∈ fl.nodes) :
    n.rangeHigh < hi := ((h.runs _ _).mp ⟨n, hn, rfl, rfl⟩).right

/-- An empty list on an empty window. -/
theorem listExact_empty {fl : FreeList} (hinv : FreeListInv fl bound)
    (hnodes : fl.nodes = []) (hp : fl.pNode = none) : ListExact fl bound bits lo lo := by
  refine ⟨hinv, hp, fun a b => ⟨fun h => ?_, fun h => absurd h (not_maxRun_empty a b)⟩⟩
  obtain ⟨n, hn, -⟩ := h
  rw [hnodes] at hn
  cases hn

/-- Set bits add no node. -/
theorem ListExact.skip (h : ListExact fl bound bits lo start) (hb : Boundary bits lo start)
    (hle : start ≤ hi) (hset : ∀ x, start ≤ x → x < hi → bits x = true) :
    ListExact fl bound bits lo hi :=
  ⟨h.inv, h.noCursor, fun a b => (h.runs a b).trans (maxRun_skip hb hle hset a b).symm⟩

/-- A free stretch becomes a node. -/
theorem insertNode_exact (h : ListExact fl bound bits lo start)
    (hb : Boundary bits lo start) (hlo : lo ≤ start) (hsl : start ≤ low) (hln : low < next)
    (hset : ∀ x, start ≤ x → x < low → bits x = true)
    (hzero : ∀ x, low ≤ x → x < next → bits x = false) :
    ∃ tree, novaInsertBlocktree rb fl.blockFreeTree ⟨bound, low, next - 1⟩ = some tree
      ∧ ListExact { fl with
          blockFreeTree := tree
          firstNode := if fl.firstNode = none then some bound else fl.firstNode
          numBlocknode := fl.numBlocknode + 1
          numFreeBlocks := fl.numFreeBlocks + (next - 1 - low + 1) } (bound + 1) bits lo next := by
  have hpos : 0 < next - low := Nat.sub_pos_of_lt hln
  have hbelow : ∀ n ∈ fl.nodes, n.rangeHigh < low := fun n hn =>
    lt_of_lt_of_le (h.node_lt hn) hsl
  obtain ⟨tree, htree, hlist⟩ : ∃ tree,
      novaInsertBlocktree rb fl.blockFreeTree ⟨bound, low, next - 1⟩ = some tree ∧ tree.toList
          = fl.blockFreeTree.toList ++ ([⟨bound, low, next - 1⟩] : List RangeNode) :=
    insertRangeNode_last rb ⟨bound, low, next - 1⟩ h.inv.nodesOk hbelow
  have hhigh : next - 1 = low + (next - low) - 1 := by omega
  have hputs : Puts bound low (next - low) fl.nodes tree.toList := by
    rw [hlist, hhigh, ← append_nil fl.nodes]
    refine .middle fl.nodes [] hbelow (fun _ hb => (not_mem_nil hb).elim) fun hin => ?_
    rw [append_nil] at hin
    exact lt_irrefl _ (h.inv.addr_lt _ hin)
  refine ⟨tree, htree, ⟨hputs.nodesOk hpos h.inv.nodesOk, ?_, ?_, ?_, ?_, ?_⟩, h.noCursor, ?_⟩
  · show fl.numFreeBlocks + (next - 1 - low + 1) = totalBlocks tree.toList
    rw [hputs.total hpos h.inv.nodesOk, h.inv.numFree]
    omega
  · show fl.numBlocknode + 1 = tree.toList.length
    rw [hlist, h.inv.numNodes, length_append]
    rfl
  · show (if fl.firstNode = none then some bound else fl.firstNode) = tree.toList.head?.map addr
    rw [hlist, h.inv.first, FreeList.nodes]
    cases fl.blockFreeTree.toList <;> rfl
  · intro p hp
    rw [h.noCursor] at hp
    cases hp
  · intro p hp
    cases hputs.addrs_subset hp with
    | inl hold => exact Nat.lt_succ_of_lt (h.inv.addr_lt p hold)
    | inr hnew => exact hnew ▸ Nat.lt_succ_self _
  intro a b
  rw [maxRun_grow hb hlo hsl hln hset hzero, ← h.runs a b]
  show (∃ n ∈ tree.toList, _) ↔ _
  rw [hlist]
  constructor
  · intro hin
    obtain ⟨n, hn, ha, hb⟩ := hin
    cases mem_append.mp hn with
    | inl hn => exact .inl ⟨n, hn, ha, hb⟩
    | inr hn =>
      rw [mem_singleton.mp hn] at ha hb
      exact .inr ⟨ha.symm, hb.symm⟩
  intro hor
  cases hor with
  | inl hold =>
    obtain ⟨n, hn, hab⟩ := hold
    exact ⟨n, mem_append_left _ hn, hab⟩
  | inr hnew => exact ⟨_, mem_append_right _ (mem_singleton.mpr rfl), hnew.1.symm, hnew.2.symm⟩

-- === the windows

/-- Where the interval of list `i` starts; the index `cpus` is the
shared list. -/
def winLo (cpus numBlocks i : Nat) : Nat := numBlocks / cpus * i

/-- Where the blocks of list `i` end. -/
def winHi (cpus numBlocks i : Nat) : Nat :=
  if i < cpus then numBlocks / cpus * (i + 1) else numBlocks

/-- Lists end on the device. -/
theorem winHi_le (i : Nat) : winHi cpus numBlocks i ≤ numBlocks := by
  unfold winHi
  split
  · next h => exact le_trans (Nat.mul_le_mul_left _ h) (Nat.div_mul_le_self _ _)
  · exact le_rfl

/-- Lists begin in front of their end. -/
theorem winLo_le_winHi (hi : i ≤ cpus) : winLo cpus numBlocks i ≤ winHi cpus numBlocks i := by
  unfold winLo winHi
  split
  · exact Nat.mul_le_mul_left _ (Nat.le_succ i)
  · exact le_trans (Nat.mul_le_mul_left _ hi) (Nat.div_mul_le_self _ _)

/-- The next list follows. -/
theorem winLo_succ (hi : i < cpus) :
    winLo cpus numBlocks (i + 1) = winHi cpus numBlocks i := by rw [winLo, winHi, if_pos hi]

/-- Lists begin in order. -/
theorem winLo_mono {j : Nat} (hij : i ≤ j) :
    winLo cpus numBlocks i ≤ winLo cpus numBlocks j := Nat.mul_le_mul_left _ hij

/-- Behind the end of the device lists are empty. -/
theorem window_empty {j : Nat} (hij : i < j) (hj : j ≤ cpus)
    (hend : winHi cpus numBlocks i = numBlocks) :
    winLo cpus numBlocks j = winHi cpus numBlocks j := by
  have hle : winLo cpus numBlocks j ≤ winHi cpus numBlocks j := winLo_le_winHi hj
  have hnum : winHi cpus numBlocks j ≤ numBlocks := winHi_le j
  have hstep : winLo cpus numBlocks (i + 1) ≤ winLo cpus numBlocks j := winLo_mono hij
  rw [winLo_succ (lt_of_lt_of_le hij hj)] at hstep
  omega

/-- The block intervals the lists carry. -/
structure Intervals (cpus numBlocks : Nat) (s : NovaSbInfo) : Prop where
  cpus_eq : s.cpus = cpus
  interval : ∀ i ≤ cpus, i < cpus ∨ winLo cpus numBlocks cpus < numBlocks →
    (novaGetFreeList s i).blockStart = winLo cpus numBlocks i
      ∧ listEnd (novaGetFreeList s i) = winHi cpus numBlocks i

/-- The CPU number of list `i`. -/
def cpuidOf (cpus i : Nat) : Nat := if i < cpus then i else SHARED_CPU

/-- The shared list has a number of its own, or no blocks. -/
def SharedApart (cpus numBlocks : Nat) : Prop := cpus ≤ SHARED_CPU ∨ cpus ∣ numBlocks

/-- Where the shared list has blocks, it has a number. -/
theorem SharedApart.le (h : SharedApart cpus numBlocks)
    (hrest : winLo cpus numBlocks cpus < numBlocks) : cpus ≤ SHARED_CPU := by
  cases h with
  | inl h => exact h
  | inr h =>
    rw [winLo, Nat.div_mul_cancel h] at hrest
    exact absurd hrest (lt_irrefl _)

/-- The number selects the list. -/
theorem listIndex_cpuidOf (hs : s.cpus = cpus) (hi : i ≤ cpus)
    (hshared : i < cpus ∨ cpus ≤ SHARED_CPU) : listIndex s (cpuidOf cpus i) = i := by
  unfold listIndex cpuidOf
  rw [hs]
  by_cases h : i < cpus
  · rw [if_pos h, Nat.min_eq_left hi]
  rw [if_neg h]
  omega

-- === the scan

/-- The lists hold the runs of the windows before that of list `j`, and
of that one up to `start`. -/
structure Upto (bits : Nat → Bool) (cpus numBlocks : Nat) (s : NovaSbInfo)
    (j start : Nat) : Prop where
  intervals : Intervals cpus numBlocks s
  index : j ≤ cpus
  used : j < cpus ∨ winLo cpus numBlocks cpus < numBlocks
  lists : ∀ i ≤ cpus, ListExact (novaGetFreeList s i) s.nextNode bits
    (winLo cpus numBlocks i)
    (if i < j then winHi cpus numBlocks i else if i = j then start
      else winLo cpus numBlocks i)

/-- The scan stands at `start` in the window of list `j`. -/
structure Scanned (bits : Nat → Bool) (cpus numBlocks : Nat) (s : NovaSbInfo)
    (j start : Nat) : Prop extends Upto bits cpus numBlocks s j start where
  ge : winLo cpus numBlocks j ≤ start
  le : start ≤ winHi cpus numBlocks j
  boundary : Boundary bits (winLo cpus numBlocks j) start

/-- Every list holds the runs of its whole interval. -/
structure Rebuilt (bits : Nat → Bool) (cpus numBlocks : Nat) (s : NovaSbInfo) : Prop where
  cpus_eq : s.cpus = cpus
  lists : ∀ i ≤ cpus, ListExact (novaGetFreeList s i) s.nextNode bits
    (winLo cpus numBlocks i) (winHi cpus numBlocks i)

variable {j : Nat}

section

variable (h : Upto bits cpus numBlocks s j start)
include h

/-- The list at hand, as far as it was scanned. -/
theorem Upto.current :
    ListExact (novaGetFreeList s j) s.nextNode bits (winLo cpus numBlocks j) start := by
  have hj := h.lists j h.index
  rw [if_neg (lt_irrefl j), if_pos rfl] at hj
  exact hj

/-- Its number selects it. -/
theorem Upto.listIndex_eq
    (hshared : SharedApart cpus numBlocks) : listIndex s (cpuidOf cpus j) = j :=
  listIndex_cpuidOf h.intervals.cpus_eq h.index (h.used.imp_right hshared.le)

/-- It is the list of its number. -/
theorem Upto.getFreeList_eq (hshared : SharedApart cpus numBlocks) :
    novaGetFreeList s (cpuidOf cpus j) = novaGetFreeList s j := by
  rw [← novaGetFreeList_listIndex, h.listIndex_eq hshared]

end

/-- All lists are done. -/
theorem Upto.done (h : Upto bits cpus numBlocks s j (winHi cpus numBlocks j))
    (hend : winHi cpus numBlocks j = numBlocks) : Rebuilt bits cpus numBlocks s := by
  refine ⟨h.intervals.cpus_eq, fun i hi => ?_⟩
  have hl := h.lists i hi
  split_ifs at hl with hij he
  · exact hl
  · rw [he] at hl ⊢
    exact hl
  · rw [← window_empty (by omega) hi hend]
    exact hl

/-- On to the next list. -/
theorem Upto.switch (h : Upto bits cpus numBlocks s j (winHi cpus numBlocks j))
    (hend : winHi cpus numBlocks j ≠ numBlocks) (hshared : SharedApart cpus numBlocks) :
    j < cpus ∧ Scanned bits cpus numBlocks s (j + 1) (winLo cpus numBlocks (j + 1))
      ∧ nextCpuid s (cpuidOf cpus j) = cpuidOf cpus (j + 1)
      ∧ (novaGetFreeList s (cpuidOf cpus (j + 1))).blockStart = winLo cpus numBlocks (j + 1)
      ∧ listEnd (novaGetFreeList s (cpuidOf cpus (j + 1))) = winHi cpus numBlocks (j + 1) := by
  have hj : j < cpus := by
    by_contra hge
    exact hend (if_neg hge)
  have hused : j + 1 < cpus ∨ winLo cpus numBlocks cpus < numBlocks := by
    by_cases hlast : j + 1 < cpus
    · exact .inl hlast
    have hcpus : j + 1 = cpus := by omega
    refine .inr (Nat.lt_of_le_of_ne (Nat.div_mul_le_self _ _) fun he => hend ?_)
    rw [← winLo_succ hj, hcpus]
    exact he
  have hnext : Scanned bits cpus numBlocks s (j + 1) (winLo cpus numBlocks (j + 1)) := by
    refine ⟨⟨h.intervals, hj, hused, ?_⟩, le_rfl, winLo_le_winHi hj, .inl rfl⟩
    intro i hi
    have hl := h.lists i hi
    split_ifs at hl with hij he
    · rw [if_pos (Nat.lt_succ_of_lt hij)]
      exact hl
    · rw [if_pos (by omega), he]
      rw [he] at hl
      exact hl
    rw [if_neg (by omega)]
    split_ifs with he'
    · rw [← he']
      exact hl
    · exact hl
  refine ⟨hj, hnext, ?_, ?_⟩
  · rw [nextCpuid, h.intervals.cpus_eq, cpuidOf, if_pos hj, cpuidOf]
    by_cases hlast : j + 1 < cpus
    · rw [if_neg (by omega), if_pos hlast]
    · rw [if_pos (by omega), if_neg hlast]
  · rw [hnext.getFreeList_eq hshared]
    exact h.intervals.interval (j + 1) hj hused

/-- The list at hand changes. -/
theorem Upto.update {s' : NovaSbInfo} {next : Nat} (h : Upto bits cpus numBlocks s j start)
    (hint : Intervals cpus numBlocks s') (hnode : s.nextNode ≤ s'.nextNode)
    (hcur : ListExact (novaGetFreeList s' j) s'.nextNode bits (winLo cpus numBlocks j) next)
    (hother : ∀ i ≤ cpus, i ≠ j → novaGetFreeList s' i = novaGetFreeList s i) :
    Upto bits cpus numBlocks s' j next := by
  refine ⟨hint, h.index, h.used, fun i hi => ?_⟩
  by_cases he : i = j
  · rw [he, if_neg (lt_irrefl j), if_pos rfl]
    exact hcur
  have hl := (h.lists i hi).mono hnode
  rw [if_neg he] at hl
  rw [hother i hi he, if_neg he]
  exact hl

/-- The rest of the list is in use. -/
theorem Scanned.skip (h : Scanned bits cpus numBlocks s j start)
    (hset : ∀ x, start ≤ x → x < winHi cpus numBlocks j → bits x = true) :
    Upto bits cpus numBlocks s j (winHi cpus numBlocks j) :=
  h.toUpto.update h.intervals le_rfl (h.current.skip h.boundary h.le hset)
    fun _ _ _ => rfl

/-- A free stretch is entered. -/
theorem Scanned.insert (h : Scanned bits cpus numBlocks s j start)
    (hshared : SharedApart cpus numBlocks) (hsl : start ≤ low) (hln : low < next)
    (hset : ∀ x, start ≤ x → x < low → bits x = true)
    (hzero : ∀ x, low ≤ x → x < next → bits x = false) : Upto bits cpus numBlocks
      (novaInsertBlocknodeMap rb s (cpuidOf cpus j) low (next - 1) false).2 j next := by
  have hidx := h.listIndex_eq hshared
  obtain ⟨fl', hins, hlo, hend, hexact⟩ : ∃ fl',
      (novaInsertBlocknodeMap rb s (cpuidOf cpus j) low (next - 1) false).2
          = setFreeList { s with nextNode := s.nextNode + 1 } (cpuidOf cpus j) fl'
        ∧ fl'.blockStart = (novaGetFreeList s j).blockStart
        ∧ fl'.blockEnd = (novaGetFreeList s j).blockEnd
        ∧ ListExact fl' (s.nextNode + 1) bits (winLo cpus numBlocks j) next := by
    obtain ⟨tree, htree, hexact⟩ := insertNode_exact rb h.current h.boundary h.ge hsl hln
      hset hzero
    refine ⟨_, ?_, ?_, ?_, hexact⟩
    · unfold novaInsertBlocknodeMap novaAllocBlocknode
      simp only [Bool.false_eq_true, if_false]
      rw [show novaGetFreeList { s with nextNode := s.nextNode + 1 } (cpuidOf cpus j)
        = novaGetFreeList s j from h.getFreeList_eq hshared]
      simp only [htree]
    · rfl
    · rfl
  have hlist : ∀ i ≤ cpus, novaGetFreeList (setFreeList
      { s with nextNode := s.nextNode + 1 } (cpuidOf cpus j) fl') i
        = if i = j then fl' else novaGetFreeList s i := by
    intro i hi
    rw [novaGetFreeList_setFreeList _ _ i _ (by rw [h.intervals.cpus_eq]; exact hi)]
    rw [show listIndex { s with nextNode := s.nextNode + 1 } (cpuidOf cpus j) = j from hidx]
    rfl
  rw [hins]
  refine h.toUpto.update ⟨?_, fun i hi hused => ?_⟩ ?_ ?_ ?_
  · rw [setFreeList_cpus]
    exact h.intervals.cpus_eq
  · have hi' := h.intervals.interval i hi hused
    rw [hlist i hi]
    by_cases he : i = j
    · rw [he] at hi' ⊢
      rw [if_pos rfl, listEnd, hlo, hend]
      exact hi'
    · rw [if_neg he]
      exact hi'
  · rw [setFreeList_nextNode]
    exact Nat.le_succ _
  · rw [hlist j h.index, if_pos rfl, setFreeList_nextNode]
    exact hexact
  · intro i hi he
    rw [hlist i hi, if_neg he]

/-- From where it stands the scan ends, with every list exact. Each
round moves `start` up or goes on to the next list. -/
theorem Scanned.run (hshared : SharedApart cpus numBlocks) (m : Nat) :
    ∀ {s : NovaSbInfo} {j start : Nat}, Scanned bits cpus numBlocks s j start →
      numBlocks - start + (cpus - j) = m →
      ∃ rounds s', buildLoop rb bits numBlocks 0 rounds s (cpuidOf cpus j) start
          (winHi cpus numBlocks j) = some s' ∧ Rebuilt bits cpus numBlocks s' := by
  induction m using Nat.strong_induction_on with
  | _ m ih =>
    intro s j start h hm
    have hfz : Found bits false (winHi cpus numBlocks j) start _ := findNext_spec h.le
    -- the end of an interval that is not the end of the device
    have hswitch : ∀ {s' : NovaSbInfo}, Upto bits cpus numBlocks s' j (winHi cpus numBlocks j) →
        winHi cpus numBlocks j ≠ numBlocks → ∃ rounds s'', buildLoop rb bits numBlocks 0 rounds s'
            (nextCpuid s' (cpuidOf cpus j))
            (novaGetFreeList s' (nextCpuid s' (cpuidOf cpus j))).blockStart
            (listEnd (novaGetFreeList s' (nextCpuid s' (cpuidOf cpus j)))) = some s''
          ∧ Rebuilt bits cpus numBlocks s'' := by
      intro s' hup hend
      obtain ⟨hj, hnext, hcpu, hlo, hhi⟩ := hup.switch hend hshared
      rw [hcpu, hlo, hhi]
      refine ih _ ?_ hnext rfl
      have := h.le
      rw [winLo_succ hj]
      omega
    by_cases hend : findNext bits false (winHi cpus numBlocks j) start = winHi cpus numBlocks j
    · -- set bits only
      have hup := h.skip fun x h1 h2 => hfz.before x h1 (by rw [hend]; exact h2)
      by_cases hdev : winHi cpus numBlocks j = numBlocks
      · refine ⟨1, s, ?_, hup.done hdev⟩
        exact if_pos (hend.trans hdev)
      obtain ⟨rounds, s', hrun, hs'⟩ := hswitch hup hdev
      refine ⟨rounds + 1, s', ?_, hs'⟩
      rw [buildLoop]
      simp only [findNextZeroBit, hend, if_neg hdev, if_true]
      exact hrun
    have hlow : findNext bits false (winHi cpus numBlocks j) start
        < winHi cpus numBlocks j := Nat.lt_of_le_of_ne hfz.le hend
    have hzero := hfz.here.resolve_left hend
    have hdev : findNext bits false (winHi cpus numBlocks j) start ≠ numBlocks :=
      Nat.ne_of_lt (lt_of_lt_of_le hlow (winHi_le j))
    have hset := hfz.before
    have hsl := hfz.ge
    have hfo : Found bits true (winHi cpus numBlocks j) _ _ := findNext_spec (le_of_lt hlow)
    generalize hl : findNext bits false (winHi cpus numBlocks j) start = low at *
    have hln : low < findNext bits true (winHi cpus numBlocks j) low := by
      refine Nat.lt_of_le_of_ne hfo.ge fun he => ?_
      cases hfo.here with
      | inl h' => omega
      | inr h' =>
        rw [← he, hzero] at h'
        cases h'
    have hup := h.insert rb hshared hsl hln hset hfo.before
    have hone := hfo.here
    have hnle := hfo.le
    generalize hn : findNext bits true (winHi cpus numBlocks j) low = next at *
    by_cases hnend : next = winHi cpus numBlocks j
    · -- the run reaches the end of the interval
      rw [hnend] at hup hn
      by_cases hdev' : winHi cpus numBlocks j = numBlocks
      · refine ⟨1, _, ?_, hup.done hdev'⟩
        rw [buildLoop]
        simp only [findNextZeroBit, findNextBit, hl, hn, if_neg hdev, if_neg hend,
          Nat.shiftLeft_zero]
        exact if_pos hdev'
      obtain ⟨rounds, s', hrun, hs'⟩ := hswitch hup hdev'
      refine ⟨rounds + 1, s', ?_, hs'⟩
      rw [buildLoop]
      simp only [findNextZeroBit, findNextBit, hl, hn, if_neg hdev, if_neg hend,
        Nat.shiftLeft_zero, if_neg hdev', if_true]
      exact hrun
    have hscan : Scanned bits cpus numBlocks _ j next :=
      ⟨hup, by have := h.ge; omega, hnle, .inr (hone.resolve_left hnend)⟩
    have hdevle : winHi cpus numBlocks j ≤ numBlocks := winHi_le j
    have hndev : next ≠ numBlocks := by omega
    obtain ⟨rounds, s', hrun, hs'⟩ := ih _ (by omega) hscan rfl
    refine ⟨rounds + 1, s', ?_, hs'⟩
    rw [buildLoop]
    simp only [findNextZeroBit, findNextBit, hl, hn, if_neg hdev, if_neg hend,
      Nat.shiftLeft_zero, if_neg hndev, if_neg hnend]
    exact hrun

-- === the start

/-- An empty list with its interval. -/
def intervalList (lo hi : Nat) : FreeList :=
  { FreeList.empty with blockStart := lo, blockEnd := ulongPred hi }

/-- The loop invariant of `nova_init_blockmap(sb, 1)`. -/
structure Started (cpus numBlocks j : Nat) (s : NovaSbInfo) : Prop where
  cpus_eq : s.cpus = cpus
  numBlocks_eq : s.numBlocks = numBlocks
  perList : s.perListBlocks = numBlocks / cpus
  started : ∀ i < j, s.freeLists i
    = intervalList (winLo cpus numBlocks i) (winLo cpus numBlocks (i + 1))
  later : ∀ i, j ≤ i → s.freeLists i = .empty
  shared : s.sharedFreeList = .empty

/-- The lists get their intervals. -/
theorem started_loop (h : Started cpus numBlocks 0 s) {j : Nat} (hj : j ≤ cpus) :
    ∃ s', (List.range j).foldlM (novaInitBlockmapList rb true) s = some s'
      ∧ Started cpus numBlocks j s' := by
  induction j with
  | zero => exact ⟨s, rfl, h⟩
  | succ j ih =>
    obtain ⟨s1, hs1, h1⟩ := ih (Nat.le_of_succ_le hj)
    have hlt : j < s1.cpus := h1.cpus_eq ▸ hj
    have hget : novaGetFreeList s1 j = .empty := by
      rw [novaGetFreeList, if_pos hlt, h1.later j (le_refl j)]
    refine ⟨setFreeList s1 j
      (intervalList (winLo cpus numBlocks j) (winLo cpus numBlocks (j + 1))), ?_, ?_⟩
    · rw [range_succ, foldlM_append, hs1]
      show foldlM (novaInitBlockmapList rb true) s1 [j] = _
      have hstep : novaInitBlockmapList rb true s1 j = some (setFreeList s1 j
          (intervalList (winLo cpus numBlocks j) (winLo cpus numBlocks (j + 1)))) := by
        unfold novaInitBlockmapList
        simp only [hget, h1.perList, if_true]
        rfl
      simp [hstep]
    rw [setFreeList, if_pos hlt]
    refine ⟨h1.cpus_eq, h1.numBlocks_eq, h1.perList, fun i hi => ?_, fun i hi => ?_, h1.shared⟩
    · by_cases he : i = j
      · simp only [he, if_true]
      · simp only [if_neg he]
        exact h1.started i (by omega)
    · simp only [if_neg (show i ≠ j by omega)]
      exact h1.later i (by omega)

/-- Such a list is exact on an empty window. -/
theorem listExact_intervalList (lo' hi' : Nat) :
    ListExact (intervalList lo' hi') bound bits lo lo := listExact_empty
    ⟨⟨fun _ hn => (not_mem_nil hn).elim, .nil, nodup_nil⟩, rfl, rfl, rfl,
      fun _ hp => (Option.some_ne_none _ hp.symm).elim, fun _ hp => (not_mem_nil hp).elim⟩
    rfl rfl

/-- What `nova_init_blockmap` leaves for a recovery. -/
theorem novaInitBlockmap_recovery (hcpus : 0 < cpus) (hn : numBlocks < 2 ^ 64) :
    ∃ s, novaInitBlockmap rb (mountSbInfo cpus numBlocks) true = some s
      ∧ Intervals cpus numBlocks s ∧ ∀ bits, Scanned bits cpus numBlocks s 0 0 := by
  have hstart : Started cpus numBlocks 0
      { mountSbInfo cpus numBlocks with perListBlocks := numBlocks / cpus } :=
    ⟨rfl, rfl, rfl, fun i hi => absurd hi (Nat.not_lt_zero i), fun _ _ => rfl, rfl⟩
  obtain ⟨s1, hloop, h⟩ := started_loop rb hstart (le_refl cpus)
  have hall : winLo cpus numBlocks cpus ≤ numBlocks := Nat.div_mul_le_self _ _
  have hend : ∀ i ≤ cpus, ulongSucc (ulongPred (winLo cpus numBlocks i))
      = winLo cpus numBlocks i := fun i hi =>
    ulongSucc_ulongPred (lt_of_le_of_lt (le_trans (winLo_mono hi) hall) hn)
  have hlast : ulongSucc (novaGetFreeList s1 (s1.cpus - 1)).blockEnd
      = winLo cpus numBlocks cpus := by
    rw [h.cpus_eq, novaGetFreeList, h.cpus_eq, if_pos (Nat.sub_lt hcpus Nat.one_pos),
      h.started _ (Nat.sub_lt hcpus Nat.one_pos), Nat.sub_add_cancel hcpus]
    exact hend cpus le_rfl
  -- the lists of the CPUs, and the shared one if it is set up
  have hlists : ∀ s : NovaSbInfo, s.cpus = cpus → s.freeLists = s1.freeLists →
      (∃ lo' hi', s.sharedFreeList = intervalList lo' hi' ∧ (winLo cpus numBlocks cpus < numBlocks →
            lo' = winLo cpus numBlocks cpus ∧ hi' = numBlocks)) →
      Intervals cpus numBlocks s ∧ ∀ bits, Scanned bits cpus numBlocks s 0 0 := by
    intro s hs hfl hin
    obtain ⟨lo', hi', hsh, hset⟩ := hin
    have hget : ∀ i ≤ cpus, ∃ a b, novaGetFreeList s i = intervalList a b
        ∧ (i < cpus ∨ winLo cpus numBlocks cpus < numBlocks →
            a = winLo cpus numBlocks i ∧ ulongSucc (ulongPred b) = winHi cpus numBlocks i) := by
      intro i hi
      rw [novaGetFreeList, hs]
      by_cases hlt : i < cpus
      · rw [if_pos hlt, hfl, h.started i hlt, winHi, if_pos hlt]
        exact ⟨_, _, rfl, fun _ => ⟨rfl, hend (i + 1) hlt⟩⟩
      rw [if_neg hlt, hsh, winHi, if_neg hlt]
      refine ⟨_, _, rfl, fun hor => ?_⟩
      obtain ⟨h1, h2⟩ := hset (hor.resolve_left hlt)
      rw [h1, h2, show i = cpus by omega]
      exact ⟨rfl, ulongSucc_ulongPred hn⟩
    have hint : Intervals cpus numBlocks s := by
      refine ⟨hs, fun i hi hor => ?_⟩
      obtain ⟨a, b, heq, hab⟩ := hget i hi
      rw [heq]
      exact hab hor
    refine ⟨hint, fun bits => ⟨⟨hint, Nat.zero_le _, .inl hcpus, fun i hi => ?_⟩,
      le_of_eq (Nat.mul_zero _), Nat.zero_le _, .inl (Nat.mul_zero _).symm⟩⟩
    obtain ⟨a, b, heq, -⟩ := hget i hi
    have htop : (if i < 0 then winHi cpus numBlocks i else if i = 0 then 0
        else winLo cpus numBlocks i) = winLo cpus numBlocks i := by
      rw [if_neg (Nat.not_lt_zero i)]
      by_cases h0 : i = 0
      · rw [h0]
        exact (Nat.mul_zero _).symm
      · rw [if_neg h0]
    rw [htop, heq]
    exact listExact_intervalList a b
  unfold novaInitBlockmap
  simp only [mountSbInfo] at hloop ⊢
  rw [hloop]
  simp only [Option.bind_eq_bind, Option.bind_some, hlast, h.numBlocks_eq]
  split
  · next hlt =>
      refine ⟨_, rfl, hlists _ h.cpus_eq rfl ⟨_, numBlocks, ?_, fun _ => ⟨rfl, rfl⟩⟩⟩
      simp only [h.shared, intervalList, ulongPred_of_pos (show 0 < numBlocks by omega)]
  next hge =>
    refine ⟨_, rfl, hlists _ h.cpus_eq rfl ⟨0, 1, ?_, fun hlt => absurd hlt hge⟩⟩
    rw [h.shared]
    rfl

-- === the results

/-- The bytes of the bitmap. -/
theorem bitmapBytes_eq (initsize : Nat) :
    bitmapBytes initsize PAGE_SHIFT = initsize / 4096 / 8 := by
  rw [bitmapBytes, Nat.shiftRight_eq_div_pow, Nat.div_div_eq_div_mul]
  rfl

/-- The rebuild ends, with exact lists. -/
theorem buildBlocknodeMap_rebuilt (hcpus : 1 ≤ cpus) (hn : numBlocks < 2 ^ 64)
    (hshared : SharedApart cpus numBlocks) (bits : Nat → Bool) :
    ∃ s rounds s', novaInitBlockmap rb (mountSbInfo cpus numBlocks) true = some s ∧
      buildBlocknodeMap rb s bits numBlocks 0 rounds = some s' ∧
      Rebuilt bits cpus numBlocks s' := by
  obtain ⟨s, hinit, hint, hscan⟩ := novaInitBlockmap_recovery rb hcpus hn
  have hzero := hint.interval 0 (Nat.zero_le _) (.inl hcpus)
  obtain ⟨rounds, s', hrun, hs'⟩ := Scanned.run rb hshared _ (hscan bits) rfl
  refine ⟨s, rounds, s', hinit, ?_, hs'⟩
  rw [buildBlocknodeMap, hzero.1, hzero.2]
  rw [cpuidOf, if_pos (show 0 < cpus from hcpus)] at hrun
  exact hrun

/-- The free lists rebuilt from the bitmap are exact: the scan of a
bitmap with one bit for each block ends, and each list then holds the
maximal zero runs inside its interval, with its counts and its first
node to match. `SHARED_CPU` must not be the number of a CPU, unless the
shares use up the device. -/
theorem build_blocknode_map_exact (hcpus : 1 ≤ cpus) (hn : numBlocks < 2 ^ 64)
    (h8 : 8 ∣ numBlocks) (hshared : cpus ≤ SHARED_CPU ∨ cpus ∣ numBlocks) (bits : Nat → Bool) :
    ∃ s, novaInitBlockmap rb (mountSbInfo cpus numBlocks) true = some s
      ∧ ∃ rounds s', buildBlocknodeMap rb s bits (numBlocks / 8 * 8) 0 rounds = some s'
        ∧ Rebuilt bits cpus numBlocks s' := by
  obtain ⟨s, hinit, hint, hscan⟩ := novaInitBlockmap_recovery rb hcpus hn
  refine ⟨s, hinit, ?_⟩
  have hzero := hint.interval 0 (Nat.zero_le _) (.inl hcpus)
  obtain ⟨rounds, s', hrun, hs'⟩ := Scanned.run rb hshared _ (hscan bits) rfl
  refine ⟨rounds, s', ?_, hs'⟩
  rw [Nat.div_mul_cancel h8, buildBlocknodeMap, hzero.1, hzero.2]
  rw [cpuidOf, if_pos (show 0 < cpus from hcpus)] at hrun
  exact hrun

/-- Two CPUs and 24 blocks of which the reserved ones are used. -/
theorem build_blocknode_map_exact_two_cpus :
    let rb := RbLib.spine addr
    let bits : Nat → Bool := fun b => b < RESERVED_BLOCKS
    ∃ s, novaInitBlockmap rb (mountSbInfo 2 24) true = some s
      ∧ ∃ rounds s', buildBlocknodeMap rb s bits (24 / 8 * 8) 0 rounds = some s'
        ∧ Rebuilt bits 2 24 s' := by
  intro rb bits
  exact build_blocknode_map_exact rb (by decide) (by decide) (by decide) (.inl (by decide)) bits

/-- With more CPUs than `SHARED_CPU` that number is the list of a CPU, so
the scan of a device with a remainder comes back to it for ever. -/
theorem buildLoop_endless (hint : Intervals cpus numBlocks s) (hmany : SHARED_CPU < cpus)
    (hrest : winLo cpus numBlocks cpus < numBlocks) (scale rounds : Nat) :
    ∀ j < cpus, buildLoop rb (fun _ => true) numBlocks scale rounds s j
      (winLo cpus numBlocks j) (winHi cpus numBlocks j) = none := by
  induction rounds with
  | zero => exact fun _ _ => rfl
  | succ rounds ih =>
    intro j hj
    have hfz : Found (fun _ => true) false (winHi cpus numBlocks j)
        (winLo cpus numBlocks j) _ := findNext_spec (winLo_le_winHi (le_of_lt hj))
    have hend : findNext (fun _ => true) false (winHi cpus numBlocks j)
        (winLo cpus numBlocks j) = winHi cpus numBlocks j := hfz.here.resolve_right (by simp)
    have hdev : winHi cpus numBlocks j ≠ numBlocks := by
      have hle : winLo cpus numBlocks (j + 1) ≤ winLo cpus numBlocks cpus := winLo_mono hj
      rw [winLo_succ hj] at hle
      omega
    have hnext : nextCpuid s j < cpus := by
      unfold nextCpuid
      rw [hint.cpus_eq]
      split <;> omega
    have hwin := hint.interval _ (le_of_lt hnext) (.inl hnext)
    rw [buildLoop]
    simp only [findNextZeroBit, hend, if_neg hdev, if_true]
    rw [hwin.1, hwin.2]
    exact ih _ hnext

/-- 65537 CPUs and 65544 used blocks: the scan does not end. -/
theorem build_blocknode_map_endless :
    let rb := RbLib.spine addr
    ∃ s, novaInitBlockmap rb (mountSbInfo 65537 65544) true = some s ∧ 8 ∣ 65544 ∧ 1 ≤ 65544 / 65537
      ∧ ∀ rounds, buildBlocknodeMap rb s (fun _ => true) (65544 / 8 * 8) 0 rounds = none := by
  intro rb
  obtain ⟨s, hinit, hint, -⟩ := novaInitBlockmap_recovery rb
    (show 0 < 65537 by decide) (show 65544 < 2 ^ 64 by decide)
  refine ⟨s, hinit, by decide, by decide, fun rounds => ?_⟩
  have hzero := hint.interval 0 (by decide) (.inl (by decide))
  rw [buildBlocknodeMap, hzero.1, hzero.2]
  exact buildLoop_endless rb hint (by decide) (by decide) 0 rounds 0 (by decide)

-- === the allocator

/-- What a list covers is free in the bitmap. -/
theorem ListExact.of_covers (h : ListExact fl bound bits lo hi) (hin : Covers fl.nodes b) :
    lo ≤ b ∧ b < hi ∧ bits b = false := by
  obtain ⟨n, hn, hnb⟩ := hin
  have hrun := (h.runs _ _).mp ⟨n, hn, rfl, rfl⟩
  exact ⟨le_trans hrun.left hnb.1, lt_of_le_of_lt hnb.2 hrun.right, hrun.zero b hnb.1 hnb.2⟩

/-- The rebuilt lists are a start for the allocator: its invariant holds
with nothing held, and no block with its bit set is free. -/
theorem Rebuilt.safe (h : Rebuilt bits cpus numBlocks s) :
    SafeState s s ∅ ∧ ∀ b, IsFree s b → b < numBlocks ∧ bits b = false := by
  have hcov := fun i (hi : i ≤ cpus) b => (h.lists i hi).of_covers (b := b)
  -- a block of two lists would lie in two windows
  have hless : ∀ i j b, i < j → j ≤ cpus → Covers (novaGetFreeList s i).nodes b →
      ¬ Covers (novaGetFreeList s j).nodes b := by
    intro i j b hij hj hb hb'
    have h1 := hcov i (by omega) b hb
    have h2 := hcov j hj b hb'
    have hstep : winLo cpus numBlocks (i + 1) ≤ winLo cpus numBlocks j := winLo_mono hij
    rw [winLo_succ (lt_of_lt_of_le hij hj)] at hstep
    omega
  refine ⟨⟨fun i hi => (h.lists i (h.cpus_eq ▸ hi)).inv, ?_, by simp, by simp⟩, ?_⟩
  · intro i hi j hj hij b hb hb'
    rw [h.cpus_eq] at hi hj
    cases Nat.lt_or_gt_of_ne hij with
    | inl hlt => exact hless i j b hlt hj hb hb'
    | inr hgt => exact hless j i b hgt hi hb' hb
  · intro b hin
    obtain ⟨i, hi, hb⟩ := hin
    obtain ⟨-, hlt, hzero⟩ := hcov i (h.cpus_eq ▸ hi) b hb
    exact ⟨lt_of_lt_of_le hlt (winHi_le i), hzero⟩

-- === every device size

/-- Recovery copes with a device: both 4K bitmaps have a bit for every
block, and the scan of any bitmap with the reserved blocks set ends. -/
structure RecoveryCopes (cpus initsize : Nat) : Prop where
  room : ∀ behind b, b < initsize / 4096 →
    (setScanBm b (allocBm initsize behind).scanBm4K).isSome
      ∧ (setScanBm b (zeroBitmap (bitmapBytes initsize PAGE_SHIFT) behind)).isSome
  ends : ∀ bits : Nat → Bool, (∀ b < RESERVED_BLOCKS, bits b = true) →
    ∃ s rounds s', novaInitBlockmap rb (mountSbInfo cpus (initsize / 4096)) true = some s
      ∧ buildBlocknodeMap rb s bits (bitmapBytes initsize PAGE_SHIFT * 8)
          (PAGE_SHIFT - 12) rounds = some s'

/-- Only a bit inside the bitmap can be set. -/
theorem isSome_setScanBm (bit : Nat) (bm : SingleScanBm) :
    (setScanBm bit bm).isSome ↔ bit < bm.bitmapSize * 8 := by
  unfold setScanBm
  split
  · next h => simp [h]
  · next h => simp [h]

/-- Recovery copes exactly with the devices whose number of blocks is a
multiple of eight (and `SHARED_CPU` is not one of the CPUs, or not
needed). -/
theorem recovery_copes_iff {initsize : Nat} (hcpus : 1 ≤ cpus) (hsize : initsize < 2 ^ 64) :
    RecoveryCopes rb cpus initsize ↔ 8 ∣ initsize / 4096
      ∧ (cpus ≤ SHARED_CPU ∨ cpus ∣ initsize / 4096) := by
  have hn : initsize / 4096 < 2 ^ 64 := lt_of_le_of_lt (Nat.div_le_self _ _) hsize
  constructor
  · intro h
    have h8 : 8 ∣ initsize / 4096 := by
      -- the last block has a bit
      by_contra hnot
      have hlt := (h.room (fun _ => false) (initsize / 4096 - 1) (by omega)).2
      rw [isSome_setScanBm, zeroBitmap, bitmapBytes_eq] at hlt
      dsimp only at hlt
      omega
    refine ⟨h8, ?_⟩
    by_contra hno
    rw [not_or, not_le] at hno
    obtain ⟨s, hinit, hint, -⟩ := novaInitBlockmap_recovery rb hcpus hn
    obtain ⟨s₁, rounds, s', hinit', hrun⟩ := h.ends (fun _ => true) fun _ _ => rfl
    rw [hinit] at hinit'
    injection hinit' with hs
    rw [← hs] at hrun
    have hzero := hint.interval 0 (Nat.zero_le _) (.inl hcpus)
    have hrest : winLo cpus (initsize / 4096) cpus < initsize / 4096 := by
      exact Nat.lt_of_le_of_ne (Nat.div_mul_le_self _ _) fun he => hno.2 (Dvd.intro_left _ he)
    rw [buildBlocknodeMap, hzero.1, hzero.2, bitmapBytes_eq, Nat.div_mul_cancel h8] at hrun
    rw [buildLoop_endless rb hint hno.1 hrest _ rounds 0 hcpus] at hrun
    cases hrun
  intro hin
  obtain ⟨h8, hshared⟩ := hin
  refine ⟨fun behind b hb => ?_, fun bits _ => ?_⟩
  · rw [isSome_setScanBm, isSome_setScanBm]
    simp only [allocBm, zeroBitmap, bitmapBytes_eq, Nat.div_mul_cancel h8]
    exact ⟨hb, hb⟩
  obtain ⟨s, rounds, s', hinit, hrun, -⟩ := buildBlocknodeMap_rebuilt rb hcpus hn hshared bits
  rw [bitmapBytes_eq, Nat.div_mul_cancel h8]
  exact ⟨s, rounds, s', hinit, hrun⟩

/-- One CPU and 520 blocks. -/
theorem recovery_copes_iff_whole_bytes :
    520 * 4096 < 2 ^ 64 ∧ RecoveryCopes (RbLib.spine RangeNode.addr) 1 (520 * 4096) :=
  ⟨by decide, (recovery_copes_iff _ (by decide) (by decide)).mpr ⟨by decide, .inl (by decide)⟩⟩

/-- On the shared list the loop does not move on. -/
theorem buildLoop_shared_endless {bsize scale : Nat} (hcpu : s.cpus ≤ cpuid)
    (hfound : findNext bits false (listEnd s.sharedFreeList) s.sharedFreeList.blockStart
      = listEnd s.sharedFreeList) (hdev : listEnd s.sharedFreeList ≠ bsize)
    (hshared : s.cpus ≤ SHARED_CPU) (rounds : Nat) :
    buildLoop rb bits bsize scale rounds s cpuid s.sharedFreeList.blockStart
      (listEnd s.sharedFreeList) = none := by
  induction rounds generalizing cpuid with
  | zero => rfl
  | succ rounds ih =>
    have hnext : s.cpus ≤ nextCpuid s cpuid := by
      unfold nextCpuid
      split <;> omega
    rw [buildLoop]
    simp only [findNextZeroBit, hfound, if_neg hdev, if_true]
    rw [novaGetFreeList, if_neg (not_lt.mpr hnext)]
    exact ih hnext

/-- An entry of another list leaves the shared list. -/
theorem novaInsertBlocknodeMap_shared (hcpu : cpuid < s.cpus) (low high : Nat) :
    (novaInsertBlocknodeMap rb s cpuid low high false).2.cpus = s.cpus
      ∧ (novaInsertBlocknodeMap rb s cpuid low high false).2.sharedFreeList = s.sharedFreeList := by
  unfold novaInsertBlocknodeMap novaAllocBlocknode
  simp only [Bool.false_eq_true, if_false]
  split
  · exact ⟨rfl, rfl⟩
  · rw [setFreeList, if_pos (show cpuid < s.cpus from hcpu)]
    exact ⟨rfl, rfl⟩

/-- One CPU and 516 blocks, of which the reserved ones are used: the
bitmaps have 512 bits, so the bit of block 515 lies outside, and with
zeros behind the bitmap the scan does not end. -/
theorem recovery_overruns_bitmap :
    let rb := RbLib.spine addr
    let bits : Nat → Bool := fun b => b < RESERVED_BLOCKS
    (∀ behind, setScanBm 515 (allocBm (516 * 4096) behind).scanBm4K = none)
      ∧ ∃ s, novaInitBlockmap rb (mountSbInfo 1 516) true = some s
        ∧ ∀ rounds, buildBlocknodeMap rb s bits (bitmapBytes (516 * 4096) PAGE_SHIFT * 8) 0
            rounds = none := by
  intro rb bits
  obtain ⟨s, hinit, hint, -⟩ := novaInitBlockmap_recovery rb
    (show 0 < 1 by decide) (show 516 < 2 ^ 64 by decide)
  refine ⟨fun behind => if_neg (by decide : ¬ 515 < 64 * 8), s, hinit, fun rounds => ?_⟩
  have hsize : bitmapBytes (516 * 4096) PAGE_SHIFT * 8 = 512 := by decide
  have hshared : s.sharedFreeList = .empty := by
    have hs : some s = novaInitBlockmap rb (mountSbInfo 1 516) true := hinit.symm
    injection hs with hs
    rw [hs]
    rfl
  obtain ⟨hstart, hstop⟩ : (novaGetFreeList s 0).blockStart = 0
      ∧ listEnd (novaGetFreeList s 0) = 516 := hint.interval 0 (by decide) (.inl (by decide))
  have hlow : findNext bits false 516 0 = 3 := rfl
  have hnext : findNext bits true 516 3 = 516 := by
    have hf : Found bits true 516 3 _ := findNext_spec (by decide)
    refine hf.here.resolve_right fun hone => ?_
    have hlt : findNext bits true 516 3 < RESERVED_BLOCKS := of_decide_eq_true hone
    exact absurd hf.ge (not_le.mpr hlt)
  cases rounds with
  | zero => rfl
  | succ rounds =>
    -- the whole device is one run, and the scan goes on to the shared list
    rw [hsize, buildBlocknodeMap, hstart, hstop, buildLoop]
    simp only [findNextZeroBit, findNextBit, hlow, hnext]
    obtain ⟨hcpus, hsh⟩ := novaInsertBlocknodeMap_shared rb
      (show 0 < s.cpus by rw [hint.cpus_eq]; decide) (3 <<< 0) (516 <<< 0 - 1)
    rw [if_neg (by decide), if_neg (by decide), if_neg (by decide), if_pos trivial]
    generalize (novaInsertBlocknodeMap rb s 0 (3 <<< 0) (516 <<< 0 - 1) false).2 = s'
      at hcpus hsh ⊢
    rw [hint.cpus_eq] at hcpus
    rw [hshared] at hsh
    have hcpu : nextCpuid s' 0 = SHARED_CPU := by
      rw [nextCpuid, hcpus]
      rfl
    have hget : novaGetFreeList s' SHARED_CPU = s'.sharedFreeList := by
      rw [novaGetFreeList, hcpus]
      rfl
    rw [hcpu, hget]
    refine buildLoop_shared_endless rb (by rw [hcpus]; decide) ?_ ?_
      (by rw [hcpus]; decide) rounds
    · rw [hsh]
      rfl
    · rw [hsh]
      decide

end Themis.BlockMap
