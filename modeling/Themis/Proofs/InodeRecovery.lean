/-
The inode numbers that recovery finds in use do not depend on the order in
which the threads work.

An insertion between ranges that do not touch it leaves separated ranges
again (`failureInsert_spec`). A step of a thread moves numbers from what it
has `left` to what is in the trees and loses none (`Thread.step_spec`).
-/
import Themis.InodeRecovery
import Themis.Proofs.InodeList

namespace Themis.InodeRecovery

open Lib Balloc InodeList List RangeNode

variable {rb : RbLib addr} {s s' : SbInfo} {A B L : List RangeNode}
  {low k fresh cpus : Nat}
variable {first : Option Nat} {high ino : Nat}

-- === one insertion

/-- The first range stays the first. -/
theorem firstOk_front {X Y : List RangeNode} (hA : A ≠ []) (h : FirstOk (A ++ X) first) :
    FirstOk (A ++ Y) first := by
  obtain ⟨a, A', rfl⟩ := exists_cons_of_ne_nil hA
  obtain ⟨f, rest, hL, h0, hfirst⟩ := h
  obtain ⟨rfl, -⟩ := List.cons.inj hL
  exact ⟨a, _, rfl, h0, hfirst⟩

/-- Putting numbers in keeps the first range. -/
theorem firstOk_of_puts {L' : List RangeNode} (hp : Puts fresh low k L L') (hk : 0 < k)
    (h : FirstOk L first) : FirstOk L' first := by
  obtain ⟨f, rest, hL, h0, hfirst⟩ := id h
  cases hp with
  | hole A B p n h1 h2 =>
    rcases eq_or_ne A [] with rfl | hA
    · obtain ⟨rfl, -⟩ := List.cons.inj hL
      exact ⟨_, B, rfl, h0, hfirst⟩
    · exact firstOk_front hA h
  | left A B p h1 h2 =>
    rcases eq_or_ne A [] with rfl | hA
    · obtain ⟨rfl, -⟩ := List.cons.inj hL
      exact ⟨_, B, rfl, h0, hfirst⟩
    · exact firstOk_front hA h
  | right A B n h1 h2 =>
    rcases eq_or_ne A [] with rfl | hA
    · obtain ⟨rfl, -⟩ := List.cons.inj hL
      omega
    · exact firstOk_front hA h
  | middle A B h1 h2 h3 =>
    rcases eq_or_ne A [] with rfl | hA
    · have := h2 f (by rw [show B = f :: rest from hL]; exact mem_cons_self)
      omega
    · exact firstOk_front hA h

/-- The ranges in front are apart. -/
theorem apart_left (h : RangesOk (A ++ B)) (hslot : ∀ a ∈ A, a.rangeHigh < low)
    (hlast : ∀ p, A.getLast? = some p → low ≠ p.rangeHigh + 1) :
    ∀ a ∈ A, a.rangeHigh + 1 < low := by
  intro a ha
  obtain ⟨A', p, rfl⟩ := (eq_nil_or_concat A).resolve_left (ne_nil_of_mem ha)
  have hp := hlast p (by simp)
  have hplow := hslot p (by simp)
  rw [concat_eq_append] at ha
  rcases mem_append.1 ha with ha' | ha'
  · have hsep := (pairwise_append.1 h.sep).1
    rw [concat_eq_append] at hsep
    have hap := (pairwise_append.1 hsep).2.2 a ha' p (by simp)
    have hrange := h.range p (by simp)
    omega
  · rw [mem_singleton.1 ha']
    omega

/-- The ranges behind are apart. -/
theorem apart_right (h : RangesOk (A ++ B)) (hslot : ∀ b ∈ B, low + k ≤ b.rangeLow)
    (hhead : ∀ n, B.head? = some n → low + k ≠ n.rangeLow) : ∀ b ∈ B, low + k < b.rangeLow := by
  intro b hb
  cases B with
  | nil => cases hb
  | cons n B' =>
    have hn := hhead n rfl
    have hnlow := hslot n mem_cons_self
    rcases mem_cons.1 hb with rfl | hb'
    · omega
    have hsep := (pairwise_append.1 h.sep).2.1
    have hnb := (pairwise_cons.1 hsep).1 b hb'
    have hrange := h.range n (by simp)
    omega

/-- What an insertion of the internal numbers from `low` on leaves in the
map of a CPU. -/
structure Inserted (m m' : InodeMap) (bound low k : Nat) : Prop where
  inv : MapInv m' bound
  covers : ∀ x, Covers m'.nodes x ↔ Covers m.nodes x ∨ InRun low k x

/-- An insertion, from what it does to the ranges. -/
theorem Inserted.of_puts {m m' : InodeMap} {M : List RangeNode} {i : RangeNode}
    {bound bound' : Nat} (h : MapInv m bound) (hb : bound ≤ bound') (hk : 0 < k)
    (hL : m.nodes = A ++ (M ++ B)) (hL' : m'.nodes = A ++ i :: B)
    (hputs : Puts fresh low k (A ++ (M ++ B)) (A ++ i :: B)) (hi : i.rangeLow ≤ i.rangeHigh)
    (hA : ∀ a ∈ A, a.rangeHigh + 1 < i.rangeLow) (hB : ∀ b ∈ B, i.rangeHigh + 1 < b.rangeLow)
    (haddr : i.addr ∈ M.map addr ∨ bound ≤ i.addr ∧ i.addr < bound')
    (hfirst : m'.firstInodeRange = m.firstInodeRange)
    (hcount : m'.numRangeNodeInode + M.length = m.numRangeNodeInode + 1) :
    Inserted m m' bound' low k := by
  have hranges := h.ranges
  have hfirst0 := h.first
  have hcount0 := h.count
  have hold : ∀ x ∈ (A ++ (M ++ B)).map addr, x < bound := by
    intro x hx
    obtain ⟨n, hn, rfl⟩ := List.mem_map.1 hx
    exact h.addr_lt n (hL ▸ hn)
  rw [hL] at hranges hfirst0 hcount0
  simp only [map_append, mem_append] at hold
  refine ⟨⟨?_, ?_, ?_, ?_⟩, ?_⟩
  · rw [hL']
    refine hranges.splice (N := [i]) (RangesOk.single hi) ?_ ?_ ?_
    · intro a ha m hm
      rw [mem_singleton.1 hm]
      exact hA a ha
    · intro m hm b hb
      rw [mem_singleton.1 hm]
      exact hB b hb
    intro m hm
    rw [mem_singleton.1 hm]
    refine haddr.imp_right fun hnew => ⟨fun hmem => ?_, fun hmem => ?_⟩
    · exact absurd (hold _ (.inl hmem)) (not_lt.2 hnew.1)
    · exact absurd (hold _ (.inr (.inr hmem))) (not_lt.2 hnew.1)
  · rw [hL', hfirst]
    exact firstOk_of_puts hputs hk hfirst0
  · simp only [hL', length_append, length_cons] at hcount0 ⊢
    omega
  · intro n hn
    rw [hL', mem_append, mem_cons] at hn
    rcases hn with hn | rfl | hn
    · exact (hold _ (.inl (List.mem_map_of_mem hn))).trans_le hb
    · rcases haddr with hin | hnew
      · exact (hold _ (.inr (.inl hin))).trans_le hb
      · exact hnew.2
    · exact (hold _ (.inr (.inr (List.mem_map_of_mem hn)))).trans_le hb
  intro x
  rw [hL, hL']
  exact hputs.covers hk hranges.nodesOk x

variable {m : InodeMap} {bound : Nat} {p n : RangeNode}

/-- A run fills the hole between two ranges. -/
theorem Inserted.hole (rb : RbLib addr) (h : MapInv m bound)
    (hL : m.nodes = A ++ p :: n :: B) (hk : 0 < k) (hp : p.rangeHigh + 1 = low)
    (hn : low + k = n.rangeLow) : Inserted m { m with
      inodeInuseTree := modifyNode p.addr (fun q => { q with rangeHigh := n.rangeHigh })
        (rb.erase n.addr m.inodeInuseTree)
      numRangeNodeInode := m.numRangeNodeInode - 1 } bound low k := by
  have hranges := h.ranges
  rw [hL] at hranges
  have hcount := h.count
  rw [hL] at hcount
  have hsnd : RangesOk ((A ++ [p]) ++ n :: B) := by simpa using hranges
  obtain ⟨hA, -, hpr⟩ := hranges.at_node
  obtain ⟨-, hB, hnr⟩ := hsnd.at_node
  have htree : m.inodeInuseTree.toList = (A ++ [p]) ++ n :: B := by
    rw [append_assoc]
    exact hL
  have herase : (rb.erase n.addr m.inodeInuseTree).toList = A ++ p :: B := by
    rw [nodes_erase rb htree h.ranges.addrs, append_assoc]
    rfl
  have hnd : ((rb.erase n.addr m.inodeInuseTree).toList.map addr).Nodup := by
    have hadd := hranges.addrs
    rw [herase]
    simp only [map_append, map_cons] at hadd ⊢
    exact hadd.sublist (((sublist_cons_self _ _).cons_cons _).append_left _)
  have hputs : Puts 0 low k _ _ := .hole A B p n hp hn
  refine Inserted.of_puts (M := [p, n]) h le_rfl hk hL
    (nodes_modifyNode _ herase hnd) hputs ?_ hA hB (.inl (by simp)) rfl ?_
  · simp only
    omega
  · simp only [length_append, length_cons, length_nil] at hcount ⊢
    omega

/-- A run joins the range in front. -/
theorem Inserted.left (h : MapInv m bound) (hL : m.nodes = A ++ p :: B) (hk : 0 < k)
    (hp : p.rangeHigh + 1 = low) (hB : ∀ b ∈ B, low + k < b.rangeLow) : Inserted m { m with
      inodeInuseTree := modifyNode p.addr (fun q => { q with rangeHigh := q.rangeHigh + k })
        m.inodeInuseTree } bound low k := by
  have hranges := h.ranges
  rw [hL] at hranges
  obtain ⟨hA, -, hpr⟩ := hranges.at_node
  have hputs : Puts 0 low k _ _ := .left A B p hp fun b hb => le_of_lt (hB b hb)
  refine Inserted.of_puts (M := [p]) h le_rfl hk hL
    (nodes_modifyNode _ hL h.ranges.addrs) hputs ?_ hA ?_ (.inl (by simp)) rfl rfl
  · simp only
    omega
  intro b hb
  have := hB b hb
  simp only
  omega

/-- A run joins the range behind. -/
theorem Inserted.right (h : MapInv m bound) (hL : m.nodes = A ++ n :: B) (hk : 0 < k)
    (hA : ∀ a ∈ A, a.rangeHigh + 1 < low) (hn : low + k = n.rangeLow) : Inserted m { m with
      inodeInuseTree := modifyNode n.addr (fun q => { q with rangeLow := q.rangeLow - k })
        m.inodeInuseTree } bound low k := by
  have hranges := h.ranges
  rw [hL] at hranges
  obtain ⟨-, hB, hnr⟩ := hranges.at_node
  have hbelow : ∀ a ∈ A, a.rangeHigh < low := by
    intro a ha
    have := hA a ha
    omega
  have hputs : Puts 0 low k _ _ := .right A B n hbelow hn
  refine Inserted.of_puts (M := [n]) h le_rfl hk hL
    (nodes_modifyNode _ hL h.ranges.addrs) hputs ?_ ?_ hB (.inl (by simp)) rfl rfl
  · simp only
    omega
  intro a ha
  have := hA a ha
  simp only
  omega

/-- A run stands alone. -/
theorem Inserted.middle {tree : RbTree RangeNode} (h : MapInv m bound)
    (hL : m.nodes = A ++ B) (hk : 0 < k)
    (hA : ∀ a ∈ A, a.rangeHigh + 1 < low) (hB : ∀ b ∈ B, low + k < b.rangeLow)
    (htree : tree.toList = A ++ ⟨bound, low, low + k - 1⟩ :: B) : Inserted m { m with
      inodeInuseTree := tree
      numRangeNodeInode := m.numRangeNodeInode + 1 } (bound + 1) low k := by
  have hbelow : ∀ a ∈ A, a.rangeHigh < low := by
    intro a ha
    have := hA a ha
    omega
  have hnew : bound ∉ (A ++ B).map addr := by
    intro hmem
    obtain ⟨n, hn, heq⟩ := List.mem_map.1 hmem
    have := h.addr_lt n (hL ▸ hn)
    omega
  have hputs := Puts.middle A B hbelow (fun b hb => le_of_lt (hB b hb)) hnew
  refine Inserted.of_puts (M := []) h (Nat.le_succ _) hk hL htree hputs ?_ hA ?_
    (.inr ⟨le_rfl, Nat.lt_succ_self _⟩) rfl rfl
  · simp only
    omega
  intro b hb
  have := hB b hb
  simp only
  omega

/-- `nova_failure_insert_inodetree` of a new run. -/
theorem failureInsert_spec (rb : RbLib addr) {inoLow inoHigh : Nat}
    (hle : inoLow ≤ inoHigh) (hsame : inoHigh % s.cpus = inoLow % s.cpus)
    (h : MapInv (s.inodeMaps (inoLow % s.cpus)) s.nextNode)
    (hfree : ∀ x, InRun (inoLow / s.cpus) (inoHigh / s.cpus - inoLow / s.cpus + 1) x →
      ¬ Covers (s.inodeMaps (inoLow % s.cpus)).nodes x) :
    ∃ m' next, novaFailureInsertInodetree rb s inoLow inoHigh
        = some (0, { s with nextNode := next }.setMap (inoLow % s.cpus) m') ∧ s.nextNode ≤ next ∧
      Inserted (s.inodeMaps (inoLow % s.cpus)) m' next (inoLow / s.cpus)
        (inoHigh / s.cpus - inoLow / s.cpus + 1) := by
  have hdiv : inoLow / s.cpus ≤ inoHigh / s.cpus := Nat.div_le_div_right hle
  generalize hlow : inoLow / s.cpus = low at *
  generalize hhigh : inoHigh / s.cpus = high at *
  generalize hcpu : inoLow % s.cpus = cpu at *
  generalize hm : s.inodeMaps cpu = m at *
  have hk : 0 < high - low + 1 := Nat.succ_pos _
  obtain ⟨A, B, hslot, hfind, hins⟩ := findFreeSlot_eq rb h.ranges.nodesOk hk hfree
  have hend : low + (high - low + 1) - 1 = high := by omega
  rw [hend] at hfind
  have hL : m.nodes = A ++ B := hslot.eq
  have hranges := h.ranges
  rw [hL] at hranges
  -- a neighbour that the code does not see as adjacent leaves a gap
  have hleft : (A.getLast?.filter fun p => low == p.rangeHigh + 1) = none →
      ∀ a ∈ A, a.rangeHigh + 1 < low := by
    intro hl
    apply apart_left hranges hslot.below
    intro p hp heq
    simp [hp, heq] at hl
  have hright : (B.head?.filter fun n => high + 1 == n.rangeLow) = none →
      ∀ b ∈ B, low + (high - low + 1) < b.rangeLow := by
    intro hr
    apply apart_right hranges hslot.above
    intro n hn heq
    have : high + 1 = n.rangeLow := by omega
    simp [hn, this] at hr
  simp only [novaFailureInsertInodetree, if_neg (not_lt.2 hle), hcpu, hsame, ne_eq,
    not_true_eq_false, if_false, hlow, hhigh, hm, hfind]
  rcases hl : (A.getLast?.filter fun p => low == p.rangeHigh + 1) with _ | p
  · rcases hr : (B.head?.filter fun n => high + 1 == n.rangeLow) with _ | n
    · obtain ⟨tree, hinsert, htree⟩ := hins ⟨s.nextNode, low, high⟩ rfl
      have hnode : tree.toList = A ++ ⟨s.nextNode, low, low + (high - low + 1) - 1⟩ :: B := by
        rw [hend]
        exact htree
      refine ⟨_, s.nextNode + 1, ?_, Nat.le_succ _,
        Inserted.middle h hL hk (hleft hl) (hright hr) hnode⟩
      simp only [hl, hr, show novaInsertInodetree rb m.inodeInuseTree ⟨s.nextNode, low, high⟩
        = some tree from hinsert]
    · obtain ⟨hhead, hadj⟩ := Option.filter_eq_some_iff.1 hr
      have hn : high + 1 = n.rangeLow := beq_iff_eq.1 hadj
      obtain ⟨B', rfl⟩ := head?_eq_some_iff.1 hhead
      refine ⟨_, s.nextNode, ?_, le_rfl, Inserted.right h hL hk (hleft hl) (by omega)⟩
      simp only [hl, hr]
  obtain ⟨hlast, hadj⟩ := Option.filter_eq_some_iff.1 hl
  have hp : p.rangeHigh + 1 = low := (beq_iff_eq.1 hadj).symm
  obtain ⟨A', rfl⟩ := getLast?_eq_some_iff.1 hlast
  rw [append_assoc] at hL
  rcases hr : (B.head?.filter fun n => high + 1 == n.rangeLow) with _ | n
  · refine ⟨_, s.nextNode, ?_, le_rfl, Inserted.left h hL hk hp (hright hr)⟩
    simp only [hl, hr]
  obtain ⟨hhead, hadj⟩ := Option.filter_eq_some_iff.1 hr
  have hn : high + 1 = n.rangeLow := beq_iff_eq.1 hadj
  obtain ⟨B', rfl⟩ := head?_eq_some_iff.1 hhead
  refine ⟨_, s.nextNode, ?_, le_rfl, Inserted.hole rb h hL hk hp (by omega)⟩
  simp only [hl, hr]

-- === the numbers of a run

/-- The inode numbers that an insertion from `low` to `high` stands for:
every `cpus`-th one. -/
def runNumbers (cpus low high : Nat) : List Nat :=
  (List.range' (low / cpus) (high / cpus - low / cpus + 1)).map fun x => x * cpus + low % cpus

/-- The numbers of a run. -/
theorem mem_runNumbers (hcpus : 0 < cpus) {low : Nat} :
    ino ∈ runNumbers cpus low high ↔ ino % cpus = low % cpus ∧
      InRun (low / cpus) (high / cpus - low / cpus + 1) (ino / cpus) := by
  simp only [runNumbers, List.mem_map, mem_range'_1, InRun]
  constructor
  · rintro ⟨x, hx, rfl⟩
    obtain ⟨hmod, hdiv⟩ := ino_parts hcpus (k := x) (Nat.mod_lt low hcpus)
    rw [hmod, hdiv]
    exact ⟨rfl, hx⟩
  rintro ⟨hmod, hx⟩
  refine ⟨ino / cpus, hx, ?_⟩
  rw [← hmod, ino_eq]

/-- A run of one number. -/
theorem runNumbers_self (cpus ino : Nat) : runNumbers cpus ino ino = [ino] := by
  simp [runNumbers, ino_eq]

/-- A run grows by one. -/
theorem runNumbers_extend (hcpus : 0 < cpus) {low : Nat} (hle : low ≤ high)
    (hsame : high % cpus = low % cpus) :
    runNumbers cpus low (high + cpus) = runNumbers cpus low high ++ [high + cpus] := by
  have hdiv : low / cpus ≤ high / cpus := Nat.div_le_div_right hle
  have hlen : (high + cpus) / cpus - low / cpus + 1 = high / cpus - low / cpus + 1 + 1 := by
    rw [Nat.add_div_right _ hcpus]
    omega
  have hlast : low / cpus + (high / cpus - low / cpus + 1) = high / cpus + 1 := by omega
  have hnumber : (high / cpus + 1) * cpus + low % cpus = high + cpus := by
    rw [← hsame, Nat.add_mul, Nat.one_mul, Nat.add_right_comm, ino_eq]
  rw [runNumbers, hlen, range'_1_concat, map_append, hlast]
  simp only [map_cons, map_nil, hnumber, runNumbers]

/-- The trees hold the reserved numbers and those of `done`. -/
structure TreesHold (cpus : Nat) (s : SbInfo) (done : List Nat) : Prop where
  cpus_eq : s.cpus = cpus
  maps : ∀ c, c < cpus → MapInv (s.inodeMaps c) s.nextNode
  use : ∀ c, c < cpus → ∀ x, Covers (s.inodeMaps c).nodes x ↔
    x ≤ reservedHigh cpus ∨ x * cpus + c ∈ done

variable {done : List Nat}

/-- A run enters the trees. -/
theorem TreesHold.insert {low : Nat} (h : TreesHold cpus s done) (hcpus : 0 < cpus)
    (hle : low ≤ high) (hsame : high % cpus = low % cpus)
    (hnew : ∀ ino ∈ runNumbers cpus low high, ino ∉ done ∧ reservedHigh cpus < ino / cpus) :
    ∃ s', novaFailureInsertInodetree rb s low high = some (0, s') ∧
      TreesHold cpus s' (done ++ runNumbers cpus low high) := by
  have heq := h.cpus_eq
  have hcpu : low % cpus < cpus := Nat.mod_lt low hcpus
  have hfree : ∀ x, InRun (low / cpus) (high / cpus - low / cpus + 1) x →
      ¬ Covers (s.inodeMaps (low % cpus)).nodes x := by
    intro x hx hcov
    obtain ⟨hmod, hdiv⟩ := ino_parts hcpus (k := x) hcpu
    have hmem : x * cpus + low % cpus ∈ runNumbers cpus low high := by
      rw [mem_runNumbers hcpus, hmod, hdiv]
      exact ⟨rfl, hx⟩
    obtain ⟨hdone, hres⟩ := hnew _ hmem
    rcases (h.use _ hcpu x).1 hcov with hlow | hin
    · omega
    · exact hdone hin
  subst heq
  obtain ⟨m', next, hcall, hnext, hins⟩ := failureInsert_spec rb hle hsame (h.maps _ hcpu) hfree
  refine ⟨_, hcall, rfl, ?_, ?_⟩
  · intro c hc
    by_cases hcc : c = low % s.cpus
    · simp only [SbInfo.setMap, if_pos hcc]
      exact hins.inv
    · simp only [SbInfo.setMap, if_neg hcc]
      exact (h.maps c hc).mono hnext
  intro c hc x
  rw [mem_append, mem_runNumbers hcpus, (ino_parts hcpus hc).1, (ino_parts hcpus hc).2]
  by_cases hcc : c = low % s.cpus
  · subst hcc
    simp only [SbInfo.setMap, if_pos, hins.covers, h.use _ hc, true_and]
    exact or_assoc
  · simp only [SbInfo.setMap, hcc, false_and, or_false]
    exact h.use c hc x

-- === one step of a thread

/-- The numbers on a page. -/
def numbers (slots : List (Option Nat)) : List Nat := slots.filterMap id

/-- The numbers of a ring. -/
def ringNumbers (ring : List (List (Option Nat))) : List Nat := ring.flatMap numbers

/-- The run a thread has collected. -/
def Thread.run (cpus : Nat) (t : Thread) : List Nat :=
  if t.inoLow = 0 then [] else runNumbers cpus t.inoLow t.inoHigh

/-- What a thread still has to enter. -/
def Thread.left (cpus : Nat) (t : Thread) : List Nat :=
  t.run cpus ++ (numbers t.slots ++ ringNumbers t.pages)

/-- The collected run belongs to one CPU. -/
def Thread.RunOk (cpus : Nat) (t : Thread) : Prop :=
  t.inoLow ≠ 0 → t.inoLow ≤ t.inoHigh ∧ t.inoHigh % cpus = t.inoLow % cpus

/-- A bound on the steps a thread has left. -/
def Thread.work (t : Thread) : Nat :=
  (if t.inoLow = 0 then 0 else 1) + 2 * t.slots.length +
    (t.pages.map fun page => 2 * page.length + 1).sum

variable {t t' : Thread}

/-- A thread with a run. -/
theorem Thread.run_of_ne (h : t.inoLow ≠ 0) :
    t.run cpus = runNumbers cpus t.inoLow t.inoHigh := if_neg h

/-- What a step of a thread does: it returns, its insertions return 0, and
a first part of what was left, perhaps nothing, is now in the trees. -/
structure StepOk (cpus : Nat) (done : List Nat) (t : Thread) (s' : SbInfo) (t' : Thread)
    (rets : List Int) (moved : List Nat) : Prop where
  zero : ∀ r ∈ rets, r = 0
  trees : TreesHold cpus s' (done ++ moved)
  run : t'.RunOk cpus
  split : t.left cpus = moved ++ t'.left cpus
  work : t'.work < t.work ∨ t.finished

/-- A step that enters nothing. -/
theorem StepOk.quiet (h : TreesHold cpus s done) (hrun : t'.RunOk cpus)
    (hsplit : t.left cpus = t'.left cpus) (hwork : t'.work < t.work ∨ t.finished) :
    StepOk cpus done t s t' [] [] := ⟨by simp, by simpa using h, hrun, hsplit, hwork⟩

/-- A thread enters its run. -/
theorem Thread.insert_run (rb : RbLib addr) (h : TreesHold cpus s done) (hcpus : 0 < cpus)
    (hrun : t.RunOk cpus) (hlow : t.inoLow ≠ 0)
    (hnew : ∀ ino ∈ t.left cpus, ino ∉ done ∧ reservedHigh cpus < ino / cpus) :
    ∃ s', novaFailureInsertInodetree rb s t.inoLow t.inoHigh = some (0, s') ∧
      TreesHold cpus s' (done ++ t.run cpus) := by
  rw [t.run_of_ne hlow]
  refine h.insert hcpus (hrun hlow).1 (hrun hlow).2 ?_
  intro ino hino
  refine hnew ino (mem_append_left _ ?_)
  rw [t.run_of_ne hlow]
  exact hino

/-- A thread comes to a number. -/
theorem novaFailureUpdateInodetree_spec {slots : List (Option Nat)} (h : TreesHold cpus s done)
    (hcpus : 0 < cpus) (hrun : t.RunOk cpus) (hslots : t.slots = some ino :: slots)
    (hnew : ∀ i ∈ t.left cpus, i ∉ done ∧ reservedHigh cpus < i / cpus) : ∃ s' t' rets moved,
      novaFailureUpdateInodetree rb s ino { t with slots := slots } = some (s', t', rets) ∧
      StepOk cpus done t s' t' rets moved := by
  have hpos : ino ≠ 0 := by
    rintro rfl
    have := (hnew 0 (by simp [Thread.left, hslots, numbers])).2
    rw [Nat.zero_div] at this
    omega
  have hnumbers : numbers t.slots = ino :: numbers slots := by simp [hslots, numbers]
  have hwork : ∀ low high, Thread.work ⟨slots, t.pages, low, high⟩ < t.work := by
    intro low high
    simp only [Thread.work, hslots, length_cons]
    split <;> split <;> omega
  have hstart : Thread.RunOk cpus ⟨slots, t.pages, ino, ino⟩ := fun _ => ⟨le_rfl, rfl⟩
  have hleft : Thread.left cpus ⟨slots, t.pages, ino, ino⟩ =
      numbers t.slots ++ ringNumbers t.pages := by
    simp only [Thread.left, Thread.run, if_neg hpos, runNumbers_self, hnumbers]
    rfl
  simp only [novaFailureUpdateInodetree, h.cpus_eq]
  by_cases hlow : t.inoLow = 0
  · refine ⟨s, _, [], [], if_pos hlow, StepOk.quiet h hstart ?_ (.inl (hwork _ _))⟩
    rw [hleft, Thread.left, Thread.run, if_pos hlow, nil_append]
  rw [if_neg hlow]
  obtain ⟨hle, hsame⟩ := hrun hlow
  by_cases hnext : ino = t.inoHigh + cpus
  · refine ⟨s, _, [], [], if_pos hnext, StepOk.quiet h ?_ ?_ (.inl (hwork _ _))⟩
    · intro _
      simp only [hnext, Nat.add_mod_right]
      exact ⟨by omega, hsame⟩
    · simp only [Thread.left, Thread.run, if_neg hlow, hnumbers, hnext,
        runNumbers_extend hcpus hle hsame, append_assoc]
      rfl
  obtain ⟨s', hcall, htrees⟩ := Thread.insert_run rb h hcpus hrun hlow hnew
  refine ⟨s', _, [0], t.run cpus, ?_, by simp, htrees, hstart, ?_, .inl (hwork _ _)⟩
  · rw [if_neg hnext, hcall]
    rfl
  · rw [hleft]
    rfl

/-- One step of a thread. -/
theorem Thread.step_spec (rb : RbLib addr) (h : TreesHold cpus s done) (hcpus : 0 < cpus)
    (hrun : t.RunOk cpus) (hnew : ∀ i ∈ t.left cpus, i ∉ done ∧ reservedHigh cpus < i / cpus) :
    ∃ s' t' rets moved, t.step rb s = some (s', t', rets) ∧
      StepOk cpus done t s' t' rets moved := by
  unfold Thread.step
  rcases hslots : t.slots with _ | ⟨_ | ino, slots⟩
  · by_cases hlow : t.inoLow = 0
    · have hcond : ¬ (t.inoLow ≠ 0 ∧ t.inoHigh ≠ 0) := fun hc => hc.1 hlow
      simp only [if_neg hcond]
      rcases hpages : t.pages with _ | ⟨page, pages⟩
      · exact ⟨s, t, [], [], rfl, StepOk.quiet h hrun rfl (.inr ⟨hslots, hpages, hlow⟩)⟩
      refine ⟨s, _, [], [], rfl, StepOk.quiet h (fun hc => absurd rfl hc) ?_ (.inl ?_)⟩
      · simp [Thread.left, Thread.run, hlow, hslots, hpages, numbers, ringNumbers]
      simp only [Thread.work, hlow, hslots, hpages, map_cons, sum_cons, if_pos, length_nil]
      omega
    · have hcond : t.inoLow ≠ 0 ∧ t.inoHigh ≠ 0 := by
        have := (hrun hlow).1
        exact ⟨hlow, by omega⟩
      obtain ⟨s', hcall, htrees⟩ := Thread.insert_run rb h hcpus hrun hlow hnew
      simp only [if_pos hcond, hcall]
      refine ⟨s', _, [0], t.run cpus, rfl, by simp, htrees, fun hc => absurd rfl hc, ?_, .inl ?_⟩
      · simp [Thread.left, Thread.run, hslots]
      · simp only [Thread.work, if_neg hlow, if_pos, hslots]
        omega
  · refine ⟨s, _, [], [], rfl, StepOk.quiet h hrun ?_ (.inl ?_)⟩
    · simp [Thread.left, Thread.run, hslots, numbers]
    · simp only [Thread.work, hslots, length_cons]
      omega
  · exact novaFailureUpdateInodetree_spec h hcpus hrun hslots hnew

-- === runs of the threads

/-- What all threads still have to enter. -/
def leftover (cpus : Nat) (threads : List Thread) : List Nat :=
  threads.flatMap (Thread.left cpus)

/-- The numbers of all rings. -/
def validNumbers (rings : List (List (List (Option Nat)))) : List Nat :=
  rings.flatMap ringNumbers

/-- A valid number is above the reserved ones and on one page only. -/
structure NumbersOk (cpus : Nat) (valid : List Nat) : Prop where
  once : valid.Nodup
  above : ∀ ino ∈ valid, reservedHigh cpus < ino / cpus

/-- The valid numbers are divided between the trees and the threads. -/
structure RecoveryInv (cpus : Nat) (valid : List Nat) (r : Recovery) (done : List Nat) :
    Prop where
  trees : TreesHold cpus r.sb done
  perm : (done ++ leftover cpus r.threads).Perm valid
  runs : ∀ t ∈ r.threads, t.RunOk cpus
  zero : ∀ ret ∈ r.rets, ret = 0

variable {r r' r0 : Recovery} {valid : List Nat}

/-- What is left is new. -/
theorem RecoveryInv.left_new (h : RecoveryInv cpus valid r done) (hv : NumbersOk cpus valid)
    (ht : t ∈ r.threads) : ∀ i ∈ t.left cpus, i ∉ done ∧ reservedHigh cpus < i / cpus := by
  intro i hi
  have hmem : i ∈ leftover cpus r.threads := mem_flatMap.2 ⟨t, ht, hi⟩
  have hnd : (done ++ leftover cpus r.threads).Nodup := h.perm.nodup_iff.2 hv.once
  refine ⟨?_, hv.above i (h.perm.subset (mem_append_right _ hmem))⟩
  intro hdone
  exact (nodup_append.1 hnd).2.2 i hdone i hmem rfl

/-- A thread can make a step. -/
theorem RecoveryInv.next (rb : RbLib addr) (h : RecoveryInv cpus valid r done)
    (hcpus : 0 < cpus) (hv : NumbersOk cpus valid) (ht : t ∈ r.threads) :
    ∃ s' t' rets moved, t.step rb r.sb = some (s', t', rets) ∧
      StepOk cpus done t s' t' rets moved :=
  Thread.step_spec rb h.trees hcpus (h.runs t ht) (h.left_new hv ht)

/-- A step of one thread keeps the invariant. -/
theorem RecoveryInv.thread {X Y : List Thread} {rets new : List Int} {moved : List Nat}
    (h : RecoveryInv cpus valid ⟨s, X ++ t :: Y, rets⟩ done)
    (hs : StepOk cpus done t s' t' new moved) :
    RecoveryInv cpus valid ⟨s', X ++ t' :: Y, rets ++ new⟩ (done ++ moved) := by
  refine ⟨hs.trees, ?_, ?_, ?_⟩
  · refine List.Perm.trans ?_ h.perm
    simp only [leftover, flatMap_append, flatMap_cons, hs.split, append_assoc]
    -- the numbers moved pass those left to the threads before
    exact List.Perm.append_left done (perm_append_comm_assoc _ _ _)
  · intro u hu
    rcases mem_append.1 hu with hX | hY
    · exact h.runs u (mem_append_left _ hX)
    rcases mem_cons.1 hY with rfl | hY
    · exact hs.run
    · exact h.runs u (mem_append_right _ (mem_cons_of_mem _ hY))
  intro ret hret
  rcases mem_append.1 hret with hold | hnew
  · exact h.zero ret hold
  · exact hs.zero ret hnew

/-- Any step keeps it. -/
theorem RecoveryInv.step (h : RecoveryInv cpus valid r done) (hcpus : 0 < cpus)
    (hv : NumbersOk cpus valid) (hs : Step rb r r') : ∃ done', RecoveryInv cpus valid r' done' := by
  cases hs with
  | thread hstep =>
    obtain ⟨s', t', rets, moved, heq, hok⟩ := h.next rb hcpus hv
      (mem_append_right _ mem_cons_self)
    obtain ⟨rfl, rfl, rfl⟩ : _ = s' ∧ _ = t' ∧ _ = rets := by simpa using hstep.symm.trans heq
    exact ⟨_, h.thread hok⟩

/-- Any run keeps it. -/
theorem RecoveryInv.reach (h : RecoveryInv cpus valid r0 done) (hcpus : 0 < cpus)
    (hv : NumbersOk cpus valid) (hr : Reach rb r0 r) : ∃ done', RecoveryInv cpus valid r done' := by
  induction hr with
  | start => exact ⟨done, h⟩
  | step _ hs ih =>
    obtain ⟨done', hd⟩ := ih
    exact hd.step hcpus hv hs

/-- The threads can always finish. -/
theorem RecoveryInv.finishes (hcpus : 0 < cpus) (hv : NumbersOk cpus valid)
    (h : RecoveryInv cpus valid r done) (hr : Reach rb r0 r) :
    ∃ r', Reach rb r0 r' ∧ ∀ t ∈ r'.threads, t.finished := by
  induction hw : (r.threads.map Thread.work).sum using Nat.strong_induction_on
    generalizing r done with
  | _ w ih =>
    by_cases hall : ∀ t ∈ r.threads, t.finished
    · exact ⟨r, hr, hall⟩
    simp only [not_forall] at hall
    obtain ⟨t, ht, hopen⟩ := hall
    obtain ⟨s', t', rets, moved, hstep, hok⟩ := h.next rb hcpus hv ht
    have hless := hok.work.resolve_right hopen
    obtain ⟨X, Y, hXY⟩ := append_of_mem ht
    obtain ⟨s, threads, old⟩ := r
    subst hXY
    refine ih _ ?_ (h.thread hok) (hr.step (.thread hstep)) rfl
    simp only [map_append, map_cons, sum_append, sum_cons] at hw ⊢
    omega

-- === the result

/-- `a` to `b` is a run of the set that no number of the set touches. -/
structure IsMaxRun (P : Nat → Prop) (a b : Nat) : Prop where
  le : a ≤ b
  inside : ∀ x, a ≤ x → x ≤ b → P x
  above : ¬ P (b + 1)
  below : a = 0 ∨ ¬ P (a - 1)

/-- Beside a range there is nothing. -/
theorem not_covers_beside (h : RangesOk L) (hn : n ∈ L) :
    ¬ Covers L (n.rangeHigh + 1) ∧ (n.rangeLow = 0 ∨ ¬ Covers L (n.rangeLow - 1)) := by
  obtain ⟨A, B, rfl⟩ := append_of_mem hn
  obtain ⟨hA, hB, hnr⟩ := h.at_node
  have hother : ∀ x, Covers (A ++ n :: B) x → ¬ (n.rangeLow ≤ x ∧ x ≤ n.rangeHigh) →
      x + 1 < n.rangeLow ∨ n.rangeHigh + 1 < x := by
    rintro x ⟨i, hi, hlow, hhigh⟩ hout
    rcases mem_append.1 hi with hi | hi
    · have := hA i hi
      omega
    rcases mem_cons.1 hi with rfl | hi
    · exact absurd ⟨hlow, hhigh⟩ hout
    · have := hB i hi
      omega
  constructor
  · intro hc
    have := hother _ hc (by omega)
    omega
  by_cases h0 : n.rangeLow = 0
  · exact .inl h0
  refine .inr fun hc => ?_
  have := hother _ hc (by omega)
  omega

/-- The ranges are the maximal runs. -/
theorem ranges_iff_maxRun (h : RangesOk L) (a b : Nat) :
    (∃ n ∈ L, n.rangeLow = a ∧ n.rangeHigh = b) ↔ IsMaxRun (Covers L) a b := by
  constructor
  · rintro ⟨n, hn, rfl, rfl⟩
    obtain ⟨habove, hbelow⟩ := not_covers_beside h hn
    exact ⟨h.range n hn, fun x h1 h2 => ⟨n, hn, h1, h2⟩, habove, hbelow⟩
  rintro ⟨hab, hin, habove, hbelow⟩
  obtain ⟨n, hn, hlow, hhigh⟩ := hin a le_rfl hab
  obtain ⟨hnabove, -⟩ := not_covers_beside h hn
  refine ⟨n, hn, ?_, ?_⟩
  · by_contra hne
    rcases hbelow with h0 | hb
    · omega
    · exact hb ⟨n, hn, by omega, by omega⟩
  rcases Nat.lt_trichotomy n.rangeHigh b with hlt | heq | hgt
  · exact absurd (hin _ (by omega) (by omega)) hnabove
  · exact heq
  · exact absurd ⟨n, hn, by omega, by omega⟩ habove

/-- The inode lists hold exactly the maximal runs of the reserved prefix
and the valid numbers of each CPU, one node for each, in order, with the
first range in front. -/
structure Recovered (cpus : Nat) (valid : List Nat) (s : SbInfo) : Prop where
  runs : ∀ c, c < cpus → ∀ a b,
    (∃ n ∈ (s.inodeMaps c).nodes, n.rangeLow = a ∧ n.rangeHigh = b) ↔
      IsMaxRun (fun x => x ≤ reservedHigh cpus ∨ x * cpus + c ∈ valid) a b
  sorted : ∀ c, c < cpus →
    (s.inodeMaps c).nodes.Pairwise fun i j => i.rangeHigh < j.rangeLow
  count : ∀ c, c < cpus → (s.inodeMaps c).numRangeNodeInode = (s.inodeMaps c).nodes.length
  first : ∀ c, c < cpus →
    (s.inodeMaps c).firstInodeRange = (s.inodeMaps c).nodes.head?.map RangeNode.addr

/-- What the trees hold at the end. -/
theorem TreesHold.recovered (h : TreesHold cpus s done) (hperm : done.Perm valid) :
    Recovered cpus valid s := by
  refine ⟨?_, ?_, ?_, ?_⟩
  · intro c hc a b
    have hset : Covers (s.inodeMaps c).nodes
        = fun x => x ≤ reservedHigh cpus ∨ x * cpus + c ∈ valid := by
      funext x
      rw [h.use c hc x, hperm.mem_iff]
    rw [ranges_iff_maxRun (h.maps c hc).ranges, hset]
  · intro c hc
    exact (h.maps c hc).ranges.sep.imp fun hij => by omega
  · intro c hc
    exact (h.maps c hc).count
  intro c hc
  obtain ⟨f, rest, hL, -, hfirst⟩ := (h.maps c hc).first
  rw [hL, hfirst]
  rfl

/-- A finished thread has nothing left. -/
theorem left_of_finished (h : t.finished) : t.left cpus = [] := by
  obtain ⟨hslots, hpages, hlow⟩ := h
  simp [Thread.left, Thread.run, hslots, hpages, hlow, numbers, ringNumbers]

/-- The start of the threads. -/
theorem recoveryInv_start {held : Finset Nat} {rings : List (List (List (Option Nat)))}
    (h : ListInv cpus s held) (hheld : held = ∅) :
    RecoveryInv cpus (validNumbers rings) ⟨s, rings.map Thread.start, []⟩ [] := by
  subst hheld
  refine ⟨⟨h.cpus_eq, h.maps, ?_⟩, ?_, ?_, by simp⟩
  · intro c hc x
    rw [h.use c hc x]
    simp
  · rw [leftover, flatMap_map]
    exact List.Perm.refl _
  intro t ht
  obtain ⟨ring, -, rfl⟩ := List.mem_map.1 ht
  exact fun hc => absurd rfl hc

/-- **The recovered numbers do not depend on the order of the scan.** For
any rings of pages with any valid inodes, in every state that the threads
can come to from the freshly initialised lists, every insertion so far
returned 0 and every thread can go on; from there all threads can finish;
and once they have, the lists hold exactly the maximal runs. -/
theorem recovery_order_independent (rb : RbLib RangeNode.addr) (hcpus : 0 < cpus)
    (rings : List (List (List (Option Nat)))) (hv : NumbersOk cpus (validNumbers rings)) :
    ∃ s₀, novaInitInodeInuseList rb (fun _ => false) (mountInfo cpus) = (0, s₀) ∧
      ∀ r, Reach rb ⟨s₀, rings.map Thread.start, []⟩ r → (∀ ret ∈ r.rets, ret = 0) ∧
        (∀ t ∈ r.threads, (t.step rb r.sb).isSome) ∧
        (∃ r', Reach rb r r' ∧ ∀ t ∈ r'.threads, t.finished) ∧
        ((∀ t ∈ r.threads, t.finished) → Recovered cpus (validNumbers rings) r.sb) := by
  obtain ⟨s₀, hinit, hlist⟩ :
      ∃ s₀, novaInitInodeInuseList rb (fun _ => false) (mountInfo cpus) = (0, s₀) ∧
        ListInv cpus s₀ ∅ := novaInitInodeInuseList_inv rb
  refine ⟨s₀, hinit, ?_⟩
  intro r hr
  obtain ⟨done, h⟩ := (recoveryInv_start hlist rfl).reach hcpus hv hr
  refine ⟨h.zero, ?_, h.finishes hcpus hv .start, ?_⟩
  · intro t ht
    obtain ⟨s', t', rets, moved, hstep, -⟩ := h.next rb hcpus hv ht
    rw [hstep]
    rfl
  intro hall
  have hleft : leftover cpus r.threads = [] := by
    rw [leftover, flatMap_eq_nil_iff]
    exact fun t ht => left_of_finished (hall t ht)
  have hperm := h.perm
  rw [hleft, append_nil] at hperm
  exact h.trees.recovered hperm

/-- Two CPUs and two threads; the number 68 closes the gap between two
runs of the other thread's page. -/
def twoRings : List (List (List (Option Nat))) :=
  [[[some 64, some 66, none, some 70]], [[some 68], [some 65, none]]]

/-- Two rings, in any order. -/
theorem recovery_order_independent_two :
    NumbersOk 2 (validNumbers twoRings) ∧
    ∃ s₀, novaInitInodeInuseList (.spine RangeNode.addr) (fun _ => false) (mountInfo 2) = (0, s₀) ∧
      ∀ r, Reach (.spine RangeNode.addr) ⟨s₀, twoRings.map Thread.start, []⟩ r →
        (∀ ret ∈ r.rets, ret = 0) ∧
        (∀ t ∈ r.threads, (t.step (.spine RangeNode.addr) r.sb).isSome) ∧
        (∃ r', Reach (.spine RangeNode.addr) r r' ∧ ∀ t ∈ r'.threads, t.finished) ∧
        ((∀ t ∈ r.threads, t.finished) → Recovered 2 (validNumbers twoRings) r.sb) := by
  have hv : NumbersOk 2 (validNumbers twoRings) := ⟨by decide, by decide⟩
  exact ⟨hv, recovery_order_independent (.spine addr) (by decide) twoRings hv⟩

end Themis.InodeRecovery
