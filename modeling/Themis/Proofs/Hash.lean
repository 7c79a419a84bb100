/-
The per-process tables are exact.

`NodeInv` says what the table of a process is after its writes. One write
keeps it (`NodeInv.insert`), so one call keeps the same of the whole table
(`TableInv.update`). That the counts which the walks trust are the lengths
is part of it, so no walk leaves its chain.
-/
import Mathlib.Order.Bounds.Basic
import Themis.Hash
import Themis.Lib.Buckets
import Themis.Proofs.Detect

namespace Themis.Hash

open Detect (DetectNode MAX_KEY MAX_DETECT_KEY detectKey pidKey sum_update_add)
open Lib List Function

variable {blocks : List Nat} {b m : Nat} {S : Nat → Prop} {key : Fin MAX_DETECT_KEY}
  {c : DetectTable} {node : Node} {calls : List (Nat × Nat)} {t : Table}

-- === counts

/-- A count with one more. -/
theorem count_snoc (blocks : List Nat) (b x : Nat) :
    (blocks ++ [b]).count x = blocks.count x + if x = b then 1 else 0 := by
  by_cases h : x = b
  · simp [h]
  · simp [h, Ne.symm h]

/-- The most writes to one of the blocks in `S`. -/
def MaxCount (S : Nat → Prop) (blocks : List Nat) (m : Nat) : Prop :=
  IsGreatest { n | ∃ x ∈ blocks, S x ∧ blocks.count x = n } m

/-- A greatest count is positive. -/
theorem MaxCount.pos (h : MaxCount S blocks m) : 1 ≤ m := by
  obtain ⟨⟨x, hx, -, rfl⟩, -⟩ := h
  exact count_pos_iff.mpr hx

/-- A block of another chain. -/
theorem MaxCount.other (h : MaxCount S blocks m) (hb : ¬ S b) : MaxCount S (blocks ++ [b]) m := by
  have hset : { n | ∃ x ∈ blocks ++ [b], S x ∧ (blocks ++ [b]).count x = n }
      = { n | ∃ x ∈ blocks, S x ∧ blocks.count x = n } := by
    ext n
    refine exists_congr fun x => ?_
    rw [mem_append, count_snoc]
    by_cases hx : x = b
    · simp [hx, hb]
    · simp [hx]
  rw [MaxCount, hset]
  exact h

/-- A block of this chain. -/
theorem MaxCount.snoc (h : MaxCount S blocks m) (hb : S b) :
    MaxCount S (blocks ++ [b]) (if blocks.count b + 1 > m then blocks.count b + 1 else m) := by
  obtain ⟨⟨x, hx, hS, hmax⟩, hbound⟩ := h
  refine ⟨?_, ?_⟩
  · by_cases hgt : blocks.count b + 1 > m
    · exact ⟨b, by simp, hb, by rw [if_pos hgt, count_snoc, if_pos rfl]⟩
    · have hne : x ≠ b := by
        rintro rfl
        omega
      exact ⟨x, by simp [hx], hS, by rw [if_neg hgt, count_snoc, if_neg hne, hmax, Nat.add_zero]⟩
  rintro n ⟨y, hy, hSy, rfl⟩
  rw [count_snoc]
  by_cases hyb : y = b
  · rw [hyb, if_pos rfl]
    split <;> omega
  rw [mem_append, mem_singleton, or_iff_left hyb] at hy
  have hle : blocks.count y ≤ m := hbound ⟨y, hy, hSy, rfl⟩
  rw [if_neg hyb]
  split <;> omega

/-- The first block of a chain. -/
theorem maxCount_first (hnone : ∀ x ∈ blocks, ¬ S x) (hb : S b) : MaxCount S (blocks ++ [b]) 1 := by
  have hone : (blocks ++ [b]).count b = 1 := by
    rw [count_snoc, if_pos rfl, count_eq_zero_of_not_mem fun h => hnone b h hb]
  refine ⟨⟨b, by simp, hb, hone⟩, ?_⟩
  rintro n ⟨x, hx, hS, rfl⟩
  rw [mem_append, mem_singleton, or_iff_right fun h => hnone x h hS] at hx
  rw [hx, hone]

-- === one process

/-- The chain of `key` after the writes to `blocks`. -/
structure ChainInv (blocks : List Nat) (key : Fin MAX_DETECT_KEY) (c : DetectTable) : Prop where
  bucket : Bucket DetectNode.blockNum detectKey blocks
    (fun d => d.writeCount = blocks.count d.blockNum) key c.nodes
  nodeCount : c.nodeCount = c.nodes.length
  maxUpdate : c.nodes ≠ [] → MaxCount (detectKey · = key) blocks c.maxUpdate

/-- The sum of a chain's counts. -/
def DetectTable.writes (c : DetectTable) : Nat := (c.nodes.map DetectNode.writeCount).sum

/-- A node after the writes to `blocks`, `total_count` apart. -/
structure NodeInv (blocks : List Nat) (node : Node) : Prop where
  chain : ∀ key, ChainInv blocks key (node.detectTable key)
  pageCount : node.pageCount = blocks.toFinset.card
  first : blocks = [] → node.maxCount = 1
  maxCount : blocks ≠ [] → MaxCount (fun _ => True) blocks node.maxCount
  writes : ∑ key, (node.detectTable key).writes = blocks.length

/-- The counts of other blocks stay. -/
theorem count_other (d : DetectNode) (hd : d.blockNum ≠ b)
    (h : d.writeCount = blocks.count d.blockNum) :
    d.writeCount = (blocks ++ [b]).count d.blockNum := by
  rw [h, count_snoc, if_neg hd, Nat.add_zero]

/-- The walk finds the block, or stops at the last. -/
theorem walk_spec (b : Nat) (nodes : List DetectNode) (hne : nodes ≠ []) :
    (∃ A d B, nodes = A ++ d :: B ∧ d.blockNum = b ∧ walk b (nodes.length - 1) nodes
        = some (A ++ { d with writeCount := d.writeCount + 1 } :: B, some (d.writeCount + 1)))
      ∨ (b ∉ nodes.map DetectNode.blockNum
        ∧ walk b (nodes.length - 1) nodes = some (nodes ++ [⟨b, 1⟩], none)) := by
  induction nodes with
  | nil => exact absurd rfl hne
  | cons d rest ih =>
    by_cases hd : d.blockNum = b
    · refine .inl ⟨[], d, rest, rfl, hd, ?_⟩
      cases rest <;> simp [walk, hd]
    cases rest with
    | nil => exact .inr ⟨by simpa [eq_comm] using hd, by simp [walk, hd]⟩
    | cons e rest =>
      have hstep : walk b ((d :: e :: rest).length - 1) (d :: e :: rest)
          = (walk b ((e :: rest).length - 1) (e :: rest)).map fun r => (d :: r.1, r.2) := by
        simp [walk, hd]
      rw [hstep]
      rcases ih (cons_ne_nil e rest) with ⟨A, d', B, heq, hd', hwalk⟩ | ⟨hnot, hwalk⟩
      · exact .inl ⟨d :: A, d', B, by rw [heq]; rfl, hd', by rw [hwalk]; rfl⟩
      refine .inr ⟨?_, by rw [hwalk]; rfl⟩
      rw [map_cons, mem_cons]
      exact fun h => h.elim (fun h => hd h.symm) hnot

section
variable (h : NodeInv blocks node)
include h

/-- One write, from what it does to the chain. -/
theorem NodeInv.write {c : DetectTable} {maxCount pageCount : Nat}
    (hc : ChainInv (blocks ++ [b]) (detectKey b) c)
    (hwrites : c.writes = (node.detectTable (detectKey b)).writes + 1)
    (hpages : pageCount = (blocks ++ [b]).toFinset.card)
    (hmax : maxCount = if blocks.count b + 1 > node.maxCount then blocks.count b + 1
      else node.maxCount) : NodeInv (blocks ++ [b])
      { node with
        detectTable := update node.detectTable (detectKey b) c
        maxCount := maxCount
        pageCount := pageCount } := by
  refine ⟨?_, hpages, by simp, fun _ => ?_, ?_⟩
  · intro key
    by_cases hkey : key = detectKey b
    · rw [hkey]
      dsimp only
      rwa [update_self]
    dsimp only
    rw [update_of_ne hkey]
    obtain ⟨hbucket, hcount, hmax⟩ := h.chain key
    exact ⟨hbucket.other count_other (Ne.symm hkey), hcount,
      fun hne => (hmax hne).other (Ne.symm hkey)⟩
  · by_cases hempty : blocks = []
    · have hone : maxCount = 1 := by
        rw [hmax, h.first hempty, hempty]
        rfl
      rw [hone]
      exact maxCount_first (by simp [hempty]) trivial
    · rw [hmax]
      exact (h.maxCount hempty).snoc trivial
  have hsum := sum_update_add node.detectTable DetectTable.writes (detectKey b) c
  rw [h.writes] at hsum
  dsimp only
  rw [length_append, length_singleton]
  omega

/-- The block is new. -/
theorem NodeInv.miss (hnot : b ∉ (node.detectTable (detectKey b)).nodes.map DetectNode.blockNum)
    (hm : MaxCount (detectKey · = detectKey b) (blocks ++ [b]) m) : NodeInv (blocks ++ [b])
      { node with
        detectTable := update node.detectTable (detectKey b)
          ⟨(node.detectTable (detectKey b)).nodes ++ [⟨b, 1⟩],
            (node.detectTable (detectKey b)).nodeCount + 1, m⟩
        pageCount := node.pageCount + 1 } := by
  obtain ⟨hbucket, hcount, -⟩ := h.chain (detectKey b)
  have hfresh : b ∉ blocks := fun hmem => hnot ((hbucket.mem b).mpr ⟨hmem, rfl⟩)
  have hzero : blocks.count b = 0 := count_eq_zero_of_not_mem hfresh
  refine h.write (b := b) ⟨?_, ?_, fun _ => hm⟩ (by simp [DetectTable.writes]) ?_ ?_
  · exact hbucket.miss count_other rfl hnot rfl (by rw [count_snoc, if_pos rfl, hzero])
  · rw [hcount, length_append]
    rfl
  · have hset : (blocks ++ [b]).toFinset = Insert.insert b blocks.toFinset := by
      ext x
      simp
    rw [hset, Finset.card_insert_of_notMem (by simpa using hfresh), h.pageCount]
  have hpos : 1 ≤ node.maxCount := by
    by_cases hempty : blocks = []
    · rw [h.first hempty]
    · exact (h.maxCount hempty).pos
  rw [if_neg (by omega)]

/-- `insert_detect_hash_node` of any block. -/
theorem NodeInv.insert (b : Nat) : ∃ node', insertDetectHashNode node b = some node'
    ∧ node'.pid = node.pid ∧ node'.totalCount = node.totalCount
    ∧ NodeInv (blocks ++ [b]) node' := by
  obtain ⟨hbucket, hcount, hmax⟩ := h.chain (detectKey b)
  by_cases hempty : (node.detectTable (detectKey b)).nodes = []
  · have hzero : (node.detectTable (detectKey b)).nodeCount = 0 := by
      rw [hcount, hempty]
      rfl
    have hfirst := h.miss (b := b) (m := 1) (by simp [hempty]) (maxCount_first (by
      intro x hx hkey
      have hmem := (hbucket.mem x).mpr ⟨hx, hkey⟩
      simp [hempty] at hmem) rfl)
    rw [hempty, hzero] at hfirst
    exact ⟨_, if_pos hzero, rfl, rfl, hfirst⟩
  have hpos : (node.detectTable (detectKey b)).nodeCount ≠ 0 := by
    rw [hcount]
    exact fun hlen => hempty (length_eq_zero_iff.mp hlen)
  unfold insertDetectHashNode
  rw [if_neg hpos]
  rcases walk_spec b _ hempty with ⟨A, d, B, hsplit, hd, hwalk⟩ | ⟨hnot, hwalk⟩
  · rw [hcount, hwalk]
    have hdcount : d.writeCount = blocks.count b := by rw [hbucket.all d (by simp [hsplit]), hd]
    have hmem : b ∈ blocks := ((hbucket.mem b).mp (mem_map.mpr ⟨d, by simp [hsplit], hd⟩)).1
    refine ⟨_, rfl, rfl, rfl, h.write ⟨?_, ?_, fun _ => ?_⟩ ?_ ?_ (by rw [hdcount])⟩
    · rw [hsplit] at hbucket
      refine hbucket.hit count_other hd hd ?_
      rw [count_snoc, if_pos hd, hd, hdcount]
    · simp [hsplit]
    · rw [hdcount]
      exact (hmax hempty).snoc rfl
    · simp only [DetectTable.writes, hsplit, map_append, map_cons, sum_append, sum_cons]
      omega
    rw [h.pageCount]
    congr 1
    ext x
    simp only [mem_toFinset, mem_append, mem_singleton]
    exact ⟨.inl, fun hx => hx.elim id (· ▸ hmem)⟩
  rw [hcount, hwalk]
  have hone := (hmax hempty).pos
  have hkeep := h.miss hnot ((hmax hempty).snoc rfl)
  have hfresh : blocks.count b = 0 :=
    count_eq_zero_of_not_mem fun hmem => hnot ((hbucket.mem b).mpr ⟨hmem, rfl⟩)
  rw [hcount, if_neg (by omega)] at hkeep
  exact ⟨_, rfl, rfl, rfl, hkeep⟩

end

-- === all processes

/-- The blocks that a process wrote. -/
def blocksOf (calls : List (Nat × Nat)) (pid : Nat) : List Nat :=
  (calls.filter (·.1 = pid)).map (·.2)

/-- A node of the table after some calls. -/
structure Exact (calls : List (Nat × Nat)) (node : Node) : Prop where
  totalCount : node.totalCount = (blocksOf calls node.pid).length
  inv : NodeInv (blocksOf calls node.pid) node

/-- Every node counts the writes of its process. -/
def TableInv (calls : List (Nat × Nat)) (t : Table) : Prop :=
  ∀ k, Bucket Node.pid pidKey (calls.map (·.1)) (Exact calls) k (t k)

/-- The empty table. -/
theorem tableInv_init : TableInv [] initHashTable :=
  fun _ => ⟨nodup_nil, fun _ => by simp [initHashTable], fun _ h => absurd h not_mem_nil⟩

/-- A new node. -/
theorem nodeInv_new (pid : Nat) : NodeInv [] ⟨pid, 1, 1, 0, fun _ => ⟨[], 0, 0⟩⟩ where
  chain _ :=
    { bucket := ⟨nodup_nil, fun _ => by simp, fun _ h => absurd h not_mem_nil⟩
      nodeCount := rfl
      maxUpdate := fun h => absurd rfl h }
  pageCount := rfl
  first _ := rfl
  maxCount h := absurd rfl h
  writes := by simp [DetectTable.writes]

/-- The blocks of one more write. -/
theorem blocksOf_snoc (calls : List (Nat × Nat)) (c : Nat × Nat) (pid : Nat) :
    blocksOf (calls ++ [c]) pid = blocksOf calls pid ++ if c.1 = pid then [c.2] else [] := by
  by_cases h : c.1 = pid <;> simp [blocksOf, h]

/-- The process is there, or new. -/
theorem updateChain_cases (pid b : Nat) (l : List Node) :
    (∃ A node B, l = A ++ node :: B ∧ node.pid = pid ∧ updateChain pid b l
        = (insertDetectHashNode { node with totalCount := node.totalCount + 1 } b).map
            fun n => A ++ n :: B) ∨ (pid ∉ l.map Node.pid
        ∧ updateChain pid b l = (insertIntoHashTable pid b).map fun n => l ++ [n]) := by
  induction l with
  | nil => exact .inr ⟨by simp, rfl⟩
  | cons node l ih =>
    rw [updateChain]
    by_cases hpid : node.pid = pid
    · rw [if_pos hpid]
      exact .inl ⟨[], node, l, rfl, hpid, rfl⟩
    rw [if_neg hpid]
    rcases ih with ⟨A, n, B, rfl, hn, heq⟩ | ⟨hnot, heq⟩
    · exact .inl ⟨node :: A, n, B, rfl, hn, by rw [heq, Option.map_map]; rfl⟩
    refine .inr ⟨?_, by rw [heq, Option.map_map]; rfl⟩
    rw [map_cons, mem_cons]
    exact fun h => h.elim (fun h => hpid h.symm) hnot

/-- One write. -/
theorem TableInv.update (h : TableInv calls t) (pid b : Nat) :
    ∃ t', updateHashTable t pid b = some t' ∧ TableInv (calls ++ [(pid, b)]) t' := by
  have hother : ∀ node : Node, node.pid ≠ pid → Exact calls node →
      Exact (calls ++ [(pid, b)]) node := by
    intro node hne hnode
    have hsame : blocksOf (calls ++ [(pid, b)]) node.pid = blocksOf calls node.pid := by
      rw [blocksOf_snoc, if_neg (Ne.symm hne), append_nil]
    exact ⟨hsame ▸ hnode.totalCount, hsame ▸ hnode.inv⟩
  have hself : ∀ node : Node, node.pid = pid → node.totalCount = (blocksOf calls pid).length + 1 →
      NodeInv (blocksOf calls pid ++ [b]) node → Exact (calls ++ [(pid, b)]) node := by
    intro node hpid htotal hinv
    have hnext : blocksOf (calls ++ [(pid, b)]) node.pid = blocksOf calls pid ++ [b] := by
      rw [hpid, blocksOf_snoc, if_pos rfl]
    refine ⟨?_, hnext ▸ hinv⟩
    rw [hnext, htotal, length_append, length_singleton]
  obtain ⟨l, hl, hbucket⟩ : ∃ l, updateChain pid b (t (pidKey pid)) = some l
      ∧ Bucket Node.pid pidKey (calls.map (·.1) ++ [pid]) (Exact (calls ++ [(pid, b)]))
          (pidKey pid) l := by
    have hold := h (pidKey pid)
    rcases updateChain_cases pid b (t (pidKey pid)) with ⟨A, node, B, hsplit, hpid, heq⟩ | ⟨hnot, heq⟩
    · obtain ⟨htotal, hinv⟩ := hold.all node (by simp [hsplit])
      rw [hpid] at htotal hinv
      have hcounted : NodeInv (blocksOf calls pid) { node with totalCount := node.totalCount + 1 } :=
        ⟨hinv.chain, hinv.pageCount, hinv.first, hinv.maxCount, hinv.writes⟩
      obtain ⟨n, hn, hnpid, hntotal, hnew⟩ := hcounted.insert b
      rw [hsplit] at hold
      refine ⟨A ++ n :: B, by rw [heq, hn]; rfl, ?_⟩
      exact hold.hit hother hpid (hnpid.trans hpid) (hself n (hnpid.trans hpid)
        (by rw [hntotal, htotal]) hnew)
    have hnone : blocksOf calls pid = [] := by
      rw [blocksOf, map_eq_nil_iff, filter_eq_nil_iff]
      intro c hc hpid
      exact hnot ((hold.mem pid).mpr ⟨mem_map.mpr ⟨c, hc, by simpa using hpid⟩, rfl⟩)
    obtain ⟨n, hn, hnpid, hntotal, hnew⟩ := (nodeInv_new pid).insert b
    refine ⟨t (pidKey pid) ++ [n], by rw [heq, insertIntoHashTable, hn]; rfl, ?_⟩
    exact hold.miss hother rfl hnot hnpid (hself n hnpid (by rw [hntotal, hnone]; rfl)
      (by rwa [hnone]))
  refine ⟨Function.update t (pidKey pid) l, by rw [updateHashTable, hl]; rfl, ?_⟩
  intro k
  rw [map_append]
  by_cases hk : k = pidKey pid
  · rw [hk, update_self]
    exact hbucket
  · rw [update_of_ne hk]
    exact (h k).other hother (Ne.symm hk)

/-- Any writes. -/
theorem tableInv_updates (calls : List (Nat × Nat)) :
    ∃ t, updates initHashTable calls = some t ∧ TableInv calls t := by
  induction calls using reverseRecOn with
  | nil => exact ⟨_, rfl, tableInv_init⟩
  | append_singleton calls c ih =>
    obtain ⟨t, heq, hinv⟩ := ih
    obtain ⟨t', heq', hinv'⟩ := hinv.update c.1 c.2
    refine ⟨t', ?_, hinv'⟩
    rw [updates, foldlM_append]
    rw [updates] at heq
    rw [heq]
    simp [heq']

/-- After any calls the nodes are those of the processes that occurred, one
each, in their buckets; and each node has its process's writes, block by
block. -/
theorem updates_exact (calls : List (Nat × Nat)) :
    ∃ t, updates initHashTable calls = some t ∧
      (∀ k, ((t k).map Node.pid).Nodup
        ∧ ∀ pid, pid ∈ (t k).map Node.pid ↔ pid ∈ calls.map (·.1) ∧ pidKey pid = k) ∧
      ∀ k, ∀ node ∈ t k, node.totalCount = (blocksOf calls node.pid).length
        ∧ (∀ key, ChainInv (blocksOf calls node.pid) key (node.detectTable key))
        ∧ node.pageCount = (blocksOf calls node.pid).toFinset.card
        ∧ MaxCount (fun _ => True) (blocksOf calls node.pid) node.maxCount
        ∧ ∑ key, (node.detectTable key).writes = node.totalCount := by
  obtain ⟨t, heq, hinv⟩ := tableInv_updates calls
  refine ⟨t, heq, fun k => ⟨(hinv k).nodup, (hinv k).mem⟩, ?_⟩
  intro k node hnode
  obtain ⟨htotal, hnodeInv⟩ := (hinv k).all node hnode
  have hne : blocksOf calls node.pid ≠ [] := by
    obtain ⟨c, hc, hpid⟩ := mem_map.mp (((hinv k).mem _).mp (mem_map_of_mem hnode)).1
    exact ne_nil_of_mem (mem_map.mpr ⟨c, mem_filter.mpr ⟨hc, by simpa using hpid⟩, rfl⟩)
  exact ⟨htotal, hnodeInv.chain, hnodeInv.pageCount, hnodeInv.maxCount hne,
    hnodeInv.writes.trans htotal.symm⟩

end Themis.Hash
