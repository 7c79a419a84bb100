/-
The range lists survive an unmount: what the saving loop writes, the
loading loop reads back.

Entries are numbered through the chain of pages (`slot`), 254 to a page.
After `t` entries the tail stands behind entry `t - 1` (`tailAt`); saving
and loading go on to the next page at the same entry (`Chain.step`).
`Holds` says which entries a chain holds; appending adds one
(`Holds.append`), and the loading loop visits them in order
(`Holds.entries_eq`).
-/
import Themis.RangeLog
import Themis.Proofs.Balloc.FreeList
import Mathlib.Data.List.GetD

namespace Themis.RangeLog

open Lib Balloc InodeList List Function
open Log (isLastEntry blockOff entryLoc LAST_ENTRY)

variable {m : RangeMem} {pages : List Nat} {t : Nat}
variable {i u low cpuid : Nat} {L : List (RangeNode × Nat)} {e : RangeNode × Nat}
  {trees : Nat → RbTree RangeNode}

-- === the slots

/-- A chain of log pages. -/
structure Chain (m : RangeMem) (pages : List Nat) : Prop where
  page : ∀ p ∈ pages, p ≠ 0 ∧ entryLoc p = 0
  nodup : pages.Nodup
  linked : ∀ i, i + 1 < pages.length → m.nextPage (pages.getD i 0) = pages.getD (i + 1) 0

/-- The place of entry `t`. -/
def slot (pages : List Nat) (t : Nat) : Nat :=
  pages.getD (t / RANGENODE_PER_PAGE) 0 + ENTRY_SIZE * (t % RANGENODE_PER_PAGE)

/-- The tail behind `t` entries. -/
def tailAt (pages : List Nat) (t : Nat) : Nat :=
  if t = 0 then pages.getD 0 0 else slot pages (t - 1) + ENTRY_SIZE

/-- The tail is behind the last entry. -/
theorem tailAt_succ (pages : List Nat) (t : Nat) :
    tailAt pages (t + 1) = slot pages t + ENTRY_SIZE := by
  rw [tailAt, if_neg (Nat.succ_ne_zero t), Nat.add_sub_cancel]

/-- An entry has its page. -/
theorem div_lt_length (ht : t < RANGENODE_PER_PAGE * pages.length) :
    t / RANGENODE_PER_PAGE < pages.length := Nat.div_lt_of_lt_mul ht

/-- A page of the list. -/
theorem getD_mem (hi : i < pages.length) : pages.getD i 0 ∈ pages := by
  rw [getD_eq_getElem _ _ hi]
  exact getElem_mem hi

/-- A place in a page. -/
theorem page_offset {p k : Nat} (hp : entryLoc p = 0) (hk : k < PAGE_SIZE) :
    blockOff (p + k) = p ∧ entryLoc (p + k) = k := by
  unfold blockOff
  unfold entryLoc at hp ⊢
  unfold PAGE_SIZE at *
  omega

section

variable (h : Chain m pages)
include h

section

variable (ht : t < RANGENODE_PER_PAGE * pages.length)
include ht

/-- Page and place of an entry. -/
theorem Chain.slot_page : blockOff (slot pages t) = pages.getD (t / RANGENODE_PER_PAGE) 0
      ∧ entryLoc (slot pages t) = ENTRY_SIZE * (t % RANGENODE_PER_PAGE) := by
  refine page_offset (h.page _ (getD_mem (div_lt_length ht))).2 ?_
  unfold ENTRY_SIZE PAGE_SIZE
  unfold RANGENODE_PER_PAGE at *
  omega

/-- No entry is at 0. -/
theorem Chain.slot_ne_zero : slot pages t ≠ 0 := by
  have hne := (h.page _ (getD_mem (div_lt_length ht))).1
  unfold slot
  omega

/-- Entries have different places. -/
theorem Chain.slot_inj
    (hu : u < RANGENODE_PER_PAGE * pages.length) (heq : slot pages t = slot pages u) : t = u := by
  obtain ⟨hpt, hlt⟩ := h.slot_page ht
  obtain ⟨hpu, hlu⟩ := h.slot_page hu
  rw [heq, hpu] at hpt
  rw [heq, hlu] at hlt
  have hdiv : t / RANGENODE_PER_PAGE = u / RANGENODE_PER_PAGE := by
    rw [getD_eq_getElem _ _ (div_lt_length hu), getD_eq_getElem _ _ (div_lt_length ht)] at hpt
    exact (h.nodup.getElem_inj_iff.mp hpt).symm
  have hmod : t % RANGENODE_PER_PAGE = u % RANGENODE_PER_PAGE := by
    unfold ENTRY_SIZE at hlt
    omega
  rw [← Nat.div_add_mod t RANGENODE_PER_PAGE, ← Nat.div_add_mod u RANGENODE_PER_PAGE, hdiv, hmod]

end

/-- Tails differ. -/
theorem Chain.tailAt_inj (ht : t ≤ RANGENODE_PER_PAGE * pages.length)
    (hu : u ≤ RANGENODE_PER_PAGE * pages.length) (heq : tailAt pages t = tailAt pages u) :
    t = u := by
  -- an empty log has its tail at the start of a page, others do not
  have hzero : ∀ v, v + 1 ≤ RANGENODE_PER_PAGE * pages.length →
      tailAt pages 0 ≠ tailAt pages (v + 1) := by
    intro v hv heq
    obtain ⟨-, hloc⟩ := h.slot_page hv
    have hlen : 0 < pages.length := by
      refine Nat.pos_of_ne_zero fun h0 => ?_
      rw [h0] at hv
      omega
    have hhead := (h.page _ (getD_mem hlen)).2
    rw [tailAt_succ, show tailAt pages 0 = pages.getD 0 0 from rfl] at heq
    unfold ENTRY_SIZE at *
    unfold entryLoc at *
    unfold PAGE_SIZE at *
    unfold RANGENODE_PER_PAGE at *
    omega
  cases t with
  | zero =>
    cases u with
    | zero => rfl
    | succ u => exact absurd heq (hzero u hu)
  | succ t =>
    cases u with
    | zero => exact absurd heq.symm (hzero t ht)
    | succ u =>
      rw [h.slot_inj ht hu (Nat.add_right_cancel heq)]

/-- From the tail to the next place. -/
theorem Chain.step (ht : t < RANGENODE_PER_PAGE * pages.length) :
    logReachesEnd m (tailAt pages t) = false
      ∧ (if isLastEntry (tailAt pages t) ENTRY_SIZE then nextLogPage m (tailAt pages t)
          else tailAt pages t) = slot pages t := by
  have hslot := h.slot_ne_zero ht
  have hfrom : (if isLastEntry (tailAt pages t) ENTRY_SIZE
      then nextLogPage m (tailAt pages t) else tailAt pages t) = slot pages t := by
    cases t with
    | zero =>
      have hlen : 0 < pages.length := div_lt_length ht
      have hloc := (h.page _ (getD_mem hlen)).2
      have hlast : isLastEntry (tailAt pages 0) ENTRY_SIZE = false := by
        unfold isLastEntry
        rw [show tailAt pages 0 = pages.getD 0 0 from rfl, hloc]
        rfl
      rw [hlast]
      rfl
    | succ t =>
      obtain ⟨hoff, hend⟩ : blockOff (slot pages t + ENTRY_SIZE)
            = pages.getD (t / RANGENODE_PER_PAGE) 0 ∧ entryLoc (slot pages t + ENTRY_SIZE)
            = ENTRY_SIZE * (t % RANGENODE_PER_PAGE) + ENTRY_SIZE := by
        rw [slot, Nat.add_assoc]
        refine page_offset (h.page _ (getD_mem (div_lt_length (Nat.lt_of_succ_lt ht)))).2 ?_
        unfold ENTRY_SIZE PAGE_SIZE
        unfold RANGENODE_PER_PAGE at *
        omega
      rw [tailAt_succ]
      by_cases hfull : t % RANGENODE_PER_PAGE = RANGENODE_PER_PAGE - 1
      · -- the page is full
        have hlast : isLastEntry (slot pages t + ENTRY_SIZE) ENTRY_SIZE = true := by
          unfold isLastEntry
          rw [hend, hfull]
          rfl
        have hdiv : (t + 1) / RANGENODE_PER_PAGE = t / RANGENODE_PER_PAGE + 1
            ∧ (t + 1) % RANGENODE_PER_PAGE = 0 := by
          unfold RANGENODE_PER_PAGE at *
          omega
        rw [if_pos hlast, nextLogPage, hoff, h.linked, slot, hdiv.1, hdiv.2]
        · rfl
        · rw [← hdiv.1]
          exact div_lt_length ht
      have hlast : isLastEntry (slot pages t + ENTRY_SIZE) ENTRY_SIZE = false := by
        unfold isLastEntry
        rw [hend]
        unfold ENTRY_SIZE LAST_ENTRY
        unfold RANGENODE_PER_PAGE at *
        exact decide_eq_false (by omega)
      have hdiv : (t + 1) / RANGENODE_PER_PAGE = t / RANGENODE_PER_PAGE
          ∧ (t + 1) % RANGENODE_PER_PAGE = t % RANGENODE_PER_PAGE + 1 := by
        unfold RANGENODE_PER_PAGE at *
        omega
      rw [if_neg (by rw [hlast]; exact Bool.false_ne_true), slot, slot, hdiv.1, hdiv.2,
        Nat.mul_succ, Nat.add_assoc]
  refine ⟨?_, hfrom⟩
  cases hend : logReachesEnd m (tailAt pages t) with
  | false => rfl
  | true =>
    -- otherwise the next entry would lie at address 0
    refine absurd (hfrom.symm.trans ?_) hslot
    unfold logReachesEnd at hend
    simp only [Bool.or_eq_true, Bool.and_eq_true, beq_iff_eq] at hend
    cases hend with
    | inl h0 =>
      have hlast : isLastEntry (tailAt pages t) ENTRY_SIZE = false := by
        rw [h0]
        rfl
      rw [if_neg (by rw [hlast]; exact Bool.false_ne_true), h0]
    | inr hnext => rw [if_pos hnext.1, hnext.2]

end

-- === packing

/-- An entry as it is stored. -/
def packed (e : RangeNode × Nat) : Nat × Nat := (packLow e.1.rangeLow e.2, e.1.rangeHigh)

/-- Packing adds the CPU in the top byte. -/
theorem packLow_eq (hlow : low < 2 ^ 56) (hcpu : cpuid < 64) :
    packLow low cpuid = cpuid * 2 ^ 56 + low := by
  unfold packLow
  by_cases h0 : cpuid = 0
  · rw [if_neg (fun h => h h0), h0, Nat.zero_mul, Nat.zero_add]
  have hlt : cpuid <<< 56 < 2 ^ 64 := by
    omega
  rw [if_pos h0, Nat.mod_eq_of_lt hlt, Nat.or_comm, ← Nat.shiftLeft_add_eq_or_of_lt hlow,
    Nat.shiftLeft_eq]

/-- Packing can be undone. -/
theorem unpack_packLow (hlow : low < 2 ^ 56) (hcpu : cpuid < 64) :
    (packLow low cpuid &&& CPUID_MASK) >>> 56 = cpuid
      ∧ packLow low cpuid &&& (2 ^ 64 - 1 - CPUID_MASK) = low := by
  rw [packLow_eq hlow hcpu]
  constructor
  · rw [Nat.shiftRight_and_distrib, show CPUID_MASK >>> 56 = 2 ^ 8 - 1 from rfl,
      Nat.and_two_pow_sub_one_eq_mod, Nat.shiftRight_eq_div_pow]
    omega
  · rw [show 2 ^ 64 - 1 - CPUID_MASK = 2 ^ 56 - 1 from rfl, Nat.and_two_pow_sub_one_eq_mod]
    omega

-- === saving

/-- The chain holds the entries `E`, and the tail stands behind them. -/
structure Holds (m : RangeMem) (pages : List Nat) (E : List (Nat × Nat)) (tail : Nat) :
    Prop where
  chain : Chain m pages
  fits : E.length ≤ RANGENODE_PER_PAGE * pages.length
  tail_eq : tail = tailAt pages E.length
  entries : ∀ i e, E[i]? = some e → m.entry (slot pages i) = e

/-- Every append of the list finds room, and stores its entry inside a
page of the chain, before the page's tail. -/
def AppendsInside (pages : List Nat) : List (RangeNode × Nat) → RangeMem → Nat → Prop
  | [], _, _ => True
  | (curr, cpuid) :: rest, m, tail =>
    logReachesEnd m tail = false
      ∧ blockOff (novaAppendRangeNodeEntry m curr tail cpuid).1 ∈ pages
      ∧ entryLoc (novaAppendRangeNodeEntry m curr tail cpuid).1 + ENTRY_SIZE ≤ LAST_ENTRY
      ∧ AppendsInside pages rest (novaAppendRangeNodeEntry m curr tail cpuid).2
          ((novaAppendRangeNodeEntry m curr tail cpuid).1 + ENTRY_SIZE)

variable {E : List (Nat × Nat)} {tail : Nat}

/-- One entry is appended. -/
theorem Holds.append (h : Holds m pages E tail)
    (hroom : E.length < RANGENODE_PER_PAGE * pages.length) (curr : RangeNode) (cpuid : Nat) :
    logReachesEnd m tail = false
      ∧ (novaAppendRangeNodeEntry m curr tail cpuid).1 = slot pages E.length
      ∧ Holds (novaAppendRangeNodeEntry m curr tail cpuid).2 pages (E ++ [packed (curr, cpuid)])
          ((novaAppendRangeNodeEntry m curr tail cpuid).1 + ENTRY_SIZE) := by
  obtain ⟨hend, hfrom⟩ := h.chain.step hroom
  rw [← h.tail_eq] at hend hfrom
  have heq : novaAppendRangeNodeEntry m curr tail cpuid = (slot pages E.length, { m with
          entry := update m.entry (slot pages E.length) (packed (curr, cpuid)) }) := by
    unfold novaAppendRangeNodeEntry
    rw [if_neg (by rw [hend]; exact Bool.false_ne_true)]
    simp only [hfrom]
    rfl
  rw [heq]
  refine ⟨hend, rfl, ⟨h.chain.page, h.chain.nodup, h.chain.linked⟩, ?_, ?_, ?_⟩
  · rw [length_append]
    exact hroom
  · rw [length_append]
    exact (tailAt_succ pages E.length).symm
  intro i e hi
  show update m.entry (slot pages E.length) _ (slot pages i) = e
  by_cases hlast : i = E.length
  · rw [hlast, getElem?_append_right le_rfl, Nat.sub_self] at hi
    injection hi with hi
    rw [hlast, update_self, hi]
  have hlt : i < (E ++ [packed (curr, cpuid)]).length := (List.getElem?_eq_some_iff.mp hi).1
  rw [length_append, length_singleton] at hlt
  have hiE : i < E.length := by omega
  rw [getElem?_append_left hiE] at hi
  rw [update_of_ne ?_, h.entries i e hi]
  intro heq
  exact hlast (h.chain.slot_inj (lt_trans hiE hroom) hroom heq)

/-- All entries are appended. -/
theorem Holds.appendAll (h : Holds m pages E tail)
    (hroom : E.length + L.length ≤ RANGENODE_PER_PAGE * pages.length) : AppendsInside pages L m tail
      ∧ Holds (appendAll L m tail).2 pages (E ++ L.map packed) (appendAll L m tail).1 := by
  induction L generalizing m E tail with
  | nil =>
    refine ⟨trivial, ?_⟩
    rw [map_nil, append_nil]
    exact h
  | cons e L ih =>
    obtain ⟨curr, cpuid⟩ := e
    rw [length_cons] at hroom
    have hone : E.length < RANGENODE_PER_PAGE * pages.length := by omega
    obtain ⟨hend, hat, h'⟩ := h.append hone curr cpuid
    obtain ⟨hoff, hloc⟩ := h.chain.slot_page hone
    have hmod : E.length % RANGENODE_PER_PAGE < RANGENODE_PER_PAGE := Nat.mod_lt _ (by decide)
    obtain ⟨hrest, hall⟩ := ih h' (by rw [length_append, length_singleton]; omega)
    refine ⟨⟨hend, ?_, ?_, hrest⟩, ?_⟩
    · rw [hat, hoff]
      exact getD_mem (div_lt_length hone)
    · rw [hat, hloc]
      unfold ENTRY_SIZE LAST_ENTRY
      unfold RANGENODE_PER_PAGE at hmod ⊢
      omega
    · rw [map_cons, append_cons]
      exact hall

/-- All ranges with their CPUs, in the order they are saved. -/
def family (trees : Nat → RbTree RangeNode) (cpus : Nat) : List (RangeNode × Nat) :=
  (List.range cpus).flatMap fun i => (trees i).toList.map fun n => (n, i)

/-- Appending two lists. -/
theorem appendAll_append (L L' : List (RangeNode × Nat)) (m : RangeMem) (tail : Nat) :
    appendAll (L ++ L') m tail = appendAll L' (appendAll L m tail).2 (appendAll L m tail).1 := by
  induction L generalizing m tail with
  | nil => rfl
  | cons e L ih => exact ih _ _

/-- Saving the trees is appending their ranges. -/
theorem saveTrees_eq (trees : Nat → RbTree RangeNode) (cpus : Nat) (m : RangeMem)
    (head : Nat) : saveTrees trees cpus m head = appendAll (family trees cpus) m head := by
  unfold saveTrees family
  induction cpus with
  | zero => rfl
  | succ cpus ih =>
    rw [range_succ, foldl_append, ih, flatMap_append, appendAll_append]
    simp [novaSaveRangeNodesToLog]

-- === loading

/-- The entries the loading loop visits. -/
def rangeEntries (m : RangeMem) (tail : Nat) : Nat → Nat → Option (List (Nat × Nat))
  | 0, _ => none
  | rounds + 1, curr =>
    if curr = tail then some []
    else
      let currP := if isLastEntry curr ENTRY_SIZE then nextLogPage m curr else curr
      if currP = 0 then none
      else (rangeEntries m tail rounds (currP + ENTRY_SIZE)).map (m.entry currP :: ·)

/-- The loop runs its body on the entries that are read. -/
theorem rangeLoop_of_entries {σ : Type} {body : σ → Nat × Nat → ExceptT σ Option σ}
    {rounds curr : Nat} {L : List (Nat × Nat)} {s s' : σ} (hread : rangeEntries m tail rounds curr = some L)
    (hbody : L.foldlM body s = pure s') :
    rangeLoop m tail body rounds curr s = some (.tail, s') := by
  induction rounds generalizing curr L s with
  | zero => cases hread
  | succ rounds ih =>
    rw [rangeEntries] at hread
    rw [rangeLoop]
    by_cases hend : curr = tail
    · rw [if_pos hend] at hread ⊢
      injection hread with hread
      rw [← hread] at hbody
      cases hbody
      rfl
    rw [if_neg hend] at hread ⊢
    generalize (if isLastEntry curr ENTRY_SIZE then nextLogPage m curr else curr) = currP
      at hread ⊢
    by_cases hp : currP = 0
    · rw [if_pos hp] at hread
      cases hread
    rw [if_neg hp] at hread ⊢
    obtain ⟨L', hread', rfl⟩ := Option.map_eq_some_iff.mp hread
    rw [foldlM_cons] at hbody
    match hone : (body s (m.entry currP)).run with
    | none | some (.error s1) =>
      rw [show body s (m.entry currP) = _ from hone] at hbody
      cases hbody
    | some (.ok s1) =>
      rw [show body s (m.entry currP) = _ from hone] at hbody
      exact ih hread' hbody

/-- The entries that were saved are read. -/
theorem Holds.entries_eq (h : Holds m pages E tail) (n : Nat) (hn : t + n = E.length) :
    rangeEntries m tail (n + 1) (tailAt pages t) = some (E.drop t) := by
  induction n generalizing t with
  | zero =>
    rw [Nat.add_zero] at hn
    rw [rangeEntries, h.tail_eq, ← hn, if_pos rfl, drop_of_length_le (le_of_eq hn.symm)]
  | succ n ih =>
    have hroom : t < RANGENODE_PER_PAGE * pages.length := lt_of_lt_of_le (by omega) h.fits
    have hne : tailAt pages t ≠ tail := by
      intro heq
      rw [h.tail_eq] at heq
      have := h.chain.tailAt_inj (le_of_lt hroom) h.fits heq
      omega
    have hlt : t < E.length := by omega
    have hrest := ih (show t + 1 + n = E.length by omega)
    rw [tailAt_succ] at hrest
    rw [rangeEntries, if_neg hne]
    rw [(h.chain.step hroom).2, if_neg (h.chain.slot_ne_zero hroom), hrest,
      h.entries t _ (getElem?_eq_getElem hlt), drop_eq_getElem_cons hlt]
    rfl

-- === the inode list

/-- The range of a node, without its address. -/
def rangeOf (n : RangeNode) : Nat × Nat := (n.rangeLow, n.rangeHigh)

/-- The ranges with CPU `i`. -/
def rangesFor (F : List (RangeNode × Nat)) (i : Nat) : List (Nat × Nat) :=
  (F.filter fun e => e.2 = i).map fun e => rangeOf e.1

/-- The ranges of two lists. -/
theorem rangesFor_append (F G : List (RangeNode × Nat)) (i : Nat) :
    rangesFor (F ++ G) i = rangesFor F i ++ rangesFor G i := by
  rw [rangesFor, filter_append, map_append]
  rfl

/-- The inode maps hold exactly the ranges of `F`, each at its CPU. -/
structure LoadedInodes (cpus : Nat) (F : List (RangeNode × Nat)) (s : SbInfo) : Prop where
  cpus_eq : s.cpus = cpus
  ok : ∀ i, NodesOk (s.inodeMaps i).inodeInuseTree.toList
  fresh : ∀ i, ∀ n ∈ (s.inodeMaps i).inodeInuseTree.toList, n.addr < s.nextNode
  ranges : ∀ i, (s.inodeMaps i).inodeInuseTree.toList.map rangeOf = rangesFor F i

/-- A range that can be saved. -/
structure Savable (cpus : Nat) (e : RangeNode × Nat) : Prop where
  cpu : e.2 < cpus
  low : e.1.rangeLow < 2 ^ 56
  range : e.1.rangeLow ≤ e.1.rangeHigh

variable (rb : RbLib RangeNode.addr) {cpus : Nat} {F : List (RangeNode × Nat)} {s : SbInfo}

/-- One entry of the inode list is loaded. -/
theorem LoadedInodes.step (h : LoadedInodes cpus F s) (hcpus : cpus ≤ 64) (he : Savable cpus e)
    (hafter : ∀ f ∈ F, f.2 = e.2 → f.1.rangeHigh < e.1.rangeLow) (ret : Int) :
    ∃ s', loadInodeEntry rb (s, ret) (packed e) = pure (s', 0)
      ∧ LoadedInodes cpus (F ++ [e]) s' := by
  obtain ⟨hcpuid, hlow⟩ := unpack_packLow he.low (lt_of_lt_of_le he.cpu hcpus)
  let node : RangeNode := ⟨s.nextNode, e.1.rangeLow, e.1.rangeHigh⟩
  have hlast : ∀ n ∈ (s.inodeMaps e.2).inodeInuseTree.toList, n.rangeHigh < node.rangeLow := by
    intro n hn
    have hmem : rangeOf n ∈ rangesFor F e.2 := by
      rw [← h.ranges]
      exact List.mem_map_of_mem hn
    obtain ⟨f, hf, hfn⟩ := List.mem_map.mp hmem
    obtain ⟨hfF, hfe⟩ := mem_filter.mp hf
    have hhigh : f.1.rangeHigh = n.rangeHigh := congrArg Prod.snd hfn
    rw [← hhigh]
    exact hafter f hfF (of_decide_eq_true hfe)
  obtain ⟨tree', hins, hlist⟩ := insertRangeNode_last rb node (h.ok e.2) hlast
  have hfresh : node.addr ∉ (s.inodeMaps e.2).inodeInuseTree.toList.map RangeNode.addr := by
    intro hmem
    obtain ⟨n, hn, haddr⟩ := List.mem_map.mp hmem
    exact lt_irrefl _ (haddr ▸ h.fresh e.2 n hn)
  have hok' : NodesOk tree'.toList := by
    rw [hlist]
    refine NodesOk.insert (B := []) ?_ ?_ he.range hlast
      (fun n hn => absurd hn not_mem_nil)
    · rw [append_nil]
      exact h.ok e.2
    · rw [append_nil]
      exact hfresh
  have hentry : loadInodeEntry rb (s, ret) (packed e) = pure (SbInfo.setMap
      { s with nextNode := s.nextNode + 1
               inodesUsedCount :=
                 s.inodesUsedCount + rangeLen e.1.rangeLow e.1.rangeHigh } e.2
      { s.inodeMaps e.2 with
        inodeInuseTree := tree'
        numRangeNodeInode := (s.inodeMaps e.2).numRangeNodeInode + 1
        firstInodeRange := if (s.inodeMaps e.2).firstInodeRange = none then some s.nextNode
          else (s.inodeMaps e.2).firstInodeRange }, 0) := by
    unfold loadInodeEntry
    dsimp only [packed]
    rw [hcpuid, hlow, if_neg (by rw [h.cpus_eq]; exact Nat.not_le_of_lt he.cpu)]
    rw [show novaInsertInodetree rb (s.inodeMaps e.2).inodeInuseTree
      ⟨s.nextNode, e.1.rangeLow, e.1.rangeHigh⟩ = some tree' from hins]
  refine ⟨_, hentry, ?_⟩
  -- only the list of the entry's CPU changes
  have htree : ∀ i, i ≠ e.2 → rangesFor [e] i = [] := by
    intro i hi
    rw [rangesFor, filter_cons_of_neg (by simpa using Ne.symm hi)]
    rfl
  have hself : rangesFor [e] e.2 = [rangeOf node] := by
    rw [rangesFor, filter_cons_of_pos (by simp)]
    rfl
  refine ⟨h.cpus_eq, fun i => ?_, fun i n hn => ?_, fun i => ?_⟩
  · by_cases hi : i = e.2
    · simp only [SbInfo.setMap, hi, if_pos]
      exact hok'
    · simp only [SbInfo.setMap, if_neg hi]
      exact h.ok i
  · show n.addr < s.nextNode + 1
    by_cases hi : i = e.2
    · simp only [SbInfo.setMap, hi, if_pos, hlist, mem_append, mem_singleton] at hn
      cases hn with
      | inl hn => exact Nat.lt_succ_of_lt (h.fresh e.2 n hn)
      | inr hn =>
        rw [hn]
        exact Nat.lt_succ_self _
    · simp only [SbInfo.setMap, if_neg hi] at hn
      exact Nat.lt_succ_of_lt (h.fresh i n hn)
  rw [rangesFor_append, ← h.ranges]
  by_cases hi : i = e.2
  · simp only [SbInfo.setMap, hi, if_pos, hlist, map_append, hself, map_cons, map_nil]
  · simp only [SbInfo.setMap, if_neg hi]
    rw [htree i hi, append_nil]

/-- The entries of a list in which every CPU's ranges are in order are
all accepted; the loop leaves `ret` at 0 once it has read one. -/
theorem LoadedInodes.run (h : LoadedInodes cpus F s) (hcpus : cpus ≤ 64)
    (hL : ∀ e ∈ L, Savable cpus e)
    (hordered : (F ++ L).Pairwise fun a b => a.2 = b.2 → a.1.rangeHigh < b.1.rangeLow) (ret : Int) :
    ∃ s', (L.map packed).foldlM (loadInodeEntry rb) (s, ret)
        = pure (s', if L = [] then ret else 0)
      ∧ LoadedInodes cpus (F ++ L) s' := by
  induction L generalizing F s ret with
  | nil =>
    refine ⟨s, rfl, ?_⟩
    rw [append_nil]
    exact h
  | cons e L ih =>
    obtain ⟨s1, hone, h1⟩ := h.step rb hcpus (hL e mem_cons_self)
      (fun f hf => (pairwise_append.mp hordered).2.2 f hf e mem_cons_self) ret
    obtain ⟨s', hrest, h'⟩ := ih h1 (fun f hf => hL f (mem_cons_of_mem e hf))
      (by rw [← append_cons]; exact hordered) 0
    refine ⟨s', ?_, ?_⟩
    · rw [map_cons, foldlM_cons, hone]
      rw [ite_self] at hrest
      exact hrest
    · rw [append_cons]
      exact h'

-- === the family

/-- The ranges are those of the trees. -/
theorem mem_family : e ∈ family trees cpus ↔ e.2 < cpus ∧ e.1 ∈ (trees e.2).toList := by
  obtain ⟨n, i⟩ := e
  simp only [family, mem_flatMap, mem_range, List.mem_map, Prod.mk.injEq]
  constructor
  · intro h
    obtain ⟨j, hj, n', hn', hnn, hji⟩ := h
    rw [← hnn, ← hji]
    exact ⟨hj, hn'⟩
  · intro h
    exact ⟨i, h.1, n, h.2, rfl, rfl⟩

/-- The ranges of a CPU are those of its tree. -/
theorem rangesFor_family (trees : Nat → RbTree RangeNode) (hi : i < cpus) :
    rangesFor (family trees cpus) i = (trees i).toList.map rangeOf := by
  have hpart : ∀ j, rangesFor ((trees j).toList.map fun n => (n, j)) i
      = if j = i then (trees i).toList.map rangeOf else [] := by
    intro j
    unfold rangesFor
    by_cases hj : j = i
    · rw [if_pos hj, filter_eq_self.mpr, List.map_map, hj]
      · rfl
      · intro e he
        obtain ⟨n, -, rfl⟩ := List.mem_map.mp he
        exact decide_eq_true hj
    rw [if_neg hj, filter_eq_nil_iff.mpr]
    · rfl
    intro e he
    obtain ⟨n, -, rfl⟩ := List.mem_map.mp he
    exact fun h => hj (of_decide_eq_true h)
  have hsum : ∀ k, rangesFor (family trees k) i
      = if i < k then (trees i).toList.map rangeOf else [] := by
    intro k
    induction k with
    | zero => rfl
    | succ k ih =>
      have hsplit : family trees (k + 1)
          = family trees k ++ (trees k).toList.map fun n => (n, k) := by
        unfold family
        rw [range_succ, flatMap_append, flatMap_singleton]
      rw [hsplit, rangesFor_append, ih, hpart]
      by_cases hik : k = i
      · rw [if_pos hik, if_neg (by omega), if_pos (by omega), nil_append]
      rw [if_neg hik, append_nil]
      by_cases hlt : i < k
      · rw [if_pos hlt, if_pos (by omega)]
      · rw [if_neg hlt, if_neg (by omega)]
  rw [hsum, if_pos hi]

/-- The ranges of a CPU come in order. -/
theorem family_ordered
    (hok : ∀ i < cpus, (trees i).toList.Pairwise fun a b => a.rangeHigh < b.rangeLow) :
    (family trees cpus).Pairwise fun a b => a.2 = b.2 → a.1.rangeHigh < b.1.rangeLow := by
  refine pairwise_flatMap.mpr ⟨fun i hi => ?_, ?_⟩
  · refine pairwise_map.mpr ((hok i (mem_range.mp hi)).imp ?_)
    intro a b hab _
    exact hab
  refine pairwise_lt_range.imp ?_
  intro i j hij a ha b hb heq
  obtain ⟨_, -, rfl⟩ := List.mem_map.mp ha
  obtain ⟨_, -, rfl⟩ := List.mem_map.mp hb
  exact absurd heq (Nat.ne_of_lt hij)

/-- Lists saved over a chain with enough pages never reach the end of
the log and stay inside its pages; the loop of the next mount reads the
entries in the order in which they were written, and rebuilds for every
CPU the ranges of its list. -/
theorem range_log_round_trip (trees : Nat → RbTree RangeNode) (hcpus : cpus ≤ 64)
    (hrange : ∀ i < cpus, ∀ n ∈ (trees i).toList, n.rangeLow ≤ n.rangeHigh)
    (hordered : ∀ i < cpus, (trees i).toList.Pairwise fun a b => a.rangeHigh < b.rangeLow)
    (hlow : ∀ i < cpus, ∀ n ∈ (trees i).toList, n.rangeLow < 2 ^ 56)
    (hone : 1 ≤ (family trees cpus).length) (hchain : Chain m pages)
    (hpages : ((family trees cpus).length + RANGENODE_PER_PAGE - 1) / RANGENODE_PER_PAGE
      ≤ pages.length) (hs : s.cpus = cpus) (hempty : ∀ i, (s.inodeMaps i).inodeInuseTree = .nil)
    (garbage : Int) :
    saveTrees trees cpus m (pages.getD 0 0) = appendAll (family trees cpus) m (pages.getD 0 0)
      ∧ AppendsInside pages (family trees cpus) m (pages.getD 0 0)
      ∧ rangeEntries (saveTrees trees cpus m (pages.getD 0 0)).2
          (saveTrees trees cpus m (pages.getD 0 0)).1 ((family trees cpus).length + 1)
          (pages.getD 0 0) = some ((family trees cpus).map packed)
      ∧ ∃ s', rangeLoop (saveTrees trees cpus m (pages.getD 0 0)).2
            (saveTrees trees cpus m (pages.getD 0 0)).1 (loadInodeEntry rb)
            ((family trees cpus).length + 1) (pages.getD 0 0) (s, garbage) = some (.tail, (s', 0))
        ∧ ∀ i < cpus, (s'.inodeMaps i).inodeInuseTree.toList.map rangeOf
            = (trees i).toList.map rangeOf := by
  have hroom : (family trees cpus).length ≤ RANGENODE_PER_PAGE * pages.length := by
    unfold RANGENODE_PER_PAGE at *
    omega
  have hstart : Holds m pages [] (pages.getD 0 0) :=
    ⟨hchain, Nat.zero_le _, rfl, fun i e hi => by cases hi⟩
  obtain ⟨hinside, hholds⟩ := hstart.appendAll
    (show 0 + (family trees cpus).length ≤ _ by rw [Nat.zero_add]; exact hroom)
  rw [nil_append, ← saveTrees_eq] at hholds
  have hread := hholds.entries_eq (t := 0) (family trees cpus).length
    (by rw [length_map, Nat.zero_add])
  rw [drop_zero, show tailAt pages 0 = pages.getD 0 0 from rfl] at hread
  have hnil : LoadedInodes cpus [] s := by
    refine ⟨hs, fun i => ?_, fun i n hn => ?_, fun i => ?_⟩
    · rw [hempty]
      exact ⟨fun n hn => absurd hn not_mem_nil, List.Pairwise.nil, nodup_nil⟩
    · rw [hempty] at hn
      cases hn
    · rw [hempty]
      rfl
  have hsavable : ∀ e ∈ family trees cpus, Savable cpus e := by
    intro e he
    obtain ⟨hcpu, hn⟩ := mem_family.mp he
    exact ⟨hcpu, hlow e.2 hcpu e.1 hn, hrange e.2 hcpu e.1 hn⟩
  obtain ⟨s', hload, hs'⟩ := hnil.run rb hcpus hsavable
    (family_ordered hordered) garbage
  rw [if_neg (ne_nil_of_length_pos hone)] at hload
  refine ⟨saveTrees_eq trees cpus m _, hinside, hread, s', rangeLoop_of_entries hread hload, fun i hi => ?_⟩
  rw [hs'.ranges i, nil_append, rangesFor_family trees hi]

/-- One range on each of two CPUs, and one page. -/
theorem range_log_round_trip_two_cpus :
    let rb := RbLib.spine RangeNode.addr
    let trees : Nat → RbTree RangeNode := fun i => .node .nil ⟨i + 1, 0, 16 + i⟩ .nil
    let m : RangeMem := ⟨fun _ => (0, 0), fun _ => 0⟩
    let saved := saveTrees trees 2 m 4096
    Chain m [4096] ∧ (family trees 2).length = 2
      ∧ ∃ s', rangeLoop saved.2 saved.1 (loadInodeEntry rb) 3 4096 (mountInfo 2, 7)
            = some (.tail, (s', 0)) ∧ ∀ i < 2, (s'.inodeMaps i).inodeInuseTree.toList.map rangeOf
            = (trees i).toList.map rangeOf := by
  intro rb trees m saved
  have hchain : Chain m [4096] := ⟨by decide, by decide, fun i hi => absurd hi (by simp)⟩
  have hcpus : (mountInfo 2).cpus = 2 := rfl
  have hall := range_log_round_trip rb trees (by decide) (by decide) (by decide) (by decide)
    (by decide) hchain (by decide) hcpus (fun _ => rfl) 7
  exact ⟨hchain, rfl, hall.2.2.2⟩

end Themis.RangeLog
