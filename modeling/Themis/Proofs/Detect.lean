/-
Detection windows.

# The run

The call that enters per-process mode is the first one it counts. `Run`
carries, beside the state, the processes whose writes were counted since.

# The condition

Nothing empties the process table (`record_malice_process` is commented
out), so the first window that ends leaves nodes behind; and
`insert_into_hash_table` counts a process before it has a node. The windows
are independent exactly if neither happens (`windows_independent_iff`).

# Endurance

The answer 0 means "no verdict", so a device that does not last a second is
not in danger (`endurance_monotone_iff`).
-/
import Themis.Detect

namespace Themis.Detect

open List Function Option

variable (toMsecs : Nat → Nat) {s s' : State} {w : Write}

-- === the table

/-- The nodes of a table. -/
def nodeCount (table : Fin MAX_KEY → List Node) : Nat := ∑ k, (table k).length

/-- A sum with one summand changed. -/
theorem sum_update_add {ι α : Type} [Fintype ι] [DecidableEq ι] (f : ι → α) (g : α → Nat) (k : ι)
    (x : α) : ∑ j, g (update f k x j) + g (f k) = ∑ j, g (f j) + g x := by
  have hcomp : ∀ j, g (update f k x j) = update (fun j => g (f j)) k (g x) j := by
    intro j
    by_cases hj : j = k
    · rw [hj, update_self, update_self]
    · rw [update_of_ne hj, update_of_ne hj]
  simp only [hcomp]
  rw [Finset.sum_update_of_mem (Finset.mem_univ k),
    ← Finset.add_sum_erase Finset.univ (fun j => g (f j)) (Finset.mem_univ k),
    Finset.sdiff_singleton_eq_erase]
  omega

/-- The nodes after a bucket changed. -/
theorem nodeCount_update (table : Fin MAX_KEY → List Node) (k : Fin MAX_KEY) (nodes : List Node) :
    nodeCount (Function.update table k nodes) + (table k).length = nodeCount table + nodes.length :=
  sum_update_add table List.length k nodes

/-- A table without nodes. -/
theorem nodeCount_eq_zero {table : Fin MAX_KEY → List Node} :
    nodeCount table = 0 ↔ ∀ k, table k = [] := by
  unfold nodeCount
  simp

/-- The process of a node stays. -/
@[simp] theorem insertDetectHashNode_pid (node : Node) (w : Write) :
    (insertDetectHashNode node w).pid = node.pid := by
  unfold insertDetectHashNode
  simp only
  split
  · rfl
  · split <;> rfl

/-- The total of a node stays. -/
@[simp] theorem insertDetectHashNode_totalCount (node : Node) (w : Write) :
    (insertDetectHashNode node w).totalCount = node.totalCount := by
  unfold insertDetectHashNode
  simp only
  split
  · rfl
  · split <;> rfl

/-- The process has no node. -/
theorem countWrite_none {l : List Node} : countWrite w l = none ↔ ∀ node ∈ l, node.pid ≠ w.pid := by
  induction l with
  | nil => simp [countWrite]
  | cons node rest ih =>
    unfold countWrite
    by_cases hpid : node.pid = w.pid
    · simp [hpid]
    · simp [hpid, ih]

/-- The process has a node. -/
theorem countWrite_some {l l' : List Node} (h : countWrite w l = some l') :
    ∃ A node B, l = A ++ node :: B ∧ node.pid = w.pid ∧
      l' = A ++ insertDetectHashNode { node with totalCount := node.totalCount + 1 } w :: B := by
  induction l generalizing l' with
  | nil => cases h
  | cons node rest ih =>
    unfold countWrite at h
    split at h
    · rename_i hpid
      cases h
      exact ⟨[], node, rest, rfl, hpid, rfl⟩
    rw [map_eq_some_iff] at h
    obtain ⟨rest', hrest, rfl⟩ := h
    obtain ⟨A, n, B, rfl, hpid, rfl⟩ := ih hrest
    exact ⟨node :: A, n, B, rfl, hpid, rfl⟩

-- === runs

/-- A state and the processes of the writes counted in the current
window. -/
structure Run where
  s : State
  counted : List Nat

/-- One write. -/
def Run.call (r : Run) (w : Write) : Option Run :=
  (recordOneSecWriteInfo toMsecs r.s w).map fun s' =>
    match s'.detectMode with
    | .perPid => ⟨s', (if r.s.detectMode = .perPid then r.counted else []) ++ [w.pid]⟩
    | _ => ⟨s', []⟩

/-- Several writes. -/
def Run.calls (r : Run) : List Write → Option Run
  | [] => some r
  | w :: ws => (r.call toMsecs w).bind fun r' => r'.calls ws

/-- The count of processes is right, and in per-process mode every node
has the writes that its process made in this window. -/
structure WindowOk (r : Run) : Prop where
  count : r.s.processCount = nodeCount r.s.table
  total : r.s.detectMode = .perPid →
    ∀ k, ∀ node ∈ r.s.table k, node.totalCount = r.counted.count node.pid

/-- A window starts with an empty table. -/
def EntersClean (s : State) (w : Write) : Prop :=
  s.detectMode ≠ .perPid → (detectPrepare toMsecs s w).detectMode = .perPid →
    ∀ k, (detectPrepare toMsecs s w).table k = []

/-- The windows of a run are independent: `WindowOk` in every state, and
every window starts with an empty table. -/
def Independent : Run → List Write → Prop
  | r, [] => WindowOk r
  | r, w :: ws => WindowOk r ∧ EntersClean toMsecs r.s w ∧
      ∀ r', r.call toMsecs w = some r' → Independent r' ws

-- === the condition

/-- A second has passed. -/
def SecondOver (s : State) (w : Write) : Prop :=
  TIME_INTERVAL ≤ toMsecs (subUlong w.jiffiesEnd (baseOf s w))

instance (s : State) (w : Write) : Decidable (SecondOver toMsecs s w) :=
  inferInstanceAs (Decidable (_ ≤ _))

/-- The write ends a window. -/
def EndsWindow (s : State) (w : Write) : Prop :=
  s.detectMode = .perPid ∧ SecondOver toMsecs s w

/-- The write starts a window. -/
def StartsWindow (s : State) (w : Write) : Prop :=
  s.detectMode = .global ∧ SecondOver toMsecs s w ∧
    detectGlobalRemainingIdealWearLeveling w.countAverage w.pmUseTime s.writeTraffic = true

/-- The write gets no node. -/
def LosesNode (s : State) (w : Write) : Prop :=
  (StartsWindow toMsecs s w ∨ s.detectMode = .perPid ∧ ¬ SecondOver toMsecs s w) ∧
    (∀ node ∈ s.table (pidKey w.pid), node.pid ≠ w.pid) ∧ w.nodeOk = false

/-- No write ends a window or gets no node. -/
def Undisturbed : Run → List Write → Prop
  | _, [] => True
  | r, w :: ws => ¬ EndsWindow toMsecs r.s w ∧ ¬ LosesNode toMsecs r.s w ∧
      ∀ r', r.call toMsecs w = some r' → Undisturbed r' ws

-- === one call

/-- The mode after `detect_prepare`; its other effects leave the table
alone and change the count of processes only at the end of a window. -/
theorem detectPrepare_spec (s : State) (w : Write) : (detectPrepare toMsecs s w).table = s.table ∧
      (¬ EndsWindow toMsecs s w → (detectPrepare toMsecs s w).processCount = s.processCount) ∧
      (EndsWindow toMsecs s w → (detectPrepare toMsecs s w).processCount = 0 ∧
        (detectPrepare toMsecs s w).detectMode = .off) ∧
      ((detectPrepare toMsecs s w).detectMode = .perPid ↔
        StartsWindow toMsecs s w ∨ s.detectMode = .perPid ∧ ¬ SecondOver toMsecs s w) := by
  unfold detectPrepare EndsWindow StartsWindow SecondOver
  by_cases hover : TIME_INTERVAL ≤ toMsecs (subUlong w.jiffiesEnd (baseOf s w))
  · simp only [hover, if_true, and_true, not_true_eq_false, and_false, or_false, true_and]
    unfold detectModeChange
    cases hmode : s.detectMode with
    | off =>
      simp only [reduceCtorEq, not_false_eq_true, forall_const, false_implies, false_and,
        iff_false, true_and]
      split <;> simp
    | global =>
      simp only [reduceCtorEq, not_false_eq_true, forall_const, false_implies, true_and]
      split
      · rename_i h
        simp [h]
      · rename_i h
        simp [h]
    | perPid => simp
  · simp [hover]

/-- The table of a window in which the writes of `counted` were counted. -/
structure Window (table : Fin MAX_KEY → List Node) (counted : List Nat) : Prop where
  home : ∀ k, ∀ node ∈ table k, pidKey node.pid = k
  nodup : ∀ k, ((table k).map Node.pid).Nodup
  total : ∀ k, ∀ node ∈ table k, node.totalCount = counted.count node.pid
  absent : ∀ pid, (∀ node ∈ table (pidKey pid), node.pid ≠ pid) → pid ∉ counted

variable {table : Fin MAX_KEY → List Node} {counted : List Nat}

/-- An empty table. -/
theorem window_empty (h : ∀ k, table k = []) : Window table [] := by
  constructor
  · intro k node hn
    rw [h k] at hn
    cases hn
  · intro k
    rw [h k]
    exact nodup_nil
  · intro k node hn
    rw [h k] at hn
    cases hn
  · intro pid _
    exact not_mem_nil

/-- The count of another process. -/
theorem count_append_ne {pid pid' : Nat} (h : pid ≠ pid') :
    (counted ++ [pid']).count pid = counted.count pid := by
  rw [count_append, count_singleton, if_neg (by simpa using h.symm), Nat.add_zero]

/-- The count of the process. -/
theorem count_append_self {pid : Nat} : (counted ++ [pid]).count pid = counted.count pid + 1 := by
  rw [count_append, count_singleton_self]

/-- A bucket changes. -/
theorem Window.update {nodes : List Node} (h : Window table counted)
    (hhome : ∀ node ∈ nodes, pidKey node.pid = pidKey w.pid) (hnodup : (nodes.map Node.pid).Nodup)
    (htotal : ∀ node ∈ nodes, node.totalCount = (counted ++ [w.pid]).count node.pid)
    (hin : ∀ pid, (∀ node ∈ nodes, node.pid ≠ pid) →
      pid ≠ w.pid ∧ ∀ node ∈ table (pidKey w.pid), node.pid ≠ pid) :
    Window (Function.update table (pidKey w.pid) nodes) (counted ++ [w.pid]) := by
  constructor
  · intro k node hn
    by_cases hk : k = pidKey w.pid
    · rw [hk, update_self] at hn
      rw [hk]
      exact hhome node hn
    · rw [update_of_ne hk] at hn
      exact h.home k node hn
  · intro k
    by_cases hk : k = pidKey w.pid
    · rw [hk, update_self]
      exact hnodup
    · rw [update_of_ne hk]
      exact h.nodup k
  · intro k node hn
    by_cases hk : k = pidKey w.pid
    · rw [hk, update_self] at hn
      exact htotal node hn
    rw [update_of_ne hk] at hn
    have hne : node.pid ≠ w.pid := by
      intro heq
      exact hk (by rw [← h.home k node hn, heq])
    rw [count_append_ne hne]
    exact h.total k node hn
  intro pid hnone
  rw [mem_append, mem_singleton, not_or]
  by_cases hk : pidKey pid = pidKey w.pid
  · rw [hk, update_self] at hnone
    obtain ⟨hne, hold⟩ := hin pid hnone
    exact ⟨h.absent pid (by rwa [hk]), hne⟩
  · rw [update_of_ne hk] at hnone
    exact ⟨h.absent pid hnone, fun heq => hk (by rw [heq])⟩

/-- A write enters the table. -/
theorem updateHashTable_window (h : Window s.table counted)
    (hcount : s.processCount = nodeCount s.table)
    (hnode : (∀ node ∈ s.table (pidKey w.pid), node.pid ≠ w.pid) → w.nodeOk = true)
    (hrun : updateHashTable s w = some s') :
    Window s'.table (counted ++ [w.pid]) ∧ s'.processCount = nodeCount s'.table ∧
      nodeCount s'.table ≠ 0 ∧ s'.detectMode = s.detectMode := by
  unfold updateHashTable at hrun
  simp only at hrun
  split at hrun
  · rename_i nodes hsome
    cases hrun
    obtain ⟨A, node, B, hl, hpid, rfl⟩ := countWrite_some hsome
    have hlen := nodeCount_update s.table (pidKey w.pid)
      (A ++ insertDetectHashNode { node with totalCount := node.totalCount + 1 } w :: B)
    rw [hl] at hlen
    simp only [length_append, length_cons] at hlen
    have hpos : nodeCount s.table ≠ 0 := by
      intro h0
      have := nodeCount_eq_zero.1 h0 (pidKey w.pid)
      rw [hl] at this
      simp at this
    have hnd := h.nodup (pidKey w.pid)
    rw [hl] at hnd
    have hmem : ∀ n, n ∈ A ∨ n ∈ B → n ∈ s.table (pidKey w.pid) ∧ n.pid ≠ w.pid := by
      intro n hn
      refine ⟨?_, fun heq => ?_⟩
      · rw [hl]
        exact mem_append.2 (hn.imp id (mem_cons_of_mem _))
      rw [map_append, map_cons, nodup_middle, nodup_cons, hpid] at hnd
      apply hnd.1
      rw [mem_append, List.mem_map, List.mem_map]
      rcases hn with hn | hn
      · exact .inl ⟨n, hn, heq⟩
      · exact .inr ⟨n, hn, heq⟩
    refine ⟨h.update ?_ ?_ ?_ ?_, by simp only; omega, by simp only; omega, rfl⟩
    · intro n hn
      rcases mem_append.1 hn with hn | hn
      · exact h.home _ n (hmem n (.inl hn)).1
      rcases mem_cons.1 hn with rfl | hn
      · rw [insertDetectHashNode_pid]
        show pidKey node.pid = _
        rw [hpid]
      · exact h.home _ n (hmem n (.inr hn)).1
    · simpa using hnd
    · intro n hn
      rcases mem_append.1 hn with hn | hn
      · rw [count_append_ne (hmem n (.inl hn)).2]
        exact h.total _ n (hmem n (.inl hn)).1
      rcases mem_cons.1 hn with rfl | hn
      · rw [insertDetectHashNode_pid, insertDetectHashNode_totalCount]
        show node.totalCount + 1 = _
        rw [hpid, count_append_self, ← hpid, h.total (pidKey w.pid) node (by rw [hl]; simp)]
      · rw [count_append_ne (hmem n (.inr hn)).2]
        exact h.total _ n (hmem n (.inr hn)).1
    intro pid hnone
    have hne : w.pid ≠ pid := by
      have := hnone (insertDetectHashNode _ w) (mem_append.2 (.inr mem_cons_self))
      rw [insertDetectHashNode_pid] at this
      rwa [← hpid]
    refine ⟨hne.symm, ?_⟩
    rw [hl]
    intro n hn
    rcases mem_append.1 hn with hn | hn
    · exact hnone n (mem_append.2 (.inl hn))
    rcases mem_cons.1 hn with rfl | hn
    · rwa [hpid]
    · exact hnone n (mem_append.2 (.inr (mem_cons_of_mem _ hn)))
  · rename_i hnone
    have hfree := countWrite_none.1 hnone
    unfold insertIntoHashTable at hrun
    simp only [hnode hfree, if_true] at hrun
    split at hrun
    · cases hrun
      have hpid : (newNode w).pid = w.pid := insertDetectHashNode_pid _ _
      have hlen := nodeCount_update s.table (pidKey w.pid)
        (s.table (pidKey w.pid) ++ [newNode w])
      rw [length_append, length_singleton] at hlen
      refine ⟨h.update ?_ ?_ ?_ ?_, by simp only; omega, by simp only; omega, rfl⟩
      · intro n hn
        rcases mem_append.1 hn with hn | hn
        · exact h.home _ n hn
        · rw [mem_singleton.1 hn, hpid]
      · rw [map_append, nodup_append]
        refine ⟨h.nodup _, by simp, ?_⟩
        intro a ha b hb
        obtain ⟨n, hn, rfl⟩ := List.mem_map.1 ha
        simp only [map_cons, map_nil, mem_singleton] at hb
        rw [hb, hpid]
        exact hfree n hn
      · intro n hn
        rcases mem_append.1 hn with hn | hn
        · rw [count_append_ne (hfree n hn)]
          exact h.total _ n hn
        have hzero : counted.count w.pid = 0 := count_eq_zero.2 (h.absent _ hfree)
        rw [mem_singleton.1 hn, hpid, count_append_self, hzero]
        exact insertDetectHashNode_totalCount _ _
      intro pid hnone
      refine ⟨fun heq => ?_, fun n hn => hnone n (mem_append.2 (.inl hn))⟩
      exact hnone (newNode w) (by simp) (by rw [hpid, heq])
    · cases hrun

/-- The invariant of an undisturbed run: outside the window the table is
empty. -/
structure Inv (r : Run) : Prop where
  count : r.s.processCount = nodeCount r.s.table
  empty : r.s.detectMode ≠ .perPid → ∀ k, r.s.table k = []
  window : r.s.detectMode = .perPid →
    Window r.s.table r.counted ∧ nodeCount r.s.table ≠ 0

variable {r r' : Run}

/-- The invariant says what is wanted. -/
theorem Inv.windowOk (h : Inv r) : WindowOk r := ⟨h.count, fun hmode => (h.window hmode).1.total⟩

/-- The start. -/
theorem inv_init : Inv ⟨init, []⟩ := by
  refine ⟨?_, fun _ _ => rfl, fun h => by cases h⟩
  exact (nodeCount_eq_zero.2 fun _ => rfl).symm

/-- A window starts clean. -/
theorem Inv.entersClean (h : Inv r) (w : Write) : EntersClean toMsecs r.s w := by
  intro hmode _ k
  rw [(detectPrepare_spec toMsecs r.s w).1]
  exact h.empty hmode k

/-- An undisturbed write keeps the invariant. -/
theorem Inv.call (h : Inv r) (hends : ¬ EndsWindow toMsecs r.s w)
    (hloses : ¬ LosesNode toMsecs r.s w) (hrun : r.call toMsecs w = some r') : Inv r' := by
  obtain ⟨htable, hkeep, -, hmode⟩ := detectPrepare_spec toMsecs r.s w
  have hcount := hkeep hends
  unfold Run.call at hrun
  rw [map_eq_some_iff] at hrun
  obtain ⟨s', hrec, hr'⟩ := hrun
  unfold recordOneSecWriteInfo at hrec
  simp only at hrec
  -- outside the window nothing but the traffic changes
  have hidle : (detectPrepare toMsecs r.s w).detectMode ≠ .perPid →
      s'.detectMode = (detectPrepare toMsecs r.s w).detectMode →
      s'.table = r.s.table → s'.processCount = r.s.processCount → Inv ⟨s', []⟩ := by
    intro hne hsame ht hc
    have hout : r.s.detectMode ≠ .perPid := fun hin =>
      hne (hmode.2 (.inr ⟨hin, fun hover => hends ⟨hin, hover⟩⟩))
    refine ⟨by rw [ht, hc, h.count], fun _ k => by rw [ht, h.empty hout k], fun hin => ?_⟩
    exact absurd (hsame.symm.trans hin) hne
  cases hm : (detectPrepare toMsecs r.s w).detectMode with
  | off =>
    rw [hm] at hrec
    cases hrec
    rw [hm] at hr'
    cases hr'
    exact hidle (by rw [hm]; decide) rfl htable hcount
  | global =>
    rw [hm] at hrec
    cases hrec
    cases hr'
    exact hidle (by rw [hm]; decide) hm.symm htable hcount
  | perPid =>
    rw [hm] at hrec
    have hwin : Window (detectPrepare toMsecs r.s w).table
        (if r.s.detectMode = .perPid then r.counted else []) := by
      rw [htable]
      by_cases hin : r.s.detectMode = .perPid
      · rw [if_pos hin]
        exact (h.window hin).1
      · rw [if_neg hin]
        exact window_empty (h.empty hin)
    obtain ⟨hwin', hcount', hpos, hsame⟩ := updateHashTable_window hwin
      (by rw [hcount, htable, h.count])
      (by
        intro hnone
        rw [htable] at hnone
        by_contra hok
        exact hloses ⟨hmode.1 hm, hnone, by simpa using hok⟩) hrec
    rw [hsame, hm] at hr'
    cases hr'
    exact ⟨hcount', fun hne => absurd (hsame.trans hm) hne, fun _ => ⟨hwin', hpos⟩⟩

/-- A disturbed write breaks the window. -/
theorem Inv.disturbed (h : Inv r) (hbad : EndsWindow toMsecs r.s w ∨ LosesNode toMsecs r.s w) :
    ∃ r', r.call toMsecs w = some r' ∧ ¬ WindowOk r' := by
  obtain ⟨htable, hkeep, hzero, hmode⟩ := detectPrepare_spec toMsecs r.s w
  rcases hbad with hends | ⟨hin, hnone, hok⟩
  · obtain ⟨hcount, hoff⟩ := hzero hends
    refine ⟨⟨detectPrepare toMsecs r.s w, []⟩, ?_, fun hwin => ?_⟩
    · unfold Run.call recordOneSecWriteInfo
      simp only [hoff, map_some]
    have := hwin.count
    rw [hcount, htable] at this
    exact (h.window hends.1).2 this.symm
  have hm := hmode.2 hin
  have hends : ¬ EndsWindow toMsecs r.s w := by
    rintro ⟨hper, hover⟩
    rcases hin with ⟨hglob, -⟩ | ⟨-, hnot⟩
    · rw [hper] at hglob
      cases hglob
    · exact hnot hover
  have hlost : recordOneSecWriteInfo toMsecs r.s w = some
      { detectPrepare toMsecs r.s w with
        processCount := (detectPrepare toMsecs r.s w).processCount + 1 } := by
    have hmiss : countWrite w ((detectPrepare toMsecs r.s w).table (pidKey w.pid)) = none := by
      rw [htable]
      exact countWrite_none.2 hnone
    unfold recordOneSecWriteInfo updateHashTable insertIntoHashTable
    simp only [hm, hmiss, hok, Bool.false_eq_true, if_false]
  refine ⟨_, by unfold Run.call; rw [hlost]; simp only [hm]; rfl, fun hwin => ?_⟩
  have hc : (detectPrepare toMsecs r.s w).processCount + 1
      = nodeCount (detectPrepare toMsecs r.s w).table := hwin.count
  rw [hkeep hends, htable, h.count] at hc
  omega

/-- Independent exactly if undisturbed. -/
theorem Inv.independent_iff (h : Inv r) (ws : List Write) :
    Independent toMsecs r ws ↔ Undisturbed toMsecs r ws := by
  induction ws generalizing r with
  | nil => exact ⟨fun _ => trivial, fun _ => h.windowOk⟩
  | cons w ws ih =>
    constructor
    · rintro ⟨-, -, hrest⟩
      have hgood : ¬ (EndsWindow toMsecs r.s w ∨ LosesNode toMsecs r.s w) := by
        intro hbad
        obtain ⟨r', hcall, hnot⟩ := h.disturbed toMsecs hbad
        have hind := hrest r' hcall
        cases ws with
        | nil => exact hnot hind
        | cons w' ws => exact hnot hind.1
      rw [not_or] at hgood
      refine ⟨hgood.1, hgood.2, fun r' hcall => ?_⟩
      exact (ih (h.call toMsecs hgood.1 hgood.2 hcall)).1 (hrest r' hcall)
    rintro ⟨hends, hloses, hrest⟩
    refine ⟨h.windowOk, h.entersClean toMsecs w, fun r' hcall => ?_⟩
    exact (ih (h.call toMsecs hends hloses hcall)).2 (hrest r' hcall)

/-- The windows of a run of `record_one_sec_write_info` are independent
exactly if no call comes in per-process mode after the second is over, and
none fails to allocate the node of a process that has none. -/
theorem windows_independent_iff (ws : List Write) :
    Independent toMsecs ⟨init, []⟩ ws ↔ Undisturbed toMsecs ⟨init, []⟩ ws :=
  inv_init.independent_iff toMsecs ws

-- === an ended window

/-- A write of process 7 on a worn device, `t` milliseconds after the
start; the random number is 0 and nothing fails. -/
def wornWrite (t : Nat) : Write where
  pid := 7
  blockNum := 3
  jiffies := t
  jiffiesEnd := t
  randomNum := 0
  countAverage := MAX_ENDURANCE - 1
  pmUseTime := 0
  blockWriteCount := fun _ => 0
  nodeOk := true
  tableOk := true
  detectNodeOk := true

/-- Writes at 0 and 1 s, when the traffic begins to be counted, at 1 and
2 s, when process 7 gets its node, and at 2 and 3 s, when the window
ends. -/
def twoWindows : List Write := [0, 1000, 1000, 2000, 2000, 3000].map wornWrite

/-- The state at the end. -/
theorem Independent.last {ws : List Write} (h : Independent toMsecs r ws)
    (hrun : r.calls toMsecs ws = some r') : WindowOk r' := by
  induction ws generalizing r with
  | nil =>
    cases hrun
    exact h
  | cons w ws ih =>
    unfold Run.calls at hrun
    rw [bind_eq_some_iff] at hrun
    obtain ⟨r1, hcall, hrest⟩ := hrun
    exact ih (h.2.2 r1 hcall) hrest

/-- When the window of process 7 ends, its node stays and the count of
processes is 0. -/
theorem ended_window_leaves_node : ¬ Independent id ⟨init, []⟩ twoWindows := by
  intro h
  have hrun : ((Run.mk init []).calls id twoWindows).map
      (fun r => (r.s.processCount, nodeCount r.s.table)) = some (0, 1) := by decide +kernel
  rw [map_eq_some_iff] at hrun
  obtain ⟨r, hcalls, hr⟩ := hrun
  rw [Prod.mk.injEq] at hr
  have := (h.last id hcalls).count
  rw [hr.1, hr.2] at this
  cases this

-- === endurance

/-- The writes the device has left. -/
def remaining (average : Nat) : Nat := BLOCKS_MAX * subUlong MAX_ENDURANCE average % 2 ^ 64

/-- The difference does not wrap. -/
theorem remaining_of_le {average : Nat} (h : average ≤ MAX_ENDURANCE) :
    remaining average = BLOCKS_MAX * (MAX_ENDURANCE - average) := by
  have hmax : MAX_ENDURANCE = 10000000 := rfl
  have hblocks : BLOCKS_MAX = 4194304 := rfl
  have hsub : subUlong MAX_ENDURANCE average = MAX_ENDURANCE - average := by
    unfold subUlong
    omega
  rw [remaining, hblocks]
  omega

/-- When the global check fires. -/
theorem detect_iff {average pmUseTime total : Nat} :
    detectGlobalRemainingIdealWearLeveling average pmUseTime total = true ↔
      0 < total ∧ total ≤ remaining average ∧
        remaining average < subUlong EXPECT_L_S pmUseTime * total := by
  unfold detectGlobalRemainingIdealWearLeveling
  split
  · constructor
    · exact fun h => by cases h
    · exact fun h => absurd h.1 (by omega)
  have hlife : lifeCaculateRemainingIdealLeveling average total = remaining average / total :=
    if_pos (by omega)
  simp only [hlife]
  split
  · rename_i hzero
    rw [Nat.div_eq_zero_iff] at hzero
    constructor
    · exact fun h => by cases h
    · exact fun h => absurd h.2.1 (by omega)
  rename_i hne
  rw [Nat.div_eq_zero_iff, not_or, not_lt] at hne
  rw [decide_eq_true_iff, Nat.div_lt_iff_lt_mul (by omega)]
  exact ⟨fun h => ⟨by omega, hne.2, h⟩, fun h => h.2.2⟩

/-- Danger that is reported once is reported for more writes and a higher
average exactly as long as a whole second of life is left and, behind the
endurance, the wrapped rest is below what is expected. -/
theorem endurance_monotone_iff {average average' pmUseTime total total' : Nat}
    (haverage : average ≤ average') (htotal : total ≤ total')
    (hdanger : detectGlobalRemainingIdealWearLeveling average pmUseTime total = true) :
    detectGlobalRemainingIdealWearLeveling average' pmUseTime total' = true ↔
      total' ≤ remaining average' ∧ (MAX_ENDURANCE < average' →
        remaining average' < subUlong EXPECT_L_S pmUseTime * total') := by
  obtain ⟨hpos, -, hlt⟩ := detect_iff.1 hdanger
  rw [detect_iff]
  constructor
  · exact fun h => ⟨h.2.1, fun _ => h.2.2⟩
  rintro ⟨hle, hwrapped⟩
  refine ⟨by omega, hle, ?_⟩
  by_cases hover : MAX_ENDURANCE < average'
  · exact hwrapped hover
  -- up to the endurance the rest only shrinks
  have hle' : average' ≤ MAX_ENDURANCE := not_lt.1 hover
  calc remaining average' ≤ remaining average := by
        rw [remaining_of_le hle', remaining_of_le (haverage.trans hle')]
        exact Nat.mul_le_mul_left _ (by omega)
    _ < subUlong EXPECT_L_S pmUseTime * total := hlt
    _ ≤ subUlong EXPECT_L_S pmUseTime * total' := Nat.mul_le_mul_left _ htotal

/-- Two states of wear. -/
theorem endurance_monotone_iff_half_worn :
    detectGlobalRemainingIdealWearLeveling 0 0 1000000 = true ∧
      detectGlobalRemainingIdealWearLeveling 5000000 0 2000000 = true := by
  have h : detectGlobalRemainingIdealWearLeveling 0 0 1000000 = true := by decide
  exact ⟨h, (endurance_monotone_iff (by decide) (by decide) h).2 (by decide)⟩

/-- With the last write of the device the danger is over: at one more
write, at the full endurance, and behind it. -/
theorem worn_out_is_no_danger :
    (detectGlobalRemainingIdealWearLeveling 0 0 41943040000000 = true ∧
        detectGlobalRemainingIdealWearLeveling 0 0 41943040000001 = false) ∧
      detectGlobalRemainingIdealWearLeveling 9999999 0 1000000 = true ∧
        detectGlobalRemainingIdealWearLeveling 10000000 0 1000000 = false ∧
        detectGlobalRemainingIdealWearLeveling 10000001 0 1000000 = false := by decide

end Themis.Detect
