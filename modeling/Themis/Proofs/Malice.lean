/-
Whom `record_malice_process` puts on the list.

The scan asks for the verdict on each node and does not use it, so the only
test is the budget, and that is made unsigned: a negative `memoryCap` is a
large one. `recordChosen` is a round that does use the verdict. The list is
what it should be if, and only if, such rounds would leave no room for the
others (`Guarded`, `record_only_dangerous_iff`).
-/
import Themis.Malice

namespace Themis.Malice

open Detect OccupySpace List

variable {t : SpaceTable} {n : Nat} {b : Budget} {node : Node} {D : Nat → Prop}
  [DecidablePred D]

/-- A new process whose size is below the budget. -/
def Admitted (t : SpaceTable) (b : Budget) (node : Node) : Prop :=
  node.pid ∉ b.malicious ∧ getOccupySpace t node.pid < toUint b.memoryCap

/-- Such a process is entered and paid for. -/
theorem recordNode_admitted (h : Admitted t b node) : recordNode t n b node =
    { malicious := b.malicious ++ [node.pid]
      memoryCap := toInt (toUint (b.memoryCap - getOccupySpace t node.pid)) } := by
  simp [recordNode, isInMaliciousProcessList, insertIntoMaliciousProcess, h.1, h.2]

/-- No other process is. -/
theorem recordNode_rejected (h : ¬ Admitted t b node) : recordNode t n b node = b := by
  by_cases hmem : node.pid ∈ b.malicious
  · simp [recordNode, isInMaliciousProcessList, hmem]
  · have hspace : ¬ getOccupySpace t node.pid < toUint b.memoryCap := fun hlt => h ⟨hmem, hlt⟩
    simp [recordNode, isInMaliciousProcessList, hmem, hspace]

/-- A scan only appends. -/
theorem scan_appends (l : List Node) (b : Budget) : ∃ added,
    (l.foldl (recordNode t n) b).malicious = b.malicious ++ added ∧ added.Nodup
      ∧ ∀ pid ∈ added, pid ∉ b.malicious := by
  induction l generalizing b with
  | nil => exact ⟨[], by simp, by simp, by simp⟩
  | cons node l ih =>
    rw [foldl_cons]
    by_cases hadm : Admitted t b node
    · rw [recordNode_admitted hadm]
      obtain ⟨added, heq, hnd, hfresh⟩ := ih
        ⟨b.malicious ++ [node.pid], toInt (toUint (b.memoryCap - getOccupySpace t node.pid))⟩
      simp only [mem_append, mem_singleton, not_or] at hfresh
      refine ⟨node.pid :: added, by simpa using heq, ?_, ?_⟩
      · exact nodup_cons.mpr ⟨fun h => (hfresh _ h).2 rfl, hnd⟩
      · exact forall_mem_cons.mpr ⟨hadm.1, fun pid h => (hfresh pid h).1⟩
    · rw [recordNode_rejected hadm]
      exact ih b

/-- Every size was below what was left. -/
def Funded (t : SpaceTable) : Int → List Nat → Prop
  | _, [] => True
  | cap, pid :: pids =>
    getOccupySpace t pid < cap ∧ Funded t (cap - getOccupySpace t pid) pids

/-- One round as it should be: of the processes in `D` each is recorded once,
if what is left of the memory, which is a signed number, is more than it
occupies. -/
def recordChosen (t : SpaceTable) (D : Nat → Prop) [DecidablePred D] (b : Budget) (node : Node) :
    Budget :=
  if D node.pid ∧ node.pid ∉ b.malicious ∧ getOccupySpace t node.pid < b.memoryCap then
    ⟨b.malicious ++ [node.pid], b.memoryCap - getOccupySpace t node.pid⟩
  else b

/-- What the processes of `D` in front of it leave of the memory is not more
than a process outside `D` occupies, unless that one was on the list before.
If there is less than none to begin with, nobody is small enough for what it
reads as an unsigned number. -/
structure Guarded (t : SpaceTable) (D : Nat → Prop) [DecidablePred D] (b : Budget)
    (l : List Node) : Prop where
  signed : b.memoryCap < 0 → ∀ node ∈ l, node.pid ∉ b.malicious →
    toUint b.memoryCap ≤ getOccupySpace t node.pid
  harmless : ∀ pre node post, l = pre ++ node :: post → node.pid ∉ b.malicious → ¬ D node.pid →
    (pre.foldl (recordChosen t D) b).memoryCap ≤ (getOccupySpace t node.pid : Int)

/-- A value of an `int`. -/
def InRange (x : Int) : Prop := -2 ^ 31 ≤ x ∧ x < 2 ^ 31

/-- A value that is not negative. -/
theorem toUint_eq {x : Int} (h : InRange x) (hx : 0 ≤ x) : (toUint x : Int) = x := by
  unfold toUint
  have := h.2
  omega

/-- There and back. -/
theorem toInt_toUint {x : Int} (hx : 0 ≤ x) (h : x < 2 ^ 31) : toInt (toUint x) = x := by
  unfold toInt toUint
  split <;> omega

/-- The rounds agree as long as only processes of `D` are admitted. -/
theorem recordNode_eq_chosen (hcap : InRange b.memoryCap)
    (hadm : Admitted t b node → 0 ≤ b.memoryCap ∧ D node.pid) :
    recordNode t n b node = recordChosen t D b node := by
  have hhi := hcap.2
  by_cases h : Admitted t b node
  · obtain ⟨hnonneg, hD⟩ := hadm h
    have hlt := h.2
    have huint := toUint_eq hcap hnonneg
    rw [recordNode_admitted h, recordChosen, if_pos ⟨hD, h.1, by omega⟩,
      toInt_toUint (by omega) (by omega)]
  · rw [recordNode_rejected h, recordChosen, if_neg]
    rintro ⟨-, hfresh, hlt⟩
    have huint := toUint_eq hcap (by omega)
    exact h ⟨hfresh, by omega⟩

/-- The node is passed over or recorded. -/
theorem recordChosen_cases (t : SpaceTable) (D : Nat → Prop) [DecidablePred D] (b : Budget)
    (node : Node) : recordChosen t D b node = b ∨
      (D node.pid ∧ recordChosen t D b node
        = ⟨b.malicious ++ [node.pid], b.memoryCap - getOccupySpace t node.pid⟩
      ∧ getOccupySpace t node.pid < b.memoryCap) := by
  unfold recordChosen
  split
  · rename_i h
    exact .inr ⟨h.1, rfl, h.2.2⟩
  · exact .inl rfl

/-- A scan is guarded if its first node is admitted only as it should be, and
the rest is guarded behind it. -/
theorem guarded_cons (n : Nat) (hcap : InRange b.memoryCap) (l : List Node) :
    Guarded t D b (node :: l) ↔ (Admitted t b node → 0 ≤ b.memoryCap ∧ D node.pid)
      ∧ Guarded t D (recordNode t n b node) l := by
  have huint := toUint_eq hcap
  constructor
  · intro h
    have hadm : Admitted t b node → 0 ≤ b.memoryCap ∧ D node.pid := by
      rintro ⟨hfresh, hlt⟩
      have hnonneg : 0 ≤ b.memoryCap := by
        by_contra hneg
        have := h.signed (by omega) node mem_cons_self hfresh
        omega
      refine ⟨hnonneg, ?_⟩
      by_contra hD
      have hle : b.memoryCap ≤ getOccupySpace t node.pid := h.harmless [] node l rfl hfresh hD
      have := huint hnonneg
      omega
    rw [recordNode_eq_chosen hcap hadm]
    refine ⟨hadm, ?_, ?_⟩
    · intro hneg node' hmem
      rcases recordChosen_cases t D b node with heq | ⟨-, heq, hlt⟩
      · rw [heq] at hneg ⊢
        exact h.signed hneg node' (mem_cons_of_mem _ hmem)
      · rw [heq] at hneg
        dsimp only at hneg
        omega
    · intro pre node' post hl hfresh hD
      refine h.harmless (node :: pre) node' post (by rw [hl]; rfl) ?_ hD
      rcases recordChosen_cases t D b node with heq | ⟨-, heq, -⟩ <;> rw [heq] at hfresh
      · exact hfresh
      · exact fun hmem => hfresh (mem_append_left _ hmem)
  rintro ⟨hadm, h⟩
  rw [recordNode_eq_chosen hcap hadm] at h
  constructor
  · intro hneg node' hmem hfresh
    rcases mem_cons.mp hmem with rfl | hmem
    · by_contra hlt
      have := (hadm ⟨hfresh, by omega⟩).1
      omega
    rcases recordChosen_cases t D b node with heq | ⟨-, -, hlt⟩
    · rw [heq] at h
      exact h.signed hneg node' hmem hfresh
    · omega
  · intro pre node' post hl hfresh hD
    cases pre with
    | nil =>
      obtain ⟨rfl, -⟩ := cons.inj hl
      by_contra hlt
      rw [foldl_nil] at hlt
      exact hD (hadm ⟨hfresh, by have := huint (by omega); omega⟩).2
    | cons _ pre =>
      obtain ⟨rfl, hrest⟩ := cons.inj hl
      refine h.harmless pre node' post hrest ?_ hD
      rcases recordChosen_cases t D b node with heq | ⟨hDnode, heq, -⟩ <;> rw [heq]
      · exact hfresh
      · intro hmem
        rcases mem_append.mp hmem with hmem | hmem
        · exact hfresh hmem
        · exact hD (mem_singleton.mp hmem ▸ hDnode)

/-- When a scan keeps to the budget. -/
theorem scan_iff (l : List Node) (hcap : InRange b.memoryCap) :
    (∃ added, (l.foldl (recordNode t n) b).malicious = b.malicious ++ added
        ∧ Funded t b.memoryCap added ∧ ∀ pid ∈ added, D pid) ↔ Guarded t D b l := by
  induction l generalizing b with
  | nil => exact ⟨fun _ => ⟨by simp, by simp⟩, fun _ => ⟨[], by simp, trivial, by simp⟩⟩
  | cons node l ih =>
    rw [foldl_cons, guarded_cons n hcap]
    by_cases hadm : Admitted t b node
    · have hstep := recordNode_admitted (n := n) hadm
      -- what is left, if it was enough
      have hleft : getOccupySpace t node.pid < b.memoryCap → InRange (recordNode t n b node).memoryCap
          ∧ (recordNode t n b node).memoryCap = b.memoryCap - getOccupySpace t node.pid := by
        intro hlt
        have hhi := hcap.2
        rw [hstep]
        dsimp only
        rw [toInt_toUint (by omega) (by omega)]
        exact ⟨⟨by omega, by omega⟩, rfl⟩
      have hmal : (recordNode t n b node).malicious = b.malicious ++ [node.pid] := by rw [hstep]
      constructor
      · rintro ⟨added, heq, hfunded, hD⟩
        obtain ⟨rest, hrest, -, -⟩ := scan_appends (t := t) (n := n) l (recordNode t n b node)
        rw [heq, hmal, append_assoc, append_cancel_left_eq] at hrest
        rw [hrest] at heq hfunded hD
        obtain ⟨hrange, hcap'⟩ := hleft hfunded.1
        have hlt := hfunded.1
        refine ⟨fun _ => ⟨by omega, hD _ (by simp)⟩, (ih hrange).mp ⟨rest, ?_, ?_, ?_⟩⟩
        · rw [heq, hmal, append_assoc]
        · rw [hcap']
          exact hfunded.2
        · exact fun pid hpid => hD pid (by simp [hpid])
      rintro ⟨hgood, hrest⟩
      obtain ⟨hnonneg, hDnode⟩ := hgood hadm
      have hlt : getOccupySpace t node.pid < b.memoryCap := by
        have huint := toUint_eq hcap hnonneg
        have hspace := hadm.2
        omega
      obtain ⟨hrange, hcap'⟩ := hleft hlt
      obtain ⟨added, heq, hfunded, hD⟩ := (ih hrange).mpr hrest
      refine ⟨node.pid :: added, ?_, ⟨hlt, hcap' ▸ hfunded⟩, forall_mem_cons.mpr ⟨hDnode, hD⟩⟩
      rw [heq, hmal, append_assoc]
      rfl
    · rw [recordNode_rejected hadm, ih hcap]
      exact ⟨fun h => ⟨fun hc => absurd hc hadm, h⟩, fun h => h.2⟩

/-- A node of the process was judged dangerous. -/
def Dangerous (s : State) (pid : Nat) : Prop :=
  ∃ node ∈ nodesOf s, node.pid = pid
    ∧ detectProcessIdealWearLeveling s.processCount node.totalCount = true

instance (s : State) (pid : Nat) : Decidable (Dangerous s pid) :=
  inferInstanceAs (Decidable (∃ node ∈ nodesOf s, _))

/-- The pids that a call added: each once, each dangerous, each with the
memory it needs left. -/
def OnlyDangerous (t : SpaceTable) (s : State) (b b' : Budget) : Prop :=
  ∃ added, b'.malicious = b.malicious ++ added ∧ added.Nodup ∧ Funded t b.memoryCap added
    ∧ ∀ pid ∈ added, Dangerous s pid

/-- Only dangerous processes are marked exactly if every other one of the
table needs at least what the dangerous ones in front of it leave of
`memoryCap`. -/
theorem record_only_dangerous_iff (t : SpaceTable) (s : State) (b : Budget)
    (hcap : InRange b.memoryCap) :
    OnlyDangerous t s b (recordMaliceProcess t s b).2 ↔ Guarded t (Dangerous s) b (nodesOf s) := by
  rw [← scan_iff (nodesOf s) hcap]
  constructor
  · rintro ⟨added, heq, -, hfunded, hD⟩
    exact ⟨added, heq, hfunded, hD⟩
  rintro ⟨added, heq, hfunded, hD⟩
  obtain ⟨added', heq', hnd, -⟩ := scan_appends (t := t) (n := s.processCount) (nodesOf s) b
  rw [heq, append_cancel_left_eq] at heq'
  exact ⟨added, heq, heq' ▸ hnd, hfunded, hD⟩

/-- A table of one process. -/
def oneProcess (totalCount : Nat) : State :=
  { init with
    processCount := 1
    table := Function.update init.table (pidKey 5) [⟨5, totalCount, 1, fun _ => ⟨[], 0⟩, 1, 1⟩] }

/-- An attack, and behind it a process that has written once. -/
def twoProcesses : State :=
  { init with
    processCount := 2
    table := Function.update (oneProcess 1000000).table (pidKey 6)
      [⟨6, 1, 1, fun _ => ⟨[], 0⟩, 1, 1⟩] }

/-- Of 256 megabytes the attacker occupies 255, and the other one the rest. -/
def twoSizes : SpaceTable := recordSizes initSpaceTable [(5, 255 * byteToM), (6, byteToM)]

/-- The attacker alone is marked. -/
theorem record_only_dangerous_iff_attack :
    OnlyDangerous twoSizes twoProcesses ⟨[], 256⟩
        (recordMaliceProcess twoSizes twoProcesses ⟨[], 256⟩).2 ∧
      (recordMaliceProcess twoSizes twoProcesses ⟨[], 256⟩).2 = ⟨[5], 1⟩ := by
  refine ⟨(record_only_dangerous_iff twoSizes twoProcesses ⟨[], 256⟩
    (by unfold InRange; decide)).mpr ⟨by decide, ?_⟩, by decide +kernel⟩
  intro pre node post hl _ hD
  rcases pre with _ | ⟨x, _ | ⟨y, pre⟩⟩
  · rw [← (cons.inj hl).1] at hD
    exact absurd (by decide) hD
  · rw [← (cons.inj hl).1, ← (cons.inj (cons.inj hl).2).1]
    decide
  · cases pre <;> cases (cons.inj (cons.inj hl).2).2

/-- One write in the window is enough. -/
theorem record_harmless : ¬ ∀ t s b, InRange b.memoryCap →
    OnlyDangerous t s b (recordMaliceProcess t s b).2 := by
  intro h
  obtain ⟨added, heq, -, -, hD⟩ :=
    h initSpaceTable (oneProcess 1) ⟨[], 256⟩ (by unfold InRange; decide)
  have hmarked : (recordMaliceProcess initSpaceTable (oneProcess 1) ⟨[], 256⟩).2.malicious = [5] := by
    decide
  rw [hmarked, nil_append] at heq
  obtain ⟨node, hnode, -, hjudged⟩ := hD 5 (by simp [← heq])
  rw [mem_singleton.mp hnode] at hjudged
  exact absurd hjudged (by decide)

end Themis.Malice
