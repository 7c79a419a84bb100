/-
The choice of malicious processes (detect.c, record.c): by the budget alone
(`record_malice_process`), or as a knapsack (`knapSack`).

# State

The suspects and the malicious pids are lists in the order of their links;
`prev` is the way back. `none` is an access past the end of the table `V`,
which has `sizeV` rows and columns.

# Numbers

`memoryCap`, the weights, `V` and `j` are `int`; what `get_occupySpace`
returns is `unsigned int`, a value `unsigned long`. Where these meet, the
conversion is written out. A sum of `int` alone does not wrap here.

# Left out

`pageCount` of a suspect, which nobody reads, the output, and the locks.
-/
import Themis.Detect
import Themis.OccupySpace

namespace Themis.Malice

open Detect OccupySpace Function

/-- `sizeV`. -/
def sizeV : Nat := 2100

/-- `SuspectProcess`. -/
structure Suspect where
  pid : Nat
  averageCount : Nat
  deviation : Nat
  deriving Repr, DecidableEq

/-- The malicious list and what is left of the memory. -/
structure Budget where
  malicious : List Nat
  memoryCap : Int
  deriving Repr, DecidableEq

/-- `insert_into_malicious_process`. -/
def insertIntoMaliciousProcess (malicious : List Nat) (pid : Nat) : List Nat :=
  malicious ++ [pid]

/-- `is_in_malicious_process_list`. -/
def isInMaliciousProcessList (malicious : List Nat) (pid : Nat) : Bool := malicious.contains pid

-- === the table

/-- `weight` of a pid. -/
def weight (t : SpaceTable) (pid : Nat) : Int := toInt (getOccupySpace t pid)

/-- `value` of a suspect. -/
def value (s : Suspect) : Nat := s.averageCount * s.deviation % 2 ^ 64

/-- `V`. -/
abbrev Table := Nat → Nat → Int

/-- After `zeroV`. -/
def zeroV : Table := fun _ _ => 0

/-- `V[i][j]`. -/
def readV (V : Table) (i : Nat) (j : Int) : Option Int :=
  if i < sizeV ∧ 0 ≤ j ∧ j < sizeV then some (V i j.toNat) else none

/-- `maxValue`. -/
def maxValue (a b : Int) : Int := if a > b then a else b

/-- `V[i][j]` as the loop over `j` sets it; the sum with `value` is unsigned
and becomes an `int` again. -/
def cell (V : Table) (i : Nat) (w : Int) (v j : Nat) : Option Int := do
  let above ← readV V (i - 1) j
  if j < w then some above
  else
    let left ← readV V (i - 1) (j - w)
    some (maxValue above (toInt (toUlong left + v)))

/-- The loop over `j`, up to a capacity. -/
def fillRow (V : Table) (i : Nat) (w : Int) (v : Nat) : Nat → Option Table
  | 0 => some V
  | j + 1 => do
    let V ← fillRow V i w v j
    let x ← cell V i w v (j + 1)
    some (update V i (update (V i) (j + 1) x))

/-- The loop over the suspects, from row `i`. -/
def fillRows (t : SpaceTable) (capacity : Nat) (V : Table) (i : Nat) :
    List Suspect → Option Table
  | [] => some V
  | curr :: next => do
    let V ← fillRow V i (weight t curr.pid) (value curr) capacity
    fillRows t capacity V (i + 1) next

/-- The way back from `curr`, the rest of the list being `prev`; with the
last `j`. -/
def traceBack (t : SpaceTable) (V : Table) : List Suspect → Int → Budget → Option (Int × Budget)
  | [], j, b => some (j, b)
  | curr :: prev, j, b => do
    let here ← readV V (prev.length + 1) j
    let above ← readV V prev.length j
    if here > above then
      if isInMaliciousProcessList b.malicious curr.pid then traceBack t V prev j b
      else
        let j := j - weight t curr.pid
        if j < 0 then some (j, b)
        else
          traceBack t V prev j
            { malicious := insertIntoMaliciousProcess b.malicious curr.pid
              memoryCap := b.memoryCap - weight t curr.pid }
    else traceBack t V prev j b

/-- What `knapSack` returns and leaves. -/
structure Knapsack where
  result : Int
  j : Int
  budget : Budget
  deriving Repr, DecidableEq

/-- `knapSack`, on the suspects and a zeroed table. -/
def knapSack (t : SpaceTable) (suspects : List Suspect) (b : Budget) (capacity : Nat) :
    Option Knapsack :=
  if suspects = [] then some { result := -1, j := capacity, budget := b }
  else do
    let V ← fillRows t capacity zeroV 1 suspects
    let (j, b) ← traceBack t V suspects.reverse capacity b
    let result ← readV V suspects.length capacity
    some { result := result, j := j, budget := b }

-- === by the budget

/-- `life_caculate_ideal_leveling`. -/
def lifeCaculateIdealLeveling (totalTimes : Nat) : Nat :=
  if totalTimes ≥ 1 then BLOCKS_MAX * MAX_ENDURANCE % 2 ^ 64 / totalTimes else 0

/-- `detect_process_ideal_wear_leveling`. -/
def detectProcessIdealWearLeveling (processCount totalTimes : Nat) : Bool :=
  if totalTimes < 1 then false
  else
    let globalActual := lifeCaculateIdealLeveling totalTimes
    if globalActual = 0 then false
    else if processCount > 0 then globalActual < EXPECT_L_S * processCount % 2 ^ 64
    else globalActual < EXPECT_L_S

/-- An `int` as an `unsigned int`. -/
def toUint (x : Int) : Nat := (x % 2 ^ 32).toNat

/-- The body of the loop of `record_malice_process`. -/
def recordNode (t : SpaceTable) (processCount : Nat) (b : Budget) (node : Node) : Budget :=
  -- the verdict, which nothing reads
  let _isOrNoMalicious := detectProcessIdealWearLeveling processCount node.totalCount
  let isInMalicious := isInMaliciousProcessList b.malicious node.pid
  let occupyspace := getOccupySpace t node.pid
  if !isInMalicious then
    if toUint b.memoryCap > occupyspace then
      { malicious := insertIntoMaliciousProcess b.malicious node.pid
        memoryCap := toInt (toUint (b.memoryCap - occupyspace)) }
    else b
  else b

/-- The nodes in the order of the scan. -/
def nodesOf (s : State) : List Node := (List.finRange MAX_KEY).flatMap s.table

/-- `record_malice_process`, which frees the nodes at the end. -/
def recordMaliceProcess (t : SpaceTable) (s : State) (b : Budget) : State × Budget :=
  ({ s with table := fun _ => [] }, (nodesOf s).foldl (recordNode t s.processCount) b)

end Themis.Malice
