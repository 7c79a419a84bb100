/-
The detection of malicious writers (detect.c, hash.c): once in a while the
write traffic of one second is counted, and when it is too high the writes
of the next second are counted per process in a hash table.

# State

The globals of the two files that `record_one_sec_write_info` reads or
changes. What it reads of other files (the clock, the random numbers, the
wear of the device, the age of the device) comes with each call, and so do
the answers of `kmalloc`.

# Left out

The mutexes: the calls of a run follow one another. `global_max_update`
and `last_global_max_update`, which are only copied. `node_count` is the
length of its list. `none` is an access through a NULL pointer.
-/
import Mathlib.Data.Fintype.BigOperators
import Themis.Basic

namespace Themis.Detect

/-- The values of `detect_mode`. -/
inductive Mode where
  | off
  | global
  | perPid
  deriving Repr, DecidableEq

/-- `MAX_KEY`: the chains of the process table. -/
def MAX_KEY : Nat := 10

/-- `MAX_DETECT_KEY`: the chains of a process's table of blocks. -/
def MAX_DETECT_KEY : Nat := 1000

/-- `TIME_INTERVAL`, in milliseconds. -/
def TIME_INTERVAL : Nat := 1000

/-- `SAMPLE_INTERVAL`. -/
def SAMPLE_INTERVAL : Nat := 1200

/-- `MAX_ENDURANCE`. -/
def MAX_ENDURANCE : Nat := 10000000

/-- `BLOCKS_MAX`: `SIXTEEN_G / BLOSK_SIZES`. -/
def BLOCKS_MAX : Nat := 17179869184 / 4096

/-- `EXPECT_L_S`: three years in seconds. -/
def EXPECT_L_S : Nat := 3 * 31536000

/-- `struct detect_hash_node`. -/
structure DetectNode where
  blockNum : Nat
  writeCount : Nat
  deriving Repr, DecidableEq

/-- `struct detect_hash_table`: one chain and its maximum. -/
structure DetectChain where
  nodes : List DetectNode
  maxUpdate : Nat
  deriving Repr, DecidableEq

/-- `struct hash_node`, the link left out. -/
structure Node where
  pid : Nat
  totalCount : Nat
  maxCount : Nat
  detectTable : Fin MAX_DETECT_KEY → DetectChain
  maxPageWritecount : Nat
  pageCount : Nat

/-- The globals. `table` is `Table_header`. -/
structure State where
  detectMode : Mode
  timeBase : Nat
  changeTimeBaseFlag : Bool
  writeTraffic : Nat
  processCount : Nat
  table : Fin MAX_KEY → List Node

/-- The globals after `init_hash_table`. -/
def init : State := ⟨.off, 0, true, 0, 0, fun _ => []⟩

/-- A call of `record_one_sec_write_info` and what it finds elsewhere:
two readings of `jiffies`, the random number, `count_average`,
`pm_use_time`, `block_write_count`, and whether the three `kmalloc` calls
(a process node, its table, a block node) succeed. -/
structure Write where
  pid : Nat
  blockNum : Nat
  jiffies : Nat
  jiffiesEnd : Nat
  randomNum : Nat
  countAverage : Nat
  pmUseTime : Nat
  blockWriteCount : Nat → Nat
  nodeOk : Bool
  tableOk : Bool
  detectNodeOk : Bool

/-- Subtraction of `unsigned long`. -/
def subUlong (a b : Nat) : Nat := (a + (2 ^ 64 - b % 2 ^ 64)) % 2 ^ 64

-- === modes

/-- `life_caculate_remaining_ideal_leveling`. -/
def lifeCaculateRemainingIdealLeveling (average totalTimes : Nat) : Nat :=
  if totalTimes ≥ 1 then
    BLOCKS_MAX * subUlong MAX_ENDURANCE average % 2 ^ 64 / totalTimes
  else 0

/-- `detect_global_remaining_ideal_wear_leveling`. -/
def detectGlobalRemainingIdealWearLeveling (average pmUseTime totalTimes : Nat) : Bool :=
  if totalTimes < 1 then false
  else
    let globalActual := lifeCaculateRemainingIdealLeveling average totalTimes
    if globalActual = 0 then false
    else globalActual < subUlong EXPECT_L_S pmUseTime

/-- `detect_mode_change`. -/
def detectModeChange (s : State) (w : Write) : State :=
  match s.detectMode with
  | .global =>
    if detectGlobalRemainingIdealWearLeveling w.countAverage w.pmUseTime s.writeTraffic then
      { s with detectMode := .perPid }
    else { s with writeTraffic := 0, detectMode := .off }
  | .perPid => { s with detectMode := .off, processCount := 0 }
  | .off =>
    { s with
      detectMode := if w.randomNum % SAMPLE_INTERVAL < 20 then .global else .off
      writeTraffic := 0 }

/-- The time base that `detect_prepare` measures from. -/
def baseOf (s : State) (w : Write) : Nat :=
  if s.changeTimeBaseFlag then w.jiffies else s.timeBase

/-- `detect_prepare`; `toMsecs` is `jiffies_to_msecs`. -/
def detectPrepare (toMsecs : Nat → Nat) (s : State) (w : Write) : State :=
  let timeBase := baseOf s w
  let s := { s with timeBase := timeBase, changeTimeBaseFlag := false }
  if toMsecs (subUlong w.jiffiesEnd timeBase) ≥ TIME_INTERVAL then
    { detectModeChange s w with changeTimeBaseFlag := true }
  else s

-- === hash table

/-- The chain of a block in a process's table. -/
def detectKey (blockNum : Nat) : Fin MAX_DETECT_KEY :=
  ⟨blockNum % MAX_DETECT_KEY, Nat.mod_lt _ (by decide)⟩

/-- The chain of a process. -/
def pidKey (pid : Nat) : Fin MAX_KEY := ⟨pid % MAX_KEY, Nat.mod_lt _ (by decide)⟩

/-- Count a write in a chain; the new count of the block if it has a
node. -/
def countBlock (blockNum : Nat) : List DetectNode → Option (Nat × List DetectNode)
  | [] => none
  | d :: rest =>
    if d.blockNum = blockNum then
      some (d.writeCount + 1, { d with writeCount := d.writeCount + 1 } :: rest)
    else (countBlock blockNum rest).map fun r => (r.1, d :: r.2)

/-- `insert_detect_hash_node`. -/
def insertDetectHashNode (node : Node) (w : Write) : Node :=
  let key := detectKey w.blockNum
  let chain := node.detectTable key
  match countBlock w.blockNum chain.nodes with
  | some (count, nodes) =>
    { node with
      detectTable := Function.update node.detectTable key
        ⟨nodes, if count > chain.maxUpdate then count else chain.maxUpdate⟩
      maxCount := if count > node.maxCount then count else node.maxCount
      maxPageWritecount :=
        if node.maxPageWritecount < w.blockWriteCount w.blockNum
          then w.blockWriteCount w.blockNum else node.maxPageWritecount }
  | none =>
    if w.detectNodeOk then
      { node with
        detectTable := Function.update node.detectTable key
          ⟨chain.nodes ++ [⟨w.blockNum, 1⟩],
            -- only the first node of a chain sets the maximum
            if chain.nodes = [] then 1 else chain.maxUpdate⟩
        pageCount := node.pageCount + 1 }
    else node

/-- The node that `insert_into_hash_table` prepares. -/
def newNode (w : Write) : Node :=
  insertDetectHashNode
    { pid := w.pid
      totalCount := 1
      maxCount := 1
      detectTable := fun _ => ⟨[], 0⟩
      maxPageWritecount := w.blockWriteCount w.blockNum
      pageCount := 0 } w

/-- `insert_into_hash_table`: the process is counted before its node is
allocated. -/
def insertIntoHashTable (s : State) (w : Write) : Option State :=
  let key := pidKey w.pid
  let s := { s with processCount := s.processCount + 1 }
  if w.nodeOk then
    -- `init_detect_hash_table` does not check its allocation
    if w.tableOk then
      some { s with table := Function.update s.table key (s.table key ++ [newNode w]) }
    else none
  else some s

/-- Count a write at the first node of its process, if there is one. -/
def countWrite (w : Write) : List Node → Option (List Node)
  | [] => none
  | node :: rest =>
    if node.pid = w.pid then
      some (insertDetectHashNode { node with totalCount := node.totalCount + 1 } w :: rest)
    else (countWrite w rest).map (node :: ·)

/-- `update_hash_table`. -/
def updateHashTable (s : State) (w : Write) : Option State :=
  let key := pidKey w.pid
  match countWrite w (s.table key) with
  | some nodes => some { s with table := Function.update s.table key nodes }
  | none => insertIntoHashTable s w

/-- `record_one_sec_write_info`. -/
def recordOneSecWriteInfo (toMsecs : Nat → Nat) (s : State) (w : Write) : Option State :=
  let s := detectPrepare toMsecs s w
  match s.detectMode with
  | .off => some s
  | .global => some { s with writeTraffic := s.writeTraffic + 1 }
  | .perPid => updateHashTable s w

end Themis.Detect
