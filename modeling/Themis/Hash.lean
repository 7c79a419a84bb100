/-
The per-process table with its counts (hash.c).

`Themis.Detect` has the table without `node_count`. Here it is a field of
its own, and `insert_detect_hash_node` trusts it: it decides whether a chain
is empty, and how many links to follow to the last node. `none` is an access
through a NULL pointer. Memory is there, and `max_page_writecount`, which
copies the wear of the device, is left out.
-/
import Themis.Detect

namespace Themis.Hash

open Detect (DetectNode MAX_KEY MAX_DETECT_KEY detectKey pidKey)

/-- `Detecthashtable`: one chain. -/
structure DetectTable where
  nodes : List DetectNode
  nodeCount : Nat
  maxUpdate : Nat
  deriving Repr, DecidableEq

/-- `Hashnode`. -/
structure Node where
  pid : Nat
  totalCount : Nat
  maxCount : Nat
  pageCount : Nat
  detectTable : Fin MAX_DETECT_KEY → DetectTable

/-- `Table_header`. -/
abbrev Table := Fin MAX_KEY → List Node

/-- `init_hash_table`. -/
def initHashTable : Table := fun _ => []

/-- From `curr` over `i` links to the last node: the chain afterwards, and
the new count of the block if it has a node. -/
def walk (blockNum : Nat) : Nat → List DetectNode → Option (List DetectNode × Option Nat)
  | _, [] => none
  | 0, curr :: next =>
    if curr.blockNum = blockNum then
      some ({ curr with writeCount := curr.writeCount + 1 } :: next, some (curr.writeCount + 1))
    else some ([curr, ⟨blockNum, 1⟩], none)
  | i + 1, curr :: next =>
    if curr.blockNum = blockNum then
      some ({ curr with writeCount := curr.writeCount + 1 } :: next, some (curr.writeCount + 1))
    else (walk blockNum i next).map fun r => (curr :: r.1, r.2)

/-- `insert_detect_hash_node`. -/
def insertDetectHashNode (node : Node) (blockNum : Nat) : Option Node :=
  let key := detectKey blockNum
  let chain := node.detectTable key
  if chain.nodeCount = 0 then
    some { node with
      detectTable := Function.update node.detectTable key ⟨[⟨blockNum, 1⟩], 1, 1⟩
      pageCount := node.pageCount + 1 }
  else
    (walk blockNum (chain.nodeCount - 1) chain.nodes).map fun r =>
      match r.2 with
      | some count =>
        { node with
          detectTable := Function.update node.detectTable key
            { chain with
              nodes := r.1
              maxUpdate := if count > chain.maxUpdate then count else chain.maxUpdate }
          maxCount := if count > node.maxCount then count else node.maxCount }
      | none =>
        { node with
          detectTable := Function.update node.detectTable key
            { chain with nodes := r.1, nodeCount := chain.nodeCount + 1 }
          pageCount := node.pageCount + 1 }

/-- The node of `insert_into_hash_table`, with the table of
`init_detect_hash_table`. -/
def insertIntoHashTable (pid blockNum : Nat) : Option Node :=
  insertDetectHashNode ⟨pid, 1, 1, 0, fun _ => ⟨[], 0, 0⟩⟩ blockNum

/-- `update_hash_table` behind the header of the chain; a new node goes to
its end. -/
def updateChain (pid blockNum : Nat) : List Node → Option (List Node)
  | [] => (insertIntoHashTable pid blockNum).map ([·])
  | node :: next =>
    if node.pid = pid then
      (insertDetectHashNode { node with totalCount := node.totalCount + 1 } blockNum).map (· :: next)
    else (updateChain pid blockNum next).map (node :: ·)

/-- `update_hash_table`. -/
def updateHashTable (t : Table) (pid blockNum : Nat) : Option Table :=
  (updateChain pid blockNum (t (pidKey pid))).map (Function.update t (pidKey pid))

/-- A sequence of calls, each with pid and block. -/
def updates (t : Table) (calls : List (Nat × Nat)) : Option Table :=
  calls.foldlM (fun t c => updateHashTable t c.1 c.2) t

end Themis.Hash
