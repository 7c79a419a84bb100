/-
The wear counters (writecount.c, nova.h, average.c) and the decision to
migrate a page (wearleveling.c).

# Counters

Every write of a block goes through one of two functions, which count it
in three ways: per block, per block with the writes of malicious processes
at a discount (`global_blk_write_count`), and over the whole device
(`count_hand` and `count_average`). Whether the calling process is on the
list of malicious ones comes with each call.

# The decision

`should_migrate` has two guards that end in a semicolon, so that the block
behind each of them always runs.

# Left out

The locks: the calls of a run follow one another. `write_traffic` and the
detection that `write_count_increase` goes on to are in `Themis.Detect`;
neither reads or changes these counters. The counters are 64 bits wide and
do not overflow here.
-/
import Themis.Detect

namespace Themis.WearLeveling

open Detect

/-- `WB_THRESHOLD`. -/
def WB_THRESHOLD : Nat := 5

/-- `DEVIATION_HIGH`. -/
def DEVIATION_HIGH : Nat := 400

/-- `DEVIATION_LOW`. -/
def DEVIATION_LOW : Nat := 200

/-- `BlkWriteCount`. -/
structure BlkWriteCount where
  writeCount : Nat
  writeBackThreshold : Nat
  deriving Repr, DecidableEq

/-- The globals of the three files. -/
structure State where
  blockWriteCount : Nat → Nat
  globalBlkWriteCount : Nat → BlkWriteCount
  globalMaxUpdate : Nat
  countHand : Nat
  countAverage : Nat
  exceedAverage : Nat
  maxDeviation : Nat

/-- After `init_block_write_count`. -/
def init : State where
  blockWriteCount := fun _ => 0
  globalBlkWriteCount := fun _ => ⟨0, 0⟩
  globalMaxUpdate := 0
  countHand := 0
  countAverage := 0
  exceedAverage := 0
  maxDeviation := 400

-- === counters

/-- A write in `global_blk_write_count`. -/
def countBlk (malicious : Bool) (c : BlkWriteCount) : BlkWriteCount :=
  if malicious then
    let c := if c.writeBackThreshold ≥ WB_THRESHOLD then ⟨c.writeCount + 1, 0⟩ else c
    { c with writeBackThreshold := c.writeBackThreshold + 1 }
  else { c with writeCount := c.writeCount + 1 }

/-- What both functions do under the lock. -/
def countWrite (s : State) (blockNum : Nat) (malicious : Bool) : State :=
  let count := s.blockWriteCount blockNum + 1
  { s with
    globalBlkWriteCount := Function.update s.globalBlkWriteCount blockNum
      (countBlk malicious (s.globalBlkWriteCount blockNum))
    blockWriteCount := Function.update s.blockWriteCount blockNum count
    globalMaxUpdate := if s.globalMaxUpdate < count then count else s.globalMaxUpdate }

/-- And behind it. -/
def advanceHand (s : State) : State :=
  if s.countHand + 1 ≥ BLOCKS_MAX then
    { s with countAverage := s.countAverage + 1, countHand := 0 }
  else { s with countHand := s.countHand + 1 }

/-- `write_count_increase`. -/
def writeCountIncrease (s : State) (blockNum : Nat) (malicious : Bool) : State :=
  if blockNum ≥ BLOCKS_MAX then s else advanceHand (countWrite s blockNum malicious)

/-- The block that `inode_page_count_increase_by_vir` counts. -/
def blockOfVir (novaBaseAddress viraddr : Nat) : Nat :=
  subUlong viraddr novaBaseAddress / 4096

/-- `inode_page_count_increase_by_vir`. -/
def inodePageCountIncreaseByVir (novaBaseAddress : Nat) (s : State) (viraddr : Nat)
    (malicious : Bool) : State :=
  let blockNum := blockOfVir novaBaseAddress viraddr
  if blockNum ≥ BLOCKS_MAX then s else advanceHand (countWrite s blockNum malicious)

/-- A call of one of the two. -/
inductive Update where
  | block (blockNum : Nat) (malicious : Bool)
  | vir (viraddr : Nat) (malicious : Bool)
  deriving Repr, DecidableEq

/-- One update. -/
def Update.run (novaBaseAddress : Nat) (s : State) : Update → State
  | .block blockNum malicious => writeCountIncrease s blockNum malicious
  | .vir viraddr malicious => inodePageCountIncreaseByVir novaBaseAddress s viraddr malicious

/-- The block that a call is on. -/
def Update.blockNum (novaBaseAddress : Nat) : Update → Nat
  | .block blockNum _ => blockNum
  | .vir viraddr _ => blockOfVir novaBaseAddress viraddr

/-- Whether the writer is malicious. -/
def Update.malicious : Update → Bool
  | .block _ malicious => malicious
  | .vir _ malicious => malicious

-- === migration

/-- `should_migrate`, with the state it leaves. -/
def shouldMigrate (s : State) (blockNum : Nat) : Bool × State :=
  let writeCount := (s.globalBlkWriteCount blockNum).writeCount
  if writeCount < s.maxDeviation then (false, { s with exceedAverage := 0 })
  else
    let s := { s with exceedAverage := s.exceedAverage + 1 }
    let average := s.countAverage
    -- `if(atomic64_read(&exceed_average) >= 3);`
    let s := { s with exceedAverage := 0 }
    let s :=
      if subUlong s.maxDeviation average < DEVIATION_HIGH / 2 then
        { s with maxDeviation := s.maxDeviation + DEVIATION_HIGH }
      else s
    -- `if(write_count > average + DEVIATION_LOW);`
    (true, s)

/-- A step of a run. -/
inductive Op where
  | update (u : Update)
  | migrate (blockNum : Nat)
  deriving Repr, DecidableEq

/-- The block's count has reached the threshold. -/
def Over (s : State) (blockNum : Nat) : Prop :=
  s.maxDeviation ≤ (s.globalBlkWriteCount blockNum).writeCount

instance (s : State) (blockNum : Nat) : Decidable (Over s blockNum) :=
  inferInstanceAs (Decidable (_ ≤ _))

/-- A step, with the number of calls of `should_migrate` over the threshold
since the last one that was not. -/
def Op.run (novaBaseAddress : Nat) (r : State × Nat) : Op → State × Nat
  | .update u => (u.run novaBaseAddress r.1, r.2)
  | .migrate blockNum =>
    ((shouldMigrate r.1 blockNum).2, if Over r.1 blockNum then r.2 + 1 else 0)

/-- A run from the start. -/
def runOps (novaBaseAddress : Nat) (ops : List Op) : State × Nat :=
  ops.foldl (Op.run novaBaseAddress) (init, 0)

-- === square root

/-- The locals of `get_sqrt`. -/
structure Sqrt where
  op : Nat
  res : Nat
  one : Nat
  deriving Repr, DecidableEq

/-- The first loop. -/
def Sqrt.shift (s : Sqrt) : Sqrt :=
  if s.one > s.op then shift { s with one := s.one >>> 2 } else s
termination_by s.one
decreasing_by
  rw [Nat.shiftRight_eq_div_pow]
  exact Nat.div_lt_self (by omega) (by decide)

/-- The body of the second. -/
def Sqrt.step (s : Sqrt) : Sqrt :=
  let s :=
    if s.op ≥ (s.res + s.one) % 2 ^ 64 then
      { s with
        op := subUlong s.op ((s.res + s.one) % 2 ^ 64)
        res := (s.res + 2 * s.one % 2 ^ 64) % 2 ^ 64 }
    else s
  { s with res := s.res / 2, one := s.one / 4 }

/-- A step takes the next digit. -/
theorem Sqrt.step_one (s : Sqrt) : s.step.one = s.one / 4 := by
  unfold step
  dsimp only
  split <;> rfl

/-- The second loop. -/
def Sqrt.digits (s : Sqrt) : Sqrt :=
  if s.one ≠ 0 then digits s.step else s
termination_by s.one
decreasing_by
  rw [step_one]
  exact Nat.div_lt_self (by omega) (by decide)

/-- The locals before the second loop. -/
def sqrtStart (number : Nat) : Sqrt :=
  Sqrt.shift { op := number, res := 0, one := 1 <<< 62 }

/-- `get_sqrt`. -/
def getSqrt (number : Nat) : Nat := (sqrtStart number).digits.res

end Themis.WearLeveling
