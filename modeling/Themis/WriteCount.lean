/-
Write counts (writecount.c) and the places in dax.c and inode.c that
increase them while a file is written.

# The hooks

A `Wear` is one write of a block on the way of `nova_cow_file_write`: an
extent of data, a log entry that `nova_append_file_write_entry` stores, or
one that `nova_inode_log_thorough_gc` copies. `Wear.hook` has the blocks
whose counts the code then increases.

`extentWear` follows the loop of `File.extentLoop`. The copies that an
append makes are read off the trace: inside `nova_get_append_head` only the
collector stores entries past the cache.

# Left out

The counts per process group (`global_blk_write_count`), the averages, and
the detection that `write_count_increase` goes on to
(`Themis.Detect`).
-/
import Themis.File
import Themis.Detect

namespace Themis.WriteCount

open Lib Log File Detect

variable {al : BlockAllocator}

/-- A write of data or of a log entry. -/
inductive Wear where
  | extent (blocknr allocated : Nat)
  | append (currP : Nat)
  | copy (newCurr length : Nat)
  deriving Repr, DecidableEq

/-- An `unsigned long` through an `int` and back. -/
def throughInt (n : Nat) : Nat :=
  if n % 2 ^ 32 < 2 ^ 31 then n % 2 ^ 32 else n % 2 ^ 32 + (2 ^ 64 - 2 ^ 32)

/-- The blocks that the write-count hook at each place passes on. -/
def Wear.hook : Wear → List Nat
  | .extent blocknr allocated =>
    (List.range allocated).map fun i => throughInt (blocknr + i - 1)
  | .append currP => [currP / PAGE_SIZE]
  | .copy newCurr length =>
    (List.range (length / 4096)).map fun i => newCurr / PAGE_SIZE + i

/-- `write_count_increase`, of the array `block_write_count`. -/
def writeCountIncrease (counts : Nat → Nat) (blockNum : Nat) : Nat → Nat :=
  if blockNum ≥ BLOCKS_MAX then counts
  else Function.update counts blockNum (counts blockNum + 1)

/-- The increments of `block_write_count` that the hooks make. -/
def increments (ws : List Wear) : Nat → Nat :=
  (ws.flatMap Wear.hook).foldl writeCountIncrease fun _ => 0

/-- The entries copied between two states of an append. -/
def copies (st st' : State al) : List Wear :=
  (st'.trace.drop st.trace.length).filterMap fun
    | .ntStore (.slot p e _) => some (.copy p e.size)
    | _ => none

/-- The writes of the extent loop of `nova_cow_file_write`. -/
def extentWear (ino : Nat) (w : WriteReq) : Nat → State al → WriteVars → List Wear
  | 0, _, _ => []
  | rounds + 1, st, v =>
    if v.numBlocks = 0 then []
    else
      match novaNewDataBlocks st v.numBlocks with
      | (none, _) => []
      | (some (blocknr, allocated), st) =>
        let bytes := min (PAGE_SIZE * allocated - v.pos % PAGE_SIZE) v.count
        let e := extentEntry st ino w v blocknr allocated bytes
        let st := fillExtent st ino w v blocknr bytes
        .extent blocknr allocated ::
          match novaGetAppendHead st ino v.tempTail 40 with
          | none => []
          | some (currP, st₁) =>
            copies st st₁ ++
              if currP = 0 then []
              else
                .append currP ::
                  extentWear ino w rounds (st₁.ntStore (.slot currP (.fileWrite e) 0))
                    { pos := v.pos + bytes
                      written := v.written + bytes
                      count := v.count - bytes
                      numBlocks := v.numBlocks - allocated
                      tempTail := currP + 40
                      beginTail := if v.beginTail = 0 then currP else v.beginTail }

/-- The writes of `nova_cow_file_write`. -/
def writeWear (st : State al) (ino : Nat) (w : WriteReq) : List Wear :=
  if w.len = 0 then []
  else if w.mapped then []
  else if w.accessOk then []
  else if w.removePrivs ≠ 0 then []
  else
    let pos := if w.append then (st.info ino).iSize else w.pos
    let st := touch st ino w.time
    let numBlocks := (w.len + pos % PAGE_SIZE - 1) / PAGE_SIZE + 1
    extentWear ino w numBlocks st
      { pos := pos
        written := 0
        count := w.len
        numBlocks := numBlocks
        tempTail := st.nv.logTail ino
        beginTail := 0 }

/-- The writes of a run of calls of `nova_cow_file_write`, each for a file;
a fault ends the run. -/
def runWear : State al → List (Nat × WriteReq) → List Wear
  | _, [] => []
  | st, (ino, w) :: calls =>
    writeWear st ino w ++
      match novaCowFileWrite st ino w with
      | none => []
      | some (_, st') => runWear st' calls

end Themis.WriteCount
