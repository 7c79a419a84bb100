/-
The space that processes occupy (occupySpace.c): the file size of the last
copy-on-write write of each process, in ten chains.

A size comes in as the `loff_t` of the inode, is narrowed to `int` by the
parameter, widened to `unsigned long` in the node, and leaves in megabytes
as `unsigned int`.
-/
import Mathlib.Algebra.Ring.Int.Defs
import Mathlib.Algebra.Ring.Nat

namespace Themis.OccupySpace

/-- `spaceTableVolume`. -/
def spaceTableVolume : Nat := 10

/-- `byteToM`. -/
def byteToM : Nat := 1048576

/-- A node. -/
structure Space where
  pid : Nat
  size : Nat
  deriving Repr, DecidableEq

/-- `spaceTable`. -/
abbrev SpaceTable := Fin spaceTableVolume → List Space

/-- The bucket of a process. -/
def spaceKey (pid : Nat) : Fin spaceTableVolume := ⟨pid % spaceTableVolume, Nat.mod_lt _ (by decide)⟩

/-- `init_spaceTable`. -/
def initSpaceTable : SpaceTable := fun _ => []

/-- An unsigned number as an `int`. -/
def toInt (x : Nat) : Int :=
  if x % 2 ^ 32 < 2 ^ 31 then (x % 2 ^ 32 : Nat) else (x % 2 ^ 32 : Nat) - 2 ^ 32

/-- An `int` as an `unsigned long`. -/
def toUlong (x : Int) : Nat := (x % 2 ^ 64).toNat

/-- `insert_into_spaceTable` behind the header of the chain. -/
def insertSpace (pid : Nat) (size : Int) : List Space → List Space
  | [] => [⟨pid, toUlong size⟩]
  | [curr] =>
    if curr.pid = pid then [{ curr with size := toUlong size }]
    else [curr, ⟨pid, toUlong size⟩]
  | curr :: next :: rest =>
    if curr.pid = pid then { curr with size := toUlong size } :: next :: rest
    else curr :: insertSpace pid size (next :: rest)

/-- `insert_into_spaceTable`. -/
def insertIntoSpaceTable (t : SpaceTable) (pid : Nat) (size : Int) : SpaceTable :=
  Function.update t (spaceKey pid) (insertSpace pid size (t (spaceKey pid)))

/-- The node that `get_occupySpace` stops at. -/
def findSpace (t : SpaceTable) (pid : Nat) : Option Space :=
  (t (spaceKey pid)).find? fun curr => curr.pid = pid

/-- `get_occupySpace`. -/
def getOccupySpace (t : SpaceTable) (pid : Nat) : Nat :=
  match findSpace t pid with
  | some curr => curr.size / byteToM % 2 ^ 32
  | none => 0

/-- The calls of `nova_cow_file_write`, each with the pid and `i_size`. -/
def recordSizes (t : SpaceTable) (calls : List (Nat × Nat)) : SpaceTable :=
  calls.foldl (fun t c => insertIntoSpaceTable t c.1 (toInt c.2)) t

end Themis.OccupySpace
