/-
`nova_delete_file_tree` (inode.c) as the allocator sees it: which calls of
`nova_free_data_blocks` it makes, and what it returns.

`Themis.File` has the same function with the calls carried out and counts
that are numbers. Here they have the types of the source: the pending run
is counted in an `unsigned long`, the number freed is an `int`, and
`nova_free_data_blocks` takes an `int`. There are no mmap pages.
-/
import Themis.File

namespace Themis.Deletion

open Lib Log File

variable {al : BlockAllocator}

/-- A sum of two `int`. -/
def addInt (x y : Int) : Int := (x + y).bmod (2 ^ 32)

/-- The variables of `nova_delete_file_tree`, and the calls so far: the
first block and the number. -/
structure Vars where
  freeBlocknr : Nat
  numFree : Nat
  freed : Int
  calls : List (Nat × Int)
  deriving Repr, DecidableEq

/-- The blocks that a call hands to the allocator: none for block 0 or a
number that is not positive (`-EINVAL`). -/
def handed (c : Nat × Int) : List Nat :=
  if c.1 = 0 ∨ c.2 ≤ 0 then [] else List.range' c.1 c.2.toNat

/-- A run of blocks in `nova_free_contiguous_data_blocks`: begun, prolonged
or given back for a new one. -/
def Vars.take (v : Vars) (nvmm numPages : Nat) : Vars :=
  if v.freeBlocknr = 0 then { v with freeBlocknr := nvmm, numFree := numPages }
  else if nvmm = v.freeBlocknr + v.numFree then { v with numFree := v.numFree + numPages }
  else
    { freeBlocknr := nvmm
      numFree := numPages
      freed := addInt v.freed (intOfUlong v.numFree)
      calls := v.calls ++ [(v.freeBlocknr, intOfUlong v.numFree)] }

/-- `nova_free_contiguous_data_blocks`. -/
def novaFreeContiguousDataBlocks (st : State al) (a pgoff numPages : Nat) (v : Vars) :
    State al × Vars :=
  if (entryAt st.nv a).numPages < st.nv.invalid a + numPages then (st, v)
  else
    let st := st.store (.invalidPages a (st.nv.invalid a + numPages))
    (st, v.take (getNvmm st.nv a pgoff) numPages)

/-- The loop of `nova_delete_file_tree`; `none` if it does not end within
the rounds. -/
def deleteLoop (ino last : Nat) (deleteNvmm : Bool) :
    Nat → State al → Nat → Vars → Option (State al × Vars)
  | 0, _, _, _ => none
  | rounds + 1, st, pgoff, v =>
    if pgoff ≤ last then
      match novaGetWriteEntry st ino pgoff with
      | some a =>
        let st := setTree st ino ((st.info ino).tree.delete pgoff)
        let r := if deleteNvmm then novaFreeContiguousDataBlocks st a pgoff 1 v
          else (st, v)
        deleteLoop ino last deleteNvmm rounds r.1 (pgoff + 1) r.2
      | none =>
        match (st.info ino).tree.gangLookup pgoff with
        | none => some (st, v)
        | some a =>
          deleteLoop ino last deleteNvmm rounds st
            (max (pgoff + 1) (entryAt st.nv a).pgoff) v
    else some (st, v)

/-- `nova_delete_file_tree`: the state, the calls and the value
returned. -/
def novaDeleteFileTree (st : State al) (ino start last : Nat) (deleteNvmm : Bool) :
    Option (State al × List (Nat × Int) × Int) :=
  (deleteLoop ino last deleteNvmm (last + 1 - start + 1) st start ⟨0, 0, 0, []⟩).map fun r =>
    if r.2.freeBlocknr ≠ 0 then
      (r.1, r.2.calls ++ [(r.2.freeBlocknr, intOfUlong r.2.numFree)],
        addInt r.2.freed (intOfUlong r.2.numFree))
    else (r.1, r.2.calls, r.2.freed)

end Themis.Deletion
