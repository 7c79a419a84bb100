/-
Recovery of the inode numbers in use after a failure (bbuild.c): the
threads of `failure_thread_func` go through the pages of the inode table,
collect runs of valid inodes of a page (`nova_failure_update_inodetree`)
and put them into the trees of the inode lists
(`nova_failure_insert_inodetree`).

An insertion holds the mutex of the tree it changes, and everything else a
thread reads is its own, so a run of the threads is a sequence of steps of
single threads, in any order. A page is the list of its slots: the number
of the inode if it is valid. What else a thread does with an inode (its
log pages, the bitmap) is left out. The slab does not fail
(`NOVA_ASSERT(new_node)`); `none` is a `BUG()`.
-/
import Themis.InodeList

namespace Themis.InodeRecovery

open Lib Balloc InodeList

/-- `nova_failure_insert_inodetree`. -/
def novaFailureInsertInodetree (rb : RbLib RangeNode.addr) (s : SbInfo)
    (inoLow inoHigh : Nat) : Option (Int × SbInfo) :=
  if inoLow > inoHigh then none
  else
    let cpu := inoLow % s.cpus
    if inoHigh % s.cpus ≠ cpu then none
    else
      let internalLow := inoLow / s.cpus
      let internalHigh := inoHigh / s.cpus
      let m := s.inodeMaps cpu
      let tree := m.inodeInuseTree
      match novaFindFreeSlot tree internalLow internalHigh with
      | none => some (-EINVAL, s)
      | some (prev, next) =>
        match prev.filter fun p => internalLow == p.rangeHigh + 1,
            next.filter fun n => internalHigh + 1 == n.rangeLow with
        | some p, some n =>
          -- fits the hole
          let tree := modifyNode p.addr (fun q => { q with rangeHigh := n.rangeHigh })
            (rb.erase n.addr tree)
          some (0, s.setMap cpu
            { m with inodeInuseTree := tree
                     numRangeNodeInode := m.numRangeNodeInode - 1 })
        | some p, none =>
          -- aligns left
          let tree := modifyNode p.addr
            (fun q => { q with rangeHigh := q.rangeHigh + (internalHigh - internalLow + 1) })
            tree
          some (0, s.setMap cpu { m with inodeInuseTree := tree })
        | none, some n =>
          -- aligns right
          let tree := modifyNode n.addr
            (fun q => { q with rangeLow := q.rangeLow - (internalHigh - internalLow + 1) })
            tree
          some (0, s.setMap cpu { m with inodeInuseTree := tree })
        | none, none =>
          -- aligns somewhere in the middle
          let node := s.nextNode
          let s := { s with nextNode := s.nextNode + 1 }
          match novaInsertInodetree rb tree ⟨node, internalLow, internalHigh⟩ with
          | none => some (-EINVAL, s)
          | some tree =>
            some (0, s.setMap cpu
              { m with inodeInuseTree := tree
                       numRangeNodeInode := m.numRangeNodeInode + 1 })

/-- A thread: the slots of the page that are left, the pages of the ring
behind it, and the run collected so far (0 for none). -/
structure Thread where
  slots : List (Option Nat)
  pages : List (List (Option Nat))
  inoLow : Nat
  inoHigh : Nat

/-- A thread at the start of its ring. -/
def Thread.start (ring : List (List (Option Nat))) : Thread := ⟨[], ring, 0, 0⟩

/-- All pages are done. -/
def Thread.finished (t : Thread) : Prop := t.slots = [] ∧ t.pages = [] ∧ t.inoLow = 0

/-- `nova_failure_update_inodetree` for a valid inode, with what the
insertion returned, if there was one. -/
def novaFailureUpdateInodetree (rb : RbLib RangeNode.addr) (s : SbInfo) (ino : Nat)
    (t : Thread) : Option (SbInfo × Thread × List Int) :=
  if t.inoLow = 0 then some (s, { t with inoLow := ino, inoHigh := ino }, [])
  else if ino = t.inoHigh + s.cpus then some (s, { t with inoHigh := ino }, [])
  else
    -- a new start
    (novaFailureInsertInodetree rb s t.inoLow t.inoHigh).map fun r =>
      (r.2, { t with inoLow := ino, inoHigh := ino }, [r.1])

/-- The next step of `failure_thread_func`: a slot, or the end of a page
and the start of the next one. A finished thread stays as it is. -/
def Thread.step (rb : RbLib RangeNode.addr) (s : SbInfo) (t : Thread) :
    Option (SbInfo × Thread × List Int) :=
  match t.slots with
  | some ino :: slots => novaFailureUpdateInodetree rb s ino { t with slots := slots }
  | none :: slots => some (s, { t with slots := slots }, [])
  | [] =>
    if t.inoLow ≠ 0 ∧ t.inoHigh ≠ 0 then
      (novaFailureInsertInodetree rb s t.inoLow t.inoHigh).map fun r =>
        (r.2, { t with inoLow := 0, inoHigh := 0 }, [r.1])
    else
      match t.pages with
      | [] => some (s, t, [])
      | page :: pages => some (s, ⟨page, pages, 0, 0⟩, [])

/-- The inode lists, the threads, and what the insertions so far
returned. -/
structure Recovery where
  sb : SbInfo
  threads : List Thread
  rets : List Int

/-- Some thread takes a step. -/
inductive Step (rb : RbLib RangeNode.addr) : Recovery → Recovery → Prop
  | thread {s s' : SbInfo} {X Y : List Thread} {t t' : Thread} {rets new : List Int}
      (h : t.step rb s = some (s', t', new)) :
      Step rb ⟨s, X ++ t :: Y, rets⟩ ⟨s', X ++ t' :: Y, rets ++ new⟩

/-- The states the threads can come to. -/
inductive Reach (rb : RbLib RangeNode.addr) (r₀ : Recovery) : Recovery → Prop
  | start : Reach rb r₀ r₀
  | step {r r' : Recovery} (h : Reach rb r₀ r) (hs : Step rb r r') : Reach rb r₀ r'

end Themis.InodeRecovery
