/-
Directories: `dir.c`.

The log of a directory holds a record for every name that was added and
every name that was removed; the tree in DRAM maps the hash of a name to
the record that added it. Removing a name appends a record with inode
number 0 and marks the old record in place.

# What is left out

`i_blocks`, the write counters, and failure of `radix_tree_insert` for
want of memory. Of `timespec64_trunc` in `nova_append_dir_init_entries`,
which reads an uninitialised variable, only the result is here, as a
parameter.
-/
import Themis.File

namespace Themis.Dir

open Lib Log File

variable {al : BlockAllocator}

-- === the tree

/-- `nova_find_dentry`. -/
def novaFindDentry (st : State al) (dir : Nat) (name : List UInt8) : Option Nat :=
  (st.info dir).tree.get (bkdrHash name)

/-- The directory with another tree. -/
def setTree (st : State al) (dir : Nat) (t : Radix Nat) : State al :=
  st.setInfo dir { st.info dir with tree := t }

/-- `nova_insert_dir_radix_tree`. -/
def novaInsertDirRadixTree (st : State al) (dir : Nat) (name : List UInt8)
    (direntry : Nat) : Int × State al :=
  let hash := bkdrHash name
  match (st.info dir).tree.get hash with
  | some _ => (-EEXIST, st)
  | none => (0, setTree st dir ((st.info dir).tree.set hash direntry))

/-- `nova_check_dentry_match`; `strncmp` stops at a NUL byte. -/
def novaCheckDentryMatch (d : Dentry) (name : List UInt8) : Int :=
  if d.name.length ≠ name.length then -EINVAL
  else if d.name.takeWhile (· ≠ 0) = name.takeWhile (· ≠ 0) then 0
  else 1

/-- `nova_remove_dir_radix_tree`. The name leaves the tree before the
entry is checked. -/
def novaRemoveDirRadixTree (st : State al) (dir : Nat) (name : List UInt8)
    (replay : Bool) : Int × State al :=
  let hash := bkdrHash name
  let entry := (st.info dir).tree.get hash
  let st := setTree st dir ((st.info dir).tree.delete hash)
  if replay then (0, st)
  else
    match entry with
    | none => (-EINVAL, st)
    | some a =>
      match st.nv.slot a with
      | .dirLog d =>
        if d.ino = 0 ∨ st.nv.invalid a ≠ 0 ∨ novaCheckDentryMatch d name ≠ 0 then
          (-EINVAL, st)
        else
          -- not flushed
          (0, st.store (.invalidByte a 1))
      | _ => (-EINVAL, st)

-- === new records

/-- A name in a directory, as the callers give it: `nlink` is the link
count of the directory and `time` the current time. -/
structure NameReq where
  name : List UInt8
  nlink : Nat
  time : Nat
  deriving Repr, DecidableEq

/-- The link count of a record; `unsigned short`. -/
def linksCount (nlink : Nat) (linkChange : Int) : Nat :=
  if nlink % 2 ^ 16 = 0 ∧ linkChange = -1 then 0
  else (((nlink : Int) + linkChange) % 2 ^ 16).toNat

/-- `nova_append_dir_inode_entry`: the position of the record, the new
tail and the state. Without a place for the record the kernel stops at
`BUG()`. -/
def novaAppendDirInodeEntry (st : State al) (dir ino : Nat) (req : NameReq)
    (deLen tail : Nat) (linkChange : Int) : Option (Nat × Nat × State al) := do
  let (currP, st) ← novaGetAppendHead st dir tail deLen
  if currP = 0 then none
  else
    let d : Dentry :=
      { name := req.name
        fileType := 0
        deLen := deLen
        linksCount := linksCount req.nlink linkChange
        mtime := (st.info dir).attrs.mtime
        ino := ino
        size := (st.info dir).iSize }
    let st := st.store (.slot currP (.dirLog d) 0)
    return (currP, currP + deLen, st.flush (.bytes currP deLen) false)

/-- `dir->i_mtime = dir->i_ctime = current_time(dir)`. -/
def touchDir (st : State al) (dir time : Nat) : State al :=
  let i := st.info dir
  st.setInfo dir { i with attrs := { i.attrs with mtime := time, ctime := time } }

/-- `nova_add_dentry`: the result, `*new_tail` and the state. -/
def novaAddDentry (st : State al) (dir ino : Nat) (req : NameReq) (incLink : Int)
    (tail : Nat) : Option (Int × Nat × State al) :=
  if req.name.length = 0 then some (-EINVAL, tail, st)
  else do
    let st := touchDir st dir req.time
    let (currEntry, currTail, st) ← novaAppendDirInodeEntry st dir ino req
      (novaDirLogRecLen req.name.length) tail incLink
    let r := novaInsertDirRadixTree st dir req.name currEntry
    return (r.1, currTail, r.2)

/-- `nova_remove_dentry`. What becomes of the tree is not looked at. -/
def novaRemoveDentry (st : State al) (dir : Nat) (req : NameReq) (decLink : Int)
    (tail : Nat) : Option (Int × Nat × State al) :=
  if req.name.length = 0 then some (-EINVAL, tail, st)
  else do
    let st := touchDir st dir req.time
    let (_, currTail, st) ← novaAppendDirInodeEntry st dir 0 req
      (novaDirLogRecLen req.name.length) tail decLink
    return (0, currTail, (novaRemoveDirRadixTree st dir req.name false).2)

-- === operations

/-- One change of a directory within an operation. -/
inductive DirOp where
  | add (ino : Nat) (req : NameReq) (incLink : Int)
  | remove (req : NameReq) (decLink : Int)
  deriving Repr, DecidableEq

/-- Name and times of an operation. -/
def DirOp.req : DirOp → NameReq
  | .add _ req _ => req
  | .remove req _ => req

/-- What it tells the record about the link count of the directory. -/
def DirOp.linkChange : DirOp → Int
  | .add _ _ incLink => incLink
  | .remove _ decLink => decLink

/-- One operation. -/
def DirOp.run (st : State al) (dir tail : Nat) : DirOp → Option (Int × Nat × State al)
  | .add ino req incLink => novaAddDentry st dir ino req incLink tail
  | .remove req decLink => novaRemoveDentry st dir req decLink tail

/-- The changes of a directory that one operation of `namei.c` makes, each
behind the tail that the one before left. The first error ends it. -/
def runOps (dir : Nat) : List DirOp → State al → Nat → Option (Int × Nat × State al)
  | [], st, tail => some (0, tail, st)
  | op :: ops, st, tail => do
    let (err, tail, st) ← op.run st dir tail
    if err ≠ 0 then return (err, tail, st) else runOps dir ops st tail

/-- What `nova_rename` does inside one directory; `replaced` tells whether
the new name stood for a file. -/
def renameOps (replaced : Bool) (ino : Nat) (oldName newName : NameReq)
    (incLink decLink : Int) : List DirOp :=
  (if replaced then [.remove newName 0] else []) ++
    [.add ino newName incLink, .remove oldName decLink]

/-- The operations of `namei.c` on one name of a directory. -/
inductive NameOp where
  | mkdir (ino : Nat) (name : List UInt8) (time : Nat)
  | rmdir (name : List UInt8) (time : Nat)
  | create (ino : Nat) (name : List UInt8) (time : Nat)
  | unlink (name : List UInt8) (time : Nat)
  deriving Repr, DecidableEq

/-- What they do to the log of the directory, whose `i_nlink` is `nlink`. -/
def NameOp.dirOp (nlink : Nat) : NameOp → DirOp
  | .mkdir ino name time => .add ino ⟨name, nlink, time⟩ 1
  | .rmdir name time => .remove ⟨name, nlink, time⟩ (-1)
  | .create ino name time => .add ino ⟨name, nlink, time⟩ 0
  | .unlink name time => .remove ⟨name, nlink, time⟩ 0

/-- And to `i_nlink`: `inc_nlink`, and `drop_nlink` unless it is 0. -/
def NameOp.nlink (nlink : Nat) : NameOp → Nat
  | .mkdir _ _ _ => nlink + 1
  | .rmdir _ _ => nlink - 1
  | .create _ _ _ => nlink
  | .unlink _ _ => nlink

/-- `nova_mkdir` gives up with `-EMLINK`. -/
def NameOp.permitted (nlink : Nat) : NameOp → Bool
  | .mkdir _ _ _ => nlink < NOVA_LINK_MAX
  | _ => true

-- === the first records

/-- "." -/
def dot : List UInt8 := [46]

/-- ".." -/
def dotdot : List UInt8 := [46, 46]

/-- A record written without its file type and its `invalid` byte, which
keep what the memory held. -/
def storeInitEntry (st : State al) (p : Nat) (d : Dentry) : State al :=
  let d := match st.nv.slot p with
    | .dirLog old => { d with fileType := old.fileType }
    | _ => d
  (st.store (.slot p (.dirLog d) (st.nv.invalid p))).flush (.bytes p d.deLen) false

/-- `nova_append_dir_init_entries`. -/
def novaAppendDirInitEntries (st : State al) (dir selfIno parentIno now : Nat) :
    Int × State al :=
  if st.nv.logHead dir ≠ 0 then (-EINVAL, st)
  else
    match novaAllocateInodeLogPages st 1 with
    | (none, st) => (-ENOMEM, st)
    | (some (allocated, newBlock), st) =>
      if allocated ≠ 1 then (-ENOMEM, st)
      else
        let st := st.store (.logHead dir newBlock)
        let st := st.store (.logTail dir newBlock)
        let st := st.flush (.inode dir) false
        let st := storeInitEntry st newBlock
          ⟨dot, 0, novaDirLogRecLen 1, 1, now, selfIno, PAGE_SIZE⟩
        let currP := newBlock + novaDirLogRecLen 1
        let st := storeInitEntry st currP
          ⟨dotdot, 0, novaDirLogRecLen 2, 2, now, parentIno, PAGE_SIZE⟩
        (0, novaUpdateTail st dir (currP + novaDirLogRecLen 2))

-- === rebuild

/-- `nova_replay_add_dentry`. -/
def novaReplayAddDentry (st : State al) (dir a : Nat) (d : Dentry) : Int × State al :=
  if d.name.length = 0 then (-EINVAL, st)
  else novaInsertDirRadixTree st dir d.name a

/-- `nova_replay_remove_dentry`. -/
def novaReplayRemoveDentry (st : State al) (dir : Nat) (d : Dentry) : Int × State al :=
  (0, (novaRemoveDirRadixTree st dir d.name true).2)

/-- `nova_rebuild_dir_time_and_size`. -/
def novaRebuildDirTimeAndSize (st : State al) (dir : Nat) (d : Dentry) : State al :=
  let r := st.nv.record dir
  setRecord st dir
    { r with
      iSize := d.size
      attrs := { r.attrs with mtime := d.mtime, ctime := d.mtime }
      links := d.linksCount }

/-- A record in a rebuild, with `ret`, which is `none` as long as nothing
was assigned to it. -/
def replayDentry (st : State al) (dir a : Nat) (d : Dentry) (ret : Option Int) :
    Option Int × State al :=
  if d.ino > 0 then
    if st.nv.invalid a = 0 then
      let r := novaReplayAddDentry st dir a d
      (some r.1, r.2)
    else (ret, st)
  else
    let r := novaReplayRemoveDentry st dir d
    (some r.1, r.2)

/-- The loop of `nova_rebuild_dir_inode_tree`: the state, where it ended,
and whether an error stopped it. `none` is a `BUG()`, the assertion on the
type of an entry, or a look at `ret` before it was set. -/
def rebuildDirLoop (dir : Nat) : Nat → State al → Nat → Option Int →
    Option (State al × Nat × Bool)
  | 0, _, _, _ => none
  | rounds + 1, st, curr, ret =>
    if curr = st.nv.logTail dir then some (st, curr, false)
    else if curr = 0 then none
    else
      let jump := gotoNextPage st.nv curr
      let sih := st.info dir
      let st :=
        if jump then st.setInfo dir { sih with logPages := sih.logPages + 1 }
        else st
      let curr := if jump then nextLogPage st.nv curr else curr
      if curr = 0 then none
      else
        match st.nv.slot curr with
        | .setAttr e =>
          let st := novaApplySetattrEntry st dir e
          rebuildDirLoop dir rounds
            (st.setInfo dir { st.info dir with lastSetattr := curr }) (curr + 32) ret
        | .linkChange e =>
          let st := novaApplyLinkChangeEntry st dir e
          rebuildDirLoop dir rounds
            (st.setInfo dir { st.info dir with lastLinkChange := curr })
            (curr + 32) ret
        | .dirLog d =>
          let r := replayDentry st dir curr d ret
          match r.1 with
          | none => none
          | some err =>
            if err ≠ 0 then some (r.2, curr, true)
            else
              rebuildDirLoop dir rounds (novaRebuildDirTimeAndSize r.2 dir d)
                (curr + d.deLen) (some err)
        | _ => none

/-- `nova_rebuild_dir_inode_tree` on a fresh inode header, and whether it
stopped at an error (which the caller does not learn). -/
def novaRebuildDirInodeTree (st : State al) (dir : Nat) : Option (State al × Bool) :=
  let head := st.nv.logHead dir
  if head = 0 then none
  else do
    let st := st.setInfo dir { st.info dir with logPages := 1 }
    let (st, curr, stopped) ← rebuildDirLoop dir (walkLimit al) st head none
    let st := st.setInfo dir
      { st.info dir with sihSize := (st.nv.record dir).iSize }
    let pages ← countPages st.nv (pageLimit al) (blockOff curr)
      (st.info dir).logPages
    return (st.setInfo dir { st.info dir with logPages := pages }, stopped)

/-- A directory is dropped from memory and read back. -/
def reload (st : State al) (dir : Nat) : Option (State al) := do
  let (st, _) ← novaRebuildDirInodeTree
    (st.setInfo dir (freshInfo (st.nv.record dir))) dir
  let r := st.nv.record dir
  return st.setInfo dir { st.info dir with iSize := r.iSize, attrs := r.attrs }

/-- The inode number a name stands for. -/
def lookup (st : State al) (dir : Nat) (name : List UInt8) : Option Nat :=
  (novaFindDentry st dir name).bind fun a =>
    match st.nv.slot a with
    | .dirLog d => some d.ino
    | _ => none

/-- Where `nova_rename` takes the ".." record of a directory to be. -/
def fatherEntry (st : State al) (dir : Nat) : Nat :=
  st.nv.logHead dir + novaDirLogRecLen 1

/-- `nova_rename` gives a directory another parent: the store to
`father_entry->ino` and its flush. `none` if there is no record. -/
def storeFather (st : State al) (dir newDir : Nat) : Option (State al) :=
  let p := fatherEntry st dir
  match st.nv.slot p with
  | .dirLog d =>
    some ((st.store (.slot p (.dirLog { d with ino := newDir })
      (st.nv.invalid p))).flush (.bytes p (novaDirLogRecLen 2)) false)
  | _ => none

end Themis.Dir
