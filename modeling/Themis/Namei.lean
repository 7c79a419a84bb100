/-
The operations of `namei.c` as their callers see them, when the steps they
are made of may fail.

# State

What a caller can see: the names of each directory, the link counts, the
inode numbers in use, and how many transactions were committed.

# Steps

Which step fails, and with what, is an input (`Failures`). The effects of
the steps are those proved of their models: `nova_add_dentry` either adds
the name or changes no name (`Themis.Dir`), `nova_new_nova_inode` keeps a
number whose record it cannot place (`Themis.NewInode`). A step that stops
the kernel when it fails has no answer here: the append of a directory
record, and the first page of a new directory.
-/
import Themis.Basic
import Mathlib.Logic.Function.Basic

namespace Themis.Namei

-- === the state

/-- The file system towards its callers. -/
structure Fs where
  names : Nat → List UInt8 → Option Nat
  nlink : Nat → Nat
  used : Nat → Bool
  commits : Nat

namespace Fs

/-- A name is set or removed. -/
def setName (s : Fs) (dir : Nat) (name : List UInt8) (v : Option Nat) : Fs :=
  { s with names := Function.update s.names dir (Function.update (s.names dir) name v) }

/-- A link count is set. -/
def setLinks (s : Fs) (ino n : Nat) : Fs :=
  { s with nlink := Function.update s.nlink ino n }

/-- A number is in use. -/
def use (s : Fs) (ino : Nat) : Fs :=
  { s with used := Function.update s.used ino true }

/-- A transaction is committed. -/
def commit (s : Fs) : Fs := { s with commits := s.commits + 1 }

end Fs

-- === the steps

/-- How `nova_new_nova_inode` ends: with a number, without one, or with a
number but no place for its record. -/
inductive Number where
  | got
  | noNumber
  | noAddress
  deriving Repr, DecidableEq

/-- The results of the steps; 0 is success, except for the two that
return a number of blocks. -/
structure Failures where
  /-- `nova_get_inode(sb, dir)` is not NULL. -/
  dirFound : Bool
  number : Number
  /-- `nova_insert_dir_radix_tree`. -/
  insertErr : Int
  /-- `nova_new_vfs_inode`. -/
  vfsErr : Int
  /-- `nova_allocate_inode_log_pages` and `nova_new_data_blocks` of a
  symbolic link. -/
  logPages : Int
  dataBlocks : Int
  /-- `nova_append_link_change_entry`; a rename makes it twice. -/
  linkErr : Int
  newLinkErr : Int
  deriving Repr, DecidableEq

/-- `nova_new_nova_inode`: the number, or 0. -/
def novaNewNovaInode (f : Failures) (ino : Nat) (s : Fs) : Nat × Fs :=
  match f.number with
  | .got => (ino, s.use ino)
  | .noNumber => (0, s)
  | .noAddress => (0, s.use ino)

/-- `nova_add_dentry`. -/
def novaAddDentry (f : Failures) (dir : Nat) (name : List UInt8) (ino : Nat) (s : Fs) :
    Int × Fs :=
  if name = [] then (-EINVAL, s)
  else if f.insertErr ≠ 0 then (f.insertErr, s)
  else (0, s.setName dir name (some ino))

/-- `nova_remove_dentry`. -/
def novaRemoveDentry (dir : Nat) (name : List UInt8) (s : Fs) : Int × Fs :=
  if name = [] then (-EINVAL, s) else (0, s.setName dir name none)

/-- `nova_new_vfs_inode`: the new inode has `links` links. -/
def novaNewVfsInode (f : Failures) (ino links : Nat) (s : Fs) : Int × Fs :=
  if f.vfsErr ≠ 0 then (f.vfsErr, s) else (0, s.setLinks ino links)

-- === the operations

/-- `nova_create` and `nova_mknod`, which differ in the inode operations
only. `err` starts as the error code of NULL, which is 0, and an error of
`nova_new_vfs_inode` is not put into it. -/
def createInode (f : Failures) (dir : Nat) (name : List UInt8) (ino : Nat) (s : Fs) :
    Int × Fs :=
  if !f.dirFound then (0, s)
  else
    let r := novaNewNovaInode f ino s
    if r.1 = 0 then (0, r.2)
    else
      let r := novaAddDentry f dir name r.1 r.2
      if r.1 ≠ 0 then r
      else
        let v := novaNewVfsInode f ino 1 r.2
        if v.1 ≠ 0 then (r.1, v.2) else (r.1, v.2.commit)

/-- `nova_create`. -/
def novaCreate (f : Failures) (dir : Nat) (name : List UInt8) (ino : Nat) (s : Fs) :
    Int × Fs := createInode f dir name ino s

/-- `nova_mknod`. -/
def novaMknod (f : Failures) (dir : Nat) (name : List UInt8) (ino : Nat) (s : Fs) :
    Int × Fs := createInode f dir name ino s

/-- `nova_mkdir`. -/
def novaMkdir (f : Failures) (dir : Nat) (name : List UInt8) (ino : Nat) (s : Fs) :
    Int × Fs :=
  let err := -EMLINK
  if s.nlink dir ≥ NOVA_LINK_MAX then (err, s)
  else
    let r := novaNewNovaInode f ino s
    if r.1 = 0 then (err, r.2)
    else
      let r := novaAddDentry f dir name r.1 r.2
      if r.1 ≠ 0 then r
      else
        let v := novaNewVfsInode f ino 2 r.2
        if v.1 ≠ 0 then v
        else
          let s := v.2
          (r.1, (s.setLinks dir (s.nlink dir + 1)).commit)

/-- `nova_symlink`; `len` is the length of the target. -/
def novaSymlink (f : Failures) (dir : Nat) (name : List UInt8) (ino len : Nat) (s : Fs) :
    Int × Fs :=
  let err := -ENAMETOOLONG
  if len + 1 > PAGE_SIZE then (err, s)
  else if !f.dirFound then (err, s)
  else
    let r := novaNewNovaInode f ino s
    if r.1 = 0 then (err, r.2)
    else
      let r := novaAddDentry f dir name r.1 r.2
      if r.1 ≠ 0 then r
      else
        let v := novaNewVfsInode f ino 1 r.2
        if v.1 ≠ 0 then v
        else if f.logPages ≠ 1 then (f.logPages, v.2)
        else if f.dataBlocks ≠ 1 then (f.dataBlocks, v.2)
        else (r.1, v.2.commit)

/-- `nova_link`: another name for inode `ino`. -/
def novaLink (f : Failures) (dir : Nat) (name : List UInt8) (ino : Nat) (s : Fs) :
    Int × Fs :=
  if s.nlink ino ≥ NOVA_LINK_MAX then (-EMLINK, s)
  else if !f.dirFound then (-EINVAL, s)
  else
    let r := novaAddDentry f dir name ino s
    if r.1 ≠ 0 then r
    else
      let s := r.2.setLinks ino (r.2.nlink ino + 1)
      if f.linkErr ≠ 0 then (f.linkErr, s) else (f.linkErr, s.commit)

/-- `nova_unlink`. -/
def novaUnlink (f : Failures) (dir : Nat) (name : List UInt8) (ino : Nat) (s : Fs) :
    Int × Fs :=
  if !f.dirFound then (-ENOMEM, s)
  else
    let r := novaRemoveDentry dir name s
    if r.1 ≠ 0 then r
    else
      -- `drop_nlink` unless it is 0
      let s := r.2.setLinks ino (r.2.nlink ino - 1)
      if f.linkErr ≠ 0 then (f.linkErr, s) else (0, s.commit)

/-- What a rename is called with: `replaced` is the inode that the new name
stands for, `isDir` whether the old one is a directory, and `empty` the
answer of `nova_empty_dir`. -/
structure Rename where
  oldDir : Nat
  oldName : List UInt8
  oldIno : Nat
  newDir : Nat
  newName : List UInt8
  replaced : Option Nat
  isDir : Bool
  empty : Bool
  deriving Repr, DecidableEq

/-- The checks at the start of `nova_rename`, as an error. -/
def Rename.refusal (q : Rename) (s : Fs) : Option Int :=
  if q.replaced.isSome then
    if q.isDir && !q.empty then some (-ENOTEMPTY) else none
  else if q.isDir && s.nlink q.newDir ≥ NOVA_LINK_MAX then some (-EMLINK) else none

/-- The link counts of the directories: `inc_link` and `dec_link`. -/
def Rename.dirLinks (q : Rename) (s : Fs) : Fs :=
  let s := if q.isDir && q.replaced.isNone then
      s.setLinks q.newDir (s.nlink q.newDir + 1) else s
  if q.isDir then s.setLinks q.oldDir (s.nlink q.oldDir - 1) else s

/-- And of the inode that was replaced. -/
def Rename.dropReplaced (q : Rename) (s : Fs) : Fs :=
  match q.replaced with
  | none => s
  | some ino =>
    let s := if q.isDir then s.setLinks ino (s.nlink ino - 1) else s
    s.setLinks ino (s.nlink ino - 1)

/-- `nova_rename`. -/
def novaRename (f : Failures) (q : Rename) (s : Fs) : Int × Fs :=
  match q.refusal s with
  | some err => (err, s)
  | none =>
    if f.linkErr ≠ 0 then (f.linkErr, s)
    else
      let r := if q.replaced.isSome then novaRemoveDentry q.newDir q.newName s
        else (0, s)
      if r.1 ≠ 0 then r
      else
        let r := novaAddDentry f q.newDir q.newName q.oldIno r.2
        if r.1 ≠ 0 then r
        else
          let r := novaRemoveDentry q.oldDir q.oldName r.2
          if r.1 ≠ 0 then r
          else
            let s := q.dropReplaced (q.dirLinks r.2)
            if q.replaced.isSome ∧ f.newLinkErr ≠ 0 then (f.newLinkErr, s)
            else (0, s.commit)

-- === a call

/-- The operations with their arguments. -/
inductive Call where
  | create (dir : Nat) (name : List UInt8) (ino : Nat)
  | mknod (dir : Nat) (name : List UInt8) (ino : Nat)
  | mkdir (dir : Nat) (name : List UInt8) (ino : Nat)
  | symlink (dir : Nat) (name : List UInt8) (ino len : Nat)
  | link (dir : Nat) (name : List UInt8) (ino : Nat)
  | unlink (dir : Nat) (name : List UInt8) (ino : Nat)
  | rename (q : Rename)
  deriving Repr, DecidableEq

/-- The result for the caller, and the state. -/
def Call.run (f : Failures) (s : Fs) : Call → Int × Fs
  | .create dir name ino => novaCreate f dir name ino s
  | .mknod dir name ino => novaMknod f dir name ino s
  | .mkdir dir name ino => novaMkdir f dir name ino s
  | .symlink dir name ino len => novaSymlink f dir name ino len s
  | .link dir name ino => novaLink f dir name ino s
  | .unlink dir name ino => novaUnlink f dir name ino s
  | .rename q => novaRename f q s

end Themis.Namei
