/-
Inode flags (ioctl.c, inode.c, namei.c): set through `FS_IOC_SETFLAGS`,
logged with every link change, and read back when the inode is rebuilt.

# Two encodings

The VFS inode has the `S_*` bits, the inode record the `FS_*_FL` bits. A
constant of either kind is given by the number of its bit.
`nova_set_inode_flags` translates from the record to the VFS inode. The
entry of a link change takes the bits of the VFS inode, and the replay
stores them in the record as they are.

# Left out

The log itself: a rebuild replays its link changes in order, and a
collection keeps the last one, so the last one is all there is here. An
append that finds no room fails the call.
-/
import Themis.Basic

namespace Themis.Flags

-- === VFS bits

/-- Bits of `i_flags`. -/
def S_SYNC : Nat := 0
/-- Access times are not kept. -/
def S_NOATIME : Nat := 1
/-- Append only. -/
def S_APPEND : Nat := 2
/-- No changes. -/
def S_IMMUTABLE : Nat := 3
/-- Directory updates are synchronous. -/
def S_DIRSYNC : Nat := 6
/-- No security attributes. -/
def S_NOSEC : Nat := 12
/-- Direct access. -/
def S_DAX : Nat := 13

-- === record bits

/-- Bits of the flags a user sets. -/
def FS_SYNC_FL : Nat := 3
/-- The user's `S_IMMUTABLE`. -/
def FS_IMMUTABLE_FL : Nat := 4
/-- The user's `S_APPEND`. -/
def FS_APPEND_FL : Nat := 5
/-- The user's `S_NOATIME`. -/
def FS_NOATIME_FL : Nat := 7
/-- The user's `S_DIRSYNC`. -/
def FS_DIRSYNC_FL : Nat := 16

/-- `FS_FL_USER_MODIFIABLE`. -/
def FS_FL_USER_MODIFIABLE : BitVec 32 := 0x000380FF

/-- A word with one bit. -/
def bit (k : Nat) : BitVec 32 := BitVec.twoPow 32 k

/-- `if (c) i |= ...`. -/
def orIf (c : Bool) (k : Nat) (i : BitVec 32) : BitVec 32 := if c then i ||| bit k else i

/-- `nova_set_inode_flags`: the VFS flags; `noSec` tells whether
`inode_has_no_xattr` is called and sets its flag. -/
def novaSetInodeFlags (noSec : Bool) (iFlags flags : BitVec 32) : BitVec 32 :=
  let i := iFlags &&& ~~~(bit S_SYNC ||| bit S_APPEND ||| bit S_IMMUTABLE |||
    bit S_NOATIME ||| bit S_DIRSYNC)
  let i := orIf (flags.getLsbD FS_SYNC_FL) S_SYNC i
  let i := orIf (flags.getLsbD FS_APPEND_FL) S_APPEND i
  let i := orIf (flags.getLsbD FS_IMMUTABLE_FL) S_IMMUTABLE i
  let i := orIf (flags.getLsbD FS_NOATIME_FL) S_NOATIME i
  let i := orIf (flags.getLsbD FS_DIRSYNC_FL) S_DIRSYNC i
  orIf noSec S_NOSEC i ||| bit S_DAX

/-- An inode: `i_flags` in memory and in the record, and the flags of the
last link change in the log. -/
structure State where
  iFlags : BitVec 32
  piFlags : BitVec 32
  logged : Option (BitVec 32)
  isDir : Bool
  noSec : Bool
  deriving Repr, DecidableEq

/-- `nova_append_link_change_entry`, of the flags. -/
def novaAppendLinkChangeEntry (s : State) : State := { s with logged := some s.iFlags }

/-- The flags that `FS_IOC_SETFLAGS` passes on. -/
def ioctlFlags (s : State) (flags : BitVec 32) : BitVec 32 :=
  let flags := if s.isDir then flags else flags &&& ~~~bit FS_DIRSYNC_FL
  flags &&& FS_FL_USER_MODIFIABLE ||| s.piFlags &&& ~~~FS_FL_USER_MODIFIABLE

/-- `nova_ioctl` with `FS_IOC_SETFLAGS`; `none` is `-EPERM`. -/
def setFlags (s : State) (flags : BitVec 32) (capable : Bool) : Option State :=
  if (flags ^^^ s.piFlags) &&& (bit FS_APPEND_FL ||| bit FS_IMMUTABLE_FL) ≠ 0 ∧ !capable then
    none
  else
    some (novaAppendLinkChangeEntry
      { s with iFlags := novaSetInodeFlags s.noSec s.iFlags (ioctlFlags s flags) })

/-- The inode is dropped and rebuilt: `nova_apply_link_change_entry` for
what is in the log, then `nova_read_inode` into a new VFS inode. -/
def reload (s : State) : State :=
  let piFlags := s.logged.getD s.piFlags
  { s with piFlags := piFlags, iFlags := novaSetInodeFlags s.noSec 0 piFlags }

/-- A step: a change of the link count, or an eviction and a rebuild. -/
inductive Op where
  | linkChange
  | reload
  deriving Repr, DecidableEq

/-- One operation. -/
def Op.run (s : State) : Op → State
  | .linkChange => novaAppendLinkChangeEntry s
  | .reload => Flags.reload s

/-- The inodes that the file system works on: read in with any record, and
from then on changed by calls and steps. -/
inductive Reach : State → Prop
  | read (piFlags : BitVec 32) (logged : Option (BitVec 32)) (isDir noSec : Bool) :
      Reach (Flags.reload ⟨0, piFlags, logged, isDir, noSec⟩)
  | step {s : State} (h : Reach s) (op : Op) : Reach (op.run s)
  | ioctl {s s' : State} {flags : BitVec 32} {capable : Bool} (h : Reach s)
      (hset : setFlags s flags capable = some s') : Reach s'

end Themis.Flags
