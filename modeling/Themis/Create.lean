/-
Creating a file (namei.c, inode.c, writecount.c, wearleveling.c): the
records of the new inode and of its directory, and the pointers to them.

`nova_create` and `nova_mknod` take a pointer to the directory's record and
the offset of the new one, and use both again at the end. In between, the
wear-leveling hook of `nova_new_vfs_inode` may move the page of the new
record.

# What is an input

`nova_new_nova_inode`, `nova_add_dentry` and the allocator are modelled
elsewhere; here their answers are part of the call (`Answers`), with what
they store in the records. So is the answer of `should_migrate`, which
depends on counters that nothing here uses otherwise.

# Left out

The journal, and the fields of a record that `nova_update_inode` fills in.
-/
import Themis.InodeTable

namespace Themis.Create

open InodeTables

/-- A directory: its inode number and `sih->pi_addr`. -/
structure DirInode where
  ino : Nat
  piAddr : Nat
  deriving Repr, DecidableEq

/-- What the called functions answer and do. -/
structure Answers where
  /-- `nova_new_nova_inode`: the number, 0 for an error, the offset of its
  record, and the tables with the pages that were added for it. -/
  ino : Nat
  piAddr : Nat
  tables : InodeTables
  /-- `nova_add_dentry`: its result, `*new_tail`, and the log pointers it
  leaves in the record of the directory. -/
  err : Int
  tail : Nat
  dirHead : Nat
  dirTail : Nat
  /-- `new_inode` and `insert_inode_locked` do not fail. -/
  newInode : Bool
  inserted : Bool
  shouldMigrate : Nat → Bool
  /-- `nova_new_log_blocks` of the migration. -/
  blocknr : Option Nat

/-- Change a record. -/
def setRecord (t : InodeTables) (pi : Nat) (f : NovaInode → NovaInode) : InodeTables :=
  { t with record := fun a => if a = pi then f (t.record a) else t.record a }

/-- `nova_get_inode`. Reserved inodes are found through `pi_addr`, but the
lookup comes first. -/
def novaGetInode (t : InodeTables) (dir : DirInode) : Option Nat :=
  match t.novaGetInodeAddress dir.ino with
  | none => none
  | some piAddr =>
    some (if dir.ino < NOVA_NORMAL_INODE_START then dir.piAddr else piAddr)

/-- `migrate_inode_page`. -/
def migrateInodePage (ans : Answers) (t : InodeTables) (ino : Nat) : InodeTables :=
  let curr := t.slotOf ino
  if curr = 0 then t
  else
    match ans.blocknr with
    | none => t
    | some blocknr =>
      let migrate := blocknr * PAGE_SIZE
      (t.copyPage migrate curr).switchSlot ino migrate

/-- `inode_page_count_increase_with_migrate`. -/
def inodePageCountIncreaseWithMigrate (ans : Answers) (t : InodeTables) (pi : Nat) :
    InodeTables :=
  let blockNum := pi / PAGE_SIZE
  let ino := (t.record pi).novaIno
  if ino < NOVA_NORMAL_INODE_START then t
  else if ans.shouldMigrate blockNum then migrateInodePage ans t ino
  else t

/-- `if (pi->nova_ino > 1) pi = nova_get_inode_by_ino_or_pi_addr(sb, ino, 0)`;
`none` is NULL. -/
def lookAgain (t : InodeTables) (pi ino : Nat) : Option Nat :=
  if (t.record pi).novaIno > 1 then t.novaGetInodeAddress ino else some pi

/-- `nova_new_vfs_inode`: whether it returns an inode. `none` is a store
through NULL. -/
def novaNewVfsInode (ans : Answers) (t : InodeTables) (dir : DirInode) :
    Option (Bool × InodeTables) :=
  if !ans.newInode then some (false, t)
  else
    match novaGetInode t dir with
    | none => some (false, t)
    | some _ => do
      let pi ← lookAgain t ans.piAddr ans.ino
      let t := setRecord t pi fun r =>
        { r with logHead := 0, logTail := 0, novaIno := ans.ino }
      if !ans.inserted then return (false, t)
      else return (true, inodePageCountIncreaseWithMigrate ans t pi)

/-- `nova_lite_transaction_for_new_inode`. -/
def novaLiteTransactionForNewInode (t : InodeTables) (pi pidir pidirTail : Nat) :
    InodeTables :=
  let t := setRecord t pidir fun r => { r with logTail := pidirTail }
  setRecord t pi fun r => { r with valid := 1 }

/-- The common body of `nova_create` and `nova_mknod`: the result, the
number that was allocated and the tables. `err` starts as the error code
of NULL, which is 0. -/
def createInode (ans : Answers) (t : InodeTables) (dir : DirInode) :
    Option (Int × Nat × InodeTables) :=
  match novaGetInode t dir with
  | none => some (0, 0, t)
  | some pidir =>
    let t := ans.tables
    if ans.ino = 0 then some (0, 0, t)
    else
      let t := setRecord t pidir fun r =>
        { r with logHead := ans.dirHead, logTail := ans.dirTail }
      if ans.err ≠ 0 then some (ans.err, ans.ino, t)
      else do
        let (made, t) ← novaNewVfsInode ans t dir
        -- `err` is not set
        if !made then return (ans.err, ans.ino, t)
        else
          return (ans.err, ans.ino,
            novaLiteTransactionForNewInode t ans.piAddr pidir ans.tail)

/-- `nova_create`. -/
def novaCreate (ans : Answers) (t : InodeTables) (dir : DirInode) :
    Option (Int × Nat × InodeTables) := createInode ans t dir

/-- `nova_mknod`. The device number is not in the fields modelled. -/
def novaMknod (ans : Answers) (t : InodeTables) (dir : DirInode) :
    Option (Int × Nat × InodeTables) := createInode ans t dir

end Themis.Create
