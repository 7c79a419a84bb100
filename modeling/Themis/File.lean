/-
Regular files (dax.c, inode.c): copy-on-write writes, size and attribute
changes, link changes, the rebuild of a file from its log, and reads.

# What is left out

Files are not mapped (`mmap_pages` is 0), user copies do not fault, and
inserting into the radix tree does not fail. The locks, the statistics,
`i_blocks` and the write counts are left out. A record is found by its
inode number, whichever pointer to it the code holds.

# Sizes and positions

`loff_t` values are natural numbers: negative positions are refused by
the VFS. Only the reader subtracts them the wrong way round
(`readLength`).
-/
import Themis.Lib.Bytes
import Themis.Log

namespace Themis.File

open Lib Log

variable {al : BlockAllocator}

-- === small helpers

/-- `S_ISREG`. -/
def isReg (mode : Nat) : Bool := mode &&& 0o170000 = 0o100000

/-- The number of pages that hold the first `size` bytes. -/
def pagesFor (size : Nat) : Nat := (size + PAGE_SIZE - 1) / PAGE_SIZE

/-- The file write entry at `a`, as code that takes it for one reads
it. -/
def entryAt (nv : Nvmm) (a : Nat) : FileWriteEntry :=
  match nv.slot a with
  | .fileWrite e => e
  | _ => ⟨0, 0, 0, 0, 0⟩

/-- `get_nvmm`: the block that holds a page of an extent. -/
def getNvmm (nv : Nvmm) (a pgoff : Nat) : Nat :=
  (entryAt nv a).block + pgoff - (entryAt nv a).pgoff

/-- `nova_get_write_entry`. -/
def novaGetWriteEntry (st : State al) (ino pgoff : Nat) : Option Nat :=
  (st.info ino).tree.get pgoff

/-- `nova_find_nvmm_block`, as a block number; 0 for a hole. -/
def novaFindNvmmBlock (st : State al) (ino pgoff : Nat) : Nat :=
  match novaGetWriteEntry st ino pgoff with
  | none => 0
  | some a => getNvmm st.nv a pgoff

/-- Store a tree. -/
def setTree (st : State al) (ino : Nat) (t : Radix Nat) : State al :=
  st.setInfo ino { st.info ino with tree := t }

/-- `i_size_write` on the VFS inode, with `sih->i_size`. -/
def setSize (st : State al) (ino size : Nat) : State al :=
  st.setInfo ino { st.info ino with iSize := size, sihSize := size }

/-- `nova_new_data_blocks`. -/
def novaNewDataBlocks (st : State al) (num : Nat) :
    Option (Nat × Nat) × State al :=
  let r := al.newBlocks st.alloc .data num
  (r.1, { st with alloc := r.2 })

/-- `nova_free_data_blocks`. -/
def novaFreeDataBlocks (st : State al) (blocknr num : Nat) : State al :=
  { st with alloc := al.freeBlocks st.alloc .data blocknr num }

/-- Put the bytes `g 0, …, g (n - 1)` at `a`. -/
def fill (st : State al) (a n : Nat) (g : Nat → UInt8) : State al :=
  { st with data := fillBytes st.data a n g }

/-- `current_time` into `i_mtime` and `i_ctime`. -/
def touch (st : State al) (ino time : Nat) : State al :=
  let sih := st.info ino
  st.setInfo ino
    { sih with attrs := { sih.attrs with mtime := time, ctime := time } }

-- === the tree

/-- The run of blocks collected for one call of the allocator, and what
was given back so far. -/
structure FreeRun where
  start : Nat
  num : Nat
  freed : Nat
  deriving Repr, DecidableEq

/-- `nova_free_contiguous_data_blocks`. -/
def novaFreeContiguousDataBlocks (st : State al) (a pgoff numPages : Nat)
    (run : FreeRun) : State al × FreeRun :=
  if (entryAt st.nv a).numPages < st.nv.invalid a + numPages then (st, run)
  else
    let st := st.store (.invalidPages a (st.nv.invalid a + numPages))
    let nvmm := getNvmm st.nv a pgoff
    if run.start = 0 then (st, { run with start := nvmm, num := numPages })
    else if nvmm = run.start + run.num then
      (st, { run with num := run.num + numPages })
    else
      (novaFreeDataBlocks st run.start run.num,
        { start := nvmm, num := numPages, freed := run.freed + run.num })

/-- One occupied page of `nova_delete_file_tree`. -/
def deletePage (st : State al) (ino a pgoff : Nat) (deleteNvmm : Bool)
    (run : FreeRun) : State al × FreeRun :=
  let st := setTree st ino ((st.info ino).tree.delete pgoff)
  if deleteNvmm then novaFreeContiguousDataBlocks st a pgoff 1 run
  else (st, run)

/-- The loop of `nova_delete_file_tree`. Each round moves on by a page at
least. -/
def deleteLoop (ino last : Nat) (deleteNvmm : Bool) :
    Nat → State al → Nat → FreeRun → State al × FreeRun
  | 0, st, _, run => (st, run)
  | rounds + 1, st, pgoff, run =>
    if pgoff ≤ last then
      match novaGetWriteEntry st ino pgoff with
      | some a =>
        let r := deletePage st ino a pgoff deleteNvmm run
        deleteLoop ino last deleteNvmm rounds r.1 (pgoff + 1) r.2
      | none =>
        -- a hole: on to the next entry
        match (st.info ino).tree.gangLookup pgoff with
        | none => (st, run)
        | some a =>
          deleteLoop ino last deleteNvmm rounds st
            (max (pgoff + 1) (entryAt st.nv a).pgoff) run
    else (st, run)

/-- `nova_delete_file_tree`, with the number of blocks freed. -/
def novaDeleteFileTree (st : State al) (ino start last : Nat)
    (deleteNvmm : Bool) : State al × Nat :=
  let r := deleteLoop ino last deleteNvmm (last + 1 - start) st start ⟨0, 0, 0⟩
  if r.2.start ≠ 0 then
    (novaFreeDataBlocks r.1 r.2.start r.2.num, r.2.freed + r.2.num)
  else (r.1, r.2.freed)

/-- `nova_truncate_file_blocks`. -/
def novaTruncateFileBlocks (st : State al) (ino start end_ time : Nat) :
    State al :=
  let st := touch st ino time
  let first := pagesFor start
  if end_ = 0 then st
  else
    let last := (end_ - 1) / PAGE_SIZE
    if first > last then st else (novaDeleteFileTree st ino first last true).1

/-- One page of `nova_assign_write_entry`. -/
def assignPage (ino a : Nat) (free : Bool) (st : State al) (pgoff : Nat) :
    State al :=
  let st :=
    match novaGetWriteEntry st ino pgoff with
    | some old =>
      let oldNvmm := getNvmm st.nv old pgoff
      if free then
        novaFreeDataBlocks
          (st.store (.invalidPages old (st.nv.invalid old + 1))) oldNvmm 1
      else st
    | none => st
  setTree st ino ((st.info ino).tree.set pgoff a)

/-- The loop of `nova_assign_write_entry`. -/
def assignLoop (ino a : Nat) (free : Bool) : Nat → State al → Nat → State al
  | 0, st, _ => st
  | num + 1, st, pgoff =>
    assignLoop ino a free num (assignPage ino a free st pgoff) (pgoff + 1)

/-- `nova_assign_write_entry`. -/
def novaAssignWriteEntry (st : State al) (ino a : Nat) (free : Bool) :
    State al :=
  let e := entryAt st.nv a
  assignLoop ino a free e.numPages st e.pgoff

/-- `nova_reassign_file_tree` from `curr` on: 0, or an error. -/
def reassignLoop (ino : Nat) : Nat → State al → Nat → Option (Int × State al)
  | 0, _, _ => none
  | rounds + 1, st, curr =>
    if curr = st.nv.logTail ino then some (0, st)
    else
      let curr :=
        if isLastEntry curr 40 then nextLogPage st.nv curr else curr
      if curr = 0 then some (-EINVAL, st)
      else
        match st.nv.slot curr with
        | .fileWrite _ =>
          reassignLoop ino rounds (novaAssignWriteEntry st ino curr true)
            (curr + 40)
        | _ => reassignLoop ino rounds st (curr + 40)

/-- `nova_reassign_file_tree`. -/
def novaReassignFileTree (st : State al) (ino beginTail : Nat) :
    Option (Int × State al) :=
  reassignLoop ino (walkLimit al) st beginTail

-- === write

/-- `nova_copy_partial_block`: the bytes in front of (or from) `offset`
of an old block, into the block at `kmem`. -/
def novaCopyPartialBlock (st : State al) (a index offset kmem : Nat)
    (isEndBlk : Bool) : State al :=
  let ptr := getNvmm st.nv a index * PAGE_SIZE
  if ptr = 0 then st
  else if isEndBlk then
    fill st (kmem + offset) (PAGE_SIZE - offset) fun i =>
      st.data (ptr + offset + i)
  else fill st kmem offset fun i => st.data (ptr + i)

/-- One edge of `nova_handle_head_tail_blocks`: from the old block of the
page, zeroes if it has none. -/
def fillEdge (st : State al) (ino pgoff offset kmem : Nat) (isEndBlk : Bool) :
    State al :=
  match novaGetWriteEntry st ino pgoff with
  | none =>
    if isEndBlk then fill st (kmem + offset) (PAGE_SIZE - offset) fun _ => 0
    else fill st kmem offset fun _ => 0
  | some a => novaCopyPartialBlock st a pgoff offset kmem isEndBlk

/-- `nova_handle_head_tail_blocks`: fill the new start and end block
around the bytes to be written. -/
def novaHandleHeadTailBlocks (st : State al) (ino pos count kmem : Nat) :
    State al :=
  let offset := pos % PAGE_SIZE
  let numBlocks := (count + offset - 1) / PAGE_SIZE + 1
  let startBlk := pos / PAGE_SIZE
  let endBlk := startBlk + numBlocks - 1
  let st :=
    if offset ≠ 0 then fillEdge st ino startBlk offset kmem false else st
  let kmem := kmem + (numBlocks - 1) * PAGE_SIZE
  let eblkOffset := (pos + count) % PAGE_SIZE
  if eblkOffset ≠ 0 then fillEdge st ino endBlk eblkOffset kmem true else st

/-- `nova_append_file_write_entry`: where the entry went, 0 for an
error. -/
def novaAppendFileWriteEntry (st : State al) (ino : Nat) (e : FileWriteEntry)
    (tail : Nat) : Option (Nat × State al) := do
  let (currP, st) ← novaGetAppendHead st ino tail 40
  if currP = 0 then return (0, st)
  else return (currP, st.ntStore (.slot currP (.fileWrite e) 0))

/-- A call of `write`: position and length, the bytes to write, and what
the kernel says before the data is touched. -/
structure WriteReq where
  pos : Nat
  len : Nat
  buf : Nat → UInt8
  /-- `O_APPEND`. -/
  append : Bool
  /-- `mapping_mapped`. -/
  mapped : Bool
  /-- `access_ok`. -/
  accessOk : Bool
  /-- `file_remove_privs`. -/
  removePrivs : Int
  time : Nat

/-- The variables of the extent loop. -/
structure WriteVars where
  pos : Nat
  written : Nat
  count : Nat
  numBlocks : Nat
  tempTail : Nat
  beginTail : Nat

/-- How the extent loop ends: `goto out`, or after the last extent. -/
inductive WriteEnd (al : BlockAllocator) where
  | out (ret : Int) (st : State al)
  | done (st : State al) (v : WriteVars)

/-- The data of one extent: the edges of its first and last block, then
the bytes of the caller. -/
def fillExtent (st : State al) (ino : Nat) (w : WriteReq) (v : WriteVars)
    (blocknr bytes : Nat) : State al :=
  let offset := v.pos % PAGE_SIZE
  let kmem := blocknr * PAGE_SIZE
  let st :=
    if offset ≠ 0 ∨ (offset + bytes) % PAGE_SIZE ≠ 0 then
      novaHandleHeadTailBlocks st ino v.pos bytes kmem
    else st
  fill st (kmem + offset) bytes fun i => w.buf (v.written + i)

/-- The entry of one extent. -/
def extentEntry (st : State al) (ino : Nat) (w : WriteReq) (v : WriteVars)
    (blocknr allocated bytes : Nat) : FileWriteEntry where
  pgoff := v.pos / PAGE_SIZE
  numPages := allocated
  block := blocknr
  mtime := w.time
  size := max (v.pos + bytes) (st.info ino).iSize

/-- The extent loop of `nova_cow_file_write`. Each round takes a block
at least, so `numBlocks` rounds are enough. -/
def extentLoop (ino : Nat) (w : WriteReq) :
    Nat → State al → WriteVars → Option (WriteEnd al)
  | 0, st, v => some (.done st v)
  | rounds + 1, st, v =>
    if v.numBlocks = 0 then some (.done st v)
    else
      match novaNewDataBlocks st v.numBlocks with
      | (none, st) => some (.out (-ENOSPC) st)
      | (some (blocknr, allocated), st) => do
        let bytes := min (PAGE_SIZE * allocated - v.pos % PAGE_SIZE) v.count
        let e := extentEntry st ino w v blocknr allocated bytes
        let st := fillExtent st ino w v blocknr bytes
        let (currEntry, st) ← novaAppendFileWriteEntry st ino e v.tempTail
        if currEntry = 0 then return .out (-ENOSPC) st
        else
          extentLoop ino w rounds st
            { pos := v.pos + bytes
              written := v.written + bytes
              count := v.count - bytes
              numBlocks := v.numBlocks - allocated
              tempTail := currEntry + 40
              beginTail :=
                if v.beginTail = 0 then currEntry else v.beginTail }

/-- The end of `nova_cow_file_write`: commit the entries, map them, and
set the size. -/
def commitWrite (st : State al) (ino : Nat) (v : WriteVars) :
    Option (Int × State al) := do
  let st := novaUpdateTail st ino v.tempTail
  let (ret, st) ← novaReassignFileTree st ino v.beginTail
  if ret ≠ 0 then return (ret, st)
  else
    let st := if v.pos > (st.info ino).iSize then setSize st ino v.pos else st
    return (v.written, st)

/-- `nova_cow_file_write`: the result and the state. `ret` is a `size_t`
there, so the cleanup at `out` never runs. Behind `out`
the inode's page is looked at for migration; after the access check that
is through a `pi` that was never set, where the model just returns. -/
def novaCowFileWrite (st : State al) (ino : Nat) (w : WriteReq) :
    Option (Int × State al) :=
  if w.len = 0 then some (0, st)
  else if w.mapped then some (-EACCES, st)
  -- the check is the wrong way round
  else if w.accessOk then some (-EFAULT, st)
  else if w.removePrivs ≠ 0 then some (w.removePrivs, st)
  else do
    let pos := if w.append then (st.info ino).iSize else w.pos
    let st := touch st ino w.time
    let numBlocks := (w.len + pos % PAGE_SIZE - 1) / PAGE_SIZE + 1
    let r ← extentLoop ino w numBlocks st
      { pos := pos
        written := 0
        count := w.len
        numBlocks := numBlocks
        tempTail := st.nv.logTail ino
        beginTail := 0 }
    match r with
    | .out ret st => return (ret, st)
    | .done st v => commitWrite st ino v

-- === blocks for dax

/-- `if (num_blocks > max_blocks) num_blocks = max_blocks`, an `int`
against an `unsigned long`. -/
def capBlocks (numBlocks : Int) (maxBlocks : Nat) : Int :=
  if ulongOfInt numBlocks > maxBlocks then intOfUlong maxBlocks else numBlocks

/-- How many blocks `nova_dax_get_blocks` asks for to fill a hole: up to
the next entry. `none` is its `BUG()`. -/
def holeBlocks (st : State al) (ino iblock maxBlocks : Nat) : Option Nat :=
  match (st.info ino).tree.gangLookup iblock with
  | none => some (uintOfInt (intOfUlong maxBlocks))
  | some a =>
    let nextPgoff := (entryAt st.nv a).pgoff
    if nextPgoff ≤ iblock then none
    else some (uintOfInt (capBlocks (intOfUlong (nextPgoff - iblock)) maxBlocks))

/-- `nova_dax_get_blocks`: the number of blocks mapped or an error, the
first of them, and the state. The error of the allocator is not told
apart. -/
def novaDaxGetBlocks (st : State al) (ino iblock maxBlocks : Nat)
    (create : Bool) (time : Nat) : Option (Int × Nat × State al) :=
  if maxBlocks = 0 then some (0, 0, st)
  else
    match novaGetWriteEntry st ino iblock with
    | some a =>
      let e := entryAt st.nv a
      let num :=
        if st.nv.invalid a = 0 then intOfUlong (e.numPages - (iblock - e.pgoff)) else 1
      some (capBlocks num maxBlocks, getNvmm st.nv a iblock, st)
    | none =>
      if !create then some (0, 0, st)
      else do
        let st := touch st ino time
        let num ← holeBlocks st ino iblock maxBlocks
        match novaNewDataBlocks st num with
        | (none, st) => return (-ENOSPC, 0, st)
        | (some (blocknr, allocated), st) =>
          -- a count that does not fit into an `int` counts as an error
          if intOfUlong allocated ≤ 0 then return (intOfUlong allocated, 0, st)
          else
            let st := fill st (blocknr * PAGE_SIZE) (allocated * PAGE_SIZE)
              fun _ => 0
            let (currEntry, st) ← novaAppendFileWriteEntry st ino
              ⟨iblock, allocated, blocknr, time, (st.info ino).iSize⟩
              (st.nv.logTail ino)
            if currEntry = 0 then
              return (-ENOSPC, 0, novaFreeDataBlocks st blocknr allocated)
            else
              let st := novaUpdateTail st ino (currEntry + 40)
              let (ret, st) ← novaReassignFileTree st ino currEntry
              if ret ≠ 0 then
                return (ret, 0, novaFreeDataBlocks st blocknr allocated)
              else return ((allocated : Nat), blocknr, st)

-- === attributes

/-- `struct iattr`. -/
structure Iattr where
  valid : Nat
  mode : Nat
  uid : Nat
  gid : Nat
  size : Nat
  atime : Nat
  mtime : Nat
  ctime : Nat
  deriving Repr, DecidableEq

/-- `ATTR_MODE | ATTR_UID | ATTR_GID | ATTR_SIZE | ATTR_ATIME |
ATTR_MTIME | ATTR_CTIME`. -/
def attrMask : Nat := 0x7f

/-- `ia_valid & ATTR_SIZE`. -/
def Iattr.setsSize (attr : Iattr) : Bool := attr.valid.testBit 3

/-- The attributes after `setattr_copy`. -/
def setattrCopy (i : Attrs) (attr : Iattr) : Attrs where
  mode := if attr.valid.testBit 0 then attr.mode else i.mode
  uid := if attr.valid.testBit 1 then attr.uid else i.uid
  gid := if attr.valid.testBit 2 then attr.gid else i.gid
  atime := if attr.valid.testBit 4 then attr.atime else i.atime
  mtime := if attr.valid.testBit 5 then attr.mtime else i.mtime
  ctime := if attr.valid.testBit 6 then attr.ctime else i.ctime

/-- `setattr_copy` on the VFS inode. -/
def copyAttrs (st : State al) (ino : Nat) (attr : Iattr) : State al :=
  st.setInfo ino
    { st.info ino with attrs := setattrCopy (st.info ino).attrs attr }

/-- `nova_update_setattr_entry`: the entry for an inode that already has
its new attributes, except the size. -/
def novaUpdateSetattrEntry (i : InodeInfo) (attr : Iattr) : SetattrEntry where
  attr := attr.valid &&& attrMask
  mode := i.attrs.mode
  uid := i.attrs.uid
  gid := i.attrs.gid
  atime := i.attrs.atime
  mtime := i.attrs.mtime
  ctime := i.attrs.ctime
  size := if attr.setsSize then attr.size else i.iSize

/-- A 32-byte entry is written and flushed. -/
def storeEntry (st : State al) (p : Nat) (e : LogEntry) : State al :=
  (st.store (.slot p e (st.nv.invalid p))).flush (.bytes p 32) false

/-- `nova_append_setattr_entry`: the new tail. Without a place for the
entry the kernel stops at `BUG()`. -/
def novaAppendSetattrEntry (st : State al) (ino : Nat) (attr : Iattr)
    (tail : Nat) : Option (Nat × State al) := do
  let (currP, st) ← novaGetAppendHead st ino tail 32
  if currP = 0 then none
  else
    let st := storeEntry st currP
      (.setAttr (novaUpdateSetattrEntry (st.info ino) attr))
    return (currP + 32,
      st.setInfo ino { st.info ino with lastSetattr := currP })

/-- `nova_clear_last_page_tail`. -/
def novaClearLastPageTail (st : State al) (ino newsize : Nat) : State al :=
  let offset := newsize % PAGE_SIZE
  if offset = 0 ∨ newsize > (st.info ino).iSize then st
  else
    let nvmm := novaFindNvmmBlock st ino (newsize / PAGE_SIZE)
    if nvmm = 0 then st
    else
      fill st (nvmm * PAGE_SIZE + offset) (PAGE_SIZE - offset) fun _ => 0

/-- `nova_setsize`. -/
def novaSetsize (st : State al) (ino oldsize newsize time : Nat) : State al :=
  if !isReg (st.info ino).attrs.mode then st
  else
    let st :=
      if newsize ≠ oldsize then
        setSize (novaClearLastPageTail st ino newsize) ino newsize
      else st
    novaTruncateFileBlocks st ino newsize oldsize time

/-- `nova_notify_change`; `changeOk` is the answer of `inode_change_ok`,
`eofBlocks` whether the record has `NOVA_EOFBLOCKS_FL`. -/
def novaNotifyChange (st : State al) (ino : Nat) (attr : Iattr)
    (changeOk : Int) (eofBlocks : Bool) (time : Nat) :
    Option (Int × State al) :=
  if changeOk ≠ 0 then some (changeOk, st)
  else
    let oldsize := (st.info ino).iSize
    let st := copyAttrs st ino attr
    if attr.valid &&& attrMask = 0 then some (0, st)
    else do
      let (newTail, st) ← novaAppendSetattrEntry st ino attr 0
      let st := novaUpdateTail st ino newTail
      if attr.setsSize ∧ (attr.size ≠ oldsize ∨ eofBlocks) then
        return (0, novaSetsize st ino oldsize attr.size time)
      else return (0, st)

-- === links

/-- `nova_append_link_change_entry`: the new tail, 0 for an error (the
caller gets `-ENOMEM`). The entry is filled from the VFS inode. -/
def novaAppendLinkChangeEntry (st : State al) (ino : Nat) (e : LinkChangeEntry)
    (tail : Nat) : Option (Nat × State al) := do
  let (currP, st) ← novaGetAppendHead st ino tail 32
  if currP = 0 then return (0, st)
  else
    let st := storeEntry st currP (.linkChange e)
    return (currP + 32,
      st.setInfo ino { st.info ino with lastLinkChange := currP })

/-- A change of links or flags with an entry of its own (ioctl.c, and the
file side of `nova_link` and `nova_unlink`): append and commit. -/
def changeLinks (st : State al) (ino : Nat) (e : LinkChangeEntry) :
    Option (Int × State al) := do
  let (newTail, st) ← novaAppendLinkChangeEntry st ino e 0
  if newTail = 0 then return (-ENOMEM, st)
  else return (0, novaUpdateTail st ino newTail)

-- === rebuild

/-- Change the record of an inode. -/
def setRecord (st : State al) (ino : Nat) (r : Record) : State al :=
  { st with nv := { st.nv with record := Function.update st.nv.record ino r } }

/-- The cut of `nova_apply_setattr_entry`: pages behind a smaller size. -/
def cutTree (st : State al) (ino : Nat) (e : SetattrEntry) : State al :=
  let old := (st.nv.record ino).iSize
  if old > e.size ∧ isReg e.mode then
    let first := pagesFor e.size
    let last := if old > 0 then (old - 1) / PAGE_SIZE else 0
    if first > last then st else (novaDeleteFileTree st ino first last false).1
  else st

/-- `nova_apply_setattr_entry`. -/
def novaApplySetattrEntry (st : State al) (ino : Nat) (e : SetattrEntry) :
    State al :=
  let st := cutTree st ino e
  let r := st.nv.record ino
  let st := setRecord st ino
    { r with
      iSize := e.size
      attrs := ⟨e.mode, e.uid, e.gid, e.atime, e.mtime, e.ctime⟩ }
  st.setInfo ino { st.info ino with sihSize := e.size }

/-- `nova_apply_link_change_entry`. -/
def novaApplyLinkChangeEntry (st : State al) (ino : Nat) (e : LinkChangeEntry) :
    State al :=
  let r := st.nv.record ino
  setRecord st ino
    { r with
      attrs := { r.attrs with ctime := e.ctime }
      links := e.links
      flags := e.flags
      generation := e.generation }

/-- A write entry in a rebuild: map its pages unless all of them are
overwritten, and take over its time and size. -/
def applyWriteEntry (st : State al) (ino a : Nat) (e : FileWriteEntry) :
    State al :=
  let st :=
    if e.numPages ≠ st.nv.invalid a then novaAssignWriteEntry st ino a false
    else st
  let r := st.nv.record ino
  let st := setRecord st ino
    { r with
      iSize := e.size
      attrs := { r.attrs with mtime := e.mtime, ctime := e.mtime } }
  st.setInfo ino { st.info ino with sihSize := e.size }

/-- The entry at `a` in a rebuild, with the step to the next one. -/
def rebuildEntry (st : State al) (ino a : Nat) : State al × Nat :=
  match st.nv.slot a with
  | .setAttr e =>
    let st := novaApplySetattrEntry st ino e
    (st.setInfo ino { st.info ino with lastSetattr := a }, 32)
  | .linkChange e =>
    let st := novaApplyLinkChangeEntry st ino e
    (st.setInfo ino { st.info ino with lastLinkChange := a }, 32)
  | .fileWrite e => (applyWriteEntry st ino a e, 40)
  | _ => (st, 40)

/-- The loop over the log of `nova_rebuild_file_inode_tree`, with the
position where it ends. -/
def rebuildLoop (ino : Nat) : Nat → State al → Nat → Option (State al × Nat)
  | 0, _, _ => none
  | rounds + 1, st, curr =>
    if curr = st.nv.logTail ino then some (st, curr)
    else if curr = 0 then none
    else
      let jump := gotoNextPage st.nv curr
      let sih := st.info ino
      let st :=
        if jump then st.setInfo ino { sih with logPages := sih.logPages + 1 }
        else st
      let curr := if jump then nextLogPage st.nv curr else curr
      if curr = 0 then none
      else
        let r := rebuildEntry st ino curr
        rebuildLoop ino rounds r.1 (curr + r.2)

/-- The pages behind the tail page. -/
def countPages (nv : Nvmm) : Nat → Nat → Nat → Option Nat
  | 0, _, _ => none
  | rounds + 1, curr, pages =>
    if nv.next curr = 0 then some pages
    else countPages nv rounds (nv.next curr) (pages + 1)

/-- `nova_rebuild_file_inode_tree` on a fresh inode header. -/
def novaRebuildFileInodeTree (st : State al) (ino : Nat) : Option (State al) :=
  let head := st.nv.logHead ino
  if head = 0 ∧ st.nv.logTail ino = 0 then some st
  else do
    let st := st.setInfo ino { st.info ino with logPages := 1 }
    let (st, curr) ← rebuildLoop ino (walkLimit al) st head
    let st := st.setInfo ino
      { st.info ino with sihSize := (st.nv.record ino).iSize }
    let pages ← countPages st.nv (pageLimit al) (blockOff curr)
      (st.info ino).logPages
    return st.setInfo ino { st.info ino with logPages := pages }

/-- `nova_init_header`, and the fields `nova_read_inode` takes from the
record. -/
def freshInfo (r : Record) : InodeInfo where
  tree := Radix.empty
  logPages := 0
  lastSetattr := 0
  lastLinkChange := 0
  sihSize := 0
  iSize := r.iSize
  attrs := r.attrs

/-- An inode is dropped from memory and read back: its header is rebuilt
from the log (`nova_rebuild_inode`), the VFS inode filled from the record
(`nova_read_inode`). -/
def reload (st : State al) (ino : Nat) : Option (State al) := do
  let st ← novaRebuildFileInodeTree
    (st.setInfo ino (freshInfo (st.nv.record ino))) ino
  let r := st.nv.record ino
  return st.setInfo ino { st.info ino with iSize := r.iSize, attrs := r.attrs }

-- === read

/-- One copy of `do_dax_mapping_read`: `nr` bytes from `offset` in the
block, zeroes for a hole. -/
structure Chunk where
  index : Nat
  offset : Nat
  nr : Nat
  nvmm : Option Nat
  deriving Repr, DecidableEq

/-- The bytes of a chunk. -/
def Chunk.bytes (c : Chunk) (data : Nat → UInt8) : List UInt8 :=
  (List.range c.nr).map fun i =>
    match c.nvmm with
    | none => 0
    | some b => data (b * PAGE_SIZE + c.offset + i)

/-- `len > isize - pos`, in unsigned arithmetic: beyond the end of the
file the difference wraps around. -/
def readLength (len isize pos : Nat) : Nat :=
  let room := ulongOfInt ((isize : Int) - pos)
  if len > room then room else len

/-- What one round of the reader copies at `index`: the source and how
many bytes the source has from there on; `none` for an entry that does
not hold the page. -/
def readSource (st : State al) (ino index : Nat) : Option (Option Nat × Nat) :=
  match novaGetWriteEntry st ino index with
  | none => some (none, PAGE_SIZE)
  | some a =>
    let e := entryAt st.nv a
    if index < e.pgoff ∨ index - e.pgoff ≥ e.numPages then none
    else
      some (some (getNvmm st.nv a index),
        if st.nv.invalid a = 0 then (e.numPages - (index - e.pgoff)) * PAGE_SIZE
        else PAGE_SIZE)

/-- The loop of `do_dax_mapping_read`. Each round copies a byte at
least. The first component is -EINVAL, or 0. -/
def readLoop (st : State al) (ino isize len : Nat) :
    Nat → Nat → Nat → Nat → Int × List Chunk
  | 0, _, _, _ => (0, [])
  | rounds + 1, index, offset, copied =>
    let endIndex := (isize - 1) / PAGE_SIZE
    if index > endIndex ∨
        (index = endIndex ∧ (isize - 1) % PAGE_SIZE + 1 ≤ offset) then (0, [])
    else
      match readSource st ino index with
      | none => (-EINVAL, [])
      | some (nvmm, room) =>
        let nr := min (room - offset) (len - copied)
        let c : Chunk := ⟨index, offset, nr, nvmm⟩
        if copied + nr < len then
          let r := readLoop st ino isize len rounds
            (index + (offset + nr) / PAGE_SIZE) ((offset + nr) % PAGE_SIZE)
            (copied + nr)
          (r.1, c :: r.2)
        else (0, [c])

/-- `do_dax_mapping_read`: the result and what was copied. -/
def doDaxMappingRead (st : State al) (ino pos len : Nat) (accessOk : Bool) :
    Int × List Chunk :=
  if !accessOk then (-EFAULT, [])
  else
    let isize := (st.info ino).iSize
    if isize = 0 then (0, [])
    else
      let len := readLength len isize pos
      if len = 0 then (0, [])
      else
        let r := readLoop st ino isize len len (pos / PAGE_SIZE)
          (pos % PAGE_SIZE) 0
        if r.1 ≠ 0 then r
        else (((r.2.map Chunk.nr).sum : Nat), r.2)

end Themis.File
