/-
Inode logs (inode.c, nova.h): a chain of 4K log pages in NVMM, entries
appended one after another, and the two garbage collectors that run when
a log is extended.

# Memory

Offsets are device offsets. What lies in log pages is typed: `slot p` is
the entry that starts at `p`, `invalid p` the one field of it that is
changed in place (`invalid_pages` of a write entry, the `invalid` byte
of a directory entry), `next b` the `next_page` field in the tail of the
page at `b`. Nothing is assumed about slots never written: log pages are
not zeroed.

An inode record is known by its inode number; `log_head` and `log_tail`
stand apart from the other fields of it (`record`). The number of blocks
charged to the inode (`i_blocks`) and the write counts are left out.
`data` are the bytes of data blocks.

# Faults and loops

`none` stands for a call that does not return: a `BUG()`, an access
through offset 0 (the NULL that `nova_get_block` gives for it), or a
loop that goes round for ever. Loops over pages run at most once per
block of the device, loops over entries at most `walkLimit` times, which
no acyclic log reaches.

# Stores

Every store to a log page or to the pair of log pointers is recorded in
`trace`, with the flushes and fences, in program order.
-/
import Themis.Alloc
import Themis.Lib.Pmem
import Themis.Lib.Radix

namespace Themis.Log

open Lib

-- === layout

/-- `CACHELINE_SIZE`. -/
def LINE : Nat := 64

/-- `LAST_ENTRY`: where the tail of a log page begins. -/
def LAST_ENTRY : Nat := 4064

/-- `EXTEND_THRESHOLD`. -/
def EXTEND_THRESHOLD : Nat := 256

/-- `BLOCK_OFF`: the page an offset lies in. -/
def blockOff (p : Nat) : Nat := p / PAGE_SIZE * PAGE_SIZE

/-- `ENTRY_LOC`: an offset within its page. -/
def entryLoc (p : Nat) : Nat := p % PAGE_SIZE

-- === entries

/-- `struct nova_file_write_entry`; `block` is a block number. -/
structure FileWriteEntry where
  pgoff : Nat
  numPages : Nat
  block : Nat
  mtime : Nat
  size : Nat
  deriving Repr, DecidableEq

/-- `struct nova_dentry`. -/
structure Dentry where
  name : List UInt8
  fileType : Nat
  deLen : Nat
  linksCount : Nat
  mtime : Nat
  ino : Nat
  size : Nat
  deriving Repr, DecidableEq

/-- `struct nova_setattr_logentry`. -/
structure SetattrEntry where
  attr : Nat
  mode : Nat
  uid : Nat
  gid : Nat
  atime : Nat
  mtime : Nat
  ctime : Nat
  size : Nat
  deriving Repr, DecidableEq

/-- `struct nova_link_change_entry`. -/
structure LinkChangeEntry where
  links : Nat
  ctime : Nat
  flags : Nat
  generation : Nat
  deriving Repr, DecidableEq

/-- A log entry, by its type byte (`enum nova_entry_type`). -/
inductive LogEntry where
  | fileWrite (e : FileWriteEntry)
  | dirLog (d : Dentry)
  | setAttr (e : SetattrEntry)
  | linkChange (e : LinkChangeEntry)
  | nextPage
  | unknown (type : Nat)
  deriving Repr, DecidableEq

/-- `ATTR_SIZE` of the kernel's `struct iattr`. -/
def ATTR_SIZE : Nat := 8

/-- `attr & ATTR_SIZE`. -/
def SetattrEntry.setsSize (e : SetattrEntry) : Bool := e.attr.testBit 3

/-- The length of an entry; 0 for what is not one. -/
def LogEntry.size : LogEntry → Nat
  | .fileWrite _ => 40
  | .dirLog d => d.deLen
  | .setAttr _ => 32
  | .linkChange _ => 32
  | .nextPage => 0
  | .unknown _ => 0

/-- `NOVA_DIR_LOG_REC_LEN`: rounded up to a multiple of 8. -/
def novaDirLogRecLen (nameLen : Nat) : Nat := (nameLen + 29 + 7) / 8 * 8

/-- A `char` widened to `unsigned long`: bytes from 128 on are
negative. -/
def ulongOfChar (c : UInt8) : Nat :=
  if c.toNat < 128 then c.toNat else c.toNat + (2 ^ 64 - 256)

/-- `BKDRHash`, in 64-bit arithmetic. -/
def bkdrHash (name : List UInt8) : Nat :=
  name.foldl (fun hash c => (hash * 131 + ulongOfChar c) % 2 ^ 64) 0

-- === NVMM

/-- The attributes of an inode other than its size. -/
structure Attrs where
  mode : Nat
  uid : Nat
  gid : Nat
  atime : Nat
  mtime : Nat
  ctime : Nat
  deriving Repr, DecidableEq

/-- The fields of `struct nova_inode` that a rebuild fills in. -/
structure Record where
  iSize : Nat
  attrs : Attrs
  links : Nat
  flags : Nat
  generation : Nat
  deriving Repr, DecidableEq

/-- The log pages and inode records in NVMM. -/
structure Nvmm where
  slot : Nat → LogEntry
  invalid : Nat → Nat
  next : Nat → Nat
  logHead : Nat → Nat
  logTail : Nat → Nat
  record : Nat → Record

/-- A store to log pages or log pointers. -/
inductive Store where
  /-- An entry with its in-place field, or a next-page mark. -/
  | slot (p : Nat) (e : LogEntry) (invalid : Nat)
  /-- `invalid_pages` of the write entry at `p`. -/
  | invalidPages (p n : Nat)
  /-- The `invalid` byte of the directory entry at `p`. -/
  | invalidByte (p n : Nat)
  | next (page q : Nat)
  | logHead (ino p : Nat)
  | logTail (ino p : Nat)
  deriving Repr, DecidableEq

/-- The memory after a store. -/
def Nvmm.apply (nv : Nvmm) : Store → Nvmm
  | .slot p e n =>
    { nv with
      slot := Function.update nv.slot p e
      invalid := Function.update nv.invalid p n }
  | .invalidPages p n => { nv with invalid := Function.update nv.invalid p n }
  | .invalidByte p n => { nv with invalid := Function.update nv.invalid p n }
  | .next b q => { nv with next := Function.update nv.next b q }
  | .logHead ino p => { nv with logHead := Function.update nv.logHead ino p }
  | .logTail ino p => { nv with logTail := Function.update nv.logTail ino p }

/-- What a call of `nova_flush_buffer` names: bytes of log pages, or the
record of an inode, whose two log pointers share a line. -/
inductive Flush where
  | bytes (p len : Nat)
  | inode (ino : Nat)
  deriving Repr, DecidableEq

/-- The lines of `[p, p + len)` contain those of `[q, q + n)`. -/
def linesCover (p len q n : Nat) : Bool :=
  p / LINE ≤ q / LINE && (q + n - 1) / LINE ≤ (p + len - 1) / LINE

/-- The bytes of a log page a store goes to. -/
def Store.bytes : Store → Option (Nat × Nat)
  | .slot p e _ => some (p, max e.size 1)
  | .invalidPages p _ => some (p + 20, 4)
  | .invalidByte p _ => some (p + 3, 1)
  | .next b _ => some (b + LAST_ENTRY + 24, 8)
  | .logHead _ _ => none
  | .logTail _ _ => none

/-- The inode record a store goes to. -/
def Store.inode : Store → Option Nat
  | .logHead ino _ => some ino
  | .logTail ino _ => some ino
  | _ => none

/-- A flush writes back the lines of a store. -/
def Flush.covers : Flush → Store → Bool
  | .bytes p len, s => s.bytes.any fun b => linesCover p len b.1 b.2
  | .inode ino, s => s.inode = some ino

/-- A non-temporal store forces out the lines it goes to. -/
def Store.hits (s s' : Store) : Bool :=
  s.bytes.any fun b => s'.bytes.any fun b' => linesCover b.1 b.2 b'.1 b'.2

/-- NVMM as persistent memory. -/
def pmem : Pmem Nvmm Store Flush := ⟨Nvmm.apply, Flush.covers, Store.hits⟩

-- === the state

/-- An inode in DRAM: the fields of `nova_inode_info_header` that log
and tree code uses (`sihSize` is its `i_size`), with the size and the
attributes of the VFS inode. In a file's tree an index is a page offset,
in a directory's the hash of a name; what the tree holds is the device
offset of a log entry. -/
structure InodeInfo where
  tree : Radix Nat
  logPages : Nat
  lastSetattr : Nat
  lastLinkChange : Nat
  sihSize : Nat
  iSize : Nat
  attrs : Attrs

/-- NVMM, the allocator, the inodes in DRAM, and what was done to NVMM
so far. -/
structure State (al : BlockAllocator) where
  nv : Nvmm
  data : Nat → UInt8
  alloc : al.State
  info : Nat → InodeInfo
  trace : List (Event Store Flush)

variable {al : BlockAllocator}

namespace State

/-- A store through the cache. -/
def store (st : State al) (s : Store) : State al :=
  { st with nv := st.nv.apply s, trace := st.trace ++ [.store s] }

/-- `memcpy_to_pmem_nocache`. -/
def ntStore (st : State al) (s : Store) : State al :=
  { st with nv := st.nv.apply s, trace := st.trace ++ [.ntStore s] }

/-- `PERSISTENT_BARRIER`. -/
def fence (st : State al) : State al :=
  { st with trace := st.trace ++ [.fence] }

/-- `nova_flush_buffer`. -/
def flush (st : State al) (f : Flush) (fence : Bool) : State al :=
  let st := { st with trace := st.trace ++ [.flush f] }
  if fence then st.fence else st

/-- Change the DRAM part of one inode. -/
def setInfo (st : State al) (ino : Nat) (i : InodeInfo) : State al :=
  { st with info := Function.update st.info ino i }

end State

/-- Enough rounds for a loop over the pages of an acyclic log. -/
def pageLimit (al : BlockAllocator) : Nat := al.numBlocks + 1

/-- Enough rounds for a loop over the entries of an acyclic log. -/
def walkLimit (al : BlockAllocator) : Nat := al.numBlocks * 128 + 1

-- === log pages

/-- `next_log_page`. -/
def nextLogPage (nv : Nvmm) (p : Nat) : Nat := nv.next (blockOff p)

/-- `is_last_entry`: an entry of this size does not fit. -/
def isLastEntry (p size : Nat) : Bool := entryLoc p + size > LAST_ENTRY

/-- `goto_next_page`. -/
def gotoNextPage (nv : Nvmm) (p : Nat) : Bool :=
  entryLoc p + 32 > LAST_ENTRY || nv.slot p = .nextPage

/-- `nova_set_next_page_address`. -/
def novaSetNextPageAddress (st : State al) (page nextPage : Nat)
    (fence : Bool) : State al :=
  let st := st.store (.next page nextPage)
  let st := st.flush (.bytes (page + LAST_ENTRY) 32) false
  if fence then st.fence else st

/-- `nova_set_next_page_flag`. -/
def novaSetNextPageFlag (st : State al) (p : Nat) : State al :=
  if entryLoc p ≥ LAST_ENTRY then st
  else
    (st.store (.slot p .nextPage (st.nv.invalid p))).flush (.bytes p LINE) true

/-- `nova_new_log_blocks`, without zeroing. -/
def novaNewLogBlocks (st : State al) (num : Nat) :
    Option (Nat × Nat) × State al :=
  let r := al.newBlocks st.alloc .log num
  (r.1, { st with alloc := r.2 })

/-- `nova_free_log_blocks`. -/
def novaFreeLogBlocks (st : State al) (blocknr num : Nat) : State al :=
  { st with alloc := al.freeBlocks st.alloc .log blocknr num }

/-- The loop of `nova_coalesce_log_pages`: link a run of adjacent
pages. -/
def linkRun (st : State al) (page : Nat) : Nat → State al
  | 0 => st
  | n + 1 =>
    linkRun (novaSetNextPageAddress st page (page + PAGE_SIZE) false)
      (page + PAGE_SIZE) n

/-- `nova_coalesce_log_pages`. -/
def novaCoalesceLogPages (st : State al) (prevBlocknr firstBlocknr
    numPages : Nat) : State al :=
  let st :=
    if prevBlocknr ≠ 0 then
      novaSetNextPageAddress st (prevBlocknr * PAGE_SIZE)
        (firstBlocknr * PAGE_SIZE) false
    else st
  let st := linkRun st (firstBlocknr * PAGE_SIZE) (numPages - 1)
  novaSetNextPageAddress st
    (firstBlocknr * PAGE_SIZE + (numPages - 1) * PAGE_SIZE) 0 true

/-- The loop of `nova_allocate_inode_log_pages`. Each round takes at
least one page, so `numPages` rounds are enough. -/
def allocateRest : Nat → State al → Nat → Nat → Nat → Nat × State al
  | 0, st, _, _, retPages => (retPages, st)
  | rounds + 1, st, numPages, prevBlocknr, retPages =>
    if numPages = 0 then (retPages, st)
    else
      match novaNewLogBlocks st numPages with
      | (none, st) => (retPages, st)
      | (some (blocknr, allocated), st) =>
        allocateRest rounds
          (novaCoalesceLogPages st prevBlocknr blocknr allocated)
          (numPages - allocated) (blocknr + allocated - 1)
          (retPages + allocated)

/-- `nova_allocate_inode_log_pages`: the number of pages and the offset
of the first. -/
def novaAllocateInodeLogPages (st : State al) (numPages : Nat) :
    Option (Nat × Nat) × State al :=
  match novaNewLogBlocks st numPages with
  | (none, st) => (none, st)
  | (some (blocknr, allocated), st) =>
    let st := novaCoalesceLogPages st 0 blocknr allocated
    let r := allocateRest numPages st (numPages - allocated)
      (blocknr + allocated - 1) allocated
    (some (r.1, blocknr * PAGE_SIZE), r.2)

/-- The loop of `nova_free_contiguous_log_blocks`; `start` and `numFree`
are the run collected so far. -/
def freeContiguousLoop : Nat → State al → Nat → Nat → Nat → Option (State al)
  | 0, _, _, _, _ => none
  | rounds + 1, st, curr, start, numFree =>
    if curr = 0 ∨ entryLoc curr ≠ 0 then
      some (if start ≠ 0 then novaFreeLogBlocks st start numFree else st)
    else
      let blocknr := curr / PAGE_SIZE
      let next := st.nv.next curr
      if start = 0 then freeContiguousLoop rounds st next blocknr 1
      else if blocknr = start + numFree then
        freeContiguousLoop rounds st next start (numFree + 1)
      else
        freeContiguousLoop rounds (novaFreeLogBlocks st start numFree) next
          blocknr 1

/-- `nova_free_contiguous_log_blocks`. -/
def novaFreeContiguousLogBlocks (st : State al) (head : Nat) :
    Option (State al) :=
  freeContiguousLoop (pageLimit al) st head 0 0

/-- The same loop with what it counts and hands to `nova_free_log_blocks`,
`freed` and the calls so far. -/
def releaseLoop (next : Nat → Nat) :
    Nat → Nat → Nat → Nat → Nat → List (Nat × Nat) → Option (Nat × List (Nat × Nat))
  | 0, _, _, _, _, _ => none
  | rounds + 1, curr, start, numFree, freed, calls =>
    if curr = 0 ∨ entryLoc curr ≠ 0 then
      some (if start ≠ 0 then (freed + numFree, calls ++ [(start, numFree)]) else (freed, calls))
    else
      let blocknr := curr / PAGE_SIZE
      let nextPage := next curr
      if start = 0 then releaseLoop next rounds nextPage blocknr 1 freed calls
      else if blocknr = start + numFree then
        releaseLoop next rounds nextPage start (numFree + 1) freed calls
      else
        releaseLoop next rounds nextPage blocknr 1 (freed + numFree)
          (calls ++ [(start, numFree)])

-- === validity

/-- `curr_log_entry_invalid`: the verdict and the entry's length. -/
def currLogEntryInvalid (nv : Nvmm) (sih : InodeInfo) (p : Nat) : Bool × Nat :=
  match nv.slot p with
  | .setAttr e => (!(sih.lastSetattr = p || e.setsSize), 32)
  | .linkChange _ => (!decide (sih.lastLinkChange = p), 32)
  | .fileWrite e => (!(e.numPages != nv.invalid p), 40)
  | .dirLog d => (!(d.ino ≠ 0 && nv.invalid p = 0), d.deLen)
  | .nextPage => (true, PAGE_SIZE - entryLoc p)
  | .unknown _ => (true, PAGE_SIZE - entryLoc p)

/-- The loop of `curr_page_invalid`: whether no entry from `p` to
`limit` is valid, and the bytes of those that are. A length of 0 would
keep the loop where it is, so `LAST_ENTRY` rounds suffice. -/
def pageInvalidLoop (nv : Nvmm) (sih : InodeInfo) (limit : Nat) :
    Nat → Nat → Bool → Nat → Option (Bool × Nat)
  | 0, _, _, _ => none
  | rounds + 1, p, ret, bytes =>
    if p < limit then
      if p = 0 then none
      else
        let r := currLogEntryInvalid nv sih p
        if r.1 then pageInvalidLoop nv sih limit rounds (p + r.2) ret bytes
        else
          pageInvalidLoop nv sih limit rounds (p + r.2) false (bytes + r.2)
    else some (ret, bytes)

/-- `curr_page_invalid`, with what it adds to `valid_bytes`. -/
def currPageInvalid (nv : Nvmm) (sih : InodeInfo) (page : Nat) :
    Option (Bool × Nat) :=
  pageInvalidLoop nv sih (page + LAST_ENTRY) (LAST_ENTRY + 1) page true 0

-- === append head

/-- `nova_get_append_head` from the position `currP` on; `extend` is
what it calls for more pages. The result is the position (0 for an
error) and whether `extend` was called. -/
def appendHeadWith (extend : State al → Nat → Option (Nat × State al))
    (st : State al) (currP size : Nat) : Option (Nat × Bool × State al) := do
  let (p, extended, st) ←
    if currP = 0 ∨ (isLastEntry currP size ∧ nextLogPage st.nv currP = 0) then
      let st := if isLastEntry currP size then novaSetNextPageFlag st currP
        else st
      let (p, st) ← extend st currP
      some (p, true, st)
    else some (currP, false, st)
  if p = 0 then some (0, extended, st)
  else if isLastEntry p size then
    let st := novaSetNextPageFlag st p
    some (nextLogPage st.nv p, extended, st)
  else some (p, extended, st)

/-- `nova_append_one_log_page`. -/
def novaAppendOneLogPage (st : State al) (currP : Nat) :
    Option (Nat × State al) :=
  match novaAllocateInodeLogPages st 1 with
  | (none, st) => some (0, st)
  | (some (allocated, newBlock), st) =>
    if allocated ≠ 1 then some (0, st)
    else if currP = 0 then some (newBlock, st)
    else some (currP, novaSetNextPageAddress st (blockOff currP) newBlock true)

-- === thorough GC

/-- `nova_gc_assign_file_entry`: slots of the tree that held the old
entry hold the new one. -/
def novaGcAssignFileEntry (t : Radix Nat) (old new start : Nat) :
    Nat → Radix Nat
  | 0 => t
  | num + 1 =>
    let t := if t.get start = some old then t.set start new else t
    novaGcAssignFileEntry t old new (start + 1) num

/-- `nova_gc_assign_dentry`. -/
def novaGcAssignDentry (t : Radix Nat) (old new hash : Nat) : Radix Nat :=
  if t.get hash = some old then t.set hash new else t

/-- `nova_gc_assign_new_entry`. -/
def novaGcAssignNewEntry (nv : Nvmm) (sih : InodeInfo) (p new : Nat) :
    InodeInfo :=
  match nv.slot p with
  | .setAttr _ => { sih with lastSetattr := new }
  | .linkChange _ => { sih with lastLinkChange := new }
  | .fileWrite e =>
    { sih with tree := novaGcAssignFileEntry sih.tree p new e.pgoff e.numPages }
  | .dirLog d =>
    { sih with tree := novaGcAssignDentry sih.tree p new (bkdrHash d.name) }
  | .nextPage => sih
  | .unknown _ => sih

/-- The variables of the copying loop. -/
structure CopyVars where
  curr : Nat
  oldCurr : Nat
  newCurr : Nat
  blocks : Nat

/-- The copying loop of `nova_inode_log_thorough_gc`. -/
def copyLoop (ino : Nat) : Nat → State al → CopyVars →
    Option (State al × CopyVars)
  | 0, _, _ => none
  | rounds + 1, st, v =>
    if v.curr = st.nv.logTail ino then some (st, v)
    else if v.curr = 0 then none
    else
      let curr :=
        if gotoNextPage st.nv v.curr then nextLogPage st.nv v.curr else v.curr
      if curr / PAGE_SIZE = st.nv.logTail ino / PAGE_SIZE then
        some (st, { v with curr := curr, oldCurr := v.curr })
      else if curr = 0 then none
      else
        let r := currLogEntryInvalid st.nv (st.info ino) curr
        if r.1 then
          copyLoop ino rounds st
            { v with curr := curr + r.2, oldCurr := v.curr }
        else
          match appendHeadWith novaAppendOneLogPage st v.newCurr r.2 with
          | none => none
          | some (newCurr, extended, st) =>
            -- the copy would go through NULL
            if newCurr = 0 then none
            else
              let st := st.ntStore
                (.slot newCurr (st.nv.slot curr) (st.nv.invalid curr))
              let st := st.setInfo ino
                (novaGcAssignNewEntry st.nv (st.info ino) curr newCurr)
              copyLoop ino rounds st
                { curr := curr + r.2
                  oldCurr := v.curr
                  newCurr := newCurr + r.2
                  blocks := if extended then v.blocks + 1 else v.blocks }

/-- Give back the pages of the new log that were not needed. -/
def freeSpare (st : State al) (next : Nat) : Option (State al) :=
  if next ≠ 0 then novaFreeContiguousLogBlocks st next else some st

/-- Link the new log to the tail page and switch the head to it. -/
def linkNewLog (st : State al) (ino newHead newCurr tailBlock : Nat) :
    State al :=
  let page := blockOff newCurr
  let st := novaSetNextPageFlag st newCurr
  let st := novaSetNextPageAddress st page tailBlock false
  let st := st.flush (.bytes page PAGE_SIZE) false
  let st := st.store (.logHead ino newHead)
  st.flush (.inode ino) true

/-- Steps 1 to 4 of `nova_inode_log_thorough_gc`: link the new log to
the tail page, switch the head, unlink the old log and free it. -/
def switchLog (st : State al) (ino newHead : Nat) (v : CopyVars)
    (checkedPages : Nat) : Option (State al) := do
  let oldHead := st.nv.logHead ino
  let tailBlock := blockOff (st.nv.logTail ino)
  let st ← freeSpare st (st.nv.next (blockOff v.newCurr))
  let st := linkNewLog st ino newHead v.newCurr tailBlock
  let oldPage := blockOff v.oldCurr
  if st.nv.next oldPage ≠ tailBlock then none
  else
    let st := novaSetNextPageAddress st oldPage 0 true
    let st ← novaFreeContiguousLogBlocks st oldHead
    let sih := st.info ino
    return st.setInfo ino
      { sih with logPages := sih.logPages + v.blocks - checkedPages }

/-- `nova_inode_log_thorough_gc`. -/
def novaInodeLogThoroughGc (st : State al) (ino blocks checkedPages : Nat) :
    Option (State al) :=
  let head := st.nv.logHead ino
  let tail := st.nv.logTail ino
  if head = 0 ∧ tail = 0 then some st
  else if head / PAGE_SIZE = tail / PAGE_SIZE then some st
  else
    match novaAllocateInodeLogPages st blocks with
    | (none, st) => some st
    | (some (allocated, newHead), st) =>
      if allocated ≠ blocks then some st
      else do
        let (st, v) ← copyLoop ino (walkLimit al) st
          { curr := head, oldCurr := head, newCurr := newHead, blocks := blocks }
        switchLog st ino newHead v checkedPages

-- === fast GC

/-- `free_curr_page`. -/
def freeCurrPage (st : State al) (page lastPage : Nat) : State al :=
  let st := novaSetNextPageAddress st lastPage (st.nv.next page) true
  novaFreeLogBlocks st (page / PAGE_SIZE) 1

/-- The variables of the page loop of `nova_inode_log_fast_gc`. -/
structure FastVars where
  curr : Nat
  lastPage : Nat
  possibleHead : Nat
  foundHead : Bool
  firstNeedFree : Bool
  checkedPages : Nat
  freedPages : Nat
  validBytes : Nat

/-- One page that holds nothing valid. -/
def fastInvalid (st : State al) (ino : Nat) (v : FastVars) :
    State al × FastVars :=
  if v.curr = st.nv.logHead ino then
    (st, { v with
      firstNeedFree := true
      lastPage := v.curr
      freedPages := v.freedPages + 1 })
  else
    (freeCurrPage st v.curr v.lastPage,
      { v with freedPages := v.freedPages + 1 })

/-- One page that holds something valid. -/
def fastValid (v : FastVars) : FastVars :=
  { v with
    possibleHead := if v.foundHead then v.possibleHead else v.curr
    foundHead := true
    lastPage := v.curr }

/-- The page loop of `nova_inode_log_fast_gc`. -/
def fastLoop (ino : Nat) : Nat → State al → FastVars →
    Option (State al × FastVars)
  | 0, _, _ => none
  | rounds + 1, st, v =>
    -- the tail page is not recycled
    if v.curr / PAGE_SIZE = st.nv.logTail ino / PAGE_SIZE then
      some (st, { v with
        possibleHead := if v.foundHead then v.possibleHead else v.curr })
    else if v.curr = 0 then none
    else
      let next := st.nv.next v.curr
      match currPageInvalid st.nv (st.info ino) v.curr with
      | none => none
      | some (invalid, bytes) =>
        let v := { v with validBytes := v.validBytes + bytes }
        let r := if invalid then fastInvalid st ino v else (st, fastValid v)
        let v := { r.2 with
          curr := next
          checkedPages := r.2.checkedPages + 1 }
        if next = 0 then some (r.1, v) else fastLoop ino rounds r.1 v

/-- The pages that so many bytes of entries need. -/
def blocksFor (validBytes : Nat) : Nat :=
  validBytes / LAST_ENTRY + if validBytes % LAST_ENTRY ≠ 0 then 1 else 0

/-- `need_thorough_gc`. -/
def needThoroughGc (blocks checkedPages : Nat) : Bool :=
  blocks ≠ 0 && blocks * 2 < checkedPages

/-- What `nova_inode_log_fast_gc` does after its loop, up to the thorough
collection: link the new pages and move the head. -/
def fastFinish (st : State al) (ino currTail newBlock numPages : Nat)
    (v : FastVars) : State al :=
  let st := novaSetNextPageAddress st (blockOff currTail) newBlock true
  let oldHead := st.nv.logHead ino
  let st := st.store (.logHead ino v.possibleHead)
  let sih := st.info ino
  let st := st.setInfo ino
    { sih with logPages := sih.logPages + numPages - v.freedPages }
  let st := st.flush (.inode ino) true
  if v.firstNeedFree then novaFreeLogBlocks st (oldHead / PAGE_SIZE) 1 else st

/-- `nova_inode_log_fast_gc`. -/
def novaInodeLogFastGc (st : State al) (ino currTail newBlock numPages : Nat) :
    Option (State al) := do
  let (st, v) ← fastLoop ino (pageLimit al) st
    { curr := st.nv.logHead ino
      lastPage := 0
      possibleHead := 0
      foundHead := false
      firstNeedFree := false
      checkedPages := 0
      freedPages := 0
      validBytes := 0 }
  let checkedPages := v.checkedPages - v.freedPages
  let st := fastFinish st ino currTail newBlock numPages v
  let blocks := blocksFor v.validBytes
  if needThoroughGc blocks checkedPages then
    novaInodeLogThoroughGc st ino blocks checkedPages
  else return st

-- === extension

/-- `nova_extend_inode_log`: the offset of the first new page, 0 for an
error. -/
def novaExtendInodeLog (ino : Nat) (st : State al) (currP : Nat) :
    Option (Nat × State al) :=
  if currP = 0 then
    match novaAllocateInodeLogPages st 1 with
    | (none, st) => some (0, st)
    | (some (allocated, newBlock), st) =>
      if allocated ≠ 1 then some (0, st)
      else
        let st := st.store (.logTail ino newBlock)
        let st := st.flush (.inode ino) false
        let st := st.store (.logHead ino newBlock)
        let st := st.setInfo ino { st.info ino with logPages := 1 }
        some (newBlock, st.flush (.inode ino) true)
  else
    let logPages := (st.info ino).logPages
    let numPages :=
      if logPages ≥ EXTEND_THRESHOLD then EXTEND_THRESHOLD else logPages
    match novaAllocateInodeLogPages st numPages with
    | (none, st) => some (0, st)
    | (some (allocated, newBlock), st) => do
      let st ← novaInodeLogFastGc st ino currP newBlock allocated
      return (newBlock, st)

/-- `nova_get_append_head` for the log of an inode: the position where an
entry of this size goes, 0 for an error. -/
def novaGetAppendHead (st : State al) (ino tail size : Nat) :
    Option (Nat × State al) := do
  let currP := if tail ≠ 0 then tail else st.nv.logTail ino
  let (p, _, st) ← appendHeadWith (novaExtendInodeLog ino) st currP size
  return (p, st)

/-- The walk of every reader of a log from `c` on, with the entries it
meets: at the end of a page go to the next one, read the entry there and
step over it, until `tail`. -/
def walkLoop (nv : Nvmm) (tail : Nat) : Nat → Nat → Option (List Nat)
  | 0, _ => none
  | rounds + 1, c =>
    if c = tail then some []
    else if c = 0 then none
    else
      let c := if gotoNextPage nv c then nextLogPage nv c else c
      if c = 0 then none
      -- a next-page mark or an unknown type
      else if (nv.slot c).size = 0 then none
      else (walkLoop nv tail rounds (c + (nv.slot c).size)).map (c :: ·)

/-- The entries of the log of an inode, from `log_head` to `log_tail`. -/
def walkLog (st : State al) (ino : Nat) : Option (List Nat) :=
  walkLoop st.nv (st.nv.logTail ino) (walkLimit al) (st.nv.logHead ino)

/-- The pages linked from `p` on. -/
def pageChain (nv : Nvmm) : Nat → Nat → List Nat
  | 0, _ => []
  | rounds + 1, p => if p = 0 then [] else p :: pageChain nv rounds (nv.next p)

/-- The pages of the log of an inode. -/
def logChain (st : State al) (ino : Nat) : List Nat :=
  pageChain st.nv (pageLimit al) (st.nv.logHead ino)

/-- `nova_update_tail_wwb`, and `nova_update_tail`. -/
def novaUpdateTail (st : State al) (ino newTail : Nat) : State al :=
  ((st.fence).store (.logTail ino newTail)).flush (.inode ino) true

end Themis.Log
