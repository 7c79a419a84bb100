/-
Listing a directory: `nova_readdir` (dir.c).

The walk over the log runs one entry ahead of the output: an entry is
offered to `dir_emit` when the next live one has been read, or behind the
tail. The position that is left in `ctx->pos` is the hash of the entry
that was not taken, and the next call looks it up in the tree.

# What comes from outside

What `dir_emit` answers: `accept k` for the `k`-th offer of a call. Where
the inode of an entry is and its mode there (`Children`); the code has them
from the mapping tables (`Children.ofTables`).
-/
import Themis.Dir
import Themis.InodeTable

namespace Themis.Readdir

open Lib Log Dir

variable {al : BlockAllocator}

/-- `READDIR_END`, that is `ULONG_MAX`. -/
def READDIR_END : Nat := 2 ^ 64 - 1

/-- The inodes the entries lead to: their places, and `i_mode` there. -/
structure Children where
  address : Nat → Except Int Nat
  mode : Nat → Nat

/-- The places as `nova_get_inode_address` finds them. -/
def Children.ofTables (t : InodeTables) (mode : Nat → Nat) : Children where
  address ino := ((t.novaGetInodeAddress ino).map .ok).getD (.error (-EINVAL))
  mode := mode

/-- `NOVA_ROOT_INO`. -/
def NOVA_ROOT_INO : Nat := 1

/-- `NOVA_ROOT_INO_START`. -/
def NOVA_ROOT_INO_START : Nat := 1024

/-- Where the record of an inode is, as `nova_iget` has it. -/
def recordOf (t : InodeTables) (ino : Nat) : Option Nat :=
  if ino = NOVA_ROOT_INO then some NOVA_ROOT_INO_START else t.novaGetInodeAddress ino

/-- `IF2DT`. -/
def if2dt (mode : Nat) : Nat := (mode &&& 0o170000) >>> 12

/-- What `dir_emit` is called with. -/
structure Emit where
  name : List UInt8
  ino : Nat
  type : Nat
  deriving Repr, DecidableEq

/-- How a call ends: with a result and `ctx->pos`, at a `BUG()`, or not
within the rounds it is given. -/
inductive Ending where
  | returned (ret : Int) (pos : Nat)
  | bug
  | unfinished
  deriving Repr, DecidableEq

/-- The offers of a call, each with its answer, and its end. -/
structure Listing where
  offers : List (Emit × Bool)
  ending : Ending

/-- The variables of the loop: `prev_entry` with `prev_child_pi`, `ino`,
`pos`, `ctx->pos`, and the offers so far. -/
structure Vars where
  prev : Option (Dentry × Nat)
  ino : Nat
  pos : Nat
  ctxPos : Nat
  offers : List (Emit × Bool)

/-- `dir_emit` for `prev_entry`, with the value of `ino`. -/
def dirEmit (c : Children) (accept : Nat → Bool) (prev : Dentry × Nat) (ino : Nat)
    (v : Vars) : Bool × Vars :=
  let ok := accept v.offers.length
  (ok, { v with offers := v.offers ++ [(⟨prev.1.name, ino, if2dt (c.mode prev.2)⟩, ok)] })

/-- `entry->ino > 0 && entry->invalid == 0`. -/
def isLive (nv : Nvmm) (a : Nat) (d : Dentry) : Bool := 0 < d.ino && nv.invalid a == 0

/-- Behind the loop: the last entry. -/
def lastEmit (c : Children) (accept : Nat → Bool) (v : Vars) : Listing :=
  match v.prev with
  | none => ⟨v.offers, .returned 0 READDIR_END⟩
  | some prev =>
    let r := dirEmit c accept prev v.ino v
    ⟨r.2.offers, .returned 0 (if r.1 then READDIR_END else v.ctxPos)⟩

/-- The loop of `nova_readdir`. -/
def readdirLoop (nv : Nvmm) (c : Children) (accept : Nat → Bool) (tail : Nat) :
    Nat → Nat → Vars → Listing
  | 0, _, v => ⟨v.offers, .unfinished⟩
  | rounds + 1, curr, v =>
    if curr = tail then lastEmit c accept v
    else
      let curr := if gotoNextPage nv curr then nextLogPage nv curr else curr
      if curr = 0 then ⟨v.offers, .bug⟩
      else
        match nv.slot curr with
        | .setAttr _ => readdirLoop nv c accept tail rounds (curr + 32) v
        | .linkChange _ => readdirLoop nv c accept tail rounds (curr + 32) v
        | .dirLog d =>
          if isLive nv curr d then
            let ino := d.ino
            let pos := bkdrHash d.name
            match c.address ino with
            | .error e => ⟨v.offers, .returned e READDIR_END⟩
            | .ok childPi =>
              match v.prev with
              | none =>
                readdirLoop nv c accept tail rounds (curr + d.deLen)
                  { v with prev := some (d, childPi), ino := ino, pos := pos,
                           ctxPos := pos }
              | some prev =>
                let r := dirEmit c accept prev ino v
                if r.1 then
                  readdirLoop nv c accept tail rounds (curr + d.deLen)
                    { r.2 with prev := some (d, childPi), ino := ino, pos := pos,
                               ctxPos := pos }
                else ⟨r.2.offers, .returned 0 v.ctxPos⟩
          else
            readdirLoop nv c accept tail rounds (curr + d.deLen)
              { v with ctxPos := v.pos }
        | _ => ⟨v.offers, .bug⟩

/-- `nova_find_next_dentry_addr`; 0 if there is none. -/
def novaFindNextDentryAddr (st : State al) (dir pos : Nat) : Nat :=
  ((st.info dir).tree.gangLookup pos).getD 0

/-- Where the loop starts; `none` is `goto out`. -/
def startAt (st : State al) (dir pos : Nat) : Option Nat :=
  if pos = 0 then some (st.nv.logHead dir)
  else if pos = READDIR_END then none
  else
    let curr := novaFindNextDentryAddr st dir pos
    if curr = 0 then none else some curr

/-- `nova_readdir` with `ctx->pos`. -/
def novaReaddir (st : State al) (dir : Nat) (c : Children) (accept : Nat → Bool)
    (pos : Nat) : Listing :=
  if st.nv.logHead dir = 0 then ⟨[], .bug⟩
  else
    match startAt st dir pos with
    | none => ⟨[], .returned 0 pos⟩
    | some curr =>
      readdirLoop st.nv c accept (st.nv.logTail dir) (walkLimit al) curr
        ⟨none, 0, pos, pos, []⟩

/-- What `dir_emit` took. -/
def Listing.accepted (l : Listing) : List Emit :=
  (l.offers.filter Prod.snd).map Prod.fst

/-- `n` calls in a row, each from the position the one before left;
`accepts k` are the answers in the `k`-th one. -/
def listDir (st : State al) (dir : Nat) (c : Children) (accepts : Nat → Nat → Bool) :
    Nat → Nat → Nat → List Emit × Ending
  | 0, _, pos => ([], .returned 0 pos)
  | n + 1, k, pos =>
    let l := novaReaddir st dir c (accepts k) pos
    match l.ending with
    | .returned 0 pos =>
      let r := listDir st dir c accepts n (k + 1) pos
      (l.accepted ++ r.1, r.2)
    | ending => (l.accepted, ending)

end Themis.Readdir
