/-
What a listing of a directory offers to `dir_emit`, and which names the
user gets over several calls.

# One entry ahead

What a call does follows from the live entries it reads, `ahead`, alone
(`readdirLoop_eq`): an entry goes out when the next one has been read, with
the number read last, which is that of its successor. `readdir_pairs_iff`
says when that does no harm.

# Several calls

A call that comes to the tail leaves the hash of the first entry that was
refused (`listingOf_tail`). In the tree that hash leads back to the same
entry (`startAt_hash`), so the next call goes on with it.
-/
import Themis.Readdir
import Themis.Proofs.Dir.Run

namespace Themis.Readdir

open Lib Log Dir File List Option

variable {al : BlockAllocator} {nv : Nvmm} {c : Children} {accept : Nat → Bool}
  {st : State al} {dir tail rounds curr k pos : Nat} {v : Vars} {d : Dentry}
  {D : List Dentry} {early : Option Ending}

-- === the entries of one call

/-- The live entries that the loop reads from `curr` on, and how it ends
if it does not come to the tail: the log ends or an entry is of another
type (`BUG()`), or an inode has no address. -/
def ahead (nv : Nvmm) (c : Children) (tail : Nat) : Nat → Nat → List Dentry × Option Ending
  | 0, _ => ([], some .unfinished)
  | rounds + 1, curr =>
    if curr = tail then ([], none)
    else
      let curr := land nv curr
      if curr = 0 then ([], some .bug)
      else
        match nv.slot curr with
        | .setAttr _ => ahead nv c tail rounds (curr + 32)
        | .linkChange _ => ahead nv c tail rounds (curr + 32)
        | .dirLog d =>
          if isLive nv curr d then
            match c.address d.ino with
            | .error e => ([], some (.returned e READDIR_END))
            | .ok _ =>
              let r := ahead nv c tail rounds (curr + d.deLen)
              (d :: r.1, r.2)
          else ahead nv c tail rounds (curr + d.deLen)
        | _ => ([], some .bug)

/-- The type that is offered with a record. -/
def typeOf (c : Children) (d : Dentry) : Nat :=
  match c.address d.ino with
  | .ok childPi => if2dt (c.mode childPi)
  | .error _ => 0

/-- The type of a child that is found. -/
theorem typeOf_eq {pi : Nat} (h : c.address d.ino = .ok pi) : typeOf c d = if2dt (c.mode pi) := by
  simp [typeOf, h]

/-- The offers for the entries read, and the end of the call: each entry
goes out with the number of the next one, the last one with its own. -/
def listingOf (c : Children) (accept : Nat → Bool) : Nat → List Dentry → Option Ending →
    Listing
  | _, [], early => ⟨[], early.getD (.returned 0 READDIR_END)⟩
  | _, [_], some e => ⟨[], e⟩
  | k, [d], none =>
    ⟨[(⟨d.name, d.ino, typeOf c d⟩, accept k)],
      .returned 0 (if accept k then READDIR_END else bkdrHash d.name)⟩
  | k, d :: d' :: D, early =>
    if accept k then
      let r := listingOf c accept (k + 1) (d' :: D) early
      ⟨(⟨d.name, d'.ino, typeOf c d⟩, true) :: r.offers, r.ending⟩
    else ⟨[(⟨d.name, d'.ino, typeOf c d⟩, false)], .returned 0 (bkdrHash d.name)⟩

/-- What the variables say about `prev_entry`: its inode, its number and
its hash. -/
def Vars.Kept (c : Children) (v : Vars) : Prop :=
  ∀ prev, v.prev = some prev → c.address prev.1.ino = .ok prev.2 ∧ v.ino = prev.1.ino ∧
    v.pos = bkdrHash prev.1.name ∧ v.ctxPos = bkdrHash prev.1.name

/-- The record that waits to be offered. -/
def Vars.waiting (v : Vars) : List Dentry := (v.prev.map Prod.fst).toList

/-- The offers so far, in front. -/
def Listing.after (l : Listing) (offers : List (Emit × Bool)) : Listing :=
  ⟨offers ++ l.offers, l.ending⟩

/-- A listing that ends early. -/
theorem listingOf_early (v : Vars) (e : Ending) :
    ⟨v.offers, e⟩ = (listingOf c accept k (v.waiting ++ []) (some e)).after v.offers := by
  obtain ⟨_ | prev, ino, pos, ctxPos, offers⟩ := v <;>
    simp [Vars.waiting, listingOf, Listing.after]

/-- The loop lists what is ahead. -/
theorem readdirLoop_eq (hv : v.Kept c) : readdirLoop nv c accept tail rounds curr v =
      (listingOf c accept v.offers.length (v.waiting ++ (ahead nv c tail rounds curr).1)
        (ahead nv c tail rounds curr).2).after v.offers := by
  have hland : ∀ a, (if gotoNextPage nv a then nextLogPage nv a else a) = land nv a :=
    fun _ => rfl
  induction rounds generalizing curr v with
  | zero => exact listingOf_early v _
  | succ rounds ih =>
    simp only [readdirLoop, ahead, hland]
    by_cases htail : curr = tail
    · -- behind the tail
      simp only [if_pos htail]
      obtain ⟨_ | prev, ino, pos, ctxPos, offers⟩ := v
      · simp [lastEmit, Vars.waiting, listingOf, Listing.after]
      obtain ⟨hpi, hino, -, hctx⟩ := hv prev rfl
      simp only at hino hctx
      simp [lastEmit, dirEmit, Vars.waiting, listingOf, Listing.after, typeOf_eq hpi, hino, hctx]
    simp only [if_neg htail]
    by_cases hnull : land nv curr = 0
    · simp only [if_pos hnull]
      exact listingOf_early v _
    simp only [if_neg hnull]
    generalize land nv curr = a
    cases hs : nv.slot a with
    | setAttr e => exact ih hv
    | linkChange e => exact ih hv
    | dirLog d =>
      by_cases hlive : isLive nv a d
      · simp only [if_pos hlive]
        cases haddr : c.address d.ino with
        | error e => exact listingOf_early v _
        | ok pi =>
          have hkept : ∀ offers, (Vars.mk (some (d, pi)) d.ino (bkdrHash d.name)
              (bkdrHash d.name) offers).Kept c := by
            intro offers prev hprev
            simp only [some.injEq] at hprev
            rw [← hprev]
            exact ⟨haddr, rfl, rfl, rfl⟩
          obtain ⟨_ | prev, ino, pos, ctxPos, offers⟩ := v
          · exact ih (hkept _)
          obtain ⟨hpi, -, -, hctx⟩ := hv prev rfl
          simp only at hctx
          cases hok : accept offers.length with
          | true =>
            simp only [dirEmit, hok, if_true]
            rw [ih (hkept _)]
            simp [Vars.waiting, listingOf, Listing.after, hok, typeOf_eq hpi]
          | false =>
            simp [dirEmit, hok, Vars.waiting, listingOf, Listing.after, typeOf_eq hpi, hctx]
      -- a dead entry: `ctx->pos` is set to `pos` once more
      simp only [if_neg hlive]
      apply ih
      intro prev hprev
      obtain ⟨h1, h2, h3, -⟩ := hv prev hprev
      exact ⟨h1, h2, h3, h3⟩
    | _ => exact listingOf_early v _

/-- The live entries that a call reads. -/
def entriesRead (st : State al) (dir : Nat) (c : Children) (pos : Nat) :
    List Dentry × Option Ending :=
  if st.nv.logHead dir = 0 then ([], some .bug)
  else
    match startAt st dir pos with
    | none => ([], some (.returned 0 pos))
    | some curr => ahead st.nv c (st.nv.logTail dir) (walkLimit al) curr

/-- A listing, from the entries read. -/
theorem novaReaddir_eq : novaReaddir st dir c accept pos =
      listingOf c accept 0 (entriesRead st dir c pos).1 (entriesRead st dir c pos).2 := by
  unfold novaReaddir entriesRead
  by_cases hhead : st.nv.logHead dir = 0
  · simp only [if_pos hhead]
    rfl
  simp only [if_neg hhead]
  cases startAt st dir pos with
  | none => rfl
  | some curr => exact readdirLoop_eq (fun prev hprev => by cases hprev)

-- === names and numbers

/-- The `i`-th entry read is offered, if the call has made `k` offers: all
in front of it were taken, and if the listing breaks off it is not the
last. -/
def Offered (accept : Nat → Bool) (k : Nat) (r : List Dentry × Option Ending) (i : Nat) : Prop :=
  (∀ j < i, accept (k + j) = true) ∧ (r.1.length = i + 1 → r.2 = none)

/-- The next record is offered. -/
theorem offered_succ {d' : Dentry} {i : Nat} :
    Offered accept k (d :: d' :: D, early) (i + 1) ↔
      accept k = true ∧ Offered accept (k + 1) (d' :: D, early) i := by
  constructor
  · rintro ⟨hacc, hlast⟩
    refine ⟨hacc 0 (Nat.succ_pos i), fun j hj => ?_, fun hlen => hlast (by simpa using hlen)⟩
    rw [show k + 1 + j = k + (j + 1) by omega]
    exact hacc (j + 1) (by omega)
  rintro ⟨hfirst, hacc, hlast⟩
  refine ⟨fun j hj => ?_, fun hlen => hlast (by simpa using hlen)⟩
  cases j with
  | zero => exact hfirst
  | succ j =>
    rw [show k + (j + 1) = k + 1 + j by omega]
    exact hacc j (by omega)

/-- The offers of a listing: an entry that is offered goes out with the
number of the next one. -/
theorem listingOf_offers {i : Nat} {o : Emit × Bool} :
    (listingOf c accept k D early).offers[i]? = some o ↔
      ∃ d, D[i]? = some d ∧ Offered accept k (D, early) i ∧
        (⟨d.name, (D[i + 1]?.getD d).ino, typeOf c d⟩, accept (k + i)) = o := by
  induction D generalizing k i with
  | nil => simp [listingOf]
  | cons d D ih =>
    cases D with
    | nil =>
      cases early with
      | none => cases i <;> simp [listingOf, Offered]
      | some e => cases i <;> simp [listingOf, Offered]
    | cons d' D =>
      cases i with
      | zero => cases hok : accept k <;> simp [listingOf, Offered, hok]
      | succ i =>
        rw [show k + (i + 1) = k + 1 + i by omega]
        simp only [offered_succ, getElem?_cons_succ]
        cases hok : accept k with
        | true => simpa [listingOf, hok] using ih
        | false => simp [listingOf, hok]

/-- The type of an inode. -/
def ownType (t : InodeTables) (mode : Nat → Nat) (ino : Nat) : Nat :=
  ((recordOf t ino).map fun a => if2dt (mode a)).getD 0

/-- Every offer has the name, the inode number and the type of the entry
it is for. -/
def Paired (t : InodeTables) (mode : Nat → Nat) (D : List Dentry) (offers : List (Emit × Bool)) :
    Prop :=
  ∀ (i : Nat) (offer : Emit × Bool), offers[i]? = some offer →
    ∃ d, D[i]? = some d ∧ offer.1 = ⟨d.name, d.ino, ownType t mode d.ino⟩

/-- Only the root is not where the mapping tables lead. -/
theorem typeOf_ofTables {t : InodeTables} {mode : Nat → Nat} (h : d.ino ≠ NOVA_ROOT_INO) :
    typeOf (.ofTables t mode) d = ownType t mode d.ino := by
  simp only [typeOf, ownType, recordOf, if_neg h, Children.ofTables]
  cases t.novaGetInodeAddress d.ino <;> rfl

/-- In a call of `nova_readdir` names go out with their own inode numbers
and types exactly if, for every entry that is offered, the one read next
has its number, and, if it is the root's, what the mapping tables lead to
for the root has the root's type. -/
theorem readdir_pairs_iff (st : State al) (dir : Nat) (t : InodeTables) (mode : Nat → Nat)
    (accept : Nat → Bool) (pos : Nat) :
    let c := Children.ofTables t mode
    let r := entriesRead st dir c pos
    Paired t mode r.1 (novaReaddir st dir c accept pos).offers ↔
      ∀ i d, r.1[i]? = some d → Offered accept 0 r i →
        (∀ d', r.1[i + 1]? = some d' → d'.ino = d.ino) ∧
        (d.ino = NOVA_ROOT_INO → typeOf c d = if2dt (mode NOVA_ROOT_INO_START)) := by
  intro c r
  rw [novaReaddir_eq]
  constructor
  · intro h i d hd hoff
    obtain ⟨d', hd', hpair⟩ := h i _ (listingOf_offers.2 ⟨d, hd, hoff, rfl⟩)
    rw [hd, some.injEq] at hd'
    rw [← hd', Emit.mk.injEq] at hpair
    constructor
    · intro next hnext
      have hino := hpair.2.1
      rw [show (entriesRead st dir c pos).1[i + 1]? = _ from hnext] at hino
      exact hino
    · intro hroot
      rw [hpair.2.2, hroot]
      rfl
  intro h i offer hoffer
  obtain ⟨d, hd, hoff, rfl⟩ := listingOf_offers.1 hoffer
  obtain ⟨hnext, hroot⟩ := h i d hd hoff
  refine ⟨d, hd, ?_⟩
  rw [Emit.mk.injEq]
  refine ⟨rfl, ?_, ?_⟩
  · cases hn : r.1[i + 1]? with
    | none => rfl
    | some d' => exact hnext d' hn
  · by_cases hino : d.ino = NOVA_ROOT_INO
    · rw [hroot hino, hino]
      rfl
    · exact typeOf_ofTables hino

/-- Some children. -/
def someChildren : Children where
  address := fun ino => .ok (ino * 128)
  mode := fun _ => 0o040755

/-- One page of inodes, at 8192. -/
def onePage : InodeTables := ⟨1, fun _ k => if k = 0 then 8192 else 0, fun _ => ⟨0, 0, 0, 0⟩⟩

/-- Inode 18 and the root are directories; the record of inode 1 on the
page of inodes is all zero. -/
def someModes (a : Nat) : Nat := if a = 8192 + 18 * 128 ∨ a = 1024 then 0o040755 else 0

/-- A directory with the dots. -/
def rootDir : State (BlockAllocator.ascending 64) :=
  let st := (novaAppendDirInitEntries newDir 1 1 1 0).2
  (Dir.reload st 1).getD st

/-- A new directory, inode 18 under 1: "." is offered with the number of
"..", and ".." with type 0. In the root both are offered with type 0. -/
theorem readdir_mispairs :
    let c := Children.ofTables onePage someModes
    (novaReaddir firstDir 18 c (fun _ => true) 0).offers =
        [(⟨dot, 1, 4⟩, true), (⟨dotdot, 1, 0⟩, true)] ∧
      ¬ Paired onePage someModes (entriesRead firstDir 18 c 0).1
        (novaReaddir firstDir 18 c (fun _ => true) 0).offers ∧
      (novaReaddir rootDir 1 c (fun _ => true) 0).offers =
        [(⟨dot, 1, 0⟩, true), (⟨dotdot, 1, 0⟩, true)] ∧
      ¬ Paired onePage someModes (entriesRead rootDir 1 c 0).1
        (novaReaddir rootDir 1 c (fun _ => true) 0).offers := by
  intro c
  have hfirst : (novaReaddir firstDir 18 c (fun _ => true) 0).offers =
      [(⟨dot, 1, 4⟩, true), (⟨dotdot, 1, 0⟩, true)] := by decide +kernel
  have hroot : (novaReaddir rootDir 1 c (fun _ => true) 0).offers =
      [(⟨dot, 1, 0⟩, true), (⟨dotdot, 1, 0⟩, true)] := by decide +kernel
  -- what should go out first
  have hown : ((entriesRead firstDir 18 c 0).1[0]?.map fun d => d.ino) = some 18 ∧
      ownType onePage someModes 1 = 4 := by decide +kernel
  refine ⟨hfirst, fun h => ?_, hroot, fun h => ?_⟩
  · obtain ⟨d, hd, hoffer⟩ := h 0 (⟨dot, 1, 4⟩, true) (by rw [hfirst]; rfl)
    rw [hd, map_some, some.injEq] at hown
    rw [Emit.mk.injEq, hown.1] at hoffer
    exact absurd hoffer.2.1 (by decide)
  · obtain ⟨d, hd, hoffer⟩ := h 0 (⟨dot, 1, 0⟩, true) (by rw [hroot]; rfl)
    rw [Emit.mk.injEq] at hoffer
    rw [← hoffer.2.1, hown.2] at hoffer
    exact absurd hoffer.2.2 (by decide)

-- === several calls

/-- The live record at a place. -/
def liveAt (nv : Nvmm) (a : Nat) : Option Dentry :=
  match nv.slot a with
  | .dirLog d => if isLive nv a d then some d else none
  | _ => none

/-- When there is one. -/
theorem liveAt_eq_some {a : Nat} :
    liveAt nv a = some d ↔ nv.slot a = .dirLog d ∧ d.ino ≠ 0 ∧ nv.invalid a = 0 := by
  unfold liveAt
  split
  · rename_i e he
    rw [he, LogEntry.dirLog.injEq, ite_none_right_eq_some, some.injEq]
    simp only [isLive, Bool.and_eq_true, decide_eq_true_eq, beq_iff_eq, Nat.pos_iff_ne_zero]
    constructor
    · rintro ⟨h, rfl⟩
      exact ⟨rfl, h⟩
    · rintro ⟨rfl, h⟩
      exact ⟨h, rfl⟩
  rename_i hother
  simp only [reduceCtorEq, false_iff, not_and]
  intro he
  exact absurd he (hother d)

/-- The live entries of a log. -/
def liveOf (nv : Nvmm) (ents : List Nat) : List Dentry := ents.filterMap (liveAt nv)

/-- An entry a listing can pass. -/
def ListEntry : LogEntry → Prop
  | .dirLog _ => True
  | .setAttr _ => True
  | .linkChange _ => True
  | _ => False

/-- A directory as the listing needs it: the live entries have hashes of
their own other than 0 and `READDIR_END`, their inodes have addresses, and
the tree holds them and nothing else. -/
structure Listable (st : State al) (dir : Nat) (c : Children) (ents : List Nat) : Prop where
  entry : ∀ a ∈ ents, ListEntry (st.nv.slot a)
  resolves : ∀ a ∈ ents, ∀ d, liveAt st.nv a = some d → ∃ pi, c.address d.ino = .ok pi
  hash : ∀ a ∈ ents, ∀ d, liveAt st.nv a = some d →
    bkdrHash d.name ≠ 0 ∧ bkdrHash d.name ≠ READDIR_END
  distinct : ((liveOf st.nv ents).map fun d => bkdrHash d.name).Nodup
  tree : ∀ i a, (st.info dir).tree.get i = some a ↔
    a ∈ ents ∧ ∃ d, liveAt st.nv a = some d ∧ bkdrHash d.name = i

/-- A directory between two operations can be listed, if its names have
hashes that a position can have and its inodes have addresses. -/
theorem listable_of_dirOk {U : Set (List UInt8)} {L pages : List Nat} (h : DirOk U st dir L pages)
    (hhash : ∀ name, Known U name → bkdrHash name ≠ 0 ∧ bkdrHash name ≠ READDIR_END)
    (hres : ∀ ino, ∃ pi, c.address ino = .ok pi) : Listable st dir c L := by
  have hlisted := h.dirAt.listed
  have htree := h.dirAt.tree
  rw [append_nil] at hlisted htree
  refine ⟨?_, fun a _ d _ => hres d.ino, ?_, ?_, ?_⟩
  · intro a ha
    have hok := hlisted.ok a ha
    cases hs : st.nv.slot a with
    | dirLog d => trivial
    | setAttr e => trivial
    | linkChange e => trivial
    | _ => rw [hs] at hok; exact hok
  · intro a ha d hd
    have hok := hlisted.ok a ha
    rw [(liveAt_eq_some.1 hd).1] at hok
    exact hhash d.name hok.2
  · rw [List.Nodup, pairwise_map, liveOf, pairwise_filterMap]
    apply hlisted.once.imp
    intro a b hab d hd e he heq
    obtain ⟨h1, h2, h3⟩ := liveAt_eq_some.1 hd
    exact hab _ ⟨d, h1, h2, h3, heq⟩ ⟨e, (liveAt_eq_some.1 he).1, rfl⟩
  intro i a
  rw [htree i a]
  apply and_congr_right
  intro _
  constructor
  · rintro ⟨d, h1, h2, h3, h4⟩
    exact ⟨d, liveAt_eq_some.2 ⟨h1, h2, h3⟩, h4⟩
  rintro ⟨d, hd, h4⟩
  obtain ⟨h1, h2, h3⟩ := liveAt_eq_some.1 hd
  exact ⟨d, h1, h2, h3, h4⟩

/-- What is ahead on a walk. -/
theorem ahead_walk {X : List Nat} (hwalk : WalkTo nv tail curr X tail)
    (hentry : ∀ a ∈ X, ListEntry (nv.slot a))
    (hres : ∀ a ∈ X, ∀ d, liveAt nv a = some d → ∃ pi, c.address d.ino = .ok pi)
    (hrounds : X.length < rounds) : ahead nv c tail rounds curr = (liveOf nv X, none) := by
  induction X generalizing rounds curr with
  | nil =>
    obtain ⟨rounds, rfl⟩ := Nat.exists_eq_succ_of_ne_zero (Nat.ne_of_gt hrounds)
    have htail : tail = curr := hwalk
    simp [ahead, htail, liveOf]
  | cons a X ih =>
    obtain ⟨rounds, rfl⟩ := Nat.exists_eq_succ_of_ne_zero (by omega : rounds ≠ 0)
    obtain ⟨hne, -, ha, ha0, -, -, hrest⟩ := hwalk
    have hgo := ih hrest (fun b hb => hentry b (mem_cons_of_mem _ hb))
      (fun b hb => hres b (mem_cons_of_mem _ hb))
      (by simpa using hrounds : X.length < rounds)
    have hd := hres a mem_cons_self
    have he := hentry a mem_cons_self
    simp only [ahead, if_neg hne, ← ha, if_neg ha0, liveOf, filterMap_cons]
    cases hs : nv.slot a with
    | setAttr e => simpa [liveAt, hs, LogEntry.size, liveOf] using hgo
    | linkChange e => simpa [liveAt, hs, LogEntry.size, liveOf] using hgo
    | dirLog d =>
      rw [hs] at hgo
      simp only [LogEntry.size] at hgo
      by_cases hlive : isLive nv a d
      · obtain ⟨pi, hpi⟩ := hd d (by simp [liveAt, hs, hlive])
        simp [liveAt, hs, hlive, hpi, hgo, liveOf]
      · simp [liveAt, hs, hlive, hgo, liveOf]
    | _ => simp [ListEntry, hs] at he

/-- The position of the next record. -/
def posOf : List Dentry → Nat
  | [] => READDIR_END
  | d :: _ => bkdrHash d.name

/-- A listing offers the front part. -/
theorem listingOf_tail (c : Children) (accept : Nat → Bool) (k : Nat) (D : List Dentry) :
    ∃ E R, D = E ++ R ∧ (listingOf c accept k D none).ending = .returned 0 (posOf R) ∧
      (listingOf c accept k D none).accepted.map Emit.name = E.map Dentry.name := by
  induction D generalizing k with
  | nil => exact ⟨[], [], rfl, rfl, rfl⟩
  | cons d D ih =>
    cases hok : accept k with
    | false =>
      refine ⟨[], d :: D, rfl, ?_, ?_⟩
      · cases D <;> simp [listingOf, hok, posOf]
      · cases D <;> simp [listingOf, hok, Listing.accepted]
    | true =>
      obtain ⟨E, R, hD, hend, hnames⟩ := ih (k + 1)
      refine ⟨d :: E, R, by rw [hD, cons_append], ?_, ?_⟩
      · cases D with
        | nil =>
          obtain ⟨-, rfl⟩ := append_eq_nil_iff.1 hD.symm
          simp [listingOf, hok, posOf]
        | cons d' D =>
          simp only [listingOf, hok, if_true]
          exact hend
      cases D with
      | nil =>
        obtain ⟨rfl, -⟩ := append_eq_nil_iff.1 hD.symm
        simp [listingOf, hok, Listing.accepted]
      | cons d' D =>
        simp only [listingOf, hok, if_true, map_cons, ← hnames]
        simp [Listing.accepted]

section Calls

variable {F : List Page} {T : Page} {rest : List Nat} {X Y : List Nat} {a : Nat}

/-- A walk stops at every entry. -/
theorem entry_at (h : Readable nv al.numBlocks dir F T rest) (ha : a ∈ entsOf F ++ T.ents) :
    land nv a = a ∧ a ≠ T.stop ∧ a ≠ 0 := by
  rcases mem_append.1 ha with haF | haT
  · obtain ⟨w, hw, haw⟩ := mem_entsOf.1 haF
    have hholds := (h.log.full w hw).toHolds
    obtain ⟨h1, h2, h3, -⟩ := hholds.seg.mem haw
    have hpos := hholds.isPage.2
    refine ⟨land_entry hholds.isPage h1 h2 h3, ?_, by omega⟩
    intro heq
    have hoff := hholds.blockOff_ent haw
    rw [heq, h.log.last.blockOff_stop] at hoff
    exact h.log.base_ne hw hoff.symm
  obtain ⟨h1, h2, h3, -⟩ := h.log.last.seg.mem haT
  have hpos := h.log.last.isPage.2
  exact ⟨land_entry h.log.last.isPage h1 h2 h3, (h.log.last.seg.lt_stop haT).ne, by omega⟩

/-- A walk that starts at an entry. -/
theorem walk_from_entry {t e : Nat} (hwalk : WalkTo nv t curr (X ++ a :: Y) e)
    (hland : land nv a = a) (hne : a ≠ t) : WalkTo nv t a (a :: Y) e := by
  induction X generalizing curr with
  | nil =>
    obtain ⟨-, -, -, h0, h1, h2, h3⟩ := hwalk
    exact ⟨hne, h0, hland.symm, h0, h1, h2, h3⟩
  | cons b X ih =>
    obtain ⟨-, -, -, -, -, -, hrest⟩ := hwalk
    exact ih hrest

/-- A hash is a position. -/
theorem startAt_hash (h : Listable st dir c (entsOf F ++ T.ents))
    (hr : Readable st.nv al.numBlocks dir F T rest) (ha : a ∈ entsOf F ++ T.ents)
    (hd : liveAt st.nv a = some d) : startAt st dir (bkdrHash d.name) = some a := by
  obtain ⟨h0, hend⟩ := h.hash a ha d hd
  have hget := (h.tree (bkdrHash d.name) a).2 ⟨ha, d, hd, rfl⟩
  have hfind : (st.info dir).tree.gangLookup (bkdrHash d.name) = some a := by
    cases hg : (st.info dir).tree.gangLookup (bkdrHash d.name) with
    | none =>
      rw [Radix.gangLookup_eq_none hg le_rfl] at hget
      cases hget
    | some b =>
      obtain ⟨j, hj, hb, hleast⟩ := Radix.gangLookup_eq_some hg
      rcases Nat.eq_or_lt_of_le hj with rfl | hlt
      · rw [← hb, hget]
      · rw [hleast _ le_rfl hlt] at hget
        cases hget
  obtain ⟨-, -, hnz⟩ := entry_at hr ha
  simp [startAt, h0, hend, novaFindNextDentryAddr, hfind, hnz]

/-- The entries still to be listed when `ctx->pos` is `pos`: all of them at
the start, none at the end, and otherwise those from the one whose hash it
is. -/
def Remaining (L R : List Dentry) (pos : Nat) : Prop :=
  (pos = 0 ∧ R = L) ∨ (pos = posOf R ∧ ∃ E, L = E ++ R)

/-- What is read from a position. -/
theorem entriesRead_remaining {R : List Dentry} (h : Listable st dir c (entsOf F ++ T.ents))
    (hr : Readable st.nv al.numBlocks dir F T rest)
    (hrem : Remaining (liveOf st.nv (entsOf F ++ T.ents)) R pos) :
    entriesRead st dir c pos = (R, none) ∨
      (R = [] ∧ entriesRead st dir c pos = ([], some (.returned 0 READDIR_END))) := by
  have hhead := hr.logHead_ne_zero
  have hwalk := hr.log.walk hr.used
  rw [← hr.head] at hwalk
  have hlimit := ents_lt_walkLimit hr.log hr.onDevice
  rcases hrem with ⟨rfl, rfl⟩ | ⟨rfl, E, hE⟩
  · -- from the head
    left
    simp only [entriesRead, if_neg hhead, startAt, if_true, hr.tail]
    exact ahead_walk hwalk h.entry h.resolves hlimit
  cases R with
  | nil =>
    right
    have hend : READDIR_END ≠ 0 := by decide
    simp [entriesRead, hhead, posOf, startAt, hend]
  | cons d R =>
    left
    -- the place of the entry in the log
    obtain ⟨X, W, hXW, -, hW⟩ := filterMap_eq_append_iff.1 hE
    obtain ⟨X', a, Y, rfl, -, had, hY⟩ := filterMap_eq_cons_iff.1 hW
    have ha : a ∈ entsOf F ++ T.ents := by
      rw [hXW]
      simp
    have hsub : ∀ b ∈ a :: Y, b ∈ entsOf F ++ T.ents := by
      intro b hb
      rw [hXW]
      exact mem_append_right _ (mem_append_right _ hb)
    obtain ⟨hland, hne, -⟩ := entry_at hr ha
    rw [hXW, ← append_assoc] at hwalk
    have hgo := walk_from_entry hwalk hland hne
    have hlen : (a :: Y).length < walkLimit al := by
      rw [hXW] at hlimit
      simp only [length_append, length_cons] at hlimit ⊢
      omega
    have hread := ahead_walk hgo (fun b hb => h.entry b (hsub b hb))
      (fun b hb => h.resolves b (hsub b hb)) hlen
    simp only [entriesRead, if_neg hhead, posOf, startAt_hash h hr ha had, hr.tail]
    rw [hread]
    simp [liveOf, had, hY]

/-- Calls one after another list a front part. -/
theorem listDir_names (h : Listable st dir c (entsOf F ++ T.ents))
    (hr : Readable st.nv al.numBlocks dir F T rest) (accepts : Nat → Nat → Bool) (n : Nat)
    {R : List Dentry} (hrem : Remaining (liveOf st.nv (entsOf F ++ T.ents)) R pos) :
    ∃ E R' pos', R = E ++ R' ∧
      (listDir st dir c accepts n k pos).1.map Emit.name = E.map Dentry.name ∧
      (listDir st dir c accepts n k pos).2 = .returned 0 pos' ∧
      Remaining (liveOf st.nv (entsOf F ++ T.ents)) R' pos' := by
  induction n generalizing k pos R with
  | zero => exact ⟨[], R, pos, rfl, rfl, rfl, hrem⟩
  | succ n ih =>
    -- one call
    obtain ⟨E, R1, hR, hend, hnames⟩ : ∃ E R1, R = E ++ R1 ∧
        (novaReaddir st dir c (accepts k) pos).ending = .returned 0 (posOf R1) ∧
        (novaReaddir st dir c (accepts k) pos).accepted.map Emit.name = E.map Dentry.name := by
      rw [novaReaddir_eq]
      rcases entriesRead_remaining h hr hrem with hread | ⟨rfl, hread⟩
      · rw [hread]
        exact listingOf_tail c (accepts k) 0 R
      · rw [hread]
        exact ⟨[], [], rfl, rfl, rfl⟩
    have hrem1 : Remaining (liveOf st.nv (entsOf F ++ T.ents)) R1 (posOf R1) := by
      right
      refine ⟨rfl, ?_⟩
      rcases hrem with ⟨-, hL⟩ | ⟨-, E', hL⟩
      · exact ⟨E, by rw [← hL, hR]⟩
      · exact ⟨E' ++ E, by rw [hL, hR, append_assoc]⟩
    obtain ⟨E2, R', pos', hR', hnames', hend', hrem'⟩ := ih (k := k + 1) hrem1
    refine ⟨E ++ E2, R', pos', by rw [hR, hR', append_assoc], ?_, ?_, hrem'⟩
    · simp only [listDir, hend, map_append, hnames, hnames']
    · simp only [listDir, hend, hend']

end Calls

/-- However often `dir_emit` refuses, the names it took are the live names
in the order of the log as far as the listing came, and at its end each of
them was taken once and no other. -/
theorem readdir_lists_once {F : List Page} {T : Page} {rest : List Nat}
    (h : Listable st dir c (entsOf F ++ T.ents))
    (hr : Readable st.nv al.numBlocks dir F T rest) (accepts : Nat → Nat → Bool) (n : Nat) :
    ∃ pos, (listDir st dir c accepts n 0 0).2 = .returned 0 pos ∧
      (listDir st dir c accepts n 0 0).1.map Emit.name <+:
        (liveOf st.nv (entsOf F ++ T.ents)).map Dentry.name ∧
      (pos = READDIR_END → ∀ name, ((listDir st dir c accepts n 0 0).1.map Emit.name).count name =
          if name ∈ (liveOf st.nv (entsOf F ++ T.ents)).map Dentry.name then 1 else 0) := by
  obtain ⟨E, R, pos, hL, hnames, hend, hrem⟩ :=
    listDir_names (k := 0) h hr accepts n (.inl ⟨rfl, rfl⟩)
  refine ⟨pos, hend, ?_, ?_⟩
  · rw [hnames, hL, map_append]
    exact prefix_append _ _
  intro hpos name
  have hR : R = [] := by
    rcases hrem with ⟨h0, -⟩ | ⟨hR, E', hE'⟩
    · rw [h0] at hpos
      exact absurd hpos (by decide)
    cases R with
    | nil => rfl
    | cons d R =>
      have hmem : d ∈ liveOf st.nv (entsOf F ++ T.ents) := by
        rw [hE']
        simp
      obtain ⟨a, ha, had⟩ := mem_filterMap.1 hmem
      rw [hR] at hpos
      exact absurd hpos (h.hash a ha d had).2
  have hnodup : ((liveOf st.nv (entsOf F ++ T.ents)).map Dentry.name).Nodup := by
    apply List.Nodup.of_map bkdrHash
    rw [List.map_map]
    exact h.distinct
  rw [hnames, show E = liveOf st.nv (entsOf F ++ T.ents) by rw [hL, hR, append_nil]]
  split
  · rename_i hmem
    exact count_eq_one_of_mem hnodup hmem
  · rename_i hmem
    exact count_eq_zero_of_not_mem hmem

/-- After a rename from "a" to "b", with a buffer for one name a call:
four calls, and the dead "a" is not among the names. -/
theorem readdir_lists_once_renamed :
    (listDir renamedDir 18 someChildren (fun _ j => j = 0) 4 0 0).2 = .returned 0 READDIR_END ∧
      (listDir renamedDir 18 someChildren (fun _ j => j = 0) 4 0 0).1.map Emit.name
        = [dot, dotdot, [98]] ∧ ∃ ents : List Nat, ∀ name,
        ((listDir renamedDir 18 someChildren (fun _ j => j = 0) 4 0 0).1.map Emit.name).count name
        = if name ∈ (liveOf renamedDir.nv ents).map Dentry.name then 1 else 0 := by
  obtain ⟨m, hm⟩ := renamedDir_run
  obtain ⟨⟨L, pages, hok⟩, -⟩ := hm.ok names_ab
  obtain ⟨F, T, rest, hr, -, rfl, -⟩ := hok.readable
  have hhash : ∀ name, Known {[97], [98]} name →
      bkdrHash name ≠ 0 ∧ bkdrHash name ≠ READDIR_END := by
    rintro name ((rfl | rfl) | rfl | rfl) <;> decide
  have hlist := listable_of_dirOk (c := someChildren) hok hhash fun ino => ⟨ino * 128, rfl⟩
  have hend : (listDir renamedDir 18 someChildren (fun _ j => j = 0) 4 0 0).2
      = .returned 0 READDIR_END := by decide +kernel
  obtain ⟨pos, hpos, -, hcount⟩ := readdir_lists_once hlist hr (fun _ j => j = 0) 4
  rw [hend, Ending.returned.injEq] at hpos
  exact ⟨hend, by decide +kernel, _, hcount hpos.2.symm⟩

end Themis.Readdir
