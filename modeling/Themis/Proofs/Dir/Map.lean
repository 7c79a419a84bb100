/-
A directory as a map from names.

# With distinct hashes

The tree is indexed by the hash of a name and nothing compares the names.
As long as no two names in use have one hash, it is a map from names in
every state of every run (`directory_is_map`).

# With equal hashes

`BKDRHash` is 131 * h + c on signed characters, so "aA" and the two bytes
98, 190 have one hash. Then one name answers for the other, keeps it from
being added, and goes when the other is removed (`colliding_names`).
-/
import Themis.Proofs.Dir.Lost

namespace Themis.Dir

open Lib Log File Option

variable {al : BlockAllocator} {U : Set (List UInt8)} {st st' : State al}
  {dir cur tail : Nat} {L P pages : List Nat} {name : List UInt8}

/-- A name that is found is in a record. -/
theorem DirAt.find_some {a : Nat} (h : DirAt U st dir cur L P pages) (hU : Names U)
    (hk : Known U name) (hfind : novaFindDentry st dir name = some a) :
    ∃ d, st.nv.slot a = .dirLog d ∧ d.name = name ∧ lookup st dir name = some d.ino := by
  obtain ⟨hmem, d, hd, -, -, hhash⟩ := (h.tree _ a).1 hfind
  have hok := h.listed.ok a hmem
  rw [hd] at hok
  refine ⟨d, hd, hU.inj _ _ hok.2 hk hhash, ?_⟩
  unfold lookup
  rw [hfind, bind_some, hd]

/-- A name that is absent is added. -/
theorem DirAt.add_absent {ino : Nat} {req : NameReq} {inc : Int} {r : Nat × Nat × State al}
    (h : DirAt U st dir cur L P pages) (hU : Names U) (hname : req.name ∈ U)
    (hcur : AtCursor st dir tail cur) (hnone : lookup st dir req.name = none)
    (happ : novaAppendDirInodeEntry (touchDir st dir req.time) dir ino req
      (novaDirLogRecLen req.name.length) tail inc = some r) :
    ∃ newTail st', novaAddDentry st dir ino req inc tail = some (0, newTail, st') := by
  obtain ⟨p, newTail, st1⟩ := r
  have hpos := hU.pos _ hname
  obtain ⟨d, L', pages', -, -, -, rfl, -, -, -, ha⟩ :=
    novaAppendDirInodeEntry_spec (touchDir_at h req.time) hcur hpos (hU.short _ hname) rfl happ
  -- appending the record may move others, but not what names stand for
  have hlook : lookup st1 dir req.name = none := by rw [ha.lookup, lookup_touchDir, hnone]
  have hget : (st1.info dir).tree.get (bkdrHash req.name) = none := by
    cases hget : (st1.info dir).tree.get (bkdrHash req.name) with
    | none => rfl
    | some a =>
      obtain ⟨-, d', hd', -⟩ := (ha.tree _ a).1 hget
      unfold lookup novaFindDentry at hlook
      rw [hget, bind_some, hd'] at hlook
      cases hlook
  unfold novaAddDentry
  rw [if_neg (by omega)]
  simp only [happ, bind_eq_bind, bind_some, Option.pure_def, novaInsertDirRadixTree, hget]
  exact ⟨_, _, rfl⟩

/-- In every state of every run of a directory whose names have distinct
hashes, with `m` the map that the operations of the run make: a lookup of
a name returns the entry that was added under it and not removed, or
nothing; adding a name that is absent succeeds wherever there is a place
for the record, and so does removing a name; neither changes what another
name stands for. -/
theorem directory_is_map {m : NameMap} (hU : Names U) (h : DirRun U dir st m) :
    (∀ name, Known U name → (novaFindDentry st dir name = none ∧ m name = none) ∨
          ∃ a d, novaFindDentry st dir name = some a ∧ st.nv.slot a = .dirLog d ∧
            d.name = name ∧ m name = some d.ino) ∧
      (∀ ino req inc r, req.name ∈ U → ino ≠ 0 → m req.name = none →
        novaAppendDirInodeEntry (touchDir st dir req.time) dir ino req
          (novaDirLogRecLen req.name.length) 0 inc = some r →
        ∃ newTail st', novaAddDentry st dir ino req inc 0 = some (0, newTail, st') ∧
          ∀ name, Known U name → lookup st' dir name
            = if name = req.name then some ino else lookup st dir name) ∧
      ∀ req dec r, req.name ∈ U → novaAppendDirInodeEntry (touchDir st dir req.time) dir 0 req
          (novaDirLogRecLen req.name.length) 0 dec = some r →
        ∃ newTail st', novaRemoveDentry st dir req dec 0 = some (0, newTail, st') ∧
          ∀ name, Known U name → lookup st' dir name
            = if name = req.name then none else lookup st dir name := by
  obtain ⟨⟨L, pages, hok⟩, hm⟩ := h.ok hU
  have hcur : AtCursor st dir 0 (st.nv.logTail dir) := by simp [AtCursor]
  refine ⟨?_, ?_, ?_⟩
  · intro name hk
    cases hfind : novaFindDentry st dir name with
    | none =>
      refine .inl ⟨rfl, ?_⟩
      rw [← hm name hk]
      exact lookup_none hfind
    | some a =>
      obtain ⟨d, hd, hname, hlook⟩ := hok.dirAt.find_some hU hk hfind
      exact .inr ⟨a, d, rfl, hd, hname, (hm name hk).symm.trans hlook⟩
  · intro ino req inc r hname hino hnone happ
    rw [← hm req.name (.inl hname)] at hnone
    obtain ⟨newTail, st', hres⟩ := hok.dirAt.add_absent hU hname hcur hnone happ
    exact ⟨newTail, st', hres, (hok.dirAt.add_links hU hname hino hcur hres).2.2⟩
  intro req dec r hname happ
  have hpos := hU.pos _ hname
  obtain ⟨newTail, st', hres⟩ : ∃ newTail st',
      novaRemoveDentry st dir req dec 0 = some (0, newTail, st') := by
    unfold novaRemoveDentry
    rw [if_neg (by omega)]
    simp only [happ, bind_eq_bind, bind_some, Option.pure_def]
    exact ⟨_, _, rfl⟩
  exact ⟨newTail, st', hres, (hok.dirAt.remove_links hU hname hcur hres).2⟩

/-- After "a" was renamed to "b", the lookup of "b" finds its record. -/
theorem directory_is_map_rename :
    (∃ m, DirRun {[97], [98]} 18 renamedDir m) ∧ ∃ a d, novaFindDentry renamedDir 18 [98] = some a ∧
        renamedDir.nv.slot a = .dirLog d ∧ d.name = [98] := by
  refine ⟨renamedDir_run, ?_⟩
  obtain ⟨m, hm⟩ := renamedDir_run
  have hfind : novaFindDentry renamedDir 18 [98] ≠ none := by decide +kernel
  rcases (directory_is_map names_ab hm).1 [98] (.inl (.inr rfl))
    with ⟨hnone, -⟩ | ⟨a, d, hsome, hd, hname, -⟩
  · exact absurd hnone hfind
  · exact ⟨a, d, hsome, hd, hname⟩

-- === equal hashes

/-- A directory that holds "aA". -/
def collidingDir : State (BlockAllocator.ascending 64) :=
  commitOne (.add 33 ⟨[97, 65], 2, 1⟩ 0) firstDir

/-- A run that adds "aA" only. The other name, which was never added, is
found as inode 33 and cannot be added, and removing it removes "aA". -/
theorem colliding_names :
    (∃ m, DirRun {[97, 65]} 18 collidingDir m) ∧ lookup collidingDir 18 [98, 190] = some 33 ∧
      (novaAddDentry collidingDir 18 34 ⟨[98, 190], 2, 2⟩ 0 0).map Prod.fst = some (-EEXIST) ∧
      lookup collidingDir 18 [97, 65] = some 33 ∧
      (novaRemoveDentry collidingDir 18 ⟨[98, 190], 2, 2⟩ 0 0).map
        (fun r => lookup r.2.2 18 [97, 65]) = some none := by
  refine ⟨commitOne_run ⟨rfl, by decide⟩ ⟨_, firstDir_run⟩, ?_⟩
  decide +kernel

end Themis.Dir
