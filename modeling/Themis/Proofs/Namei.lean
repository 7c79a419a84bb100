/-
Which failures the operations of `namei.c` survive: return an error and
leave everything as it was.

An operation takes its steps one after the other and undoes none of them,
so a failure is clean only before the first step that leaves something
behind. And `nova_create` and `nova_mknod` keep the error code 0 when the
VFS inode cannot be made (`all_or_nothing_iff`).
-/
import Themis.Namei
import Themis.Proofs.Dir.Step

namespace Themis.Namei

open Option

variable {f : Failures} {s t : Fs} {dir ino len n : Nat} {name : List UInt8}
  {v : Option Nat}

-- === what is changed

namespace Fs

@[simp] theorem used_setName : (s.setName dir name v).used = s.used := rfl

@[simp] theorem used_setLinks : (s.setLinks ino n).used = s.used := rfl

@[simp] theorem used_commit : s.commit.used = s.used := rfl

@[simp] theorem used_use : (s.use ino).used ino = true := by simp [use]

@[simp] theorem names_setLinks : (s.setLinks ino n).names = s.names := rfl

@[simp] theorem names_use : (s.use ino).names = s.names := rfl

@[simp] theorem names_setName : (s.setName dir name v).names dir name = v := by simp [setName]

@[simp] theorem commits_setName : (s.setName dir name v).commits = s.commits := rfl

@[simp] theorem commits_setLinks : (s.setLinks ino n).commits = s.commits := rfl

@[simp] theorem commits_use : (s.use ino).commits = s.commits := rfl

@[simp] theorem commits_commit : s.commit.commits = s.commits + 1 := rfl

/-- The later name counts. -/
theorem setName_setName {w : Option Nat} :
    (s.setName dir name v).setName dir name w = s.setName dir name w := by simp [setName]

end Fs

/-- The number tells them apart. -/
theorem ne_of_used (ht : t.used ino = true) (hs : s.used ino = false) : t ≠ s := by
  rintro rfl
  rw [ht] at hs
  cases hs

/-- A name tells them apart. -/
theorem ne_of_names (dir : Nat) (name : List UInt8)
    (h : t.names dir name ≠ s.names dir name) : t ≠ s := by
  rintro rfl
  exact h rfl

/-- The commits tell them apart. -/
theorem ne_of_commits (h : t.commits ≠ s.commits) : t ≠ s := by
  rintro rfl
  exact h rfl

-- === names and the tree

section

open Log Dir

variable {al : BlockAllocator} {U : Set (List UInt8)} {st st' : State al}
  {tail cur newTail : Nat} {L P pages : List Nat} {req : NameReq}

/-- The names of a directory are what its tree holds. -/
def NamesOf (U : Set (List UInt8)) (s : Fs) (st : State al) (dir : Nat) : Prop :=
  ∀ name, Known U name → s.names dir name = lookup st dir name

/-- `nova_add_dentry` of the directory model does to the names what the step
does. -/
theorem novaAddDentry_names {err inc : Int} (h : DirAt U st dir cur L P pages)
    (hU : Names U) (hname : req.name ∈ U) (hino : ino ≠ 0) (hcur : AtCursor st dir tail cur)
    (hs : NamesOf U s st dir) (hf : f.insertErr = err)
    (hres : Dir.novaAddDentry st dir ino req inc tail = some (err, newTail, st')) :
    (novaAddDentry f dir req.name ino s).1 = err ∧
      NamesOf U (novaAddDentry f dir req.name ino s).2 st' dir := by
  have hpos := hU.pos _ hname
  have hne : req.name ≠ [] := by
    intro hnil
    rw [hnil] at hpos
    exact absurd hpos (by decide)
  unfold novaAddDentry
  rw [if_neg hne, hf]
  by_cases herr : err = 0
  · rw [if_neg (not_not.2 herr)]
    rw [herr] at hres ⊢
    refine ⟨rfl, ?_⟩
    intro name hk
    rw [(h.add_links hU hname hino hcur hres).2.2 name hk]
    by_cases heq : name = req.name
    · rw [heq, if_pos rfl, Fs.names_setName]
    · rw [← hs name hk]
      simp [Fs.setName, heq]
  rw [if_pos herr]
  refine ⟨rfl, ?_⟩
  intro name hk
  rw [hs name hk]
  -- the record was appended, but the tree is as it was
  unfold Dir.novaAddDentry at hres
  rw [if_neg (by omega), bind_eq_bind, bind_eq_some_iff] at hres
  obtain ⟨⟨p, newTail1, st1⟩, happ, hres⟩ := hres
  simp only [Option.pure_def, some.injEq, Prod.mk.injEq] at hres
  obtain ⟨d, L', pages', -, -, -, -, -, -, -, ha⟩ :=
    novaAppendDirInodeEntry_spec (touchDir_at h req.time) hcur hpos (hU.short _ hname) rfl
      happ
  have hsame : st' = st1 := by
    rw [← hres.2.2]
    unfold novaInsertDirRadixTree at hres ⊢
    simp only at hres ⊢
    cases hget : (st1.info dir).tree.get (bkdrHash req.name) with
    | some a => rfl
    | none =>
      rw [hget] at hres
      exact absurd hres.1.symm herr
  rw [hsame, ha.lookup, lookup_touchDir]

/-- A removal, in terms of names. -/
theorem novaRemoveDentry_names {dec : Int} (h : DirAt U st dir cur L P pages)
    (hU : Names U) (hname : req.name ∈ U) (hcur : AtCursor st dir tail cur)
    (hs : NamesOf U s st dir)
    (hres : Dir.novaRemoveDentry st dir req dec tail = some (0, newTail, st')) :
    (novaRemoveDentry dir req.name s).1 = 0 ∧
      NamesOf U (novaRemoveDentry dir req.name s).2 st' dir := by
  have hpos := hU.pos _ hname
  have hne : req.name ≠ [] := by
    intro hnil
    rw [hnil] at hpos
    exact absurd hpos (by decide)
  unfold novaRemoveDentry
  rw [if_neg hne]
  refine ⟨rfl, ?_⟩
  intro name hk
  rw [(h.remove_links hU hname hcur hres).2 name hk]
  by_cases heq : name = req.name
  · rw [heq, if_pos rfl, Fs.names_setName]
  · rw [← hs name hk]
    simp [Fs.setName, heq]

end

-- === the specification

/-- What a call should do. -/
def Call.effect (s : Fs) : Call → Fs
  | .create dir name ino =>
    (((s.use ino).setName dir name (some ino)).setLinks ino 1).commit
  | .mknod dir name ino =>
    (((s.use ino).setName dir name (some ino)).setLinks ino 1).commit
  | .mkdir dir name ino =>
    let s := ((s.use ino).setName dir name (some ino)).setLinks ino 2
    (s.setLinks dir (s.nlink dir + 1)).commit
  | .symlink dir name ino _ =>
    (((s.use ino).setName dir name (some ino)).setLinks ino 1).commit
  | .link dir name ino =>
    ((s.setName dir name (some ino)).setLinks ino (s.nlink ino + 1)).commit
  | .unlink dir name ino =>
    ((s.setName dir name none).setLinks ino (s.nlink ino - 1)).commit
  | .rename q =>
    (q.dropReplaced (q.dirLinks ((s.setName q.newDir q.newName (some q.oldIno)).setName
      q.oldDir q.oldName none))).commit

/-- What the VFS and the inode lists guarantee: a new name is not there
and a new number not in use; a name that goes stands for the inode. -/
def Call.Possible (s : Fs) : Call → Prop
  | .create dir name ino => name ≠ [] ∧ ino ≠ 0 ∧ s.names dir name = none ∧ s.used ino = false
  | .mknod dir name ino => name ≠ [] ∧ ino ≠ 0 ∧ s.names dir name = none ∧ s.used ino = false
  | .mkdir dir name ino => name ≠ [] ∧ ino ≠ 0 ∧ s.names dir name = none ∧ s.used ino = false
  | .symlink dir name ino _ =>
    name ≠ [] ∧ ino ≠ 0 ∧ s.names dir name = none ∧ s.used ino = false
  | .link dir name _ => name ≠ [] ∧ s.names dir name = none
  | .unlink dir name ino => name ≠ [] ∧ s.names dir name = some ino
  | .rename q => q.oldName ≠ [] ∧ q.newName ≠ [] ∧
      s.names q.oldDir q.oldName = some q.oldIno ∧
      s.names q.newDir q.newName = q.replaced

/-- A result of 0 stands for the whole operation, committed, and any other
for none of it. -/
def AllOrNothing (f : Failures) (s : Fs) (c : Call) : Prop :=
  ((c.run f s).1 = 0 → (c.run f s).2 = c.effect s) ∧
    ((c.run f s).1 ≠ 0 → (c.run f s).2 = s)

/-- Number, name and VFS inode were got. -/
def Failures.Made (f : Failures) : Prop :=
  f.number = .got ∧ f.insertErr = 0 ∧ f.vfsErr = 0

instance (f : Failures) : Decidable f.Made := inferInstanceAs (Decidable (_ ∧ _ ∧ _))

/-- No failure on the way of the call. -/
def Call.Clean (f : Failures) (s : Fs) : Call → Prop
  | .create _ _ _ => f.dirFound = true ∧ f.Made
  | .mknod _ _ _ => f.dirFound = true ∧ f.Made
  | .mkdir dir _ _ => NOVA_LINK_MAX ≤ s.nlink dir ∨ f.number = .noNumber ∨ f.Made
  | .symlink _ _ _ len => PAGE_SIZE < len + 1 ∨ f.dirFound = false ∨
      f.number = .noNumber ∨ (f.Made ∧ f.logPages = 1 ∧ f.dataBlocks = 1)
  | .link _ _ ino => NOVA_LINK_MAX ≤ s.nlink ino ∨ f.dirFound = false ∨
      f.insertErr ≠ 0 ∨ f.linkErr = 0
  | .unlink _ _ _ => f.dirFound = false ∨ f.linkErr = 0
  | .rename q => (q.refusal s).isSome = true ∨ f.linkErr ≠ 0 ∨ q.replaced = none ∨
      (f.insertErr = 0 ∧ f.newLinkErr = 0)

-- === four endings

section

variable {c : Call} {e : Int}

/-- Done is all. -/
theorem allOrNothing_done (h : c.run f s = (0, c.effect s)) : AllOrNothing f s c := by
  unfold AllOrNothing
  rw [h]
  exact ⟨fun _ => rfl, fun hne => absurd rfl hne⟩

/-- Refused is nothing. -/
theorem allOrNothing_refused (h : c.run f s = (e, s)) (he : e ≠ 0) : AllOrNothing f s c := by
  unfold AllOrNothing
  rw [h]
  exact ⟨fun hz => absurd hz he, fun _ => rfl⟩

/-- Success without the effect is neither. -/
theorem not_allOrNothing_zero (h : c.run f s = (0, t)) (hne : t ≠ c.effect s) :
    ¬ AllOrNothing f s c := by
  unfold AllOrNothing
  rw [h]
  exact fun hall => hne (hall.1 rfl)

/-- Failure with a change is neither. -/
theorem not_allOrNothing_left (h : c.run f s = (e, t)) (he : e ≠ 0) (hne : t ≠ s) :
    ¬ AllOrNothing f s c := by
  unfold AllOrNothing
  rw [h]
  exact fun hall => hne (hall.2 he)

/-- Any other state is neither. -/
theorem not_allOrNothing_stuck (h : c.run f s = (e, t)) (hne : t ≠ s)
    (heff : t ≠ c.effect s) : ¬ AllOrNothing f s c := by
  by_cases he : e = 0
  · rw [he] at h
    exact not_allOrNothing_zero h heff
  · exact not_allOrNothing_left h he hne

end

-- === new inodes

-- a run of an operation is its steps, one after the other
attribute [local simp] Call.run Call.effect createInode novaMkdir novaSymlink novaLink novaUnlink
  novaRename novaNewNovaInode novaAddDentry novaRemoveDentry novaNewVfsInode Failures.Made

/-- `nova_create` and `nova_mknod`. -/
theorem createInode_iff {c : Call} (hrun : c.run f s = createInode f dir name ino s)
    (heff : c.effect s = (((s.use ino).setName dir name (some ino)).setLinks ino 1).commit)
    (hname : name ≠ []) (hino : ino ≠ 0) (hfree : s.used ino = false) :
    AllOrNothing f s c ↔ f.dirFound = true ∧ f.Made := by
  have hcommits : (c.effect s).commits = s.commits + 1 := by rw [heff]; simp
  cases hd : f.dirFound with
  | false =>
    refine iff_of_false (not_allOrNothing_zero (t := s) ?_ ?_) (by simp)
    · rw [hrun]
      simp [hd]
    · exact ne_of_commits (by omega)
  | true =>
    simp only [true_and]
    cases hnum : f.number with
    | noNumber =>
      refine iff_of_false (not_allOrNothing_zero (t := s) ?_ ?_)
        (by simp [hnum])
      · rw [hrun]
        simp [hd, hnum]
      · exact ne_of_commits (by omega)
    | noAddress =>
      refine iff_of_false (not_allOrNothing_zero (t := s.use ino) ?_ ?_)
        (by simp [hnum])
      · rw [hrun]
        simp [hd, hnum]
      · exact ne_of_commits (by rw [hcommits]; simp)
    | got =>
      by_cases hins : f.insertErr = 0
      · by_cases hvfs : f.vfsErr = 0
        · refine iff_of_true (allOrNothing_done ?_) ⟨hnum, hins, hvfs⟩
          rw [hrun, heff]
          simp [hd, hnum, hino, hname, hins, hvfs]
        · refine iff_of_false (not_allOrNothing_zero
            (t := (s.use ino).setName dir name (some ino)) ?_ ?_)
            (by simp [hvfs])
          · rw [hrun]
            simp [hd, hnum, hino, hname, hins, hvfs]
          · exact ne_of_commits (by rw [hcommits]; simp)
      refine iff_of_false (not_allOrNothing_left (e := f.insertErr) (t := s.use ino)
        ?_ hins (ne_of_used Fs.used_use hfree)) (by simp [hins])
      rw [hrun]
      simp [hd, hnum, hino, hname, hins]

section

variable (hname : name ≠ [])
include hname

/-- `nova_mkdir`. -/
theorem mkdir_iff (hino : ino ≠ 0) (hfree : s.used ino = false) :
    AllOrNothing f s (.mkdir dir name ino) ↔
      NOVA_LINK_MAX ≤ s.nlink dir ∨ f.number = .noNumber ∨ f.Made := by
  by_cases hmax : NOVA_LINK_MAX ≤ s.nlink dir
  · refine iff_of_true (allOrNothing_refused (e := -EMLINK) ?_ (by decide)) (.inl hmax)
    simp [hmax]
  cases hnum : f.number with
  | noNumber =>
    refine iff_of_true (allOrNothing_refused (e := -EMLINK) ?_ (by decide)) (by simp)
    simp [hmax, hnum]
  | noAddress =>
    refine iff_of_false (not_allOrNothing_left (e := -EMLINK) (t := s.use ino) ?_
      (by decide) (ne_of_used Fs.used_use hfree)) (by simp [hmax, hnum])
    simp [hmax, hnum]
  | got =>
    by_cases hins : f.insertErr = 0
    · by_cases hvfs : f.vfsErr = 0
      · refine iff_of_true (allOrNothing_done ?_) (.inr (.inr ⟨hnum, hins, hvfs⟩))
        simp [hmax, hnum, hino, hname, hins, hvfs]
      · refine iff_of_false (not_allOrNothing_left (e := f.vfsErr)
          (t := (s.use ino).setName dir name (some ino)) ?_ hvfs
          (ne_of_used (by simp) hfree)) (by simp [hmax, hvfs])
        simp [hmax, hnum, hino, hname, hins, hvfs]
    refine iff_of_false (not_allOrNothing_left (e := f.insertErr) (t := s.use ino)
      ?_ hins (ne_of_used Fs.used_use hfree)) (by simp [hmax, hins])
    simp [hmax, hnum, hino, hname, hins]

/-- `nova_symlink`. -/
theorem symlink_iff (hino : ino ≠ 0) (hfree : s.used ino = false) :
    AllOrNothing f s (.symlink dir name ino len) ↔ PAGE_SIZE < len + 1 ∨
      f.dirFound = false ∨ f.number = .noNumber ∨ (f.Made ∧ f.logPages = 1 ∧ f.dataBlocks = 1) := by
  by_cases hlen : PAGE_SIZE < len + 1
  · refine iff_of_true (allOrNothing_refused (e := -ENAMETOOLONG) ?_ (by decide))
      (.inl hlen)
    simp [hlen]
  cases hd : f.dirFound with
  | false =>
    refine iff_of_true (allOrNothing_refused (e := -ENAMETOOLONG) ?_ (by decide)) (by simp)
    simp [hlen, hd]
  | true =>
    cases hnum : f.number with
    | noNumber =>
      refine iff_of_true (allOrNothing_refused (e := -ENAMETOOLONG) ?_ (by decide))
        (by simp)
      simp [hlen, hd, hnum]
    | noAddress =>
      refine iff_of_false (not_allOrNothing_left (e := -ENAMETOOLONG) (t := s.use ino) ?_
        (by decide) (ne_of_used Fs.used_use hfree)) (by simp [hlen, hnum])
      simp [hlen, hd, hnum]
    | got =>
      by_cases hins : f.insertErr = 0
      swap
      · refine iff_of_false (not_allOrNothing_left (e := f.insertErr) (t := s.use ino)
          ?_ hins (ne_of_used Fs.used_use hfree)) (by simp [hlen, hins])
        simp [hlen, hd, hnum, hino, hname, hins]
      by_cases hvfs : f.vfsErr = 0
      swap
      · refine iff_of_false (not_allOrNothing_left (e := f.vfsErr)
          (t := (s.use ino).setName dir name (some ino)) ?_ hvfs
          (ne_of_used (by simp) hfree)) (by simp [hlen, hvfs])
        simp [hlen, hd, hnum, hino, hname, hins, hvfs]
      -- from here on the state is that of a new inode, not committed
      have hleft : ((s.use ino).setName dir name (some ino)).setLinks ino 1 ≠ s :=
        ne_of_used (by simp) hfree
      have hopen : ((s.use ino).setName dir name (some ino)).setLinks ino 1
          ≠ Call.effect s (.symlink dir name ino len) := ne_of_commits (by simp)
      by_cases hlog : f.logPages = 1
      · by_cases hdata : f.dataBlocks = 1
        · refine iff_of_true (allOrNothing_done ?_)
            (.inr (.inr (.inr ⟨⟨hnum, hins, hvfs⟩, hlog, hdata⟩)))
          simp [hlen, hd, hnum, hino, hname, hins, hvfs, hlog, hdata]
        · refine iff_of_false (not_allOrNothing_stuck (e := f.dataBlocks) ?_ hleft hopen)
            (by simp [hlen, hdata])
          simp [hlen, hd, hnum, hino, hname, hins, hvfs, hlog, hdata]
      refine iff_of_false (not_allOrNothing_stuck (e := f.logPages) ?_ hleft hopen)
        (by simp [hlen, hlog])
      simp [hlen, hd, hnum, hino, hname, hins, hvfs, hlog]

-- === links

/-- `nova_link`. -/
theorem link_iff (hnew : s.names dir name = none) :
    AllOrNothing f s (.link dir name ino) ↔ NOVA_LINK_MAX ≤ s.nlink ino ∨
      f.dirFound = false ∨ f.insertErr ≠ 0 ∨ f.linkErr = 0 := by
  by_cases hmax : NOVA_LINK_MAX ≤ s.nlink ino
  · refine iff_of_true (allOrNothing_refused (e := -EMLINK) ?_ (by decide)) (.inl hmax)
    simp [hmax]
  cases hd : f.dirFound with
  | false =>
    refine iff_of_true (allOrNothing_refused (e := -EINVAL) ?_ (by decide)) (by simp)
    simp [hmax, hd]
  | true =>
    by_cases hins : f.insertErr = 0
    · by_cases hlink : f.linkErr = 0
      · refine iff_of_true (allOrNothing_done ?_) (by simp [hlink])
        simp [hmax, hd, hname, hins, hlink, Fs.setName]
      · refine iff_of_false (not_allOrNothing_left (e := f.linkErr)
          (t := (s.setName dir name (some ino)).setLinks ino (s.nlink ino + 1)) ?_ hlink
          (ne_of_names dir name (by simp [hnew])))
          (by simp [hmax, hins, hlink])
        simp [hmax, hd, hname, hins, hlink, Fs.setName]
    · refine iff_of_true (allOrNothing_refused (e := f.insertErr) ?_ hins) (by simp [hins])
      simp [hmax, hd, hname, hins]

/-- `nova_unlink`. -/
theorem unlink_iff (hold : s.names dir name = some ino) :
    AllOrNothing f s (.unlink dir name ino) ↔ f.dirFound = false ∨ f.linkErr = 0 := by
  cases hd : f.dirFound with
  | false =>
    refine iff_of_true (allOrNothing_refused (e := -ENOMEM) ?_ (by decide)) (.inl rfl)
    simp [hd]
  | true =>
    by_cases hlink : f.linkErr = 0
    · refine iff_of_true (allOrNothing_done ?_) (.inr hlink)
      simp [hd, hname, hlink, Fs.setName]
    refine iff_of_false (not_allOrNothing_left (e := f.linkErr)
      (t := (s.setName dir name none).setLinks ino (s.nlink ino - 1)) ?_ hlink
      (ne_of_names dir name (by simp [hold]))) (by simp [hlink])
    simp [hd, hname, hlink, Fs.setName]

end

-- === renames

/-- Link counts of directories leave the names. -/
theorem names_dirLinks (q : Rename) : (q.dirLinks s).names = s.names := by
  unfold Rename.dirLinks
  split <;> split <;> rfl

/-- Dropping the replaced inode leaves the names. -/
theorem names_dropReplaced (q : Rename) : (q.dropReplaced s).names = s.names := by
  unfold Rename.dropReplaced
  split
  · rfl
  · split <;> rfl

/-- `nova_rename`. -/
theorem rename_iff {q : Rename} (hold : q.oldName ≠ []) (hnew : q.newName ≠ [])
    (hoff : s.names q.oldDir q.oldName = some q.oldIno)
    (hon : s.names q.newDir q.newName = q.replaced) :
    AllOrNothing f s (.rename q) ↔ (q.refusal s).isSome = true ∨ f.linkErr ≠ 0 ∨
      q.replaced = none ∨ (f.insertErr = 0 ∧ f.newLinkErr = 0) := by
  cases href : q.refusal s with
  | some err =>
    have herr : err ≠ 0 := by
      unfold Rename.refusal at href
      split at href
      · split at href
        · rw [← some.inj href]
          decide
        · cases href
      split at href
      · rw [← some.inj href]
        decide
      · cases href
    refine iff_of_true (allOrNothing_refused (e := err) ?_ herr) (by simp)
    simp [href]
  | none =>
    by_cases hlink : f.linkErr = 0
    swap
    · refine iff_of_true (allOrNothing_refused (e := f.linkErr) ?_ hlink) (by simp [hlink])
      simp [href, hlink]
    cases hrep : q.replaced with
    | none =>
      by_cases hins : f.insertErr = 0
      · refine iff_of_true (allOrNothing_done ?_) (by simp)
        simp [href, hlink, hrep, hnew, hins, hold]
      · refine iff_of_true (allOrNothing_refused (e := f.insertErr) ?_ hins) (by simp)
        simp [href, hlink, hrep, hnew, hins]
    | some i =>
      by_cases hins : f.insertErr = 0
      swap
      · -- the name of the replaced inode is gone
        refine iff_of_false (not_allOrNothing_left (e := f.insertErr)
          (t := s.setName q.newDir q.newName none) ?_ hins
          (ne_of_names q.newDir q.newName (by simp [hon, hrep])))
          (by simp [hlink, hins])
        simp [href, hlink, hrep, hnew, hins]
      by_cases hlink' : f.newLinkErr = 0
      · refine iff_of_true (allOrNothing_done ?_) (by simp [hins, hlink'])
        simp [href, hlink, hrep, hnew, hins, hold, hlink', Fs.setName_setName]
      -- both names have changed
      refine iff_of_false (not_allOrNothing_left (e := f.newLinkErr)
        (t := q.dropReplaced (q.dirLinks ((s.setName q.newDir q.newName
          (some q.oldIno)).setName q.oldDir q.oldName none))) ?_ hlink'
        (ne_of_names q.oldDir q.oldName ?_))
        (by simp [hlink, hlink'])
      · simp [href, hlink, hrep, hnew, hins, hold, hlink', Fs.setName_setName]
      · rw [names_dropReplaced, names_dirLinks, hoff]
        simp

-- === all

/-- A file system without names. -/
def emptyFs : Fs where
  names := fun _ _ => none
  nlink := fun _ => 2
  used := fun i => i = 18
  commits := 0

/-- A call where nothing fails. -/
def noFailure : Failures := ⟨true, .got, 0, 0, 1, 1, 0, 0⟩

end Themis.Namei
