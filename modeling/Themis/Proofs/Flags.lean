/-
What becomes of inode flags when the inode is rebuilt.

The log holds the bits of the VFS inode, and the rebuild reads them as
bits of the record. In that reading bit 3, which is `S_IMMUTABLE`, is
`FS_SYNC_FL`, and no other bit that the VFS inode can have stands for one
of the five (`Plain`). So every flag is lost and one turns into another;
flags survive exactly if there are none (`flags_survive_iff`).
-/
import Themis.Flags

namespace Themis.Flags

variable {s s0 s₁ : State} {flags i f : BitVec 32} {noSec capable : Bool}

/-- The five flags, as bits of the VFS inode. -/
def guarded : List Nat := [S_SYNC, S_APPEND, S_IMMUTABLE, S_NOATIME, S_DIRSYNC]

/-- The bits after a conditional or. -/
@[simp] theorem getElem_orIf (c : Bool) (k j : Nat) (hj : j < 32) :
    (orIf c k i)[j] = (i[j] || (c && decide (j = k))) := by
  cases c with
  | false => simp [orIf]
  | true => simp [orIf, bit]

/-- The guarded bits are those of the user's flags. -/
theorem novaSetInodeFlags_guarded (noSec : Bool) (i f : BitVec 32) :
    (novaSetInodeFlags noSec i f).getLsbD S_SYNC = f.getLsbD FS_SYNC_FL ∧
      (novaSetInodeFlags noSec i f).getLsbD S_APPEND = f.getLsbD FS_APPEND_FL ∧
      (novaSetInodeFlags noSec i f).getLsbD S_IMMUTABLE = f.getLsbD FS_IMMUTABLE_FL ∧
      (novaSetInodeFlags noSec i f).getLsbD S_NOATIME = f.getLsbD FS_NOATIME_FL ∧
      (novaSetInodeFlags noSec i f).getLsbD S_DIRSYNC = f.getLsbD FS_DIRSYNC_FL := by
  simp [novaSetInodeFlags, bit, S_SYNC, S_APPEND, S_IMMUTABLE, S_NOATIME, S_DIRSYNC, S_NOSEC, S_DAX]

/-- VFS flags without a bit that the record has for one of the five, bit 3
apart. -/
structure Plain (i : BitVec 32) : Prop where
  immutable : i.getLsbD FS_IMMUTABLE_FL = false
  append : i.getLsbD FS_APPEND_FL = false
  noatime : i.getLsbD FS_NOATIME_FL = false
  dirsync : i.getLsbD FS_DIRSYNC_FL = false

/-- No flags at all. -/
theorem plain_zero : Plain 0 := ⟨rfl, rfl, rfl, rfl⟩

/-- Setting flags keeps them plain. -/
theorem Plain.novaSetInodeFlags (h : Plain i) : Plain (novaSetInodeFlags noSec i f) := by
  obtain ⟨h1, h2, h3, h4⟩ := h
  simp only [FS_IMMUTABLE_FL, FS_APPEND_FL, FS_NOATIME_FL, FS_DIRSYNC_FL] at h1 h2 h3 h4
  refine ⟨?_, ?_, ?_, ?_⟩ <;>
    simp_all [Flags.novaSetInodeFlags, bit, S_SYNC, S_APPEND, S_IMMUTABLE, S_NOATIME, S_DIRSYNC,
      S_NOSEC, S_DAX, FS_IMMUTABLE_FL, FS_APPEND_FL, FS_NOATIME_FL, FS_DIRSYNC_FL]

/-- What a change of flags does. -/
theorem setFlags_some (h : setFlags s flags capable = some s₁) : s₁ = novaAppendLinkChangeEntry
      { s with iFlags := novaSetInodeFlags s.noSec s.iFlags (ioctlFlags s flags) } := by
  unfold setFlags at h
  split at h
  · cases h
  · exact (Option.some.inj h).symm

/-- Every reachable inode has plain flags. -/
theorem Reach.plain (h : Reach s) : Plain s.iFlags := by
  induction h with
  | read piFlags logged isDir noSec => exact plain_zero.novaSetInodeFlags
  | step h op ih =>
    cases op with
    | linkChange => exact ih
    | reload => exact plain_zero.novaSetInodeFlags
  | ioctl h hset ih =>
    rw [setFlags_some hset]
    exact ih.novaSetInodeFlags

/-- After the flags `i₀` were logged. -/
structure Logged (i₀ : BitVec 32) (s : State) : Prop where
  plain : Plain s.iFlags
  entry : ∃ e, s.logged = some e ∧ Plain e ∧
    (e.getLsbD S_IMMUTABLE = true → i₀.getLsbD S_IMMUTABLE = true)

/-- And a rebuild at least. -/
structure Rebuilt (i₀ : BitVec 32) (s : State) : Prop extends Logged i₀ s where
  sync : s.iFlags.getLsbD S_SYNC = true → i₀.getLsbD S_IMMUTABLE = true
  others : ∀ k ∈ guarded, k ≠ S_SYNC → s.iFlags.getLsbD k = false

variable {i₀ : BitVec 32}

/-- A reload rebuilds them. -/
theorem Logged.reload (h : Logged i₀ s) : Rebuilt i₀ (reload s) := by
  obtain ⟨e, he, hplain, himm⟩ := h.entry
  have hpi : s.logged.getD s.piFlags = e := by rw [he]; rfl
  obtain ⟨hs, ha, hi, hn, hd⟩ := novaSetInodeFlags_guarded s.noSec 0 e
  have hflags : (Flags.reload s).iFlags = novaSetInodeFlags s.noSec 0 e := by
    rw [← hpi]
    rfl
  refine ⟨⟨?_, e, he, hplain, himm⟩, ?_, ?_⟩
  · rw [hflags]
    exact plain_zero.novaSetInodeFlags
  · rw [hflags, hs]
    -- the bit of `S_IMMUTABLE` is read as `FS_SYNC_FL`
    exact himm
  intro k hk hne
  rw [hflags]
  simp only [guarded, List.mem_cons, List.not_mem_nil, or_false] at hk
  rcases hk with rfl | rfl | rfl | rfl | rfl
  · exact absurd rfl hne
  · exact ha.trans hplain.append
  · exact hi.trans hplain.immutable
  · exact hn.trans hplain.noatime
  · exact hd.trans hplain.dirsync

/-- One operation. -/
theorem Rebuilt.run (h : Rebuilt i₀ s) (op : Op) : Rebuilt i₀ (op.run s) := by
  cases op with
  | linkChange =>
    refine ⟨⟨h.plain, s.iFlags, rfl, h.plain, fun himm => ?_⟩, h.sync, h.others⟩
    rw [h.others S_IMMUTABLE (by decide) (by decide)] at himm
    cases himm
  | reload => exact h.toLogged.reload

/-- Any operations. -/
theorem Rebuilt.ops (ops : List Op) (h : Rebuilt i₀ s) : Rebuilt i₀ (ops.foldl Op.run s) := by
  induction ops generalizing s with
  | nil => exact h
  | cons op ops ih => exact ih (h.run op)

/-- Operations with a reload. -/
theorem rebuilt_of_mem (ops : List Op) (hflags : s.iFlags = i₀) (h : Logged i₀ s)
    (hmem : Op.reload ∈ ops) : Rebuilt i₀ (ops.foldl Op.run s) := by
  induction ops generalizing s with
  | nil => cases hmem
  | cons op ops ih =>
    cases op with
    | reload => exact h.reload.ops ops
    | linkChange =>
      have hmem' : Op.reload ∈ ops := by simpa using hmem
      exact ih (s := novaAppendLinkChangeEntry s) hflags
        ⟨h.plain, s.iFlags, rfl, h.plain, fun himm => hflags ▸ himm⟩ hmem'

/-- The ioctl asks for none of the five; `FS_DIRSYNC_FL` counts for
directories only. -/
def NoneAsked (s : State) (flags : BitVec 32) : Prop :=
  (∀ k ∈ [FS_SYNC_FL, FS_APPEND_FL, FS_IMMUTABLE_FL, FS_NOATIME_FL], flags.getLsbD k = false) ∧
    (s.isDir = true → flags.getLsbD FS_DIRSYNC_FL = false)

/-- When no guarded bit is asked for. -/
theorem noneAsked_iff (hset : setFlags s flags capable = some s₁) :
    (∀ k ∈ guarded, s₁.iFlags.getLsbD k = false) ↔ NoneAsked s flags := by
  obtain ⟨h1, h2, h3, h4, h5⟩ := novaSetInodeFlags_guarded s.noSec s.iFlags (ioctlFlags s flags)
  rw [setFlags_some hset]
  simp only [guarded, NoneAsked, novaAppendLinkChangeEntry, List.forall_mem_cons, h1, h2, h3, h4, h5]
  cases hdir : s.isDir <;>
    simp [ioctlFlags, hdir, bit, FS_FL_USER_MODIFIABLE, FS_SYNC_FL, FS_APPEND_FL, FS_IMMUTABLE_FL,
      FS_NOATIME_FL, FS_DIRSYNC_FL, and_assoc]

/-- Flags that were set through the ioctl are there after link changes and
rebuilds exactly if none of the five was set. -/
theorem flags_survive_iff (hreach : Reach s) (hset : setFlags s flags capable = some s₁)
    (ops : List Op) (hops : Op.reload ∈ ops) :
    (∀ k ∈ guarded, (ops.foldl Op.run s₁).iFlags.getLsbD k = s₁.iFlags.getLsbD k) ↔
      NoneAsked s flags := by
  rw [← noneAsked_iff hset]
  have hplain := (hreach.ioctl hset).plain
  have hlogged : s₁.logged = some s₁.iFlags := by rw [setFlags_some hset]; rfl
  have h := rebuilt_of_mem ops rfl ⟨hplain, _, hlogged, hplain, id⟩ hops
  have himm := h.others S_IMMUTABLE (by decide) (by decide)
  constructor
  · intro hsame k hk
    by_cases hsync : k = S_SYNC
    · subst hsync
      rw [← hsame _ hk, Bool.eq_false_iff]
      intro hs
      -- a sync flag comes from an immutable one, which is gone
      have := h.sync hs
      rw [← hsame S_IMMUTABLE (by decide), himm] at this
      cases this
    · rw [← hsame k hk]
      exact h.others k hk hsync
  intro hnone k hk
  rw [hnone k hk]
  by_cases hsync : k = S_SYNC
  · subst hsync
    rw [Bool.eq_false_iff]
    intro hs
    have := h.sync hs
    rw [hnone S_IMMUTABLE (by decide)] at this
    cases this
  · exact h.others k hk hsync

/-- A new file. -/
def newFile : State := reload ⟨0, 0, none, false, false⟩

/-- `chattr +d` is none of the five. -/
theorem flags_survive_iff_nodump :
    setFlags newFile 0x40 true = some ((setFlags newFile 0x40 true).getD newFile) ∧
      ∀ k ∈ guarded, ([Op.reload, .linkChange, .reload].foldl Op.run
        ((setFlags newFile 0x40 true).getD newFile)).iFlags.getLsbD k
          = ((setFlags newFile 0x40 true).getD newFile).iFlags.getLsbD k := by
  have hset : setFlags newFile 0x40 true = some ((setFlags newFile 0x40 true).getD newFile) := by
    decide
  exact ⟨hset, (flags_survive_iff (Reach.read 0 none false false) hset _ (by decide)).2 ⟨by decide, by decide⟩⟩

/-- `chattr +i`: after a rebuild the file is synchronous and can be
written. -/
theorem immutable_becomes_sync : ∃ s₁, setFlags newFile 0x10 true = some s₁ ∧
    s₁.iFlags.getLsbD S_IMMUTABLE = true ∧ s₁.iFlags.getLsbD S_SYNC = false ∧
    (reload s₁).iFlags.getLsbD S_IMMUTABLE = false ∧ (reload s₁).iFlags.getLsbD S_SYNC = true :=
  ⟨(setFlags newFile 0x10 true).getD newFile, by decide⟩

end Themis.Flags
