/-
The locks of the inode pages against the pages.

`nova_get_specific_inode_page_lock` splits an inode number as
`nova_get_inode_address` does, with 40 for the number of CPUs. The two
agree on 40 CPUs and on no other number: with fewer the lock of inode
`cpus` lies past the arrays, with more the inodes 0 and `cpus` share a page
and not its lock (`page_locks_iff`).
-/
import Themis.Proofs.InodePages

namespace Themis.InodePages

open Lib

variable {al : BlockAllocator} {s s' : State al}

/-- A step keeps the tables in order. -/
theorem step_ok (h : TablesOk s) (op : Op) : TablesOk (step s op) := by
  cases op with
  | getAddress ino ext => exact (novaGetInodeAddress_extended h ino ext).ok
  | migrate ino =>
    show TablesOk (migrateInodePage s ino).2
    rcases migrateInodePage_cases h ino with hs | ⟨p, b, -, hok⟩
    · exact h.unchanged hs
    · exact hok

/-- A run keeps numbers known. -/
theorem run_resolve (ops : List Op) (h : TablesOk s) :
    TablesOk (run s ops) ∧ (run s ops).cpus = s.cpus ∧
      ∀ ino a, resolve s ino = some a → ∃ a', resolve (run s ops) ino = some a' := by
  induction ops generalizing s with
  | nil => exact ⟨h, rfl, fun ino a ha => ⟨a, ha⟩⟩
  | cons op ops ih =>
    obtain ⟨hok, hcpus, hres⟩ := ih (step_ok h op)
    refine ⟨hok, hcpus.trans (step_cpus h op), ?_⟩
    intro ino a ha
    obtain ⟨a1, ha1⟩ := resolve_step h op ha
    exact hres ino a1 ha1

/-- A number is known if its slot is filled. -/
theorem resolve_isSome_iff (h : TablesOk s) (ino : Nat) :
    (∃ a, resolve s ino = some a) ↔ s.table (s.maps.cpuOf ino) (s.maps.superpageCount ino) ≠ 0 := by
  rw [resolve_eq h]
  show _ ↔ s.maps.slotOf ino ≠ 0
  by_cases hz : s.maps.slotOf ino = 0
  · simp [hz]
  · simp [hz]

/-- The lock of a number that a state resolves is one that was allocated,
and numbers in one slot of one CPU's table have one lock. -/
structure LocksMatch (s : State al) : Prop where
  allocated : ∀ i a, resolve s i = some a →
    (novaGetSpecificInodePageLock i).Allocated s.cpus
  shared : ∀ i j a b, resolve s i = some a → resolve s j = some b →
    s.maps.cpuOf i = s.maps.cpuOf j → s.maps.superpageCount i = s.maps.superpageCount j →
    novaGetSpecificInodePageLock i = novaGetSpecificInodePageLock j

/-- With 40 CPUs the lock has CPU and slot. -/
theorem lock_of_forty {i : Nat} (hcpus : s.cpus = 40) (hlt : s.maps.superpageCount i < TABLE_NUM) :
    novaGetSpecificInodePageLock i = ⟨s.maps.cpuOf i, s.maps.superpageCount i⟩ := by
  rw [superpageCount_eq] at hlt ⊢
  have hc : s.maps.cpus = 40 := hcpus
  rw [hc] at hlt ⊢
  have hsmall : i / 40 < 2 ^ 32 := by
    have : i / 40 / 32 < 512 := hlt
    omega
  unfold novaGetSpecificInodePageLock InodeTables.cpuOf
  rw [hc, Nat.mod_eq_of_lt hsmall, Nat.shiftRight_eq_div_pow]

/-- No slot past the table of a CPU is filled. -/
def NoOverrun (s : State al) : Prop :=
  ∀ c, c < s.cpus → ∀ k, TABLE_NUM ≤ k → s.table c k = 0

/-- With 40 CPUs locks match pages. -/
theorem locksMatch_of_forty (h : TablesOk s) (hcpus : s.cpus = 40) (hin : NoOverrun s) :
    LocksMatch s := by
  have hcpu : ∀ i, s.maps.cpuOf i < s.cpus := fun i =>
    Nat.mod_lt i (by show 0 < s.cpus; omega)
  have hlt : ∀ i a, resolve s i = some a → s.maps.superpageCount i < TABLE_NUM := by
    intro i a ha
    by_contra hge
    exact (resolve_isSome_iff h i).1 ⟨a, ha⟩ (hin _ (hcpu i) _ (Nat.le_of_not_lt hge))
  constructor
  · intro i a ha
    rw [lock_of_forty hcpus (hlt i a ha)]
    exact ⟨hcpu i, hlt i a ha⟩
  · intro i j a b ha hb hij hslot
    rw [lock_of_forty hcpus (hlt i a ha), lock_of_forty hcpus (hlt j b hb), hij, hslot]

/-- Locks that match leave no overrun. -/
theorem LocksMatch.noOverrun (h : TablesOk s) (hcpus : s.cpus = 40) (hm : LocksMatch s) :
    NoOverrun s := by
  intro c hc k hk
  by_contra hne
  have hfilled : s.table c TABLE_NUM ≠ 0 := h.pre_le hk hne
  have hparts : s.maps.cpuOf (TABLE_NUM * 32 * 40 + c) = c ∧
      s.maps.superpageCount (TABLE_NUM * 32 * 40 + c) = TABLE_NUM := by
    rw [superpageCount_eq]
    show (512 * 32 * 40 + c) % s.cpus = c ∧ (512 * 32 * 40 + c) / s.cpus / 32 = 512
    rw [hcpus] at hc ⊢
    omega
  obtain ⟨a, ha⟩ := (resolve_isSome_iff h (TABLE_NUM * 32 * 40 + c)).2
    (by rwa [hparts.1, hparts.2])
  have hlock : (novaGetSpecificInodePageLock (TABLE_NUM * 32 * 40 + c)).slot = TABLE_NUM := by
    show ((512 * 32 * 40 + c) / 40 % 2 ^ 32) >>> 5 = 512
    omega
  have := (hm.allocated _ a ha).2
  rw [hlock] at this
  exact absurd this (lt_irrefl _)

/-- Two numbers of the first page. -/
theorem resolve_first (h : TablesOk s) (hcpus : 0 < s.cpus) (hfirst : s.table 0 0 ≠ 0)
    {i : Nat} (hi : i = 0 ∨ i = s.cpus) :
    s.maps.cpuOf i = 0 ∧ s.maps.superpageCount i = 0 ∧ ∃ a, resolve s i = some a := by
  have hcpu : s.maps.cpuOf i = 0 := by
    show i % s.cpus = 0
    rcases hi with rfl | rfl
    · exact Nat.zero_mod _
    · exact Nat.mod_self _
  have hslot : s.maps.superpageCount i = 0 := by
    rw [superpageCount_eq]
    show i / s.cpus / 32 = 0
    rcases hi with rfl | rfl
    · simp
    · rw [Nat.div_self hcpus]
  refine ⟨hcpu, hslot, (resolve_isSome_iff h i).2 ?_⟩
  rw [hcpu, hslot]
  exact hfirst

/-- Locks match only with 40 CPUs. -/
theorem LocksMatch.forty (h : TablesOk s) (hcpus : 0 < s.cpus) (hle : s.cpus ≤ 64)
    (hfirst : s.table 0 0 ≠ 0) (hm : LocksMatch s) : s.cpus = 40 := by
  obtain ⟨hc0, hs0, a, ha⟩ := resolve_first h hcpus hfirst (.inl rfl)
  obtain ⟨hc1, hs1, b, hb⟩ := resolve_first h hcpus hfirst (.inr rfl)
  rcases Nat.lt_trichotomy s.cpus 40 with hlt | heq | hgt
  · have hin : s.cpus % 40 < s.cpus := (hm.allocated _ b hb).1
    rw [Nat.mod_eq_of_lt hlt] at hin
    exact absurd hin (lt_irrefl _)
  · exact heq
  have hsame := hm.shared _ _ a b ha hb (hc0.trans hc1.symm) (hs0.trans hs1.symm)
  have harray : 0 % 40 = s.cpus % 40 := congrArg PageLock.array hsame
  omega

/-- The inode page locks, in every state that a run of lookups and
migrations reaches on 1 to 64 CPUs: every number that resolves selects an
allocated lock, and numbers on one page select one lock, exactly if the
number of CPUs is 40 and no slot past a table was filled. -/
theorem page_locks_iff (s₀ : State al) (ops : List Op) (hcpus : 1 ≤ s₀.cpus)
    (hle : s₀.cpus ≤ 64) (hinit : (novaInitInodeTable s₀).1 = 0) :
    LocksMatch (run (novaInitInodeTable s₀).2 ops) ↔
      s₀.cpus = 40 ∧ NoOverrun (run (novaInitInodeTable s₀).2 ops) := by
  have hstart : novaInitInodeTable s₀ = (0, (novaInitInodeTable s₀).2) := Prod.ext hinit rfl
  have hok₀ := novaInitInodeTable_ok hstart
  obtain ⟨hok, hrun, hres⟩ := run_resolve ops hok₀
  have hsame := novaInitInodeTable_cpus hstart
  have hfirst : (run (novaInitInodeTable s₀).2 ops).table 0 0 ≠ 0 := by
    obtain ⟨-, -, a, ha⟩ := resolve_first hok₀ (by omega)
      (novaInitInodeTable_first hstart (by omega)) (.inl rfl)
    have := (resolve_isSome_iff hok 0).1 (hres 0 a ha)
    rwa [show InodeTables.cpuOf _ 0 = 0 from Nat.zero_mod _,
      superpageCount_eq, Nat.zero_div, Nat.zero_div] at this
  constructor
  · intro hm
    have hforty := hm.forty hok (by omega) (by omega) hfirst
    exact ⟨by omega, hm.noOverrun hok hforty⟩
  · rintro ⟨hforty, hin⟩
    exact locksMatch_of_forty hok (by omega) hin

/-- 40 CPUs and no calls. -/
theorem page_locks_forty_cpus :
    let s₀ : State (.ascending 100) := ⟨40, fun _ _ => 0, fun _ => 7, ⟨2, fun _ => false⟩⟩
    LocksMatch (run (novaInitInodeTable s₀).2 []) := by
  intro s₀
  have hinit : (novaInitInodeTable s₀).1 = 0 := by decide +kernel
  refine (page_locks_iff s₀ [] (by decide) (by decide) hinit).2 ⟨rfl, fun c _ k hk => ?_⟩
  have hstart : novaInitInodeTable s₀ = (0, (novaInitInodeTable s₀).2) := Prod.ext hinit rfl
  exact (novaInitInodeTable_inv hstart).inBounds c k hk

/-- Two CPUs: the lock of inode 2 lies past the arrays. -/
theorem page_lock_outside :
    let s₀ : State (.ascending 100) := ⟨2, fun _ _ => 0, fun _ => 7, ⟨2, fun _ => false⟩⟩
    (novaInitInodeTable s₀).1 = 0 ∧ ¬ LocksMatch (run (novaInitInodeTable s₀).2 []) := by
  intro s₀
  refine ⟨by decide, fun hm => ?_⟩
  have hres : resolve (run (novaInitInodeTable s₀).2 []) 2
      = some (3 * PAGE_SIZE + NOVA_INODE_SIZE) := by decide
  exact absurd (hm.allocated 2 _ hres) (by decide)

end Themis.InodePages
