/-
What a mount without `init` knows of the inode table.

The mapping tables are only ever allocated by `nova_init_inode_table`,
that is when a device is formatted. After any other mount no inode
number can be looked up (`remount_keeps_iff`).

Failure recovery does not use the mapping tables but the chain of 2M
pages that inode tables once were. It marks 512 blocks for each page, so
it is exact only where there is no page (`crawl_exact_iff`).
-/
import Themis.Mount
import Themis.Proofs.InodePages

namespace Themis.Mount

open Lib InodePages Option

variable {al : BlockAllocator}
variable {s : State al}

-- === remounting

/-- After a mount every lookup faults. -/
theorem novaFillSuper_lookup {cpus : Nat} {mem : Nat → UInt8} {canSkip : Bool}
    {alloc : al.State} {m : Mounted al} (h : novaFillSuper cpus mem canSkip alloc = some m)
    (ino : Nat) (extendable : Bool) : novaGetInodeAddress m ino extendable = none := by
  have hlocks : m.locks = none := by
    unfold novaFillSuper at h
    cases canSkip with
    | true =>
      rw [if_pos rfl, some.injEq] at h
      rw [← h]
    | false =>
      rw [if_neg Bool.false_ne_true] at h
      simp only [forgetBlocknodes, bind_eq_bind, Option.pure_def, bind_eq_some_iff, some.injEq] at h
      obtain ⟨pi, -, rfl⟩ := h
      rfl
  simp [novaGetInodeAddress, hlocks]

/-- A mount of the device as `save` left it finds every inode number of
`inUse` where it was. -/
def RemountKeeps (s : State al) (inUse : Nat → Prop) (save : Mounted al → Nat → UInt8)
    (cpus : Nat) (canSkip : Bool) (alloc : al.State) : Prop :=
  ∀ ino, inUse ino → ∃ m m' a,
    novaFillSuper cpus (novaPutSuper save (Mounted.ofState s)) canSkip alloc = some m ∧
      novaGetInodeAddress m ino false = some (.ok a, m') ∧ resolve s ino = some a

/-- Whatever was mounted and whatever is saved at its unmount: inode
addressing survives a remount only if no inode number is in use. -/
theorem remount_keeps_iff (s : State al) (inUse : Nat → Prop)
    (save : Mounted al → Nat → UInt8) (cpus : Nat) (canSkip : Bool) (alloc : al.State) :
    RemountKeeps s inUse save cpus canSkip alloc ↔ ∀ ino, ¬ inUse ino := by
  constructor
  · intro h ino hino
    obtain ⟨m, m', a, hm, hlook, -⟩ := h ino hino
    rw [novaFillSuper_lookup hm] at hlook
    cases hlook
  · intro h ino hino
    exact absurd hino (h ino)

/-- A device before its format. The blocks 0 to 2 are reserved, and behind
them each CPU has a page of its journal. -/
def blankDevice (cpus : Nat) : State (.ascending 100) :=
  ⟨cpus, fun _ _ => 0, fun _ => 0, ⟨2 + cpus, fun _ => false⟩⟩

/-- A formatted device. -/
def formatted : State (.ascending 100) :=
  run (novaInitInodeTable (blankDevice 1)).2 [.getAddress 40 true]

/-- Inode 40 has a record before the unmount; after the next mount, if it
comes to an end, its lookup faults. -/
theorem remount_can_lose_inodes :
    resolve formatted 40 = some (5 * PAGE_SIZE + 8 * NOVA_INODE_SIZE) ∧
      ∀ canSkip, ¬ RemountKeeps formatted (fun ino => ino = 40) (fun m => m.mem) 1
        canSkip ⟨5, fun _ => false⟩ := by
  refine ⟨by decide, ?_⟩
  intro canSkip h
  obtain ⟨m, m', a, hm, hlook, -⟩ := h 40 rfl
  rw [novaFillSuper_lookup hm] at hlook
  cases hlook

-- === failure recovery

/-- A page of some table. -/
def TablePage (s : State al) (p : Nat) : Prop :=
  p ≠ 0 ∧ ∃ c, c < s.cpus ∧ ∃ k, s.table c k = p

/-- The crawl queues every inode table page once and no other page, and
the blocks marked for a page are those of the page. -/
def CrawlExact (s : State al) : Prop :=
  ∃ v, novaFailureRecoveryCrawl s.mem s.cpus = some (0, v) ∧
    (v.queued s.cpus).Nodup ∧
    (∀ p, p ∈ v.queued s.cpus ↔ TablePage s p) ∧
    ∀ p ∈ v.queued s.cpus, ∀ b, b ∈ failureMarks p ↔
      p ≤ b * PAGE_SIZE ∧ b * PAGE_SIZE < p + PAGE_SIZE

/-- A mark behind the page. -/
theorem failureMarks_behind (p : Nat) :
    p / PAGE_SIZE + 2 ∈ failureMarks p ∧ ¬ (p / PAGE_SIZE + 2) * PAGE_SIZE < p + PAGE_SIZE := by
  constructor
  · exact List.mem_map.2 ⟨2, List.mem_range.2 (by decide), rfl⟩
  · unfold PAGE_SIZE
    omega

/-- With one page the crawl is not exact. -/
theorem not_crawlExact {p : Nat} (hp : TablePage s p) : ¬ CrawlExact s := by
  rintro ⟨v, -, -, hqueued, hmarks⟩
  have hq := (hqueued p).2 hp
  obtain ⟨hmem, hout⟩ := failureMarks_behind p
  exact hout ((hmarks p hq _).1 hmem).2

/-- The first page decides on number `c`. -/
theorem resolve_first (h : TablesOk s) {c : Nat} (hc : c < s.cpus) :
    resolve s c = none ↔ s.table c 0 = 0 := by
  have hcpu : s.maps.cpuOf c = c := Nat.mod_eq_of_lt hc
  have hslot : s.maps.superpageCount c = 0 := by
    rw [superpageCount_eq]
    simp only [State.maps]
    rw [Nat.div_eq_of_lt hc]
  rw [resolve_eq h]
  simp only [InodeTables.slotOf, hcpu, hslot]
  show (if s.table c 0 = 0 then none else _) = none ↔ _
  split
  · simp [*]
  · simp [*]

/-- A run keeps the first pages. -/
theorem run_first {ops : List Op} (h : RunInv s)
    (hops : ∀ op ∈ ops, s.maps.superpageCount op.ino < TABLE_NUM) :
    (run s ops).cpus = s.cpus ∧ ∀ c, c < s.cpus → s.table c 0 ≠ 0 → (run s ops).table c 0 ≠ 0 := by
  induction ops generalizing s with
  | nil => exact ⟨rfl, fun _ _ hfirst => hfirst⟩
  | cons op ops ih =>
    have hstep := h.step op (hops op List.mem_cons_self)
    have hcpus := step_cpus h.ok op
    have hrest : ∀ op' ∈ ops, (step s op).maps.superpageCount op'.ino < TABLE_NUM := by
      intro op' hop'
      have hsame : (step s op).maps.superpageCount op'.ino = s.maps.superpageCount op'.ino := by
        simp only [InodeTables.superpageCount, State.maps, hcpus]
      rw [hsame]
      exact hops op' (List.mem_cons_of_mem _ hop')
    obtain ⟨hrun, htable⟩ := ih hstep hrest
    refine ⟨hrun.trans hcpus, ?_⟩
    intro c hc hfirst
    have hc' : c < (step s op).cpus := by rwa [hcpus]
    apply htable c hc'
    have hres : resolve s c ≠ none := fun hnone => hfirst ((resolve_first h.ok hc).1 hnone)
    obtain ⟨a, ha⟩ := ne_none_iff_exists'.1 hres
    obtain ⟨a', ha'⟩ := resolve_step h.ok op ha
    intro hzero
    rw [(resolve_first hstep.ok hc').2 hzero] at ha'
    cases ha'

/-- Failure recovery and the inode table, in every state that lookups and
migrations reach from a format: it finds the pages and marks their
blocks exactly if there is no CPU, and so no page. -/
theorem crawl_exact_iff (s₀ : State al) (ops : List Op) (hinit : (novaInitInodeTable s₀).1 = 0)
    (hops : ∀ op ∈ ops, (novaInitInodeTable s₀).2.maps.superpageCount op.ino < TABLE_NUM) :
    CrawlExact (run (novaInitInodeTable s₀).2 ops) ↔ s₀.cpus = 0 := by
  have hstart : novaInitInodeTable s₀ = (0, (novaInitInodeTable s₀).2) := Prod.ext hinit rfl
  have hinv := novaInitInodeTable_inv hstart
  have hcpus : (novaInitInodeTable s₀).2.cpus = s₀.cpus := novaInitInodeTable_cpus hstart
  obtain ⟨hrun, htable⟩ := run_first hinv hops
  constructor
  · intro hexact
    by_contra hne
    have hfirst : (novaInitInodeTable s₀).2.table 0 0 ≠ 0 :=
      novaInitInodeTable_first hstart (by omega)
    have hpage := htable 0 (by omega) hfirst
    exact not_crawlExact ⟨hpage, 0, by omega, 0, rfl⟩ hexact
  intro hzero
  have hnone : (run (novaInitInodeTable s₀).2 ops).cpus = 0 := by rw [hrun, hcpus, hzero]
  refine ⟨⟨0, fun _ => []⟩, ?_, ?_, ?_, ?_⟩
  · rw [hnone]
    rfl
  · rw [hnone]
    exact List.nodup_nil
  · intro p
    rw [hnone]
    constructor
    · intro hp
      cases hp
    · rintro ⟨-, c, hc, -⟩
      omega
  intro p hp
  rw [hnone] at hp
  cases hp

/-- Without a CPU there is nothing to find. -/
theorem crawl_exact_no_cpu : CrawlExact (run (novaInitInodeTable (blankDevice 0)).2 []) :=
  (crawl_exact_iff _ [] (by decide) (by simp)).2 rfl

/-- Two CPUs, the first with two pages, in the blocks 5 and 7. -/
def formattedTwo : State (.ascending 100) :=
  run (novaInitInodeTable (blankDevice 2)).2 [.getAddress 80 true]

/-- The crawl queues the first page of each CPU only, and marks the blocks
5 to 516 for block 5. -/
theorem crawl_can_miss_pages :
    TablePage formattedTwo (5 * PAGE_SIZE) ∧ TablePage formattedTwo (7 * PAGE_SIZE) ∧
      (novaFailureRecoveryCrawl formattedTwo.mem 2).map (fun r => (r.1, r.2.queued 2))
        = some (0, [5 * PAGE_SIZE, 6 * PAGE_SIZE]) ∧
      516 ∈ failureMarks (5 * PAGE_SIZE) ∧ ¬ CrawlExact formattedTwo := by
  have h5 : TablePage formattedTwo (5 * PAGE_SIZE) := ⟨by decide, 0, by decide, 0, by decide⟩
  have h7 : TablePage formattedTwo (7 * PAGE_SIZE) := ⟨by decide, 0, by decide, 1, by decide⟩
  refine ⟨h5, h7, by decide +kernel, ?_, not_crawlExact h5⟩
  exact List.mem_map.2 ⟨511, List.mem_range.2 (by decide), by decide⟩

end Themis.Mount
