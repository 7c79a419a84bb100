/-
Which inode numbers fit the mapping tables.

# The bound

The number that `nova_alloc_unused_inode` hands out is the smallest unused
one of its CPU. It has a slot in the table exactly if a number with a slot
is unused (`new_inode_fits_iff`).

# Without the condition

Nothing else bounds the numbers. On one CPU every call takes the next one,
and the one with the internal number 16384 is looked up in slot 512 of 512
(`new_inode_overruns`).
-/
import Themis.NewInode
import Themis.Proofs.InodeList
import Themis.Proofs.InodePages

namespace Themis.NewInode

open Lib Balloc InodeList InodePages RangeNode

variable {al : BlockAllocator} (rb : RbLib addr) {sb sb₀ sb' : Sb al} {cpus : Nat}
variable {ino piAddr numBlocks : Nat}

/-- The slot of a number is in the table. -/
theorem superpageCount_lt_iff {t : InodeTables} {c k : Nat} (hc : c < t.cpus) :
    t.superpageCount (k * t.cpus + c) < TABLE_NUM ↔ k < TABLE_NUM * 32 := by
  rw [superpageCount_eq, (ino_parts (by omega) hc).2]
  show k / 32 < 512 ↔ k < 512 * 32
  omega

-- === one call, runs

/-- How a call ends. -/
theorem novaNewNovaInode_cases (h : novaNewNovaInode rb sb = some (ino, piAddr, sb')) :
    sb'.mapId = (sb.mapId + 1) % sb.lists.cpus ∧ ((∃ ret freeIno, ret ≠ 0 ∧ sb'.pages = sb.pages ∧
          novaAllocUnusedInode rb sb.lists sb.mapId = some (ret, freeIno, sb'.lists)) ∨
        ∃ freeIno, novaAllocUnusedInode rb sb.lists sb.mapId = some (0, freeIno, sb'.lists) ∧
          sb'.pages = (novaGetInodeAddress sb.pages freeIno true).2) := by
  unfold novaNewNovaInode at h
  simp only at h
  split at h
  · cases h
  rename_i ret freeIno lists halloc
  split at h
  · rename_i hne
    cases h
    exact ⟨rfl, .inl ⟨ret, freeIno, hne, rfl, halloc⟩⟩
  rename_i hret
  rw [not_not] at hret
  rw [hret] at halloc
  split at h
  all_goals
    rename_i hget
    cases h
    exact ⟨rfl, .inr ⟨_, halloc, by rw [hget]⟩⟩

/-- The invariant of a run: that of the lists and that of the tables. -/
structure SbInv (cpus : Nat) (sb : Sb al) : Prop where
  lists : ∃ held, ListInv cpus sb.lists held
  pages : TablesOk sb.pages
  pages_cpus : sb.pages.cpus = cpus
  mapId : sb.mapId < cpus

/-- A call keeps the invariant. -/
theorem SbInv.call (hcpus : 0 < cpus) (h : SbInv cpus sb)
    (hres : novaNewNovaInode rb sb = some (ino, piAddr, sb')) : SbInv cpus sb' := by
  obtain ⟨held, hinv⟩ := h.lists
  obtain ⟨hid, hcase⟩ := novaNewNovaInode_cases rb hres
  have hmap : sb'.mapId < cpus := by
    rw [hid, hinv.cpus_eq]
    exact Nat.mod_lt _ hcpus
  rcases hcase with ⟨ret, freeIno, hne, hpages, halloc⟩ | ⟨freeIno, halloc, hpages⟩
  · rcases novaAllocUnusedInode_spec rb (hinv.maps sb.mapId h.mapId)
      with hfull | ⟨k, s', m', hok, -⟩
    · rw [hfull, Option.some.injEq, Prod.mk.injEq, Prod.mk.injEq] at halloc
      exact ⟨⟨held, halloc.2.2 ▸ hinv⟩, hpages ▸ h.pages, hpages ▸ h.pages_cpus, hmap⟩
    · rw [hok, Option.some.injEq, Prod.mk.injEq] at halloc
      exact absurd halloc.1.symm hne
  have hext := novaGetInodeAddress_extended h.pages freeIno true
  refine ⟨?_, hpages ▸ hext.ok, ?_, hmap⟩
  · rcases novaAllocUnusedInode_spec rb (hinv.maps sb.mapId h.mapId)
      with hfull | ⟨k, s', m', hok, ho⟩
    · rw [hfull] at halloc
      cases halloc
    · rw [hok, Option.some.injEq, Prod.mk.injEq, Prod.mk.injEq] at halloc
      exact ⟨_, halloc.2.2 ▸ hinv.handedOut hcpus h.mapId ho⟩
  · rw [hpages, hext.cpus]
    exact h.pages_cpus

/-- Freeing keeps the invariant. -/
theorem SbInv.free (hcpus : 0 < cpus) (h : SbInv cpus sb)
    (hnormal : reservedHigh sb.lists.cpus < ino / sb.lists.cpus) :
    SbInv cpus { sb with lists := (novaFreeInuseInode rb sb.lists ino false).2 } := by
  obtain ⟨held, hinv⟩ := h.lists
  refine ⟨?_, h.pages, h.pages_cpus, h.mapId⟩
  rw [hinv.cpus_eq] at hnormal
  by_cases huse : InUse sb.lists ino
  · have hheld : ino ∈ held := by
      rcases (hinv.inUse_iff hcpus ino).1 huse with hle | hmem
      · omega
      · exact hmem
    obtain ⟨s1, m', hfree, hg⟩ := hinv.free_spec rb hcpus hheld
    exact ⟨held.erase ino, by rw [hfree]; exact hinv.givenBack hcpus hheld hg⟩
  · exact ⟨held, (novaFreeInuseInode_unused rb false huse).symm ▸ hinv⟩

/-- A run keeps the invariant. -/
theorem NewRun.inv (hcpus : 0 < cpus) (h0 : SbInv cpus sb₀) (h : NewRun rb sb₀ sb) :
    SbInv cpus sb := by
  induction h with
  | start => exact h0
  | call _ hres ih => exact ih.call rb hcpus hres
  | free ino _ hnormal ih => exact ih.free rb hcpus hnormal

/-- A mounted file system: the lists and the tables as their
initialisations leave them. -/
structure Mounted (cpus : Nat) (sb : Sb al) : Prop where
  lists : novaInitInodeInuseList rb (fun _ => false) (mountInfo cpus) = (0, sb.lists)
  pages : ∃ s : InodePages.State al, s.cpus = cpus ∧ novaInitInodeTable s = (0, sb.pages)
  mapId : sb.mapId = 0

/-- A mount gives the invariant. -/
theorem Mounted.inv (hcpus : 0 < cpus) (h : Mounted rb cpus sb) : SbInv cpus sb := by
  obtain ⟨s, hs, hinit⟩ := h.pages
  obtain ⟨s0, hlists, hinv⟩ := novaInitInodeInuseList_inv rb
  rw [h.lists, Prod.mk.injEq] at hlists
  refine ⟨⟨∅, hlists.2 ▸ hinv⟩, novaInitInodeTable_ok hinit, ?_, ?_⟩
  · rw [← hs]
    exact novaInitInodeTable_cpus hinit
  · rw [h.mapId]
    exact hcpus

-- === the bound

/-- In every state of a run of `nova_new_nova_inode` after a mount, on any
number of CPUs: a number that the next call is handed has an index below
`TABLE_NUM` exactly if an internal number below `TABLE_NUM * 32` is unused
on the CPU in turn, and its lookup reads no slot outside the table exactly
if that holds or the table cannot be filled. -/
theorem new_inode_fits_iff {ino : Nat} (hcpus : 1 ≤ cpus) (h₀ : Mounted rb cpus sb₀)
    (h : NewRun rb sb₀ sb) (hino : nextIno rb sb = some ino) :
    (sb.pages.maps.superpageCount ino < TABLE_NUM ↔
        ∃ k < TABLE_NUM * 32, ¬ Covers (sb.lists.inodeMaps sb.mapId).nodes k) ∧
      ((∀ slot ∈ slotsRead sb.pages ino true, slot < TABLE_NUM) ↔
        (∃ k < TABLE_NUM * 32, ¬ Covers (sb.lists.inodeMaps sb.mapId).nodes k) ∨
          ¬ Fillable sb.pages sb.mapId) := by
  have hinv := h.inv rb hcpus (h₀.inv rb hcpus)
  obtain ⟨held, hlists⟩ := hinv.lists
  unfold nextIno at hino
  rcases novaAllocUnusedInode_spec rb (hlists.maps sb.mapId hinv.mapId)
    with hfull | ⟨k, s', m', hok, ho⟩
  · rw [hfull] at hino
    simp [show (-ENOSPC : Int) ≠ 0 by decide] at hino
  rw [hok] at hino
  simp only [if_true, Option.some.injEq] at hino
  have hcpus_eq : sb.lists.cpus = sb.pages.maps.cpus := by
    rw [hlists.cpus_eq]
    exact hinv.pages_cpus.symm
  have hid : sb.mapId < sb.pages.maps.cpus := by
    rw [← hcpus_eq, hlists.cpus_eq]
    exact hinv.mapId
  rw [hcpus_eq] at hino
  have hcpu : sb.pages.maps.cpuOf ino = sb.mapId := by
    rw [← hino]
    exact (ino_parts (by omega) hid).1
  -- the smallest unused number is below the bound if any is
  have hfits : sb.pages.maps.superpageCount ino < TABLE_NUM ↔
      ∃ k < TABLE_NUM * 32, ¬ Covers (sb.lists.inodeMaps sb.mapId).nodes k := by
    rw [← hino, superpageCount_lt_iff hid]
    constructor
    · intro hlt
      exact ⟨k, hlt, ho.unused⟩
    · rintro ⟨x, hlt, hx⟩
      exact lt_of_le_of_lt (ho.least x hx) hlt
  refine ⟨hfits, ?_⟩
  rw [slotsRead_lt_iff, hfits, hcpu]

/-- A mount with one CPU. -/
theorem mounted_one_cpu (numBlocks : Nat) (hroom : 4 ≤ numBlocks) :
    ∃ sb₀ : Sb (.ascending numBlocks), Mounted (RbLib.spine addr) 1 sb₀ ∧
      sb₀.pages.alloc.next = 3 := by
  obtain ⟨s0, hlists, -⟩ : ∃ s0, novaInitInodeInuseList (RbLib.spine addr)
      (fun _ => false) (mountInfo 1) = (0, s0) ∧ ListInv 1 s0 ∅ := novaInitInodeInuseList_inv _
  have hnew : ¬ (1 = 0 ∨ numBlocks < 2 + 1 + 1) := by omega
  let s : InodePages.State (.ascending numBlocks) :=
    ⟨1, fun _ _ => 0, fun _ => 0, ⟨2, fun _ => false⟩⟩
  have hinit : (novaInitInodeTable s).1 = 0 ∧ (novaInitInodeTable s).2.alloc.next = 3 := by
    unfold novaInitInodeTable
    unfold initLoop novaNewLogBlock
    simp only [BlockAllocator.ascending, s, if_neg hnew]
    exact ⟨rfl, rfl⟩
  exact ⟨⟨s0, (novaInitInodeTable s).2, 0⟩, ⟨hlists, ⟨s, rfl, Prod.ext hinit.1 rfl⟩, rfl⟩, hinit.2⟩

/-- On an ascending allocator the loop gets through if there are blocks
for all its slots, and takes no more than that. -/
theorem extendLoop_ascending (cpu : Nat) (l : List Nat)
    (s : InodePages.State (.ascending numBlocks)) :
    (s.alloc.next + l.length + 1 ≤ numBlocks → (extendLoop cpu true s l).1 = none) ∧
      (extendLoop cpu true s l).2.alloc.next ≤ s.alloc.next + l.length := by
  induction l generalizing s with
  | nil => exact ⟨fun _ => rfl, le_rfl⟩
  | cons i l ih =>
    unfold extendLoop
    rw [List.length_cons]
    split
    · by_cases hfull : 1 = 0 ∨ numBlocks < s.alloc.next + 1 + 1
      · have hnew : novaNewLogBlock s = (none, s) := by
          unfold novaNewLogBlock
          simp only [BlockAllocator.ascending, if_pos hfull]
          rfl
        rw [hnew]
        refine ⟨fun hroom => by omega, ?_⟩
        show s.alloc.next ≤ _
        omega
      · obtain ⟨p, s1, hnew, hnext⟩ : ∃ p s1, novaNewLogBlock s = (some p, s1) ∧
            s1.alloc.next = s.alloc.next + 1 := by
          unfold novaNewLogBlock
          simp only [BlockAllocator.ascending, if_neg hfull]
          exact ⟨_, _, rfl, rfl⟩
        rw [hnew]
        obtain ⟨hnone, hle⟩ := ih (s1.setSlot cpu (i + 1) p)
        have hsame : (s1.setSlot cpu (i + 1) p).alloc.next = s.alloc.next + 1 := hnext
        refine ⟨fun hroom => hnone (by omega), ?_⟩
        show (extendLoop cpu true (s1.setSlot cpu (i + 1) p) l).2.alloc.next ≤ _
        omega
    · obtain ⟨hnone, hle⟩ := ih s
      exact ⟨fun hroom => hnone (by omega), by omega⟩

/-- The state after `n` calls on one CPU. -/
structure Counted (numBlocks n : Nat) (sb : Sb (.ascending numBlocks)) : Prop where
  inv : SbInv 1 sb
  covers : ∀ k, Covers (sb.lists.inodeMaps 0).nodes k ↔ k ≤ 15 + n
  first : sb.pages.table 0 0 ≠ 0
  room : sb.pages.alloc.next ≤ 3 + 600 * n

/-- One more call. -/
theorem Counted.call {numBlocks n : Nat} {sb : Sb (.ascending numBlocks)}
    (h : Counted numBlocks n sb) (hn : n ≤ 16368) (hroom : 10000000 ≤ numBlocks) :
    ∃ piAddr sb', novaNewNovaInode rb sb = some (16 + n, piAddr, sb') ∧
      nextIno rb sb = some (16 + n) ∧ Counted numBlocks (n + 1) sb' := by
  obtain ⟨held, hlists⟩ := h.inv.lists
  have hid : sb.mapId = 0 := by
    have := h.inv.mapId
    omega
  have hmap := hlists.maps 0 (by decide)
  obtain ⟨s', m', hok, ho⟩ : ∃ s' m', novaAllocUnusedInode rb sb.lists 0
      = some (0, 16 + n, s') ∧ HandedOut sb.lists s' 0 (16 + n) m' := by
    rcases novaAllocUnusedInode_spec rb hmap with hfull | ⟨k, s', m', hok, ho⟩
    · have := (h.covers (16 + n)).1 (novaAllocUnusedInode_full rb hmap hfull
        (by unfold MAX_INODE; omega))
      omega
    have hunused := (h.covers k).not.1 ho.unused
    have hleast := ho.least (16 + n) ((h.covers (16 + n)).not.2 (by omega))
    have hk : k = 16 + n := by omega
    rw [hk, hlists.cpus_eq, Nat.mul_one] at hok
    exact ⟨s', m', hok, hk ▸ ho⟩
  have hslots : sb.pages.maps.superpageCount (16 + n) ≤ 600 := by
    rw [superpageCount_eq]
    show (16 + n) / sb.pages.cpus / 32 ≤ 600
    rw [h.inv.pages_cpus]
    omega
  have hcpu : sb.pages.maps.cpuOf (16 + n) = 0 := by
    show (16 + n) % sb.pages.cpus = 0
    rw [h.inv.pages_cpus, Nat.mod_one]
  obtain ⟨hnone, hle⟩ := extendLoop_ascending 0
    (List.range (sb.pages.maps.superpageCount (16 + n))) sb.pages
  rw [List.length_range] at hnone hle
  have hroom' := h.room
  obtain ⟨a, hget⟩ : ∃ a, (novaGetInodeAddress sb.pages (16 + n) true).1 = .ok a ∧
      (novaGetInodeAddress sb.pages (16 + n) true).2
        = (extendLoop 0 true sb.pages (List.range (sb.pages.maps.superpageCount (16 + n)))).2 := by
    have hthrough := hnone (by omega)
    unfold novaGetInodeAddress
    simp only [hcpu, if_neg h.first]
    generalize extendLoop 0 true sb.pages
      (List.range (sb.pages.maps.superpageCount (16 + n))) = r at hthrough
    obtain ⟨e, s1⟩ := r
    cases hthrough
    exact ⟨_, rfl, rfl⟩
  have hext := novaGetInodeAddress_extended h.inv.pages (16 + n) true
  have hcall : novaNewNovaInode rb sb = some (16 + n, a,
      ⟨s', (novaGetInodeAddress sb.pages (16 + n) true).2, (sb.mapId + 1) % sb.lists.cpus⟩) := by
    unfold novaNewNovaInode
    simp only [hid, hok, ne_eq, not_true_eq_false, if_false]
    rw [show novaGetInodeAddress sb.pages (16 + n) true
      = (.ok a, (novaGetInodeAddress sb.pages (16 + n) true).2) from Prod.ext hget.1 rfl]
  refine ⟨a, _, hcall, ?_, h.inv.call rb (by decide) hcall, ?_, ?_, ?_⟩
  · unfold nextIno
    rw [hid, hok]
    rfl
  · intro k
    have hm : s'.inodeMaps 0 = m' := by
      rw [ho.state]
      rfl
    show Covers (s'.inodeMaps 0).nodes k ↔ _
    rw [hm, ho.covers, h.covers]
    omega
  · show (novaGetInodeAddress sb.pages (16 + n) true).2.table 0 0 ≠ 0
    rw [hext.kept 0 0 h.first]
    exact h.first
  show (novaGetInodeAddress sb.pages (16 + n) true).2.alloc.next ≤ _
  rw [hget.2]
  omega

/-- So many calls one after another. -/
theorem counted_run {sb₀ : Sb (.ascending numBlocks)} (h0 : Mounted rb 1 sb₀)
    (hnext : sb₀.pages.alloc.next = 3) (hroom : 10000000 ≤ numBlocks) {n : Nat} (hn : n ≤ 16369) :
    ∃ sb, NewRun rb sb₀ sb ∧ Counted numBlocks n sb := by
  induction n with
  | zero =>
    have hinv := h0.inv rb (by decide)
    obtain ⟨s, hs, hinit⟩ := h0.pages
    obtain ⟨s0, hlists, hempty⟩ : ∃ s0, novaInitInodeInuseList rb
        (fun _ => false) (mountInfo 1) = (0, s0) ∧ ListInv 1 s0 ∅ := novaInitInodeInuseList_inv rb
    rw [h0.lists, Prod.mk.injEq] at hlists
    refine ⟨sb₀, .start, hinv, ?_, novaInitInodeTable_first hinit (by omega), ?_⟩
    · intro k
      rw [hlists.2, hempty.use 0 (by decide) k]
      simp [show reservedHigh 1 = 15 by decide]
    · omega
  | succ n ih =>
    obtain ⟨sb, hrun, hc⟩ := ih (by omega)
    obtain ⟨piAddr, sb', hcall, -, hc'⟩ := hc.call rb (by omega) hroom
    exact ⟨sb', .call hrun hcall, hc'⟩

/-- The first call on one CPU. -/
theorem new_inode_fits_first :
    ∃ sb₀ : Sb (.ascending 10000000), nextIno (RbLib.spine RangeNode.addr) sb₀ = some 16 ∧
      (sb₀.pages.maps.superpageCount 16 < TABLE_NUM ↔
        ∃ k < TABLE_NUM * 32, ¬ Covers (sb₀.lists.inodeMaps sb₀.mapId).nodes k) := by
  obtain ⟨sb₀, h₀, hnext⟩ := mounted_one_cpu 10000000 (by decide)
  obtain ⟨sb, hrun, hc⟩ := counted_run _ h₀ hnext (le_refl _) (Nat.zero_le 16369)
  obtain ⟨-, -, -, hino, -⟩ := hc.call (RbLib.spine addr) (by decide) (le_refl _)
  exact ⟨sb, hino, (new_inode_fits_iff _ (by decide) h₀ hrun hino).1⟩

/-- One CPU: the 16369th call is handed inode 16384 and returns it, and
its lookup reads slot 512 of a table of 512. -/
theorem new_inode_overruns :
    ∃ (sb₀ sb sb' : Sb (.ascending 10000000)) (piAddr : Nat),
      Mounted (RbLib.spine RangeNode.addr) 1 sb₀ ∧ NewRun (RbLib.spine RangeNode.addr) sb₀ sb ∧
      novaNewNovaInode (RbLib.spine RangeNode.addr) sb = some (16384, piAddr, sb') ∧
      sb.pages.maps.superpageCount 16384 = TABLE_NUM ∧
      TABLE_NUM ∈ slotsRead sb.pages 16384 true := by
  obtain ⟨sb₀, h₀, hnext⟩ := mounted_one_cpu 10000000 (by decide)
  have hn : 16368 ≤ 16369 := by decide
  obtain ⟨sb, hrun, hc⟩ := counted_run _ h₀ hnext (le_refl _) hn
  obtain ⟨piAddr, sb', hcall, -, -⟩ := hc.call (RbLib.spine addr) (le_refl _) (le_refl _)
  have hcount : sb.pages.maps.superpageCount 16384 = TABLE_NUM := by
    rw [superpageCount_eq]
    show 16384 / sb.pages.cpus / 32 = 512
    rw [hc.inv.pages_cpus]
  refine ⟨sb₀, sb, sb', piAddr, h₀, hrun, hcall, hcount, ?_⟩
  have hcpu : sb.pages.maps.cpuOf 16384 = 0 := by
    show 16384 % sb.pages.cpus = 0
    rw [hc.inv.pages_cpus]
  have hroom := hc.room
  have hloop := (extendLoop_ascending 0 (List.range TABLE_NUM) sb.pages).1
    (by rw [List.length_range]; show _ + 512 + 1 ≤ _; omega)
  unfold slotsRead
  simp only [hcpu, hcount, if_neg hc.first, hloop]
  simp

end Themis.NewInode
