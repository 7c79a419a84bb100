/-
Inode addressing: in every state a run of lookups and migrations
reaches, the tables are gap-free and injective, so that different
numbers have different records, and moving a page moves no record's
contents.

# Invariant

`TablesOk` is the whole invariant: the nonzero slots of a table are a
prefix, each holds the offset of a block in use, and no two slots of any
tables hold the same one. A new page comes from a block not in use, so
it can be in no slot yet (`TablesOk.fresh`).
-/
import Mathlib.Data.Nat.Bitwise
import Themis.InodePages

namespace Themis.InodePages

open Lib List Option

variable {al : BlockAllocator} {s s' : State al}
variable {p b i k cpu n a ino : Nat} {ret : Int} {ext : Bool} {e : Option Int}
variable {c r j : Nat} {rest cpus : List Nat}

-- === number splitting

section numbers

variable (t : InodeTables)

/-- The slot of a number in its table. -/
theorem superpageCount_eq (ino : Nat) : t.superpageCount ino = ino / t.cpus / 32 := by
  unfold InodeTables.superpageCount
  rw [Nat.shiftRight_eq_div_pow]
  rfl

/-- The place of a number on its page. -/
theorem inodeIndex_eq (ino : Nat) : t.inodeIndex ino = ino / t.cpus % 32 := by
  unfold InodeTables.inodeIndex
  rw [Nat.and_two_pow_sub_one_eq_mod]
  rfl

/-- A page has 32 places. -/
theorem inodeIndex_lt (ino : Nat) : t.inodeIndex ino < 32 := by
  rw [inodeIndex_eq]
  exact Nat.mod_lt _ (by decide)

/-- CPU, slot and place give the number. -/
theorem ino_eq_of_parts {i j : Nat} (hcpu : t.cpuOf i = t.cpuOf j)
    (hslot : t.superpageCount i = t.superpageCount j)
    (hindex : t.inodeIndex i = t.inodeIndex j) : i = j := by
  rw [superpageCount_eq, superpageCount_eq] at hslot
  rw [inodeIndex_eq, inodeIndex_eq] at hindex
  have hinternal : i / t.cpus = j / t.cpus := by omega
  unfold InodeTables.cpuOf at hcpu
  rw [← Nat.div_add_mod i t.cpus, ← Nat.div_add_mod j t.cpus, hinternal, hcpu]

end numbers

-- === new pages

/-- What a new page is. -/
structure NewPage (s s' : State al) (p b : Nat) : Prop where
  off : p = b * PAGE_SIZE
  pos : 0 < b
  free : ¬ al.InUse s.alloc b
  inUse : ∀ x, al.InUse s'.alloc x ↔ al.InUse s.alloc x ∨ x = b
  cpus : s'.cpus = s.cpus
  table : s'.table = s.table
  mem : ∀ x, x < p ∨ p + PAGE_SIZE ≤ x → s'.mem x = s.mem x

/-- A new page. -/
theorem novaNewLogBlock_some (h : novaNewLogBlock s = (some p, s')) : ∃ b, NewPage s s' p b := by
  unfold novaNewLogBlock at h
  split at h
  · cases h
  rename_i b k a hnew
  obtain ⟨hk, hk1, hb, -, hfree, huse⟩ := al.new_some hnew
  cases h
  refine ⟨b, rfl, hb, hfree b le_rfl (by omega), ?_, rfl, rfl, ?_⟩
  · intro x
    rw [huse]
    constructor
    · rintro (hx | hx)
      · exact .inl hx
      · exact .inr (by omega)
    rintro (hx | rfl)
    · exact .inl hx
    · exact .inr ⟨le_rfl, by omega⟩
  intro x hx
  simp only [fillBytes]
  rw [if_neg (by omega)]

/-- A failed allocation changes nothing the tables depend on. -/
structure Unchanged (s s' : State al) : Prop where
  cpus : s'.cpus = s.cpus
  table : s'.table = s.table
  mem : s'.mem = s.mem
  inUse : ∀ x, al.InUse s'.alloc x ↔ al.InUse s.alloc x

/-- Nothing changed. -/
theorem Unchanged.refl (s : State al) : Unchanged s s := ⟨rfl, rfl, rfl, fun _ => Iff.rfl⟩

/-- An allocation that fails changes nothing. -/
theorem novaNewLogBlock_none (h : novaNewLogBlock s = (none, s')) : Unchanged s s' := by
  unfold novaNewLogBlock at h
  split at h
  · rename_i a hnew
    cases h
    exact ⟨rfl, rfl, rfl, al.new_none hnew⟩
  · cases h

/-- A new page is not 0. -/
theorem NewPage.ne_zero (h : NewPage s s' p b) : p ≠ 0 := by
  rw [h.off]
  have := h.pos
  unfold PAGE_SIZE
  omega

-- === invariant

/-- The mapping tables of a reachable state. -/
structure TablesOk (s : State al) : Prop where
  pre : ∀ c k, s.table c (k + 1) ≠ 0 → s.table c k ≠ 0
  page : ∀ c k, s.table c k ≠ 0 →
    ∃ b, s.table c k = b * PAGE_SIZE ∧ al.InUse s.alloc b
  inj : ∀ c k c' k', s.table c k ≠ 0 → s.table c k = s.table c' k' →
    c = c' ∧ k = k'

section

variable (h : TablesOk s)
include h

/-- In front of a filled slot all are filled. -/
theorem TablesOk.pre_le (hik : i ≤ k) (hk : s.table c k ≠ 0) : s.table c i ≠ 0 := by
  induction k with
  | zero =>
    have : i = 0 := by omega
    rwa [this]
  | succ k ih =>
    rcases Nat.lt_or_ge k i with hlt | hge
    · have : i = k + 1 := by omega
      rwa [this]
    · exact ih hge (h.pre c k hk)

/-- Only tables and used blocks matter. -/
theorem TablesOk.congr (ht : s'.table = s.table)
    (hu : ∀ x, al.InUse s.alloc x → al.InUse s'.alloc x) : TablesOk s' := by
  refine ⟨?_, ?_, ?_⟩
  · rw [ht]
    exact h.pre
  · intro c k hk
    rw [ht] at hk ⊢
    obtain ⟨b, hb, huse⟩ := h.page c k hk
    exact ⟨b, hb, hu b huse⟩
  · rw [ht]
    exact h.inj

/-- A state that did not change. -/
theorem TablesOk.unchanged (hs : Unchanged s s') : TablesOk s' :=
  h.congr hs.table fun x hx => (hs.inUse x).2 hx

/-- A new page is in no slot. -/
theorem TablesOk.fresh (hp : NewPage s s' p b) (c k : Nat) : s.table c k ≠ p := by
  intro heq
  obtain ⟨b', hb', huse⟩ := h.page c k (heq ▸ hp.ne_zero)
  apply hp.free
  have : b' = b := by
    rw [heq, hp.off] at hb'
    unfold PAGE_SIZE at hb'
    omega
  rwa [← this]

/-- A new page is entered behind a filled slot. -/
theorem TablesOk.setSlot {p b c k : Nat} (hp : NewPage s s' p b)
    (hpre : ∀ i, i + 1 = k → s.table c i ≠ 0) {s'' : State al}
    (htable : s''.table = (s'.setSlot c k p).table)
    (halloc : s''.alloc = s'.alloc) : TablesOk s'' := by
  have hne := hp.ne_zero
  have hat : ∀ c' k', s''.table c' k' = if c' = c ∧ k' = k then p else s.table c' k' := by
    intro c' k'
    rw [htable]
    simp only [State.setSlot, hp.table]
  refine ⟨?_, ?_, ?_⟩
  · intro c' k' hk'
    rw [hat] at hk' ⊢
    by_cases hhere : c' = c ∧ k' = k
    · rw [if_pos hhere]
      exact hne
    rw [if_neg hhere]
    by_cases hnext : c' = c ∧ k' + 1 = k
    · rw [hnext.1]
      exact hpre k' hnext.2
    · rw [if_neg hnext] at hk'
      exact h.pre c' k' hk'
  · intro c' k' hk'
    rw [hat] at hk' ⊢
    rw [halloc]
    by_cases hhere : c' = c ∧ k' = k
    · rw [if_pos hhere]
      exact ⟨b, hp.off, (hp.inUse b).2 (.inr rfl)⟩
    rw [if_neg hhere] at hk' ⊢
    obtain ⟨b', hb', huse⟩ := h.page c' k' hk'
    exact ⟨b', hb', (hp.inUse b').2 (.inl huse)⟩
  intro c1 k1 c2 k2 hk1 heq
  rw [hat] at hk1
  rw [hat, hat] at heq
  by_cases h1 : c1 = c ∧ k1 = k
  · by_cases h2 : c2 = c ∧ k2 = k
    · exact ⟨h1.1.trans h2.1.symm, h1.2.trans h2.2.symm⟩
    · rw [if_pos h1, if_neg h2] at heq
      exact absurd heq.symm (h.fresh hp c2 k2)
  rw [if_neg h1] at hk1 heq
  by_cases h2 : c2 = c ∧ k2 = k
  · rw [if_pos h2] at heq
    exact absurd heq (h.fresh hp c1 k1)
  · rw [if_neg h2] at heq
    exact h.inj c1 k1 c2 k2 hk1 heq

-- === initialisation

/-- The first page of a table. -/
theorem firstPage_ok (hp : NewPage s s' p b) (hempty : ∀ k, s.table cpu k = 0) :
    TablesOk (firstPage s' cpu p) := by
  refine h.setSlot (c := cpu) (k := 0) hp (by omega) ?_ rfl
  funext c k
  simp only [firstPage, State.setSlot, hp.table]
  by_cases hc : c = cpu
  · by_cases hk : k = 0
    · rw [if_pos hc, if_pos hk, if_pos ⟨hc, hk⟩]
    · rw [if_pos hc, if_neg hk, if_neg fun hh => hk hh.2, hc, hempty]
  · rw [if_neg hc, if_neg fun hh => hc hh.1]

end

/-- What the round for `cpu` does, with the rest of the loop. -/
inductive InitRound (s s' : State al) (cpu : Nat) (rest : List Nat) (ret : Int) : Prop
  | noBlock (hret : ret = -ENOSPC) (hsame : Unchanged s s')
  | newPage {s₁ : State al} {p b : Nat} (hp : NewPage s s₁ p b)
      (hrest : initLoop (firstPage s₁ cpu p) rest = (ret, s'))

/-- One round of the loop. -/
theorem initLoop_cons (hrun : initLoop s (cpu :: rest) = (ret, s')) :
    InitRound s s' cpu rest ret := by
  unfold initLoop at hrun
  split at hrun
  · rename_i hnew
    cases hrun
    exact .noBlock rfl (novaNewLogBlock_none hnew)
  rename_i p s1 hnew
  obtain ⟨b, hp⟩ := novaNewLogBlock_some hnew
  exact .newPage hp hrun

/-- The loop keeps the tables in order. -/
theorem initLoop_ok (h : TablesOk s) (hempty : ∀ c ∈ cpus, ∀ k, s.table c k = 0)
    (hnodup : cpus.Nodup) (hrun : initLoop s cpus = (ret, s')) : TablesOk s' := by
  induction cpus generalizing s with
  | nil =>
    cases hrun
    exact h
  | cons cpu rest ih =>
    obtain ⟨hnot, hrest⟩ := nodup_cons.1 hnodup
    cases initLoop_cons hrun with
    | noBlock _ hsame => exact h.unchanged hsame
    | newPage hp hrun =>
      apply ih (firstPage_ok h hp (hempty cpu mem_cons_self)) _ hrest hrun
      intro c hc k
      have hne : c ≠ cpu := fun heq => hnot (heq ▸ hc)
      simp only [firstPage, hp.table]
      rw [if_neg hne]
      exact hempty c (mem_cons_of_mem _ hc) k

/-- The tables after a format are in order. -/
theorem novaInitInodeTable_ok (h : novaInitInodeTable s = (ret, s')) : TablesOk s' := by
  apply initLoop_ok ⟨_, _, _⟩ _ nodup_range h
  · intro c k hk
    exact absurd rfl hk
  · intro c k hk
    exact absurd rfl hk
  · intro c k c' k' hk
    exact absurd rfl hk
  · intro c _ k
    rfl

/-- The loop fills the first slots. -/
theorem initLoop_first (hrun : initLoop s cpus = (ret, s')) :
    s'.cpus = s.cpus ∧ (∀ c, s.table c 0 ≠ 0 → s'.table c 0 ≠ 0) ∧
      (ret = 0 → ∀ c ∈ cpus, s'.table c 0 ≠ 0) := by
  induction cpus generalizing s with
  | nil =>
    cases hrun
    exact ⟨rfl, fun _ h => h, fun _ c hc => absurd hc not_mem_nil⟩
  | cons cpu rest ih =>
    cases initLoop_cons hrun with
    | noBlock hret hsame =>
      refine ⟨hsame.cpus, fun c hc => by rwa [hsame.table], fun hzero => ?_⟩
      rw [hret] at hzero
      exact absurd hzero (by decide)
    | @newPage s1 p b hp hrun =>
      obtain ⟨hcpus, hkeep, hall⟩ := ih hrun
      have hslot : ∀ c, c = cpu ∨ s.table c 0 ≠ 0 → (firstPage s1 cpu p).table c 0 ≠ 0 := by
        intro c hc
        simp only [firstPage, hp.table]
        by_cases heq : c = cpu
        · simp [heq, hp.ne_zero]
        · simpa [heq] using hc
      refine ⟨hcpus.trans hp.cpus, fun c hc => hkeep c (hslot c (.inr hc)), ?_⟩
      intro hret c hc
      rcases mem_cons.1 hc with heq | hin
      · exact hkeep c (hslot c (.inl heq))
      · exact hall hret c hin

/-- The CPUs stay. -/
theorem novaInitInodeTable_cpus (h : novaInitInodeTable s = (ret, s')) :
    s'.cpus = s.cpus := (initLoop_first h).1

/-- After a format the first slots are filled. -/
theorem novaInitInodeTable_first (h : novaInitInodeTable s = (0, s')) (hc : c < s.cpus) :
    s'.table c 0 ≠ 0 := (initLoop_first h).2.2 rfl c (mem_range.2 hc)

-- === lookup

/-- What extending the tables keeps. -/
structure Extended (s s' : State al) : Prop where
  ok : TablesOk s'
  cpus : s'.cpus = s.cpus
  kept : ∀ c k, s.table c k ≠ 0 → s'.table c k = s.table c k

/-- Nothing was extended. -/
theorem Extended.refl (h : TablesOk s) : Extended s s := ⟨h, rfl, fun _ _ _ => rfl⟩

/-- What the round for slot `i + 1` does, with the rest of the loop. -/
inductive ExtendRound (cpu i : Nat) (ext : Bool) (rest : List Nat) (s s' : State al)
    (e : Option Int) : Prop
  | stop (herr : e ≠ none) (hsame : Unchanged s s')
  | newPage {s₁ : State al} {p b : Nat} (hzero : s.table cpu (i + 1) = 0)
      (hp : NewPage s s₁ p b)
      (hrest : extendLoop cpu ext (s₁.setSlot cpu (i + 1) p) rest = (e, s'))
  | filled (hnz : s.table cpu (i + 1) ≠ 0) (hrest : extendLoop cpu ext s rest = (e, s'))

/-- One round of the loop. -/
theorem extendLoop_cons (hrun : extendLoop cpu ext s (i :: rest) = (e, s')) :
    ExtendRound cpu i ext rest s s' e := by
  unfold extendLoop at hrun
  split at hrun
  · rename_i hzero
    split at hrun
    · split at hrun
      · rename_i hnew
        cases hrun
        exact .stop (some_ne_none _) (novaNewLogBlock_none hnew)
      · rename_i p s1 hnew
        obtain ⟨b, hp⟩ := novaNewLogBlock_some hnew
        exact .newPage hzero hp hrun
    · cases hrun
      exact .stop (some_ne_none _) (.refl s)
  · rename_i hnz
    exact .filled hnz hrun

/-- The loop only extends. -/
theorem extendLoop_extended (h : TablesOk s) (hi : s.table cpu i ≠ 0)
    (hrun : extendLoop cpu ext s (List.range' i n) = (e, s')) : Extended s s' := by
  induction n generalizing s i with
  | zero =>
    cases hrun
    exact Extended.refl h
  | succ n ih =>
    cases extendLoop_cons hrun with
    | stop _ hsame => exact ⟨h.unchanged hsame, hsame.cpus, fun c k _ => by rw [hsame.table]⟩
    | @newPage s1 p b hzero hp hrun =>
      have hok : TablesOk (s1.setSlot cpu (i + 1) p) := by
        apply h.setSlot hp _ rfl rfl
        intro k hk
        have : k = i := by omega
        rwa [this]
      have hnext := ih hok (by simp [State.setSlot, hp.ne_zero]) hrun
      refine ⟨hnext.ok, hnext.cpus.trans hp.cpus, ?_⟩
      intro c k hk
      have hother : ¬ (c = cpu ∧ k = i + 1) := by
        intro hh
        rw [hh.1, hh.2] at hk
        exact hk hzero
      have hkeep : (s1.setSlot cpu (i + 1) p).table c k = s.table c k := by
        simp only [State.setSlot, hp.table]
        rw [if_neg hother]
      rw [hnext.kept c k (by rwa [hkeep]), hkeep]
    | filled hnz hrun => exact ih h hnz hrun

/-- A lookup only extends. -/
theorem novaGetInodeAddress_extended (h : TablesOk s) (ino : Nat) (ext : Bool) :
    Extended s (novaGetInodeAddress s ino ext).2 := by
  unfold novaGetInodeAddress
  simp only
  split
  · exact Extended.refl h
  rename_i hne
  generalize hrun : extendLoop (s.maps.cpuOf ino) ext s
    (List.range (s.maps.superpageCount ino)) = r
  rw [range_eq_range'] at hrun
  obtain ⟨e, s1⟩ := r
  have hext := extendLoop_extended h hne hrun
  cases e with
  | none => exact hext
  | some e => exact hext

/-- Filled slots need no page. -/
theorem extendLoop_filled (h : ∀ k, i < k → k ≤ i + n → s.table cpu k ≠ 0) :
    extendLoop cpu false s (List.range' i n) = (none, s) := by
  induction n generalizing i with
  | zero => rfl
  | succ n ih =>
    rw [range'_succ]
    unfold extendLoop
    rw [if_neg (h (i + 1) (by omega) (by omega))]
    exact ih fun k hk hk' => h k (by omega) (by omega)

/-- A gap stops a lookup that may not extend. -/
theorem extendLoop_gap (hik : i < k) (hkn : k ≤ i + n) (hk : s.table cpu k = 0) :
    extendLoop cpu false s (List.range' i n) = (some (-EINVAL), s) := by
  induction n generalizing i with
  | zero => omega
  | succ n ih =>
    rw [range'_succ]
    unfold extendLoop
    by_cases hzero : s.table cpu (i + 1) = 0
    · rw [if_pos hzero]
      rfl
    rw [if_neg hzero]
    apply ih _ (by omega)
    rcases Nat.lt_or_ge (i + 1) k with hlt | hge
    · exact hlt
    have : k = i + 1 := by omega
    rw [this] at hk
    exact absurd hk hzero

/-- A lookup in closed form. -/
theorem resolve_eq (h : TablesOk s) (ino : Nat) : resolve s ino = if s.maps.slotOf ino = 0 then none
        else some (s.maps.slotOf ino + s.maps.inodeIndex ino * NOVA_INODE_SIZE) := by
  have hslot : s.maps.slotOf ino = s.table (s.maps.cpuOf ino) (s.maps.superpageCount ino) := rfl
  unfold resolve novaGetInodeAddress
  simp only [range_eq_range']
  rw [hslot]
  by_cases hz : s.table (s.maps.cpuOf ino) (s.maps.superpageCount ino) = 0
  · rw [if_pos hz]
    by_cases hfirst : s.table (s.maps.cpuOf ino) 0 = 0
    · rw [if_pos hfirst]
    have hpos : 0 < s.maps.superpageCount ino := by
      apply Nat.pos_of_ne_zero
      intro h0
      rw [h0] at hz
      exact hfirst hz
    rw [if_neg hfirst, extendLoop_gap hpos (by omega) hz]
  · rw [if_neg hz, if_neg (h.pre_le (Nat.zero_le _) hz),
      extendLoop_filled fun k _ hk => h.pre_le (by omega) hz]

/-- It is the lookup of the tables. -/
theorem resolve_eq_maps (h : TablesOk s) (ino : Nat) :
    resolve s ino = s.maps.novaGetInodeAddress ino := by
  rw [resolve_eq h]
  unfold InodeTables.novaGetInodeAddress
  by_cases hz : s.maps.slotOf ino = 0
  · rw [if_pos hz, if_neg]
    rw [List.all_eq_true]
    intro hall
    have := hall (s.maps.superpageCount ino) (by simp)
    simp only [bne_iff_ne] at this
    exact this hz
  rw [if_neg hz, if_pos]
  · rfl
  rw [List.all_eq_true]
  intro k hk
  rw [bne_iff_ne]
  exact h.pre_le (by simpa [Nat.lt_succ_iff] using hk) hz

/-- An extension keeps every address. -/
theorem Extended.resolve (h : TablesOk s) (he : Extended s s') (ha : resolve s ino = some a) :
    resolve s' ino = some a := by
  rw [resolve_eq h] at ha
  split at ha
  · cases ha
  rename_i hne
  have hcpu : s'.maps.cpuOf ino = s.maps.cpuOf ino := by
    simp only [InodeTables.cpuOf, State.maps, he.cpus]
  have hsp : s'.maps.superpageCount ino = s.maps.superpageCount ino := by
    simp only [InodeTables.superpageCount, State.maps, he.cpus]
  have hidx : s'.maps.inodeIndex ino = s.maps.inodeIndex ino := by
    simp only [InodeTables.inodeIndex, State.maps, he.cpus]
  have hslot : s'.maps.slotOf ino = s.maps.slotOf ino := by
    unfold InodeTables.slotOf
    rw [hcpu, hsp]
    exact he.kept _ _ hne
  rw [resolve_eq he.ok, hslot, hidx, if_neg hne, ha]

/-- A loop that ends has filled the last slot. -/
theorem extendLoop_last (hi : s.table cpu i ≠ 0)
    (hrun : extendLoop cpu ext s (List.range' i n) = (none, s')) : s'.table cpu (i + n) ≠ 0 := by
  induction n generalizing s i with
  | zero =>
    cases hrun
    exact hi
  | succ n ih =>
    have hnext : i + (n + 1) = i + 1 + n := by omega
    rw [hnext]
    cases extendLoop_cons hrun with
    | stop herr _ => exact absurd rfl herr
    | newPage _ hp hrun => exact ih (by simp [State.setSlot, hp.ne_zero]) hrun
    | filled hnz hrun => exact ih hnz hrun

/-- What a lookup returned is found again. -/
theorem resolve_of_novaGetInodeAddress (h : TablesOk s)
    (hget : novaGetInodeAddress s ino ext = (.ok a, s')) : resolve s' ino = some a := by
  have hext := novaGetInodeAddress_extended h ino ext
  rw [hget] at hext
  have hcpus : s'.cpus = s.cpus := hext.cpus
  unfold novaGetInodeAddress at hget
  simp only at hget
  split at hget
  · cases hget
  rename_i hfirst
  generalize hrun : extendLoop (s.maps.cpuOf ino) ext s
    (List.range (s.maps.superpageCount ino)) = r at hget
  rw [range_eq_range'] at hrun
  obtain ⟨e, s1⟩ := r
  cases e with
  | some e => cases hget
  | none =>
    cases hget
    have hlast := extendLoop_last hfirst hrun
    rw [Nat.zero_add] at hlast
    have hslot : s'.maps.slotOf ino = s'.table (s.maps.cpuOf ino) (s.maps.superpageCount ino) := by
      simp only [InodeTables.slotOf, InodeTables.cpuOf, InodeTables.superpageCount,
        State.maps, hcpus]
    have hindex : s'.maps.inodeIndex ino = s.maps.inodeIndex ino := by
      simp only [InodeTables.inodeIndex, State.maps, hcpus]
    rw [resolve_eq hext.ok, hslot, if_neg hlast, hindex]

/-- A loop that ends, ended its front part. -/
theorem extendLoop_append {l l' : List Nat} (h : (extendLoop cpu ext s (l ++ l')).1 = none) :
    (extendLoop cpu ext s l).1 = none := by
  induction l generalizing s with
  | nil => rfl
  | cons i l ih =>
    rw [cons_append] at h
    unfold extendLoop at h ⊢
    split at h
    · rename_i hzero
      rw [if_pos hzero]
      split at h
      · rename_i hext
        rw [if_pos hext]
        split at h
        · cases h
        · exact ih h
      · cases h
    rename_i hnz
    rw [if_neg hnz]
    exact ih h

/-- The slots the loop reads. -/
theorem mem_extendReads : k ∈ extendReads cpu ext s (List.range' i n) ↔
      i < k ∧ k ≤ i + n ∧ (extendLoop cpu ext s (List.range' i (k - 1 - i))).1 = none := by
  induction n generalizing s i with
  | zero =>
    simp only [range'_zero, extendReads, not_mem_nil, false_iff]
    omega
  | succ n ih =>
    rw [range'_succ]
    unfold extendReads
    rw [mem_cons]
    rcases Nat.lt_trichotomy k (i + 1) with hlt | heq | hgt
    · have hout : ∀ s : State al, k ∉ extendReads cpu ext s (range' (i + 1) n) := by
        intro s hmem
        have := (ih.1 hmem).1
        omega
      constructor
      · rintro (heq | hmem)
        · omega
        · split at hmem
          · split at hmem
            · split at hmem
              · cases hmem
              · exact absurd hmem (hout _)
            · cases hmem
          · exact absurd hmem (hout _)
      · rintro ⟨hik, -, -⟩
        omega
    · rw [heq]
      simp [extendLoop]
    have hsplit : range' i (k - 1 - i) = i :: range' (i + 1) (k - 1 - (i + 1)) := by
      rw [← range'_succ]
      congr 1
      omega
    have hik : k ≠ i + 1 := by omega
    rw [hsplit]
    unfold extendLoop
    simp only [hik, false_or]
    split
    · split
      · split
        · simp
        · rw [ih]
          constructor
          · rintro ⟨-, hle, hloop⟩
            exact ⟨by omega, by omega, hloop⟩
          · rintro ⟨-, hle, hloop⟩
            exact ⟨hgt, by omega, hloop⟩
      · simp
    rw [ih]
    constructor
    · rintro ⟨-, hle, hloop⟩
      exact ⟨by omega, by omega, hloop⟩
    · rintro ⟨-, hle, hloop⟩
      exact ⟨hgt, by omega, hloop⟩

/-- The table of a CPU can be filled: it has a first page, and the loop
gets through all its slots. -/
def Fillable (s : State al) (cpu : Nat) : Prop :=
  s.table cpu 0 ≠ 0 ∧ (extendLoop cpu true s (List.range (TABLE_NUM - 1))).1 = none

/-- When a lookup stays in the table. -/
theorem slotsRead_lt_iff (ino : Nat) : (∀ k ∈ slotsRead s ino true, k < TABLE_NUM) ↔
      s.maps.superpageCount ino < TABLE_NUM ∨ ¬ Fillable s (s.maps.cpuOf ino) := by
  unfold slotsRead Fillable
  simp only [range_eq_range']
  generalize s.maps.cpuOf ino = cpu
  generalize s.maps.superpageCount ino = n
  by_cases hfirst : s.table cpu 0 = 0
  · simp [hfirst, TABLE_NUM]
  rw [if_neg hfirst]
  -- a slot past the table is read only after all slots of the table
  have hpast : ∀ m, TABLE_NUM ≤ m + 1 → (extendLoop cpu true s (range' 0 m)).1 = none →
      (extendLoop cpu true s (range' 0 (TABLE_NUM - 1))).1 = none := by
    intro m hm hloop
    obtain ⟨d, hd⟩ : ∃ d, m = (TABLE_NUM - 1) + d := ⟨m - (TABLE_NUM - 1), by omega⟩
    rw [hd, ← range'_append_1] at hloop
    exact extendLoop_append hloop
  constructor
  · intro hall
    by_contra hcon
    rw [not_or, not_not] at hcon
    have hread : TABLE_NUM ∈ extendReads cpu true s (range' 0 n) :=
      mem_extendReads.2 ⟨by decide, by omega, hcon.2.2⟩
    exact absurd (hall _ (by simp [hread])) (lt_irrefl _)
  intro hor k hk
  rw [cons_append, mem_cons, mem_append] at hk
  rcases hk with hk | hk | hk
  · rw [hk]
    decide
  · obtain ⟨-, hle, hloop⟩ := mem_extendReads.1 hk
    rcases hor with hlt | hno
    · omega
    · by_contra hge
      exact hno ⟨hfirst, hpast (k - 1 - 0) (by omega) hloop⟩
  split at hk
  · cases hk
  rename_i hloop
  rw [mem_singleton] at hk
  rcases hor with hlt | hno
  · omega
  · by_contra hge
    exact hno ⟨hfirst, hpast n (by omega) hloop⟩

-- === migration

/-- Addresses of a state that did not change. -/
theorem Unchanged.resolve (h : TablesOk s) (hs : Unchanged s s') (ino : Nat) :
    resolve s' ino = resolve s ino := by
  have hmaps : s'.maps = s.maps := by simp only [State.maps, hs.cpus, hs.table, hs.mem]
  rw [resolve_eq h, resolve_eq (h.unchanged hs), hmaps]

/-- Records of a state that did not change. -/
theorem Unchanged.recordOf (h : TablesOk s) (hs : Unchanged s s') (ino : Nat) :
    recordOf s' ino = recordOf s ino := by
  unfold InodePages.recordOf
  rw [hs.resolve h, hs.mem]

/-- What a migration of the page of `ino` does. -/
structure Migrated (s s' : State al) (ino p b : Nat) : Prop where
  mapped : s.maps.slotOf ino ≠ 0
  off : p = b * PAGE_SIZE
  ne_zero : p ≠ 0
  fresh : ∀ c k, s.table c k ≠ p
  cpus : s'.cpus = s.cpus
  table : ∀ c k, s'.table c k
    = if c = s.maps.cpuOf ino ∧ k = s.maps.superpageCount ino then p
      else s.table c k
  copied : ∀ r, r < PAGE_SIZE → s'.mem (p + r) = s.mem (s.maps.slotOf ino + r)
  mem : ∀ x, x < p ∨ p + PAGE_SIZE ≤ x → s'.mem x = s.mem x

/-- Two pages do not overlap. -/
theorem pages_apart {b' : Nat} (hne : b * PAGE_SIZE ≠ b' * PAGE_SIZE) (hr : r < PAGE_SIZE) :
    b * PAGE_SIZE + r < b' * PAGE_SIZE ∨ b' * PAGE_SIZE + PAGE_SIZE ≤ b * PAGE_SIZE + r := by
  unfold PAGE_SIZE at *
  omega

/-- A migration changes nothing, or moves a page. -/
theorem migrateInodePage_cases (h : TablesOk s) (ino : Nat) :
    Unchanged s (migrateInodePage s ino).2 ∨ ∃ p b, Migrated s (migrateInodePage s ino).2 ino p b ∧
        TablesOk (migrateInodePage s ino).2 := by
  unfold migrateInodePage
  simp only
  split
  · exact .inl ⟨rfl, rfl, rfl, fun _ => Iff.rfl⟩
  rename_i hne
  split
  · rename_i hnew
    exact .inl (novaNewLogBlock_none hnew)
  rename_i p s1 hnew
  obtain ⟨b, hp⟩ := novaNewLogBlock_some hnew
  obtain ⟨q, hq, huse⟩ := h.page _ _ hne
  refine .inr ⟨p, b, ⟨hne, hp.off, hp.ne_zero, h.fresh hp, hp.cpus, ?_, ?_, ?_⟩, ?_⟩
  · intro c k
    simp only [State.setSlot, hp.table]
  · intro r hr
    have hne' : q * PAGE_SIZE ≠ b * PAGE_SIZE := by
      rw [← hq, ← hp.off]
      exact h.fresh hp _ _
    have hapart := pages_apart hne' hr
    simp only [State.setSlot, copyBytes]
    rw [if_pos ⟨Nat.le_add_right _ _, by omega⟩, Nat.add_sub_cancel_left, Nat.add_comm r]
    apply hp.mem
    rw [hq, hp.off]
    exact hapart
  · intro x hx
    simp only [State.setSlot]
    rw [copyBytes_outside hx]
    exact hp.mem x hx
  refine h.setSlot hp ?_ rfl rfl
  intro i hi
  apply h.pre_le _ hne
  omega

/-- The slots after a migration. -/
theorem Migrated.slotOf {ino p b : Nat} (hm : Migrated s s' ino p b) (j : Nat) :
    s'.maps.slotOf j = if s.maps.cpuOf j = s.maps.cpuOf ino ∧
          s.maps.superpageCount j = s.maps.superpageCount ino then p else s.maps.slotOf j := by
  have hcpu : s'.maps.cpuOf j = s.maps.cpuOf j := by
    simp only [InodeTables.cpuOf, State.maps, hm.cpus]
  have hsp : s'.maps.superpageCount j = s.maps.superpageCount j := by
    simp only [InodeTables.superpageCount, State.maps, hm.cpus]
  have htable : s'.maps.slotOf j = s'.table (s'.maps.cpuOf j) (s'.maps.superpageCount j) := rfl
  rw [htable, hcpu, hsp, hm.table]
  rfl

/-- The places after a migration. -/
theorem Migrated.inodeIndex {ino p b : Nat} (hm : Migrated s s' ino p b)
    (j : Nat) : s'.maps.inodeIndex j = s.maps.inodeIndex j := by
  simp only [InodeTables.inodeIndex, State.maps, hm.cpus]

/-- A record is inside its page. -/
theorem index_bytes_lt (j : Nat) (hr : r < NOVA_INODE_SIZE) :
    s.maps.inodeIndex j * NOVA_INODE_SIZE + r < PAGE_SIZE := by
  have := inodeIndex_lt s.maps j
  unfold NOVA_INODE_SIZE at *
  unfold PAGE_SIZE
  omega

/-- Numbers of other pages stay. -/
theorem Migrated.resolve_other (h : TablesOk s) (h' : TablesOk s') (hm : Migrated s s' ino p b)
    (hj : ¬ (s.maps.cpuOf j = s.maps.cpuOf ino ∧
      s.maps.superpageCount j = s.maps.superpageCount ino)) : resolve s' j = resolve s j := by
  rw [resolve_eq h, resolve_eq h', hm.slotOf, hm.inodeIndex, if_neg hj]

/-- A migration keeps every record. -/
theorem Migrated.recordOf {ino p b : Nat} (h : TablesOk s) (h' : TablesOk s')
    (hm : Migrated s s' ino p b) (j : Nat) : recordOf s' j = recordOf s j := by
  unfold InodePages.recordOf
  rw [resolve_eq h, resolve_eq h', hm.slotOf, hm.inodeIndex]
  by_cases hj : s.maps.cpuOf j = s.maps.cpuOf ino ∧
      s.maps.superpageCount j = s.maps.superpageCount ino
  · have hsame : s.maps.slotOf j = s.maps.slotOf ino := by
      unfold InodeTables.slotOf
      rw [hj.1, hj.2]
    rw [if_pos hj, if_neg hm.ne_zero, hsame, if_neg hm.mapped]
    simp only [map_some, some.injEq]
    apply map_congr_left
    intro r hr
    have hlt := index_bytes_lt (s := s) j (mem_range.1 hr)
    rw [Nat.add_assoc, Nat.add_assoc]
    exact hm.copied _ hlt
  rw [if_neg hj]
  split
  · rfl
  rename_i hne
  obtain ⟨q, hq, -⟩ := h.page _ _ hne
  simp only [map_some, some.injEq]
  apply map_congr_left
  intro r hr
  have hlt := index_bytes_lt (s := s) j (mem_range.1 hr)
  apply hm.mem
  have hslot : s.maps.slotOf j = q * PAGE_SIZE := hq
  rw [hslot, hm.off, Nat.add_assoc]
  apply pages_apart _ hlt
  rw [← hq, ← hm.off]
  exact hm.fresh _ _

-- === runs

/-- Nothing is filled behind the table. -/
def InBounds (s : State al) : Prop := ∀ c k, TABLE_NUM ≤ k → s.table c k = 0

/-- The loop stays in the table. -/
theorem extendLoop_inBounds (h : InBounds s) (hn : i + n < TABLE_NUM)
    (hrun : extendLoop cpu ext s (List.range' i n) = (e, s')) : InBounds s' := by
  induction n generalizing s i with
  | zero =>
    cases hrun
    exact h
  | succ n ih =>
    cases extendLoop_cons hrun with
    | stop _ hsame =>
      intro c k hk
      rw [hsame.table]
      exact h c k hk
    | newPage _ hp hrun =>
      apply ih _ (by omega) hrun
      intro c k hk
      simp only [State.setSlot, hp.table]
      rw [if_neg (by omega)]
      exact h c k hk
    | filled _ hrun => exact ih h (by omega) hrun

/-- The whole invariant of a run. -/
structure RunInv (s : State al) : Prop where
  ok : TablesOk s
  inBounds : InBounds s

/-- A step keeps the invariant. -/
theorem RunInv.step (h : RunInv s) (op : Op)
    (hop : s.maps.superpageCount op.ino < TABLE_NUM) : RunInv (step s op) := by
  cases op with
  | getAddress ino ext =>
    refine ⟨(novaGetInodeAddress_extended h.ok ino ext).ok, ?_⟩
    change InBounds (novaGetInodeAddress s ino ext).2
    unfold novaGetInodeAddress
    simp only
    split
    · exact h.inBounds
    generalize hrun : extendLoop (s.maps.cpuOf ino) ext s
      (List.range (s.maps.superpageCount ino)) = r
    rw [range_eq_range'] at hrun
    obtain ⟨e, s1⟩ := r
    have hb := extendLoop_inBounds h.inBounds
      (by rw [Nat.zero_add]; exact hop) hrun
    cases e with
    | none => exact hb
    | some e => exact hb
  | migrate ino =>
    rcases migrateInodePage_cases h.ok ino with hs | ⟨p, b, hm, hok⟩
    · refine ⟨h.ok.unchanged hs, ?_⟩
      intro c k hk
      change (migrateInodePage s ino).2.table c k = 0
      rw [hs.table]
      exact h.inBounds c k hk
    refine ⟨hok, ?_⟩
    intro c k hk
    change (migrateInodePage s ino).2.table c k = 0
    have hop' : s.maps.superpageCount ino < TABLE_NUM := hop
    rw [hm.table, if_neg (by omega)]
    exact h.inBounds c k hk

/-- A step keeps the CPUs. -/
theorem step_cpus (h : TablesOk s) (op : Op) : (step s op).cpus = s.cpus := by
  cases op with
  | getAddress ino ext => exact (novaGetInodeAddress_extended h ino ext).cpus
  | migrate ino =>
    rcases migrateInodePage_cases h ino with hs | ⟨p, b, hm, -⟩
    · exact hs.cpus
    · exact hm.cpus

/-- A run keeps the invariant. -/
theorem RunInv.run {ops : List Op} (h : RunInv s)
    (hops : ∀ op ∈ ops, s.maps.superpageCount op.ino < TABLE_NUM) : RunInv (run s ops) := by
  induction ops generalizing s with
  | nil => exact h
  | cons op ops ih =>
    apply ih (h.step op (hops op mem_cons_self))
    intro op' hop'
    have hcpus : (InodePages.step s op).maps.superpageCount op'.ino
        = s.maps.superpageCount op'.ino := by
      simp only [InodeTables.superpageCount, State.maps, step_cpus h.ok op]
    rw [hcpus]
    exact hops op' (mem_cons_of_mem _ hop')

/-- A format gives the invariant. -/
theorem novaInitInodeTable_inv (h : novaInitInodeTable s = (ret, s')) : RunInv s' := by
  refine ⟨novaInitInodeTable_ok h, ?_⟩
  have hloop : ∀ (cpus : List Nat) (s : State al), InBounds s →
      initLoop s cpus = (ret, s') → InBounds s' := by
    intro cpus
    induction cpus with
    | nil =>
      intro s hb hrun
      cases hrun
      exact hb
    | cons cpu rest ih =>
      intro s hb hrun
      unfold initLoop at hrun
      split at hrun
      · rename_i hnew
        cases hrun
        intro c k hk
        rw [(novaNewLogBlock_none hnew).table]
        exact hb c k hk
      rename_i p s1 hnew
      obtain ⟨b, hp⟩ := novaNewLogBlock_some hnew
      apply ih _ _ hrun
      intro c k hk
      have hk0 : k ≠ 0 := by
        unfold TABLE_NUM at hk
        omega
      simp only [firstPage, hp.table, if_neg hk0]
      rw [hb c k hk, ite_self]
  exact hloop _ _ (fun _ _ _ => rfl) h

/-- A step keeps numbers known. -/
theorem resolve_step (h : TablesOk s) (op : Op) (ha : resolve s ino = some a) :
    ∃ a', resolve (step s op) ino = some a' := by
  cases op with
  | getAddress i ext => exact ⟨a, (novaGetInodeAddress_extended h i ext).resolve h ha⟩
  | migrate i =>
    have hrec : recordOf (step s (.migrate i)) ino = recordOf s ino := by
      rcases migrateInodePage_cases h i with hs | ⟨p, b, hm, hok⟩
      · exact hs.recordOf h ino
      · exact hm.recordOf h hok ino
    unfold InodePages.recordOf at hrec
    rw [ha] at hrec
    cases hres : resolve (step s (.migrate i)) ino with
    | none =>
      rw [hres] at hrec
      cases hrec
    | some a' => exact ⟨a', rfl⟩

/-- Records do not overlap. -/
theorem records_disjoint (h : TablesOk s) (hij : i ≠ j) (ha : resolve s i = some a)
    (hb : resolve s j = some b) : a + NOVA_INODE_SIZE ≤ b ∨ b + NOVA_INODE_SIZE ≤ a := by
  rw [resolve_eq h] at ha hb
  split at ha
  · cases ha
  rename_i hi
  split at hb
  · cases hb
  rename_i hj
  cases ha
  cases hb
  have hii := index_bytes_lt (s := s) i (r := 127) (by decide)
  have hjj := index_bytes_lt (s := s) j (r := 127) (by decide)
  by_cases hpage : s.maps.slotOf i = s.maps.slotOf j
  · obtain ⟨hcpu, hslot⟩ := h.inj _ _ _ _ hi hpage
    have hidx : s.maps.inodeIndex i ≠ s.maps.inodeIndex j := fun hidx =>
      hij (ino_eq_of_parts s.maps hcpu hslot hidx)
    unfold NOVA_INODE_SIZE
    omega
  obtain ⟨p, hp, -⟩ := h.page _ _ hi
  obtain ⟨q, hq, -⟩ := h.page _ _ hj
  have hp' : s.maps.slotOf i = p * PAGE_SIZE := hp
  have hq' : s.maps.slotOf j = q * PAGE_SIZE := hq
  unfold NOVA_INODE_SIZE at *
  unfold PAGE_SIZE at *
  omega

/-- Inode addressing and migration transparency. In every state that a
run of lookups and migrations reaches from `nova_init_inode_table`: the
nonzero slots of each table are a prefix of it and hold distinct page
offsets, different numbers have disjoint records, a number that resolves
keeps resolving, and moving a page changes no record and only the
addresses on that page. -/
theorem inode_addressing (s₀ : State al) (ops : List Op) (hinit : (novaInitInodeTable s₀).1 = 0)
    (hops : ∀ op ∈ ops, (novaInitInodeTable s₀).2.maps.superpageCount op.ino < TABLE_NUM) :
    let s := run (novaInitInodeTable s₀).2 ops
    (∀ c k, s.table c k ≠ 0 → k < TABLE_NUM ∧ PAGE_SIZE ∣ s.table c k ∧
        ∀ i, i ≤ k → s.table c i ≠ 0)
      ∧ (∀ c k c' k', s.table c k ≠ 0 → s.table c k = s.table c' k' → c = c' ∧ k = k')
      ∧ (∀ i j a b, i ≠ j → resolve s i = some a → resolve s j = some b →
          a + NOVA_INODE_SIZE ≤ b ∨ b + NOVA_INODE_SIZE ≤ a)
      ∧ (∀ op i a, resolve s i = some a → ∃ a', resolve (step s op) i = some a')
      ∧ ∀ ino j, recordOf (migrateInodePage s ino).2 j = recordOf s j
          ∧ (¬ (s.maps.cpuOf j = s.maps.cpuOf ino ∧
                s.maps.superpageCount j = s.maps.superpageCount ino) →
              resolve (migrateInodePage s ino).2 j = resolve s j) := by
  intro s
  have hstart : novaInitInodeTable s₀ = (0, (novaInitInodeTable s₀).2) := Prod.ext hinit rfl
  have hinv : RunInv s := (novaInitInodeTable_inv hstart).run hops
  refine ⟨?_, hinv.ok.inj, ?_, ?_, ?_⟩
  · intro c k hk
    obtain ⟨b, hb, -⟩ := hinv.ok.page c k hk
    refine ⟨?_, ⟨b, by rw [hb, Nat.mul_comm]⟩, fun i hi => hinv.ok.pre_le hi hk⟩
    by_contra hge
    exact hk (hinv.inBounds c k (by omega))
  · intro i j a b hij ha hb
    exact records_disjoint hinv.ok hij ha hb
  · intro op i a ha
    exact resolve_step hinv.ok op ha
  intro ino j
  rcases migrateInodePage_cases hinv.ok ino with hs | ⟨p, b, hm, hok⟩
  · exact ⟨hs.recordOf hinv.ok j, fun _ => hs.resolve hinv.ok j⟩
  · exact ⟨hm.recordOf hinv.ok hok j, hm.resolve_other hinv.ok hok⟩

/-- Two CPUs: inode 70 gets the second page of its table, which is then
moved. -/
theorem inode_addressing_two_cpus :
    let s₀ : State (.ascending 100) := ⟨2, fun _ _ => 0, fun _ => 7, ⟨2, fun _ => false⟩⟩
    let ops := [.getAddress 70 true, .migrate 70]
    let s := run (novaInitInodeTable s₀).2 ops
    resolve s 70 = some (6 * PAGE_SIZE + 3 * NOVA_INODE_SIZE) ∧
      ∀ j, recordOf (migrateInodePage s 70).2 j = recordOf s j := by
  intro s₀ ops s
  refine ⟨by decide, fun j => ?_⟩
  exact ((inode_addressing s₀ ops (by decide) (by decide)).2.2.2.2 70 j).1

end Themis.InodePages
