/-
When the mutexes of the mapping tables are given back.

Both functions keep the mutex on every exit but the last one, so a call
gives it back exactly if it gets to its end (`call_eq`): the pages are
there, or can be added. One call that does not, and every later call for
an inode of the same CPU waits for ever.
-/
import Themis.TableLocks
import Themis.Proofs.InodePages

namespace Themis.TableLocks

open InodePages List Function

variable {al : BlockAllocator}
variable {s : State al} {cpuid : Nat} {slots : List Nat} {op : Op}

-- === blocks

/-- The allocator has `n` log pages. -/
def handsOut (al : BlockAllocator) : Nat → al.State → Bool
  | 0, _ => true
  | n + 1, a =>
    (al.newBlocks a .log 1).1.isSome && handsOut al n (al.newBlocks a .log 1).2

/-- The slots that have no page. -/
def emptySlots (table : Nat → Nat) (slots : List Nat) : Nat :=
  slots.countP fun i => table (i + 1) = 0

/-- A log page is asked of the allocator. -/
theorem novaNewLogBlock_alloc (s : State al) :
    (novaNewLogBlock s).1.isSome = (al.newBlocks s.alloc .log 1).1.isSome ∧
      (novaNewLogBlock s).2.alloc = (al.newBlocks s.alloc .log 1).2 := by
  unfold novaNewLogBlock
  rcases al.newBlocks s.alloc .log 1 with ⟨_ | ⟨b, k⟩, a⟩
  · exact ⟨rfl, rfl⟩
  · exact ⟨rfl, rfl⟩

/-- Every slot has a page, or can get one. -/
def PagesThere (s : State al) (cpuid : Nat) (extendable : Bool) (slots : List Nat) : Prop :=
  if extendable then handsOut al (emptySlots (s.table cpuid) slots) s.alloc = true
  else emptySlots (s.table cpuid) slots = 0

/-- One more slot. -/
theorem emptySlots_cons (table : Nat → Nat) (i : Nat) (slots : List Nat) :
    emptySlots table (i :: slots)
      = emptySlots table slots + if table (i + 1) = 0 then 1 else 0 := by
  simp [emptySlots, countP_cons]

/-- Filling a slot leaves the others. -/
theorem emptySlots_setSlot {s' : State al} {i p : Nat} (htable : s'.table = s.table)
    (hi : i ∉ slots) : emptySlots ((s'.setSlot cpuid (i + 1) p).table cpuid) slots
      = emptySlots (s.table cpuid) slots := by
  refine countP_congr fun j hj => ?_
  have hne : j ≠ i := fun heq => hi (heq ▸ hj)
  simp only [State.setSlot, htable]
  rw [if_neg (by omega)]

/-- When the loop ends without an error. -/
theorem extendLoop_none_iff {extendable : Bool} (hnodup : slots.Nodup) :
    (extendLoop cpuid extendable s slots).1 = none ↔ PagesThere s cpuid extendable slots := by
  induction slots generalizing s with
  | nil =>
    refine iff_of_true rfl ?_
    unfold PagesThere
    split
    · rfl
    · rfl
  | cons i slots ih =>
    obtain ⟨hi, hrest⟩ := nodup_cons.1 hnodup
    unfold extendLoop
    by_cases hzero : s.table cpuid (i + 1) = 0
    · rw [if_pos hzero]
      cases extendable with
      | false =>
        refine iff_of_false (Option.some_ne_none _) ?_
        unfold PagesThere
        rw [if_neg Bool.false_ne_true, emptySlots_cons, if_pos hzero]
        omega
      | true =>
        rw [if_pos rfl]
        obtain ⟨hsome, halloc⟩ := novaNewLogBlock_alloc s
        have hcount : PagesThere s cpuid true (i :: slots) ↔
            (al.newBlocks s.alloc .log 1).1.isSome = true ∧
              handsOut al (emptySlots (s.table cpuid) slots)
                (al.newBlocks s.alloc .log 1).2 = true := by
          unfold PagesThere
          rw [if_pos rfl, emptySlots_cons, if_pos hzero, handsOut, Bool.and_eq_true]
        rw [hcount, ← hsome, ← halloc]
        cases hnew : novaNewLogBlock s with
        | mk r s1 =>
          cases r with
          | none => exact iff_of_false (Option.some_ne_none _) fun h => by cases h.1
          | some p =>
            obtain ⟨b, hp⟩ := novaNewLogBlock_some hnew
            rw [ih hrest]
            unfold PagesThere
            rw [emptySlots_setSlot hp.table hi]
            exact ⟨fun h => ⟨rfl, h⟩, fun h => h.2⟩
    rw [if_neg hzero, ih hrest]
    unfold PagesThere
    rw [emptySlots_cons, if_neg hzero, Nat.add_zero]

-- === one call

/-- The call gets to its end: no page is missing, or the allocator has the
pages that are. -/
def Clear (s : State al) : Op → Prop
  | .getAddress ino extendable =>
    s.table (s.maps.cpuOf ino) 0 ≠ 0 ∧
      PagesThere s (s.maps.cpuOf ino) extendable (List.range (s.maps.superpageCount ino))
  | .migrate ino =>
    s.table (s.maps.cpuOf ino) (s.maps.superpageCount ino) ≠ 0 ∧
      handsOut al 1 s.alloc = true

/-- The CPU of an operation. -/
def cpuOf (s : State al) (op : Op) : Nat := s.maps.cpuOf op.ino

/-- A free lock is taken. -/
theorem mutexLock_of_free (s : Locked al) (cpuid : Nat) (h : s.held cpuid = false) :
    mutexLock s cpuid = some { s with held := Function.update s.held cpuid true } := by
  unfold mutexLock
  rw [h]
  rfl

/-- A call that finds its mutex free does to the tables what it does
without mutexes, and keeps the mutex unless it gets to its end. -/
theorem call_eq {s : Locked al} (hfree : s.held (cpuOf s.tables op) = false) :
    ∃ s', call s op = some s' ∧ s'.tables = step s.tables op ∧
      (∀ c, c ≠ cpuOf s.tables op → s'.held c = s.held c) ∧
      (s'.held (cpuOf s.tables op) = false ↔ Clear s.tables op) := by
  have hother : ∀ (v : Bool) c, c ≠ cpuOf s.tables op →
      Function.update s.held (cpuOf s.tables op) v c = s.held c :=
    fun v c hc => update_of_ne hc v s.held
  have hkeeps : ¬ Function.update s.held (cpuOf s.tables op) true (cpuOf s.tables op) = false := by
    rw [update_self]
    exact Bool.true_eq_false_eq_False
  have hgives : Function.update (Function.update s.held (cpuOf s.tables op) true)
      (cpuOf s.tables op) false = Function.update s.held (cpuOf s.tables op) false :=
    update_idem _ _ _
  cases op with
  | getAddress ino extendable =>
    have hlock := mutexLock_of_free s (s.tables.maps.cpuOf ino) hfree
    refine ⟨_, by rw [call, novaGetInodeAddress, hlock]; rfl, ?_⟩
    unfold getAddressLocked step InodePages.novaGetInodeAddress Clear
    dsimp only
    by_cases hfirst : s.tables.table (s.tables.maps.cpuOf ino) 0 = 0
    · rw [if_pos hfirst, if_pos hfirst]
      exact ⟨rfl, hother true, iff_of_false hkeeps fun h => h.1 hfirst⟩
    rw [if_neg hfirst, if_neg hfirst, ← extendLoop_none_iff (s := s.tables) nodup_range]
    cases hrun : extendLoop (s.tables.maps.cpuOf ino) extendable s.tables
        (List.range (s.tables.maps.superpageCount ino)) with
    | mk e tables =>
      cases e with
      | some e => exact ⟨rfl, hother true, iff_of_false hkeeps fun h => by cases h.2⟩
      | none =>
        refine ⟨rfl, ?_, ?_⟩
        · exact fun c hc => (congrFun hgives c).trans (hother false c hc)
        · exact iff_of_true (update_self _ _ _) ⟨hfirst, rfl⟩
  | migrate ino =>
    have hlock := mutexLock_of_free s (s.tables.maps.cpuOf ino) hfree
    refine ⟨_, by rw [call, migrateInodePage, hlock]; rfl, ?_⟩
    unfold migrateLocked step InodePages.migrateInodePage Clear
    dsimp only
    by_cases hpage : s.tables.table (s.tables.maps.cpuOf ino)
        (s.tables.maps.superpageCount ino) = 0
    · rw [if_pos hpage, if_pos hpage]
      exact ⟨rfl, hother true, iff_of_false hkeeps fun h => h.1 hpage⟩
    rw [if_neg hpage, if_neg hpage]
    have hone : handsOut al 1 s.tables.alloc = (novaNewLogBlock s.tables).1.isSome := by
      rw [(novaNewLogBlock_alloc s.tables).1]
      simp [handsOut]
    rw [hone]
    cases hnew : novaNewLogBlock s.tables with
    | mk r tables =>
      cases r with
      | none => exact ⟨rfl, hother true, iff_of_false hkeeps fun h => by cases h.2⟩
      | some p =>
        refine ⟨rfl, ?_, ?_⟩
        · exact fun c hc => (congrFun hgives c).trans (hother false c hc)
        · exact iff_of_true (update_self _ _ _) ⟨hpage, rfl⟩

-- === runs

/-- Every operation comes to its unlock. -/
def AllClear (s : State al) : List Op → Prop
  | [] => True
  | op :: ops => Clear s op ∧ AllClear (step s op) ops

/-- No mutex is held. -/
def AllFree (s : Locked al) : Prop := ∀ c, s.held c = false

/-- One operation with its locks. -/
theorem call_allFree {s s' : Locked al} (h : AllFree s) (hcall : call s op = some s') :
    s'.tables = step s.tables op ∧ (AllFree s' ↔ Clear s.tables op) := by
  obtain ⟨s1, hres, htables, hother, hown⟩ := call_eq (h (cpuOf s.tables op))
  rw [hcall, Option.some.injEq] at hres
  subst hres
  refine ⟨htables, fun hall => hown.1 (hall _), fun hclear c => ?_⟩
  by_cases hc : c = cpuOf s.tables op
  · rw [hc]
    exact hown.2 hclear
  · rw [hother c hc]
    exact h c

/-- From free mutexes on: after each of the calls all mutexes are free
again, and so none of them waits, if and only if every call gets to its
end. -/
theorem table_locks_released_iff (s : Locked al) (hfree : AllFree s) (ops : List Op) :
    (∀ l, l <+: ops → ∃ s', calls s l = some s' ∧ AllFree s') ↔ AllClear s.tables ops := by
  induction ops generalizing s with
  | nil =>
    refine iff_of_true (fun l hl => ?_) trivial
    rw [prefix_nil.1 hl]
    exact ⟨s, rfl, hfree⟩
  | cons op ops ih =>
    obtain ⟨s₁, hcall, -⟩ := call_eq (hfree (cpuOf s.tables op))
    obtain ⟨htables, hclear⟩ := call_allFree hfree hcall
    have hcons : ∀ l, calls s (op :: l) = calls s₁ l := by
      intro l
      rw [calls, hcall]
      rfl
    constructor
    · intro h
      obtain ⟨s', hres, hfree'⟩ := h [op] ⟨ops, rfl⟩
      rw [hcons, calls, Option.some.injEq] at hres
      subst hres
      refine ⟨hclear.1 hfree', ?_⟩
      rw [← htables, ← ih s₁ hfree']
      intro l hl
      rw [← hcons]
      exact h (op :: l) (cons_prefix_cons.2 ⟨rfl, hl⟩)
    intro h l hl
    cases l with
    | nil => exact ⟨s, rfl, hfree⟩
    | cons op' l =>
      obtain ⟨rfl, hl'⟩ := cons_prefix_cons.1 hl
      rw [hcons]
      refine (ih s₁ (hclear.2 h.1)).2 ?_ l hl'
      rw [htables]
      exact h.2

/-- A system with one page. -/
def onePage : Locked (.ascending 100) where
  tables := ⟨1, fun _ k => if k = 0 then 3 * PAGE_SIZE else 0, fun _ => 0,
    ⟨3, fun _ => false⟩⟩
  held := fun _ => false

/-- Two operations on it. -/
theorem table_locks_released_iff_one_page :
    ∃ s', calls onePage [.getAddress 5 false, .migrate 5] = some s' ∧ AllFree s' :=
  (table_locks_released_iff onePage (fun _ => rfl) [.getAddress 5 false, .migrate 5]).2
    ⟨⟨by decide, rfl⟩, ⟨by decide, by decide⟩, trivial⟩ _ (List.prefix_refl _)

/-- Inode 32 would be on the second page. Looking it up fails with the
mutex held, and the next call waits for it. -/
theorem failed_lookup_keeps_lock :
    AllFree onePage ∧ (∃ s', call onePage (.getAddress 32 false) = some s' ∧ s'.held 0 = true) ∧
      calls onePage [.getAddress 32 false, .getAddress 5 false] = none :=
  ⟨fun _ => rfl, ⟨_, rfl, rfl⟩, rfl⟩

end Themis.TableLocks
