/-
What the write counts count.

# Data

The hook in `nova_cow_file_write` counts the block in front of each block
that is written. The last block of the last extent is therefore counted
only if something else is wrong (`top_uncounted`).

# Logs

The hook of an append counts the right block. The hook of the collector
counts `length / 4096` blocks for an entry, which is none.

# The condition

So the counts are those of the writes exactly if nothing is written
(`wear_counts`).
-/
import Themis.WriteCount
import Themis.Proofs.File.Run

namespace Themis.WriteCount

open Lib Log File Detect List Function

variable {al : BlockAllocator} {st st' : State al} {ino : Nat} {w : WriteReq}
variable {b k : Nat} {ws : List Wear} {calls : List (Nat × WriteReq)}
variable {blocknr allocated rounds : Nat} {v : WriteVars}

-- === counting

/-- The write wears block `b`. -/
def Wear.Includes (b : Nat) : Wear → Prop
  | .extent blocknr allocated => blocknr ≤ b ∧ b < blocknr + allocated
  | .append currP => currP / PAGE_SIZE = b
  | .copy newCurr _ => newCurr / PAGE_SIZE = b

instance (b : Nat) : DecidablePred (Wear.Includes b) := fun x =>
  match x with
  | .extent _ _ => inferInstanceAs (Decidable (_ ∧ _))
  | .append _ => inferInstanceAs (Decidable (_ = _))
  | .copy _ _ => inferInstanceAs (Decidable (_ = _))

/-- How often block `b` is worn. -/
def written (ws : List Wear) (b : Nat) : Nat := ws.countP fun x => x.Includes b

/-- The counts are those of the writes. -/
def Exact (ws : List Wear) : Prop := ∀ b < BLOCKS_MAX, increments ws b = written ws b

/-- The counter of a block on the device. -/
theorem foldl_writeCountIncrease (hb : b < BLOCKS_MAX) (l : List Nat) (counts : Nat → Nat) :
    l.foldl writeCountIncrease counts b = counts b + l.count b := by
  induction l generalizing counts with
  | nil => rfl
  | cons x l ih =>
    rw [foldl_cons, ih, count_cons]
    unfold writeCountIncrease
    by_cases hx : x = b
    · subst hx
      rw [if_neg (by omega)]
      simp
      omega
    have hne : ¬ (x == b) = true := by simpa using hx
    split
    · rfl
    · rw [update_of_ne (Ne.symm hx), Nat.add_zero]

/-- The increments of a block. -/
theorem increments_eq (hb : b < BLOCKS_MAX) (ws : List Wear) :
    increments ws b = (ws.flatMap Wear.hook).count b := by
  unfold increments
  rw [foldl_writeCountIncrease hb, Nat.zero_add]

-- === the last block

/-- What a write of the code looks like: an extent lies on a device of at
most `BLOCKS_MAX` blocks behind block 0, and a copied entry is shorter than
a page. -/
def Wear.Ok : Wear → Prop
  | .extent blocknr allocated => 0 < blocknr ∧ 0 < allocated ∧ blocknr + allocated ≤ BLOCKS_MAX
  | .append _ => True
  | .copy _ length => length < PAGE_SIZE

/-- A hook misses the last block. -/
theorem mem_hook_extent (hok : (Wear.extent blocknr allocated).Ok)
    (hb : b ∈ (Wear.extent blocknr allocated).hook) : b + 1 < blocknr + allocated := by
  obtain ⟨h0, -, hmax⟩ := hok
  obtain ⟨i, hi, rfl⟩ := List.mem_map.1 hb
  have hlt := mem_range.1 hi
  have hBM : BLOCKS_MAX = 4194304 := by decide
  unfold throughInt
  rw [if_pos (by omega)]
  omega

/-- A hook counts a worn block at most once. -/
theorem count_hook_le {x : Wear} (hok : x.Ok)
    (htop : ∀ blocknr allocated, x = .extent blocknr allocated → blocknr + allocated ≤ b + 1) :
    x.hook.count b ≤ if x.Includes b then 1 else 0 := by
  cases x with
  | extent blocknr allocated =>
    have hnot : b ∉ (Wear.extent blocknr allocated).hook := by
      intro hb
      have h1 := mem_hook_extent hok hb
      have h2 := htop blocknr allocated rfl
      omega
    rw [count_eq_zero.2 hnot]
    exact Nat.zero_le _
  | append currP =>
    by_cases heq : currP / PAGE_SIZE = b
    · have hin : (Wear.append currP).Includes b := heq
      rw [if_pos hin]
      simp only [Wear.hook, heq, count_singleton_self]
      exact le_rfl
    have hnot : b ∉ (Wear.append currP).hook := by simpa [Wear.hook] using fun h => heq h.symm
    rw [count_eq_zero.2 hnot]
    exact Nat.zero_le _
  | copy newCurr length =>
    have hlen : length / 4096 = 0 := Nat.div_eq_of_lt hok
    simp only [Wear.hook, hlen]
    exact Nat.zero_le _

/-- Counts are at most wear. -/
theorem count_flatMap_le (h : ∀ x ∈ ws, x.hook.count b ≤ if x.Includes b then 1 else 0) :
    (ws.flatMap Wear.hook).count b ≤ written ws b := by
  unfold written
  induction ws with
  | nil => exact le_rfl
  | cons x ws ih =>
    have hx := h x mem_cons_self
    have hrest := ih fun y hy => h y (mem_cons_of_mem _ hy)
    rw [flatMap_cons, count_append, countP_cons]
    simp only [decide_eq_true_eq]
    omega

/-- The topmost block is never counted. -/
theorem top_uncounted (hok : ∀ x ∈ ws, x.Ok) (hmem : .extent blocknr allocated ∈ ws)
    (htop : ∀ n k, .extent n k ∈ ws → n + k ≤ blocknr + allocated) :
    (ws.flatMap Wear.hook).count (blocknr + allocated - 1)
      < written ws (blocknr + allocated - 1) := by
  obtain ⟨h0, hpos, -⟩ := hok _ hmem
  have hle : ∀ x ∈ ws, x.hook.count (blocknr + allocated - 1)
      ≤ if x.Includes (blocknr + allocated - 1) then 1 else 0 := by
    intro x hx
    apply count_hook_le (hok x hx)
    rintro n k rfl
    have := htop n k hx
    omega
  obtain ⟨A, B, rfl⟩ := append_of_mem hmem
  have hA := count_flatMap_le fun x hx => hle x (mem_append_left _ hx)
  have hB := count_flatMap_le fun x hx =>
    hle x (mem_append_right _ (mem_cons_of_mem _ hx))
  have hself : (Wear.extent blocknr allocated).hook.count (blocknr + allocated - 1) = 0 := by
    apply count_eq_zero.2
    intro hb
    have := mem_hook_extent (hok _ hmem) hb
    omega
  have hin : (Wear.extent blocknr allocated).Includes (blocknr + allocated - 1) :=
    ⟨by omega, by omega⟩
  unfold written at *
  rw [flatMap_append, flatMap_cons, count_append, count_append, countP_append, countP_cons]
  simp only [hin, decide_true, if_true]
  omega

/-- Exact counts leave no room for an extent. -/
theorem Exact.no_extent (hok : ∀ x ∈ ws, x.Ok) (h : Exact ws) :
    ∀ blocknr allocated, .extent blocknr allocated ∉ ws := by
  -- the extent with the highest end
  have hmax : ∀ ws : List Wear, (∃ n k, .extent n k ∈ ws) →
      ∃ blocknr allocated, .extent blocknr allocated ∈ ws ∧
        ∀ n k, .extent n k ∈ ws → n + k ≤ blocknr + allocated := by
    intro ws
    induction ws with
    | nil =>
      rintro ⟨n, k, hmem⟩
      cases hmem
    | cons x ws ih =>
      rintro ⟨n, k, hmem⟩
      by_cases hws : ∃ n k, .extent n k ∈ ws
      · obtain ⟨b, a, hba, htop⟩ := ih hws
        cases x with
        | extent b' a' =>
          by_cases hle : b' + a' ≤ b + a
          · refine ⟨b, a, mem_cons_of_mem _ hba, ?_⟩
            intro n k hnk
            rcases mem_cons.1 hnk with heq | hin
            · cases heq
              exact hle
            · exact htop n k hin
          refine ⟨b', a', mem_cons_self, ?_⟩
          intro n k hnk
          rcases mem_cons.1 hnk with heq | hin
          · cases heq
            exact le_rfl
          · have := htop n k hin
            omega
        | _ =>
          refine ⟨b, a, mem_cons_of_mem _ hba, ?_⟩
          intro n k hnk
          rcases mem_cons.1 hnk with heq | hin
          · cases heq
          · exact htop n k hin
      rcases mem_cons.1 hmem with rfl | hin
      · refine ⟨n, k, mem_cons_self, ?_⟩
        intro n' k' hnk
        rcases mem_cons.1 hnk with heq | hin
        · cases heq
          exact le_rfl
        · exact absurd ⟨n', k', hin⟩ hws
      · exact absurd ⟨n, k, hin⟩ hws
  intro n k hmem
  obtain ⟨b, a, hba, htop⟩ := hmax ws ⟨n, k, hmem⟩
  have hlt := top_uncounted hok hba htop
  obtain ⟨h0, hpos, hle⟩ := hok _ hba
  rw [← increments_eq (by omega), h _ (by omega)] at hlt
  exact absurd hlt (lt_irrefl _)

-- === the condition

/-- The call writes nothing: it is refused, or no block can be had for its
first extent. -/
def Blockless (st : State al) (ino : Nat) (w : WriteReq) : Prop :=
  ¬ w.Admitted ∨ (novaNewDataBlocks (touch st ino w.time) (w.start st ino).numBlocks).1 = none

/-- No call of the run writes anything. -/
def AllBlockless : State al → List (Nat × WriteReq) → Prop
  | _, [] => True
  | st, (ino, w) :: calls => Blockless st ino w ∧
      ∀ ret st', novaCowFileWrite st ino w = some (ret, st') → AllBlockless st' calls

/-- The wear of a write is that of its loop. -/
theorem writeWear_eq (st : State al) (ino : Nat) (w : WriteReq) :
    (w.Admitted → writeWear st ino w = extentWear ino w (w.start st ino).numBlocks
      (touch st ino w.time) (w.start st ino)) ∧ (¬ w.Admitted → writeWear st ino w = []) := by
  unfold writeWear WriteReq.Admitted
  by_cases hlen : w.len = 0
  · simp [hlen]
  by_cases hmap : w.mapped = true
  · simp [hmap]
  by_cases hacc : w.accessOk = true
  · simp [hacc]
  by_cases hpriv : w.removePrivs = 0
  · rw [if_neg hlen, if_neg hmap, if_neg hacc, if_neg (by simpa using hpriv)]
    refine ⟨fun _ => rfl, fun hnot => absurd ⟨hlen, ?_, ?_, hpriv⟩ hnot⟩
    · simpa using hmap
    · simpa using hacc
  · simp [hpriv]

/-- A write without blocks wears nothing. -/
theorem writeWear_blockless (st : State al) (ino : Nat) (w : WriteReq) :
    (Blockless st ino w → writeWear st ino w = []) ∧
      (¬ Blockless st ino w → ∃ b k, .extent b k ∈ writeWear st ino w) := by
  by_cases hadm : w.Admitted
  · rw [(writeWear_eq st ino w).1 hadm]
    have hpos : (w.start st ino).numBlocks = ((w.start st ino).numBlocks - 1) + 1 := by
      simp [WriteReq.start]
    unfold Blockless
    simp only [hadm, not_true_eq_false, false_or]
    rw [hpos]
    unfold extentWear
    rw [← hpos]
    cases hnew : novaNewDataBlocks (touch st ino w.time) (w.start st ino).numBlocks with
    | mk r st1 =>
      cases r with
      | none => simp
      | some bk =>
        refine ⟨fun h => by simp at h, fun _ => ⟨bk.1, bk.2, ?_⟩⟩
        exact mem_cons_self
  · rw [(writeWear_eq st ino w).2 hadm]
    exact ⟨fun _ => rfl, fun h => absurd (.inl hadm) h⟩

/-- A run of such writes wears nothing. -/
theorem runWear_blockless (h : AllBlockless st calls) : runWear st calls = [] := by
  induction calls generalizing st with
  | nil => rfl
  | cons call calls ih =>
    obtain ⟨ino, w⟩ := call
    unfold runWear
    rw [(writeWear_blockless st ino w).1 h.1]
    cases hres : novaCowFileWrite st ino w with
    | none => rfl
    | some r => exact ih (h.2 r.1 r.2 hres)

/-- Without an extent all writes are such. -/
theorem allBlockless_of_no_extent (h : ∀ b k, .extent b k ∉ runWear st calls) :
    AllBlockless st calls := by
  induction calls generalizing st with
  | nil => trivial
  | cons call calls ih =>
    obtain ⟨ino, w⟩ := call
    unfold runWear at h
    refine ⟨?_, fun ret st' hres => ?_⟩
    · by_contra hnot
      obtain ⟨b, k, hmem⟩ := (writeWear_blockless st ino w).2 hnot
      exact h b k (mem_append_left _ hmem)
    apply ih
    intro b k hmem
    rw [hres] at h
    exact h b k (mem_append_right _ hmem)

/-- A copy is no extent. -/
theorem copies_not_extent (st st' : State al) : .extent b k ∉ copies st st' := by
  intro hmem
  obtain ⟨e, -, he⟩ := mem_filterMap.1 hmem
  split at he <;> simp at he

/-- The blocks of an extent. -/
def Wear.blocks : Wear → Nat
  | .extent _ allocated => allocated
  | _ => 0

/-- Copies allocate nothing. -/
theorem copies_blocks (st st' : State al) : ((copies st st').map Wear.blocks).sum = 0 := by
  apply sum_eq_zero
  intro n hn
  obtain ⟨x, hx, rfl⟩ := List.mem_map.1 hn
  cases x with
  | extent b k => exact absurd hx (copies_not_extent st st')
  | append currP => rfl
  | copy p n => rfl

/-- What an allocation gives. -/
theorem novaNewDataBlocks_some {n : Nat} {st1 : State al}
    (h : novaNewDataBlocks st n = (some (b, k), st1)) :
    0 < b ∧ 0 < k ∧ k ≤ n ∧ b + k ≤ al.numBlocks := by
  have hres : al.newBlocks st.alloc .data n = (some (b, k), st1.alloc) := by
    unfold novaNewDataBlocks at h
    rw [Prod.mk.injEq] at h
    exact Prod.ext h.1 (by rw [← h.2])
  obtain ⟨hk, hkn, hb, hle, -⟩ := al.new_some hres
  exact ⟨hb, hk, hkn, hle⟩

/-- `extentWear` goes with the loop of the write: when that comes to its
end, the extents hold the blocks it was to write. -/
theorem extentWear_blocks {v' : WriteVars} (h : extentLoop ino w rounds st v = some (.done st' v')) :
    ((extentWear ino w rounds st v).map Wear.blocks).sum + v'.numBlocks = v.numBlocks := by
  induction rounds generalizing st v with
  | zero =>
    cases h
    exact Nat.zero_add _
  | succ rounds ih =>
    unfold extentLoop at h
    unfold extentWear
    by_cases h0 : v.numBlocks = 0
    · rw [if_pos h0] at h ⊢
      cases h
      exact Nat.zero_add _
    rw [if_neg h0] at h ⊢
    cases hnew : novaNewDataBlocks st v.numBlocks with
    | mk r st1 =>
      rw [hnew] at h
      cases r with
      | none => cases h
      | some bk =>
        obtain ⟨-, -, hle, -⟩ := novaNewDataBlocks_some hnew
        simp only [novaAppendFileWriteEntry, Option.bind_eq_bind] at h ⊢
        cases happ : novaGetAppendHead (fillExtent st1 ino w v bk.1
            (min (PAGE_SIZE * bk.2 - v.pos % PAGE_SIZE) v.count)) ino v.tempTail 40 with
        | none =>
          rw [happ] at h
          cases h
        | some r =>
          obtain ⟨currP, st2⟩ := r
          rw [happ] at h
          simp only [Option.bind_some] at h
          by_cases hp : currP = 0
          · rw [if_pos hp] at h
            cases h
          simp only [Option.pure_def, Option.bind_some, if_neg hp] at h
          have hrest := ih h
          simp only [if_neg hp, map_cons, map_append, sum_cons,
            sum_append, copies_blocks, Wear.blocks]
          simp only at hrest
          omega

/-- The extents of a loop. -/
theorem extentWear_extent (h : .extent b k ∈ extentWear ino w rounds st v) :
    0 < b ∧ 0 < k ∧ b + k ≤ al.numBlocks := by
  induction rounds generalizing st v with
  | zero => cases h
  | succ rounds ih =>
    unfold extentWear at h
    split at h
    · cases h
    split at h
    · cases h
    rename_i blocknr allocated st1 hnew
    rcases mem_cons.1 h with heq | h
    · cases heq
      obtain ⟨hb, hk, -, hle⟩ := novaNewDataBlocks_some hnew
      exact ⟨hb, hk, hle⟩
    split at h
    · cases h
    rcases mem_append.1 h with h | h
    · exact absurd h (copies_not_extent _ _)
    split at h
    · cases h
    rcases mem_cons.1 h with heq | h
    · cases heq
    · exact ih h

/-- The extents of a run. -/
theorem runWear_extent (h : .extent b k ∈ runWear st calls) :
    0 < b ∧ 0 < k ∧ b + k ≤ al.numBlocks := by
  induction calls generalizing st with
  | nil => cases h
  | cons call calls ih =>
    obtain ⟨ino, w⟩ := call
    rcases mem_append.1 h with h | h
    · by_cases hadm : w.Admitted
      · rw [(writeWear_eq st ino w).1 hadm] at h
        exact extentWear_extent h
      · rw [(writeWear_eq st ino w).2 hadm] at h
        cases h
    cases hres : novaCowFileWrite st ino w with
    | none =>
      rw [hres] at h
      cases h
    | some r =>
      rw [hres] at h
      exact ih h

/-- The write counts of a run of `nova_cow_file_write`. They are those of
the writes if no call writes anything. On a device of at most `BLOCKS_MAX`
blocks, with no log entry of a page or more, they are so only then. -/
theorem wear_counts (st : State al) (calls : List (Nat × WriteReq)) :
    (AllBlockless st calls → Exact (runWear st calls)) ∧
      (al.numBlocks ≤ BLOCKS_MAX → (∀ p n, .copy p n ∈ runWear st calls → n < PAGE_SIZE) →
        Exact (runWear st calls) → AllBlockless st calls) := by
  constructor
  · intro h b _
    rw [runWear_blockless h]
    rfl
  intro hsize hcopy hexact
  apply allBlockless_of_no_extent
  apply hexact.no_extent
  intro x hx
  cases x with
  | extent b k =>
    obtain ⟨hb, hk, hle⟩ := runWear_extent hx
    exact ⟨hb, hk, hle.trans hsize⟩
  | append currP => trivial
  | copy p n => exact hcopy p n hx

/-- A run whose only call writes no bytes. -/
theorem wear_counts_no_bytes : Exact (runWear newFile [(17, { someWrite with len := 0 })]) := by
  apply (wear_counts newFile [(17, { someWrite with len := 0 })]).1
  exact ⟨.inl fun hadm => hadm.1 rfl, fun _ _ _ => trivial⟩

/-- The first write of a file. -/
theorem first_write_miscounted :
    runWear newFile [(17, someWrite)] = [.extent 10 2, .append 49152] ∧
      ¬ Exact (runWear newFile [(17, someWrite)]) := by
  have hwear : runWear newFile [(17, someWrite)] = [.extent 10 2, .append 49152] := by
    decide +kernel
  refine ⟨hwear, fun hexact => ?_⟩
  rw [hwear] at hexact
  have := hexact 11 (by decide)
  revert this
  decide

end Themis.WriteCount
