/-
The wear counters over whole runs, and what `should_migrate` makes of
them.

All counters have a closed form in the calls made so far (`Counted`): one
call keeps it (`Counted.snoc`), so it holds after every run
(`wear_counters`). A malicious process pays for its first write only when
the threshold is reached the next time, whence the `m - 1`.

`should_migrate` compares unsigned. Once the threshold is below the
average, the difference is close to `2 ^ 64` and nothing is adapted any
more (`threshold_ahead_iff`).
-/
import Mathlib.Tactic.Linarith
import Mathlib.Tactic.Ring
import Themis.WearLeveling

namespace Themis.WearLeveling

open Detect List Function

variable {base b : Nat} {us : List Update} {s : State}

-- === counters

/-- The calls on a block. -/
def callsOn (base : Nat) (us : List Update) (b : Nat) : Nat :=
  us.countP fun u => u.blockNum base = b

/-- The calls on a block by processes that are malicious, or are not. -/
def callsBy (malicious : Bool) (base : Nat) (us : List Update) (b : Nat) : Nat :=
  us.countP fun u => u.blockNum base = b ∧ u.malicious = malicious

/-- A counter after `n` benign and `m` malicious writes. -/
def blkAfter (n m : Nat) : BlkWriteCount where
  writeCount := n + (m - 1) / WB_THRESHOLD
  writeBackThreshold := if m = 0 then 0 else (m - 1) % WB_THRESHOLD + 1

/-- One more benign write. -/
theorem countBlk_benign (n m : Nat) : countBlk false (blkAfter n m) = blkAfter (n + 1) m := by
  simp only [countBlk, blkAfter, Bool.false_eq_true, if_false, BlkWriteCount.mk.injEq, and_true]
  omega

/-- One more malicious write. -/
theorem countBlk_malicious (n m : Nat) : countBlk true (blkAfter n m) = blkAfter n (m + 1) := by
  have hwb : WB_THRESHOLD = 5 := rfl
  cases m with
  | zero => simp [countBlk, blkAfter, hwb]
  | succ m =>
    simp only [countBlk, blkAfter, hwb, if_true, Nat.add_one_ne_zero, if_false, Nat.add_sub_cancel]
    -- the write-back resets the threshold before it counts this write
    by_cases hfull : 5 ≤ m % 5 + 1
    · simp only [if_pos hfull, BlkWriteCount.mk.injEq]
      omega
    · simp only [if_neg hfull, BlkWriteCount.mk.injEq]
      omega

/-- All counters after the calls `us`. -/
structure Counted (base : Nat) (us : List Update) (s : State) : Prop where
  blocks : ∀ b, s.blockWriteCount b = callsOn base us b
  le_max : ∀ b, s.blockWriteCount b ≤ s.globalMaxUpdate
  max_mem : ∃ b < BLOCKS_MAX, s.blockWriteCount b = s.globalMaxUpdate
  total : s.countAverage * BLOCKS_MAX + s.countHand = us.length
  hand : s.countHand < BLOCKS_MAX
  discounted : ∀ b, s.globalBlkWriteCount b
    = blkAfter (callsBy false base us b) (callsBy true base us b)

/-- The start. -/
theorem counted_init : Counted base [] init := by
  refine ⟨fun _ => rfl, fun _ => le_rfl, ⟨0, by decide, rfl⟩, ?_, by decide, ?_⟩
  · simp [init]
  · intro b
    simp [init, blkAfter, callsBy]

/-- An update of a block on the device. -/
theorem Update.run_eq (u : Update) (h : u.blockNum base < BLOCKS_MAX) :
    u.run base s = advanceHand (countWrite s (u.blockNum base) u.malicious) := by
  cases u with
  | block blockNum malicious => exact if_neg (not_le.2 h)
  | vir viraddr malicious => exact if_neg (not_le.2 h)

/-- The hand counts every write. -/
theorem advanceHand_total (h : s.countHand < BLOCKS_MAX) :
    (advanceHand s).countAverage * BLOCKS_MAX + (advanceHand s).countHand
        = s.countAverage * BLOCKS_MAX + s.countHand + 1 ∧
      (advanceHand s).countHand < BLOCKS_MAX := by
  have hmax : BLOCKS_MAX = 4194304 := rfl
  unfold advanceHand
  split
  · simp only [hmax] at *
    omega
  · simp only [hmax] at *
    omega

/-- The hand changes the average only. -/
theorem advanceHand_frame (s : State) : (advanceHand s).blockWriteCount = s.blockWriteCount ∧
      (advanceHand s).globalBlkWriteCount = s.globalBlkWriteCount ∧
      (advanceHand s).globalMaxUpdate = s.globalMaxUpdate ∧
      (advanceHand s).maxDeviation = s.maxDeviation ∧
      s.countAverage ≤ (advanceHand s).countAverage := by
  unfold advanceHand
  split
  · exact ⟨rfl, rfl, rfl, rfl, Nat.le_succ _⟩
  · exact ⟨rfl, rfl, rfl, rfl, le_rfl⟩

/-- One more write. -/
theorem callsOn_snoc (u : Update) : callsOn base (us ++ [u]) b
    = callsOn base us b + if u.blockNum base = b then 1 else 0 := by
  simp [callsOn, countP_append, countP_singleton]

/-- One more write of that kind. -/
theorem callsBy_snoc (u : Update) (mal : Bool) : callsBy mal base (us ++ [u]) b
    = callsBy mal base us b + if u.blockNum base = b ∧ u.malicious = mal then 1 else 0 := by
  simp [callsBy, countP_append, countP_singleton]

/-- One more write. -/
theorem Counted.snoc (h : Counted base us s) (u : Update) (hu : u.blockNum base < BLOCKS_MAX) :
    Counted base (us ++ [u]) (u.run base s) := by
  rw [u.run_eq hu]
  obtain ⟨hblocks, hblk, hmax, -, -⟩ :=
    advanceHand_frame (countWrite s (u.blockNum base) u.malicious)
  obtain ⟨htotal, hhand⟩ :=
    advanceHand_total (s := countWrite s (u.blockNum base) u.malicious) h.hand
  generalize hk : u.blockNum base = k at *
  have hcount : ∀ b, (countWrite s k u.malicious).blockWriteCount b
      = s.blockWriteCount b + if k = b then 1 else 0 := by
    intro b
    by_cases hb : k = b
    · subst hb
      simp [countWrite]
    · simp [countWrite, update_of_ne (Ne.symm hb), hb]
  have hnew : (countWrite s k u.malicious).globalMaxUpdate
      = max s.globalMaxUpdate (s.blockWriteCount k + 1) := by
    simp only [countWrite]
    split
    · omega
    · omega
  refine ⟨?_, ?_, ?_, ?_, hhand, ?_⟩
  · intro b
    rw [hblocks, hcount, h.blocks, callsOn_snoc, hk]
  · intro b
    rw [hblocks, hmax, hcount]
    have hb := h.le_max b
    split
    · rename_i heq
      subst heq
      omega
    · omega
  · rw [hblocks, hmax]
    by_cases hgt : s.globalMaxUpdate < s.blockWriteCount k + 1
    · refine ⟨k, hu, ?_⟩
      rw [hcount, if_pos rfl]
      omega
    -- the block that had the most writes is another one
    obtain ⟨m, hm, heq⟩ := h.max_mem
    have hne : k ≠ m := by
      intro hkm
      subst hkm
      omega
    refine ⟨m, hm, ?_⟩
    rw [hcount, if_neg hne]
    omega
  · rw [htotal, length_append]
    exact congrArg (· + 1) h.total
  intro b
  rw [hblk, callsBy_snoc, callsBy_snoc, hk]
  by_cases hb : k = b
  · subst hb
    simp only [countWrite, update_self, h.discounted, true_and]
    cases u.malicious with
    | false => simpa using countBlk_benign _ _
    | true => simpa using countBlk_malicious _ _
  · simp [countWrite, update_of_ne (Ne.symm hb), h.discounted, hb]

/-- Any writes. -/
theorem counted_run (us : List Update) (hus : ∀ u ∈ us, u.blockNum base < BLOCKS_MAX) :
    Counted base us (us.foldl (Update.run base) init) := by
  induction us using reverseRecOn with
  | nil => exact counted_init
  | append_singleton us u ih =>
    rw [foldl_append]
    exact (ih fun v hv => hus v (mem_append_left _ hv)).snoc u (hus u (by simp))

/-- The counters over any run of calls on blocks of the device, whoever
makes them and in whatever order. -/
theorem wear_counters (base : Nat) (us : List Update)
    (hus : ∀ u ∈ us, u.blockNum base < BLOCKS_MAX) (s : State)
    (hs : us.foldl (Update.run base) init = s) :
    (∀ b, s.blockWriteCount b = callsOn base us b) ∧
      ((∀ b < BLOCKS_MAX, s.blockWriteCount b ≤ s.globalMaxUpdate) ∧
        ∃ b < BLOCKS_MAX, s.blockWriteCount b = s.globalMaxUpdate) ∧
      (s.countAverage * BLOCKS_MAX + s.countHand = us.length ∧ s.countHand < BLOCKS_MAX) ∧
      ∀ b, (s.globalBlkWriteCount b).writeCount
        = callsBy false base us b + (callsBy true base us b - 1) / WB_THRESHOLD := by
  subst hs
  have h := counted_run us hus
  refine ⟨h.blocks, ⟨fun b _ => h.le_max b, h.max_mem⟩, ⟨h.total, h.hand⟩, ?_⟩
  intro b
  rw [h.discounted b]
  rfl

/-- Six malicious writes and one benign one on a block count for two. -/
theorem wear_counters_six_malicious :
    (∀ u ∈ List.replicate 6 (Update.block 3 true) ++ [Update.vir 12288 false],
        u.blockNum 0 < BLOCKS_MAX) ∧
      (((List.replicate 6 (Update.block 3 true) ++ [Update.vir 12288 false]).foldl
        (Update.run 0) init).globalBlkWriteCount 3).writeCount = 2 := by
  have hus : ∀ u ∈ replicate 6 (Update.block 3 true) ++ [Update.vir 12288 false],
      u.blockNum 0 < BLOCKS_MAX := by decide
  refine ⟨hus, ?_⟩
  rw [(wear_counters 0 _ hus _ rfl).2.2.2 3]
  decide

-- === migration

/-- A block that is not over. -/
theorem shouldMigrate_under (h : ¬ Over s b) :
    shouldMigrate s b = (false, { s with exceedAverage := 0 }) :=
  if_pos (not_le.1 h)

/-- A block that is over. -/
theorem shouldMigrate_over (h : Over s b) : shouldMigrate s b = (true, { s with
      exceedAverage := 0
      maxDeviation :=
        if subUlong s.maxDeviation s.countAverage < DEVIATION_HIGH / 2 then
          s.maxDeviation + DEVIATION_HIGH
        else s.maxDeviation }) := by
  simp only [shouldMigrate]
  rw [if_neg (not_lt.2 h)]
  split
  · rfl
  · rfl

/-- The average stays. -/
@[simp] theorem shouldMigrate_countAverage (s : State) (b : Nat) :
    (shouldMigrate s b).2.countAverage = s.countAverage := by
  by_cases hover : Over s b
  · rw [shouldMigrate_over hover]
  · rw [shouldMigrate_under hover]

/-- When the difference is small. -/
theorem subUlong_lt_iff {x y k : Nat} (hx : x < 2 ^ 64) (hy : y < 2 ^ 63) (hk : k < 2 ^ 63) :
    subUlong x y < k ↔ y ≤ x ∧ x < y + k := by
  unfold subUlong
  omega

variable {ops : List Op} {streak : Nat}

/-- An update changes no deviation. -/
theorem Update.run_frame (base : Nat) (s : State) (u : Update) :
    (u.run base s).maxDeviation = s.maxDeviation ∧ s.countAverage ≤ (u.run base s).countAverage := by
  by_cases hu : u.blockNum base < BLOCKS_MAX
  · rw [u.run_eq hu]
    obtain ⟨-, -, -, hmax, havg⟩ := advanceHand_frame (countWrite s (u.blockNum base) u.malicious)
    exact ⟨hmax, havg⟩
  have hsame : u.run base s = s := by
    cases u with
    | block blockNum malicious => exact if_pos (not_lt.1 hu)
    | vir viraddr malicious => exact if_pos (not_lt.1 hu)
  rw [hsame]
  exact ⟨rfl, le_rfl⟩

/-- The deviation is bounded along a run. -/
theorem maxDeviation_le (base : Nat) (ops : List Op)
    (havg : (runOps base ops).1.countAverage < 2 ^ 63) :
    (runOps base ops).1.maxDeviation ≤ (runOps base ops).1.countAverage + 600 := by
  induction ops using reverseRecOn with
  | nil => exact Nat.le_add_left 400 200
  | append_singleton ops op ih =>
    have hrun : runOps base (ops ++ [op]) = op.run base (runOps base ops) := by
      simp [runOps, foldl_append]
    rw [hrun] at havg ⊢
    generalize runOps base ops = r at *
    cases op with
    | update u =>
      obtain ⟨hmax, hle⟩ := u.run_frame base r.1
      have := ih (lt_of_le_of_lt hle havg)
      show (u.run base r.1).maxDeviation ≤ (u.run base r.1).countAverage + 600
      omega
    | migrate b =>
      simp only [Op.run] at havg ⊢
      by_cases hover : Over r.1 b
      · rw [shouldMigrate_over hover] at havg ⊢
        have havg' : r.1.countAverage < 2 ^ 63 := havg
        have := ih havg'
        have hhigh : DEVIATION_HIGH = 400 := rfl
        by_cases hlt : subUlong r.1.maxDeviation r.1.countAverage < DEVIATION_HIGH / 2
        · have hclose := (subUlong_lt_iff (by omega) havg' (by decide)).1 hlt
          simp only [if_pos hlt]
          omega
        · simp only [if_neg hlt]
          exact this
      · rw [shouldMigrate_under hover] at havg ⊢
        exact ih havg

/-- The deviation after a migration. -/
theorem maxDeviation_shouldMigrate (hrun : runOps base ops = (s, streak))
    (havg : s.countAverage < 2 ^ 63) (hover : Over s b) :
    (shouldMigrate s b).2.maxDeviation = if s.countAverage ≤ s.maxDeviation ∧
          s.maxDeviation < s.countAverage + DEVIATION_HIGH / 2 then s.maxDeviation + DEVIATION_HIGH
      else s.maxDeviation := by
  have hle := maxDeviation_le base ops (by rw [hrun]; exact havg)
  rw [hrun] at hle
  rw [shouldMigrate_over hover]
  simp only [subUlong_lt_iff (show s.maxDeviation < 2 ^ 64 by simp only at hle; omega) havg
    (show DEVIATION_HIGH / 2 < 2 ^ 63 by decide)]

/-- What one call of `should_migrate` after any run would have to satisfy:
it says yes only to an over-worn page, and raises the threshold only if it
is the third call in a row over it. That is so exactly if the page is below
the threshold, or over-worn and the threshold either stays or has seen two
calls before. -/
theorem migrates_overworn_iff (hrun : runOps base ops = (s, streak))
    (havg : s.countAverage < 2 ^ 63) (b : Nat) :
    (((shouldMigrate s b).1 = true →
          s.countAverage + DEVIATION_LOW < (s.globalBlkWriteCount b).writeCount) ∧
        (s.maxDeviation < (shouldMigrate s b).2.maxDeviation → Over s b ∧ 2 ≤ streak)) ↔
      (Over s b → s.countAverage + DEVIATION_LOW < (s.globalBlkWriteCount b).writeCount ∧
          (s.countAverage ≤ s.maxDeviation →
            s.maxDeviation < s.countAverage + DEVIATION_HIGH / 2 → 2 ≤ streak)) := by
  by_cases hover : Over s b
  · have hyes : (shouldMigrate s b).1 = true := by rw [shouldMigrate_over hover]
    have hhigh : DEVIATION_HIGH = 400 := rfl
    rw [hyes, maxDeviation_shouldMigrate hrun havg hover]
    simp only [hover, true_imp_iff, true_and]
    refine and_congr_right fun _ => ?_
    split
    · rename_i hlow
      simp only [hlow.1, hlow.2, true_imp_iff]
      exact ⟨fun h => h (by omega), fun h _ => h⟩
    · rename_i hlow
      exact ⟨fun _ h1 h2 => absurd ⟨h1, h2⟩ hlow, fun _ h => absurd h (lt_irrefl _)⟩
  · rw [shouldMigrate_under hover]
    simp [hover]

/-- The threshold is kept ahead of the average exactly as long as it is
not behind it already. -/
theorem threshold_ahead_iff (hrun : runOps base ops = (s, streak))
    (havg : s.countAverage < 2 ^ 63) (hover : Over s b)
    (hbehind : (s.countAverage : Int) - s.maxDeviation < DEVIATION_HIGH / 2) :
    ((DEVIATION_HIGH / 2 : Nat) : Int) ≤ ((shouldMigrate s b).2.maxDeviation : Int)
        - (shouldMigrate s b).2.countAverage ↔ s.countAverage ≤ s.maxDeviation := by
  rw [shouldMigrate_countAverage, maxDeviation_shouldMigrate hrun havg hover]
  have hhigh : DEVIATION_HIGH = 400 := rfl
  rw [hhigh] at hbehind ⊢
  split
  · omega
  · omega

-- === two long runs

/-- A run of updates only. -/
theorem runOps_updates (us : List Update) :
    runOps base (us.map .update) = (us.foldl (Update.run base) init, 0) := by
  unfold runOps
  generalize init = s
  induction us generalizing s with
  | nil => rfl
  | cons u us ih => exact ih _

/-- Writes to two blocks. -/
def twoBlocks (n m : Nat) : List Update :=
  List.replicate n (.block 0 false) ++ List.replicate m (.block 1 false)

/-- Both are on the device. -/
theorem twoBlocks_blocks (n m : Nat) : ∀ u ∈ twoBlocks n m, u.blockNum 0 < BLOCKS_MAX := by
  intro u hu
  rcases mem_append.1 hu with hu | hu
  · rw [(mem_replicate.1 hu).2]
    decide
  · rw [(mem_replicate.1 hu).2]
    decide

/-- The state after them. -/
def twoBlocksState (n m : Nat) : State := (twoBlocks n m).foldl (Update.run 0) init

/-- That is a run. -/
theorem twoBlocksState_run (n m : Nat) :
    runOps 0 ((twoBlocks n m).map .update) = (twoBlocksState n m, 0) := runOps_updates _

/-- The deviation at the start. -/
theorem twoBlocksState_dev (n m : Nat) : (twoBlocksState n m).maxDeviation = 400 := by
  unfold twoBlocksState
  induction twoBlocks n m using reverseRecOn with
  | nil => rfl
  | append_singleton us u ih =>
    rw [foldl_append]
    exact (u.run_frame 0 _).1.trans ih

/-- The count of the first block. -/
theorem twoBlocksState_count (n m : Nat) :
    ((twoBlocksState n m).globalBlkWriteCount 0).writeCount = n := by
  rw [twoBlocksState, (counted_run _ (twoBlocks_blocks n m)).discounted 0]
  simp [blkAfter, callsBy, twoBlocks, countP_append, countP_replicate,
    Update.blockNum, Update.malicious]

/-- The average. -/
theorem twoBlocksState_total (n m : Nat) :
    (twoBlocksState n m).countAverage = (n + m) / BLOCKS_MAX := by
  have h := counted_run _ (twoBlocks_blocks n m)
  have htotal := h.total
  have hhand := h.hand
  have hlen : (twoBlocks n m).length = n + m := by simp [twoBlocks]
  have hmax : BLOCKS_MAX = 4194304 := rfl
  rw [hmax] at htotal hhand ⊢
  rw [twoBlocksState]
  omega

/-- The first block is over. -/
theorem twoBlocksState_over {n : Nat} (m : Nat) (h : 400 ≤ n) : Over (twoBlocksState n m) 0 := by
  rw [Over, twoBlocksState_dev, twoBlocksState_count]
  exact h

/-- A call on an over-worn page, with the threshold far ahead. -/
theorem migrates_overworn_iff_fresh :
    (twoBlocksState 400 0).countAverage < 2 ^ 63 ∧
      ((shouldMigrate (twoBlocksState 400 0) 0).1 = true →
        (twoBlocksState 400 0).countAverage + DEVIATION_LOW
          < ((twoBlocksState 400 0).globalBlkWriteCount 0).writeCount) := by
  have havg : (twoBlocksState 400 0).countAverage = 0 :=
    (twoBlocksState_total 400 0).trans (by decide)
  have hlt : (twoBlocksState 400 0).countAverage < 2 ^ 63 := by
    rw [havg]
    decide
  refine ⟨hlt, ((migrates_overworn_iff (twoBlocksState_run 400 0) hlt 0).2 ?_).1⟩
  intro _
  rw [twoBlocksState_count, twoBlocksState_dev, havg]
  exact ⟨by decide, fun _ h => absurd h (by decide)⟩

/-- Block 0 is written 400 times and block 1 so often that the average is
201. Then block 0 is migrated, though it is not over-worn, and the
threshold is raised by the first call. -/
theorem migrates_average_page : ∃ n s, runOps 0 ((twoBlocks 400 n).map .update) = (s, 0) ∧
    s.countAverage = 201 ∧ (s.globalBlkWriteCount 0).writeCount = 400 ∧
    (shouldMigrate s 0).1 = true ∧ (shouldMigrate s 0).2.maxDeviation = 800 ∧
    ¬ (((shouldMigrate s 0).1 = true →
          s.countAverage + DEVIATION_LOW < (s.globalBlkWriteCount 0).writeCount) ∧
        (s.maxDeviation < (shouldMigrate s 0).2.maxDeviation → Over s 0 ∧ 2 ≤ 0)) := by
  refine ⟨201 * BLOCKS_MAX, _, twoBlocksState_run 400 _, ?_⟩
  have hmax : BLOCKS_MAX = 4194304 := rfl
  generalize hn : 201 * BLOCKS_MAX = n
  have havg : (twoBlocksState 400 n).countAverage = 201 := by
    rw [twoBlocksState_total, hmax]
    omega
  have hcount := twoBlocksState_count 400 n
  have hdev := twoBlocksState_dev 400 n
  have hover := twoBlocksState_over n (le_refl 400)
  have hyes : (shouldMigrate (twoBlocksState 400 n) 0).1 = true := by rw [shouldMigrate_over hover]
  have hraised : (shouldMigrate (twoBlocksState 400 n) 0).2.maxDeviation = 800 := by
    rw [maxDeviation_shouldMigrate (twoBlocksState_run 400 n) (by rw [havg]; decide) hover,
      havg, hdev]
    decide
  refine ⟨havg, hcount, hyes, hraised, ?_⟩
  rintro ⟨hworn, -⟩
  have hlow := hworn hyes
  rw [havg, hcount] at hlow
  exact absurd hlow (by decide)

/-- A threshold of 400 at an average of 300 is raised in time. -/
theorem threshold_ahead_iff_in_time : ∃ n s, runOps 0 ((twoBlocks n 0).map .update) = (s, 0) ∧
    (s.countAverage = 300 ∧ s.maxDeviation = 400 ∧ Over s 0) ∧
    ((DEVIATION_HIGH / 2 : Nat) : Int) ≤ ((shouldMigrate s 0).2.maxDeviation : Int)
      - (shouldMigrate s 0).2.countAverage := by
  refine ⟨300 * BLOCKS_MAX, _, twoBlocksState_run _ 0, ?_⟩
  have hmax : BLOCKS_MAX = 4194304 := rfl
  generalize hn : 300 * BLOCKS_MAX = n
  have havg : (twoBlocksState n 0).countAverage = 300 := by
    rw [twoBlocksState_total, hmax]
    omega
  have hdev := twoBlocksState_dev n 0
  have hover := twoBlocksState_over (n := n) 0 (by omega)
  refine ⟨⟨havg, hdev, hover⟩, (threshold_ahead_iff (twoBlocksState_run n 0) ?_ hover ?_).2 ?_⟩
  · rw [havg]
    decide
  · rw [havg, hdev]
    decide
  · rw [havg, hdev]
    decide

/-- Once the average has passed the threshold by one, an adaptation leaves
it behind. -/
theorem threshold_left_behind : ∃ n s, runOps 0 ((twoBlocks n 0).map .update) = (s, 0) ∧
    Over s 0 ∧ (s.countAverage : Int) - s.maxDeviation = 1 ∧
    ((shouldMigrate s 0).2.maxDeviation : Int) - (shouldMigrate s 0).2.countAverage = -1 := by
  refine ⟨401 * BLOCKS_MAX, _, twoBlocksState_run _ 0, ?_⟩
  have hmax : BLOCKS_MAX = 4194304 := rfl
  generalize hn : 401 * BLOCKS_MAX = n
  have havg : (twoBlocksState n 0).countAverage = 401 := by
    rw [twoBlocksState_total, hmax]
    omega
  have hdev := twoBlocksState_dev n 0
  have hover := twoBlocksState_over (n := n) 0 (by omega)
  rw [maxDeviation_shouldMigrate (twoBlocksState_run n 0) (by rw [havg]; decide) hover,
    shouldMigrate_countAverage, havg, hdev]
  exact ⟨hover, by decide, by decide⟩

-- === square root

variable {n k : Nat} {t : Sqrt}

/-- With `k` binary digits to go: `r` is the root so far, the probe bit is
that of the next digit, and the root of `n` is within `2 ^ k` of `r`. -/
structure SqrtInv (n k r : Nat) (t : Sqrt) : Prop where
  one : t.one = 4 ^ k / 4
  res : t.res = r * 2 ^ k
  op : n = r * r + t.op
  below : n < (r + 2 ^ k) * (r + 2 ^ k)
  bound : r + 2 ^ k ≤ 2 ^ 32

/-- No sum of the next round leaves 64 bits. -/
def Sqrt.Fits (t : Sqrt) : Prop :=
  t.res + t.one < 2 ^ 64 ∧ 2 * t.one < 2 ^ 64 ∧ t.res + 2 * t.one < 2 ^ 64

/-- The shift finds the digits. -/
theorem Sqrt.shift_spec (hn : n < 4 ^ k) :
    ∃ j ≤ k, n < 4 ^ j ∧ Sqrt.shift ⟨n, 0, 4 ^ k / 4⟩ = ⟨n, 0, 4 ^ j / 4⟩ := by
  induction k with
  | zero =>
    refine ⟨0, le_refl 0, hn, ?_⟩
    rw [Sqrt.shift, if_neg (by simp)]
  | succ k ih =>
    have hbit : 4 ^ (k + 1) / 4 = 4 ^ k := by omega
    by_cases hlt : 4 ^ k > n
    · obtain ⟨j, hj, hlow, heq⟩ := ih hlt
      refine ⟨j, by omega, hlow, ?_⟩
      rw [Sqrt.shift, hbit, if_pos hlt, ← heq, Nat.shiftRight_eq_div_pow]
    · refine ⟨k + 1, le_rfl, hn, ?_⟩
      rw [Sqrt.shift, hbit, if_neg hlt]

/-- The start of the loop. -/
theorem sqrtInv_start (hn : n < 2 ^ 64) : ∃ k ≤ 32, SqrtInv n k 0 (sqrtStart n) := by
  obtain ⟨k, hk, hlow, heq⟩ := Sqrt.shift_spec (n := n) (k := 32) (by omega)
  have hsq : 2 ^ k * 2 ^ k = 4 ^ k := by rw [← Nat.mul_pow]
  refine ⟨k, hk, ?_⟩
  have hstart : sqrtStart n = ⟨n, 0, 4 ^ k / 4⟩ := heq
  rw [hstart]
  refine ⟨rfl, by simp, by simp, by simpa [hsq] using hlow, ?_⟩
  rw [Nat.zero_add]
  exact Nat.pow_le_pow_right (by decide) hk

section
variable {r : Nat} (h : SqrtInv n (k + 1) r t)
include h

/-- The digit is a square. -/
theorem SqrtInv.one_eq : t.one = 2 ^ k * 2 ^ k := by
  rw [h.one, ← Nat.mul_pow]
  show 4 ^ (k + 1) / 4 = 4 ^ k
  omega

/-- Nothing overflows. -/
theorem SqrtInv.fits : t.Fits := by
  have hone := h.one_eq
  have hres := h.res
  have hbound := h.bound
  have hk : 2 ^ (k + 1) ≤ 2 ^ 32 := by omega
  rw [pow_succ] at hres hbound hk
  generalize 2 ^ k = b at *
  refine ⟨?_, ?_, ?_⟩ <;> nlinarith

/-- One digit. -/
theorem SqrtInv.step : ∃ r, SqrtInv n k r t.step := by
  obtain ⟨hsum, htwo, hsum2⟩ := h.fits
  have hone := h.one_eq
  have hquot : t.one / 4 = 4 ^ k / 4 := by rw [h.one]; omega
  have hres := h.res
  have hop := h.op
  have hbelow := h.below
  have hbound := h.bound
  unfold Sqrt.step
  rw [Nat.mod_eq_of_lt hsum, Nat.mod_eq_of_lt htwo, Nat.mod_eq_of_lt hsum2]
  rw [pow_succ] at hres hbelow hbound
  by_cases hge : t.op ≥ t.res + t.one
  · -- the digit is one
    rw [if_pos hge]
    have hsub : subUlong t.op (t.res + t.one) = t.op - (t.res + t.one) := by
      have hnlt : n < 2 ^ 32 * 2 ^ 32 := hbelow.trans_le (Nat.mul_le_mul hbound hbound)
      unfold subUlong
      omega
    refine ⟨r + 2 ^ k, hquot, ?_, ?_, ?_, by omega⟩
    · show (t.res + 2 * t.one) / 2 = _
      have : r * (2 ^ k * 2) + 2 * (2 ^ k * 2 ^ k) = 2 * ((r + 2 ^ k) * 2 ^ k) := by ring
      omega
    · show n = _ + subUlong t.op (t.res + t.one)
      have : (r + 2 ^ k) * (r + 2 ^ k) = r * r + (t.res + t.one) := by rw [hres, hone]; ring
      omega
    · have : r + 2 ^ k + 2 ^ k = r + 2 ^ k * 2 := by ring
      rwa [this]
  rw [if_neg hge]
  refine ⟨r, hquot, ?_, hop, ?_, by omega⟩
  · show t.res / 2 = _
    rw [hres, ← Nat.mul_assoc, Nat.mul_div_cancel _ (by decide)]
  · have : (r + 2 ^ k) * (r + 2 ^ k) = r * r + (t.res + t.one) := by rw [hres, hone]; ring
    omega

end

/-- All digits. -/
theorem SqrtInv.digits {r : Nat} (h : SqrtInv n k r t) :
    (∀ i < k, (Sqrt.step^[i] t).one ≠ 0 ∧ (Sqrt.step^[i] t).Fits) ∧ (Sqrt.step^[k] t).one = 0 ∧
      t.digits = Sqrt.step^[k] t ∧ ∃ r, SqrtInv n 0 r t.digits := by
  induction k generalizing t r with
  | zero =>
    have hone : t.one = 0 := h.one
    have hend : t.digits = t := by rw [Sqrt.digits, if_neg (not_not.mpr hone)]
    refine ⟨by simp, hone, hend, r, ?_⟩
    rwa [hend]
  | succ k ih =>
    have hone : t.one ≠ 0 := by rw [h.one_eq]; positivity
    obtain ⟨r', hstep⟩ := h.step
    obtain ⟨hrounds, hzero, hend, hinv⟩ := ih hstep
    have hunfold : t.digits = t.step.digits := by rw [Sqrt.digits, if_pos hone]
    rw [hunfold]
    refine ⟨?_, hzero, hend, hinv⟩
    intro i hi
    cases i with
    | zero => exact ⟨hone, h.fits⟩
    | succ i => exact hrounds i (by omega)

/-- For every 64-bit number `get_sqrt` ends after at most 32 rounds, in none
of which a sum leaves 64 bits, with the integer square root. -/
theorem getSqrt_spec (n : UInt64) : ∃ k ≤ 32,
    (∀ i < k, (Sqrt.step^[i] (sqrtStart n.toNat)).one ≠ 0
      ∧ (Sqrt.step^[i] (sqrtStart n.toNat)).Fits)
    ∧ (Sqrt.step^[k] (sqrtStart n.toNat)).one = 0
    ∧ getSqrt n.toNat = (Sqrt.step^[k] (sqrtStart n.toNat)).res
    ∧ getSqrt n.toNat * getSqrt n.toNat ≤ n.toNat
    ∧ n.toNat < (getSqrt n.toNat + 1) * (getSqrt n.toNat + 1) := by
  obtain ⟨k, hk, hstart⟩ := sqrtInv_start n.toNat_lt
  obtain ⟨hrounds, hzero, hend, r, hinv⟩ := hstart.digits
  have hroot : getSqrt n.toNat = r := hinv.res.trans (by simp)
  refine ⟨k, hk, hrounds, hzero, congrArg Sqrt.res hend, ?_⟩
  rw [hroot]
  have hop := hinv.op
  exact ⟨by omega, hinv.below⟩

end Themis.WearLeveling
