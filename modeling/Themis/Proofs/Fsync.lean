/-
What `nova_fsync` flushes.

# Stretches

The loop cuts the mapped bytes of the range into stretches, each inside
one entry, and makes one call for each (`fsyncLoop_spec`), if the end of
the range is a `loff_t` after it was rounded up; otherwise it makes one
round (`fsyncLoop_wrapped`).

# What is lost

A call covers its stretch if the length fits into 32 bits
(`covered_iff`). `fsync_flushes_iff` puts both together.
-/
import Themis.Fsync
import Themis.Proofs.File.Tree
import Themis.Proofs.Seek

namespace Themis.Fsync

open Lib Log File Seek List

variable {al : BlockAllocator} {st : State al} {ino : Nat}
variable {a e s start stop : Nat}
variable {p nr s' x : Nat} {end_ : Int} {T : List (Nat × Nat)}

-- === the file

/-- A file whose entries have no hole in front of a page they map, and
whose `invalid_pages` count the pages an entry does not map. -/
structure SyncFile (st : State al) (ino : Nat) : Prop where
  within : ∀ p a, (st.info ino).tree.get p = some a →
    (entryAt st.nv a).pgoff ≤ p ∧ p < (entryAt st.nv a).pgoff + (entryAt st.nv a).numPages
  front : ∀ p a, (st.info ino).tree.get p = some a → ∀ q, (entryAt st.nv a).pgoff ≤ q →
    q ≤ p → (st.info ino).tree.get q ≠ none
  counted : ∀ p a, (st.info ino).tree.get p = some a →
    st.nv.invalid a + mapped (st.info ino).tree.get a (entryAt st.nv a).pgoff
      ((entryAt st.nv a).pgoff + (entryAt st.nv a).numPages) = (entryAt st.nv a).numPages

/-- Byte `x` is on a mapped page. -/
def InPage (st : State al) (ino x : Nat) : Prop :=
  (st.info ino).tree.get (x / PAGE_SIZE) ≠ none

/-- The address of byte `x`. -/
def addressOf (st : State al) (ino x : Nat) : Nat :=
  match (st.info ino).tree.get (x / PAGE_SIZE) with
  | some a => getNvmm st.nv a (x / PAGE_SIZE) * PAGE_SIZE + x % PAGE_SIZE
  | none => 0

/-- The call flushes byte `x`. -/
def FlushCall.Covers (st : State al) (ino : Nat) (c : FlushCall) (x : Nat) : Prop :=
  c.pos ≤ x ∧ x < c.pos + cachelineUp c.len ∧ c.addr + (x - c.pos) = addressOf st ino x

/-- All pages of an entry, where none is invalid. -/
theorem SyncFile.full (h : SyncFile st ino) (hp : (st.info ino).tree.get p = some a)
    (hinv : st.nv.invalid a = 0) {q : Nat} (h1 : (entryAt st.nv a).pgoff ≤ q)
    (h2 : q < (entryAt st.nv a).pgoff + (entryAt st.nv a).numPages) :
    (st.info ino).tree.get q = some a := by
  have hcount := h.counted p a hp
  rw [hinv, Nat.zero_add] at hcount
  have hall := Finset.card_filter_eq_iff.1 (hcount.trans (by simp : _ =
    (Finset.Ico (entryAt st.nv a).pgoff
      ((entryAt st.nv a).pgoff + (entryAt st.nv a).numPages)).card))
  exact hall q (Finset.mem_Ico.2 ⟨h1, h2⟩)

/-- A jump leads to the entry's first page. -/
theorem SyncFile.jump (h : SyncFile st ino) (hp : (st.info ino).tree.get p = none)
    (hg : (st.info ino).tree.gangLookup p = some a) :
    p < (entryAt st.nv a).pgoff ∧ (st.info ino).tree.get (entryAt st.nv a).pgoff = some a ∧
      ∀ q, p ≤ q → q < (entryAt st.nv a).pgoff → (st.info ino).tree.get q = none := by
  obtain ⟨j, hj, ha, hleast⟩ := Radix.gangLookup_eq_some hg
  obtain ⟨hle, -⟩ := h.within j a ha
  have hpgoff : (entryAt st.nv a).pgoff = j := by
    by_contra hne
    rcases Nat.lt_or_ge (entryAt st.nv a).pgoff p with hlt | hge
    · exact h.front j a ha p hlt.le hj hp
    · exact h.front j a ha _ le_rfl hle (hleast _ hge (by omega))
  have hpj : p ≠ j := by
    rintro rfl
    rw [hp] at ha
    cases ha
  rw [hpgoff]
  exact ⟨by omega, ha, hleast⟩

-- === the stretches

/-- Where a call that starts at `pos` in the entry `a` ends, if the range
ends at `e`. -/
def stretchEnd (nv : Nvmm) (e a pos : Nat) : Nat :=
  min e (if nv.invalid a = 0 then
    ((entryAt nv a).pgoff + (entryAt nv a).numPages) * PAGE_SIZE
    else (pos / PAGE_SIZE + 1) * PAGE_SIZE)

/-- A stretch: `nr` bytes from `pos` on in one entry. -/
structure IsStretch (st : State al) (ino e pos nr a : Nat) : Prop where
  pos_lt : 0 < nr
  one : ∀ x, pos ≤ x → x < pos + nr → (st.info ino).tree.get (x / PAGE_SIZE) = some a
  stop : pos + nr = stretchEnd st.nv e a pos
  lines : 64 ∣ pos ∧ 64 ∣ nr

/-- One stretch of a mapped range. -/
theorem SyncFile.stretch (h : SyncFile st ino)
    (ha : (st.info ino).tree.get (s / PAGE_SIZE) = some a) (hse : s < e)
    (hgap : ulongOfInt (end_ - s) = e - s) (hs : 64 ∣ s) (he : 64 ∣ e) :
    IsStretch st ino e s (nrFlushBytes st.nv end_ a s) a := by
  obtain ⟨h1, h2⟩ := h.within _ a ha
  have hstop : s + nrFlushBytes st.nv end_ a s = stretchEnd st.nv e a s := by
    unfold nrFlushBytes availBytes stretchEnd
    simp only [PAGE_SIZE] at *
    split <;> omega
  have hlt : s < stretchEnd st.nv e a s := by
    unfold stretchEnd
    simp only [PAGE_SIZE] at *
    split <;> omega
  have hdvd : 64 ∣ stretchEnd st.nv e a s := by
    unfold stretchEnd
    rcases Nat.le_total e (if st.nv.invalid a = 0 then
      ((entryAt st.nv a).pgoff + (entryAt st.nv a).numPages) * PAGE_SIZE
      else (s / PAGE_SIZE + 1) * PAGE_SIZE) with hle | hle
    · rwa [min_eq_left hle]
    · rw [min_eq_right hle]
      split <;> exact Dvd.dvd.mul_left (by decide) _
  refine ⟨by omega, ?_, hstop, hs, ?_⟩
  · intro x hx1 hx2
    rw [hstop] at hx2
    unfold stretchEnd at hx2
    by_cases hinv : st.nv.invalid a = 0
    · rw [if_pos hinv] at hx2
      apply h.full ha hinv
      · exact h1.trans (Nat.div_le_div_right hx1)
      · simp only [PAGE_SIZE] at *
        omega
    rw [if_neg hinv] at hx2
    rw [show x / PAGE_SIZE = s / PAGE_SIZE by
      simp only [PAGE_SIZE] at *
      omega]
    exact ha
  · have := (Nat.dvd_add_right hs).1 (hstop ▸ hdvd)
    exact this

/-- The call for a stretch. -/
def callOf (st : State al) (ino : Nat) (t : Nat × Nat) : FlushCall :=
  ⟨t.1, addressOf st ino t.1, t.2 % 2 ^ 32⟩

/-- The flush of a stretch. -/
theorem flushAt_eq (ha : (st.info ino).tree.get (s / PAGE_SIZE) = some a) (hnr : 0 < nr) :
    flushAt st.nv a s nr = [callOf st ino (s, nr)] := by
  rw [flushAt, if_neg (by omega)]
  simp [callOf, addressOf, ha]

/-- The stretches of the range from `s` to `e`: one behind the other. -/
structure Stretches (st : State al) (ino e s : Nat) (T : List (Nat × Nat)) : Prop where
  each : ∀ t ∈ T, s ≤ t.1 ∧ ∃ a, IsStretch st ino e t.1 t.2 a
  apart : T.Pairwise fun t t' => t.1 + t.2 ≤ t'.1

/-- From `s` on the loop returns, with a call for each stretch, and the
stretches are all that is mapped up to `e`. -/
def FlushesFrom (st : State al) (ino e s : Nat) : Prop :=
  ∃ R T, Stretches st ino e s T ∧
    (∀ x, s ≤ x → x < e → InPage st ino x → ∃ t ∈ T, t.1 ≤ x ∧ x < t.1 + t.2) ∧
    ∀ rounds, R ≤ rounds → ∀ calls,
      fsyncLoop st ino e rounds s calls = some (0, calls ++ T.map (callOf st ino))

/-- Nothing is mapped up to the end. -/
theorem flushesFrom_of_none (hjump : jumpHole st ino e s = none)
    (hfree : ∀ x, s ≤ x → x < e → ¬ InPage st ino x) : FlushesFrom st ino e s := by
  refine ⟨1, [], ⟨by simp, List.Pairwise.nil⟩, ?_, ?_⟩
  · intro x h1 h2 h3
    exact absurd h3 (hfree x h1 h2)
  intro rounds hR calls
  obtain ⟨k, rfl⟩ := Nat.exists_eq_add_of_le' hR
  simp [fsyncLoop, hjump]

section

variable (h : SyncFile st ino)
include h

/-- One round of the loop. -/
theorem SyncFile.round (hjump : jumpHole st ino end_ s = some (a, s'))
    (ha : (st.info ino).tree.get (s' / PAGE_SIZE) = some a) (hs'e : s' < e)
    (hgap : ulongOfInt (end_ - s') = e - s') (hs' : 64 ∣ s') (he : 64 ∣ e) :
    ∃ nr, IsStretch st ino e s' nr a ∧ ∀ rounds calls, fsyncLoop st ino end_ (rounds + 1) s calls =
        if ((s' + nr : Nat) : Int) < end_
        then fsyncLoop st ino end_ rounds (s' + nr) (calls ++ [callOf st ino (s', nr)])
        else some (0, calls ++ [callOf st ino (s', nr)]) := by
  have hst := h.stretch ha hs'e hgap hs' he
  have hin : outside st.nv a (s' / PAGE_SIZE) = false := by
    obtain ⟨h1, h2⟩ := h.within _ a ha
    simp only [outside, Bool.or_eq_false_iff, decide_eq_false_iff_not]
    omega
  refine ⟨_, hst, ?_⟩
  intro rounds calls
  simp only [fsyncLoop, hjump, hin, Bool.false_eq_true, if_false, flushAt_eq ha hst.pos_lt]

/-- A round and those behind it. -/
theorem SyncFile.flushesFrom_of_some (he : 64 ∣ e) (hloff : e < 2 ^ 63)
    (hjump : jumpHole st ino e s = some (a, s')) (hle : s ≤ s') (hs'e : s' < e) (hs' : 64 ∣ s')
    (ha : (st.info ino).tree.get (s' / PAGE_SIZE) = some a)
    (hfree : ∀ x, s ≤ x → x < s' → ¬ InPage st ino x)
    (hrest : ∀ u, s < u → u < e → 64 ∣ u → FlushesFrom st ino e u) : FlushesFrom st ino e s := by
  have hgap : ulongOfInt ((e : Int) - s') = e - s' := by
    unfold ulongOfInt
    omega
  obtain ⟨nr, hst, hround⟩ := h.round hjump ha hs'e hgap hs' he
  have hpos := hst.pos_lt
  -- the stretches behind this one
  obtain ⟨R, T, hT, hcov, hrun⟩ : ∃ R T, Stretches st ino e (s' + nr) T ∧
      (∀ x, s' + nr ≤ x → x < e → InPage st ino x → ∃ t ∈ T, t.1 ≤ x ∧ x < t.1 + t.2) ∧
      ∀ rounds, R ≤ rounds → ∀ calls, fsyncLoop st ino e (rounds + 1) s calls
        = some (0, calls ++ callOf st ino (s', nr) :: T.map (callOf st ino)) := by
    by_cases hmore : s' + nr < e
    · obtain ⟨R, T, hT, hcov, hrun⟩ := hrest (s' + nr) (by omega) hmore
        ((Nat.dvd_add_right hs').2 hst.lines.2)
      refine ⟨R, T, hT, hcov, fun rounds hR calls => ?_⟩
      rw [hround, if_pos (by omega), hrun _ hR]
      simp
    refine ⟨0, [], ⟨by simp, List.Pairwise.nil⟩, fun x h1 h2 => by omega, ?_⟩
    intro rounds _ calls
    rw [hround, if_neg (by omega)]
    rfl
  refine ⟨R + 1, (s', nr) :: T, ⟨?_, ?_⟩, ?_, ?_⟩
  · intro t ht
    rcases mem_cons.1 ht with rfl | ht
    · exact ⟨hle, a, hst⟩
    · obtain ⟨h1, h2⟩ := hT.each t ht
      exact ⟨by omega, h2⟩
  · exact pairwise_cons.2 ⟨fun t ht => (hT.each t ht).1, hT.apart⟩
  · intro x h1 h2 h3
    rcases Nat.lt_or_ge x s' with hx | hx
    · exact absurd h3 (hfree x h1 hx)
    rcases Nat.lt_or_ge x (s' + nr) with hx' | hx'
    · exact ⟨(s', nr), mem_cons_self, hx, hx'⟩
    · obtain ⟨t, ht, h4⟩ := hcov x hx' h2 h3
      exact ⟨t, mem_cons_of_mem _ ht, h4⟩
  intro rounds hR calls
  obtain ⟨k, rfl⟩ := Nat.exists_eq_add_of_le' hR
  exact hrun _ (Nat.le_add_left _ _) calls

/-- The loop flushes every mapped byte. -/
theorem fsyncLoop_spec (he : 64 ∣ e) (hloff : e < 2 ^ 63) (hse : s < e)
    (hs : 64 ∣ s) : FlushesFrom st ino e s := by
  -- on the bytes left
  induction hn : e - s using Nat.strong_induction_on generalizing s with
  | _ n ih =>
    have hrest : ∀ u, s < u → u < e → 64 ∣ u → FlushesFrom st ino e u := by
      intro u h1 h2 h3
      exact ih (e - u) (by omega) h2 h3 rfl
    cases ha : (st.info ino).tree.get (s / PAGE_SIZE) with
    | some a =>
      apply h.flushesFrom_of_some he hloff (by simp [jumpHole, novaGetWriteEntry, ha])
        le_rfl hse hs ha _ hrest
      intro x h1 h2
      omega
    | none =>
      cases hg : (st.info ino).tree.gangLookup (s / PAGE_SIZE) with
      | none =>
        apply flushesFrom_of_none (by simp [jumpHole, novaGetWriteEntry, ha, hg])
        intro x h1 _ h3
        exact h3 (Radix.gangLookup_eq_none hg (Nat.div_le_div_right h1))
      | some a =>
        obtain ⟨h1, h2, h3⟩ := h.jump ha hg
        have hfree : ∀ x, s ≤ x → x < (entryAt st.nv a).pgoff * PAGE_SIZE → ¬ InPage st ino x := by
          intro x hx hx' hmap
          exact hmap (h3 _ (Nat.div_le_div_right hx) (Nat.div_lt_of_lt_mul (by rwa [Nat.mul_comm])))
        by_cases hout : (((entryAt st.nv a).pgoff * PAGE_SIZE : Nat) : Int) ≥ (e : Int)
        · apply flushesFrom_of_none
          · simp only [jumpHole, novaGetWriteEntry, ha, hg, if_pos hout]
          · intro x hx hx'
            exact hfree x hx (by omega)
        have hjump : jumpHole st ino (e : Int) s
            = some (a, (entryAt st.nv a).pgoff * PAGE_SIZE) := by
          simp only [jumpHole, novaGetWriteEntry, ha, hg, if_neg hout]
        refine h.flushesFrom_of_some he hloff hjump
          (Nat.lt_mul_of_div_lt h1 (by decide)).le (by omega)
          (Dvd.dvd.mul_left (by decide) _) ?_ hfree hrest
        rw [Nat.mul_div_cancel _ (by decide)]
        exact h2

/-- The loop with a wrapped end. -/
theorem fsyncLoop_wrapped (hs : s < 2 ^ 63) (hs64 : 64 ∣ s) : ∃ T, Stretches st ino (2 ^ 63) s T ∧
      (∀ x, s ≤ x → ((∃ t ∈ T, t.1 ≤ x ∧ x < t.1 + t.2) ↔
        ∃ a, (st.info ino).tree.get (s / PAGE_SIZE) = some a ∧ x < stretchEnd st.nv (2 ^ 63) a s)) ∧
      ∀ rounds, 1 ≤ rounds → ∀ calls, fsyncLoop st ino (-2 ^ 63) rounds s calls
          = some (0, calls ++ T.map (callOf st ino)) := by
  cases ha : (st.info ino).tree.get (s / PAGE_SIZE) with
  | none =>
    have hjump : jumpHole st ino (-2 ^ 63) s = none := by
      simp only [jumpHole, novaGetWriteEntry, ha]
      cases (st.info ino).tree.gangLookup (s / PAGE_SIZE) with
      | none => rfl
      | some a =>
        simp only
        rw [if_pos (by omega)]
    refine ⟨[], ⟨by simp, List.Pairwise.nil⟩, by simp, ?_⟩
    intro rounds hR calls
    obtain ⟨k, rfl⟩ := Nat.exists_eq_add_of_le' hR
    simp only [fsyncLoop, hjump]
    simp
  | some a =>
    have hgap : ulongOfInt ((-2 ^ 63 : Int) - s) = 2 ^ 63 - s := by
      unfold ulongOfInt
      omega
    have hjump : jumpHole st ino (-2 ^ 63) s = some (a, s) := by
      simp [jumpHole, novaGetWriteEntry, ha]
    obtain ⟨nr, hst, hround⟩ := h.round hjump ha hs hgap hs64 (by decide)
    refine ⟨[(s, nr)], ⟨?_, pairwise_singleton _ _⟩, ?_, ?_⟩
    · intro t ht
      rw [mem_singleton.1 ht]
      exact ⟨le_rfl, a, hst⟩
    · intro x hx
      simp [hst.stop, hx]
    intro rounds hR calls
    obtain ⟨k, rfl⟩ := Nat.exists_eq_add_of_le' hR
    rw [hround]
    rfl

-- === what is covered

/-- Addresses in a stretch. -/
theorem SyncFile.addressOf_stretch {pos : Nat}
    (hst : IsStretch st ino e pos nr a) (h1 : pos ≤ x) (h2 : x < pos + nr) :
    addressOf st ino pos + (x - pos) = addressOf st ino x := by
  have hpos := hst.one pos le_rfl (by omega)
  obtain ⟨hle, -⟩ := h.within _ a hpos
  simp only [addressOf, hpos, hst.one x h1 h2, getNvmm]
  simp only [PAGE_SIZE] at *
  omega

end

/-- An aligned number. -/
theorem cachelineUp_of_dvd {n : Nat} (h : 64 ∣ n) : cachelineUp n = n := by
  simp only [cachelineUp, CACHELINE_SIZE]
  omega

/-- What a call flushes of its stretch. -/
theorem SyncFile.callOf_covers_iff (h : SyncFile st ino) {t : Nat × Nat}
    (hst : IsStretch st ino e t.1 t.2 a) :
    (callOf st ino t).Covers st ino x ↔ t.1 ≤ x ∧ x < t.1 + t.2 % 2 ^ 32 := by
  have hdvd : 64 ∣ t.2 % 2 ^ 32 := (Nat.dvd_mod_iff (by decide)).2 hst.lines.2
  simp only [FlushCall.Covers, callOf, cachelineUp_of_dvd hdvd]
  constructor
  · rintro ⟨h1, h2, -⟩
    exact ⟨h1, h2⟩
  rintro ⟨h1, h2⟩
  exact ⟨h1, h2, h.addressOf_stretch hst h1 (by omega)⟩

/-- Every mapped byte of the range is covered if and only if each lies in
a stretch and no stretch has 2^32 bytes or more. -/
theorem SyncFile.covered_iff (h : SyncFile st ino) (hT : Stretches st ino e (cachelineDown start) T)
    (hstop : e < stop + 64) :
    (∀ x, start ≤ x → x < stop → InPage st ino x → ∃ c ∈ T.map (callOf st ino), c.Covers st ino x) ↔
    (∀ x, start ≤ x → x < stop → InPage st ino x → ∃ t ∈ T, t.1 ≤ x ∧ x < t.1 + t.2) ∧
      ∀ t ∈ T, t.2 < 2 ^ 32 := by
  have hmem : ∀ x, (∃ c ∈ T.map (callOf st ino), c.Covers st ino x) ↔
      ∃ t ∈ T, t.1 ≤ x ∧ x < t.1 + t.2 % 2 ^ 32 := by
    intro x
    constructor
    · rintro ⟨c, hc, hx⟩
      obtain ⟨t, ht, rfl⟩ := List.mem_map.1 hc
      obtain ⟨-, a, hst⟩ := hT.each t ht
      exact ⟨t, ht, (h.callOf_covers_iff hst).1 hx⟩
    rintro ⟨t, ht, hx⟩
    obtain ⟨-, a, hst⟩ := hT.each t ht
    exact ⟨_, List.mem_map.2 ⟨t, ht, rfl⟩, (h.callOf_covers_iff hst).2 hx⟩
  simp only [hmem]
  constructor
  · intro hcov
    constructor
    · intro x h1 h2 h3
      obtain ⟨t, ht, h4, h5⟩ := hcov x h1 h2 h3
      exact ⟨t, ht, h4, by omega⟩
    intro t ht
    by_contra hlong
    obtain ⟨hs, a, hst⟩ := hT.each t ht
    -- a byte of the stretch that only its own call could cover
    have hend : t.1 + t.2 ≤ e := by
      rw [hst.stop]
      exact Nat.min_le_left _ _
    have hdown : start < cachelineDown start + 64 := by
      simp only [cachelineDown, CACHELINE_SIZE]
      omega
    have hmap : InPage st ino (t.1 + t.2 - 64) := by
      rw [InPage, hst.one _ (by omega) (by omega)]
      simp
    obtain ⟨t', ht', h4, h5⟩ := hcov (t.1 + t.2 - 64) (by omega) (by omega) hmap
    rcases eq_or_ne t' t with rfl | hne
    · omega
    have hap : t.1 + t.2 ≤ t'.1 ∨ t'.1 + t'.2 ≤ t.1 := by
      rcases List.Pairwise.forall_of_forall_of_flip (R := fun u v =>
        u ≠ v → u.1 + u.2 ≤ v.1 ∨ v.1 + v.2 ≤ u.1) (fun u _ hu => absurd rfl hu)
        (hT.apart.imp fun huv _ => .inl huv) (hT.apart.imp fun huv _ => .inr huv)
        ht ht' hne.symm with hab | hab
      · exact .inl hab
      · exact .inr hab
    omega
  · rintro ⟨hcov, hshort⟩ x h1 h2 h3
    obtain ⟨t, ht, h4, h5⟩ := hcov x h1 h2 h3
    exact ⟨t, ht, h4, by rwa [Nat.mod_eq_of_lt (hshort t ht)]⟩

/-- The end of the range in the file. -/
def rangeEnd (st : State al) (ino end_ : Nat) : Nat := min (end_ + 1) (st.info ino).iSize

/-- Of an entry that has all its pages, less than 4 GiB lie in the range
(rounded to cache lines). -/
def ShortRuns (st : State al) (ino start stop : Nat) : Prop :=
  ∀ p a, (st.info ino).tree.get p = some a → st.nv.invalid a = 0 →
    min (cachelineUp stop) (((entryAt st.nv a).pgoff + (entryAt st.nv a).numPages) * PAGE_SIZE)
      - max (cachelineDown start) ((entryAt st.nv a).pgoff * PAGE_SIZE) < 2 ^ 32

/-- The end of the range, rounded up, is a `loff_t`, or all that is mapped
in the range lies in its first stretch. -/
def InReach (st : State al) (ino start stop : Nat) : Prop :=
  cachelineUp stop < 2 ^ 63 ∨ ∀ x, start ≤ x → x < stop → InPage st ino x →
    ∃ a, (st.info ino).tree.get (cachelineDown start / PAGE_SIZE) = some a ∧
      x < stretchEnd st.nv (cachelineUp stop) a (cachelineDown start)

/-- `nova_fsync` on a mapped file returns, and either the range is empty or
every byte of it in a mapped page is flushed where it is now. -/
def FlushesAll (st : State al) (ino start end_ : Nat) : Prop :=
  ∃ R, ∀ rounds, R ≤ rounds → ∃ ret calls,
    novaFsync st ino true start end_ rounds = some (ret, calls) ∧
      ((ret = -ENODATA ∧ rangeEnd st ino end_ ≤ start) ∨
        ∀ x, start ≤ x → x < rangeEnd st ino end_ → InPage st ino x →
          ∃ c ∈ calls, c.Covers st ino x)

/-- Up to the next line. -/
theorem cachelineUp_bounds (n : Nat) :
    n ≤ cachelineUp n ∧ cachelineUp n < n + 64 ∧ 64 ∣ cachelineUp n := by
  simp only [cachelineUp, CACHELINE_SIZE]
  refine ⟨by omega, by omega, ⟨(n + 64 - 1) / 64, by omega⟩⟩

/-- Down to the line. -/
theorem cachelineDown_bounds (n : Nat) :
    cachelineDown n ≤ n ∧ n < cachelineDown n + 64 ∧ 64 ∣ cachelineDown n := by
  simp only [cachelineDown, CACHELINE_SIZE]
  refine ⟨by omega, by omega, ⟨n / 64, by omega⟩⟩

/-- When all stretches are short. -/
theorem SyncFile.short_iff (h : SyncFile st ino)
    (hT : Stretches st ino (cachelineUp stop) (cachelineDown start) T)
    (hcov : ∀ x, start ≤ x → x < stop → InPage st ino x → ∃ t ∈ T, t.1 ≤ x ∧ x < t.1 + t.2) :
    (∀ t ∈ T, t.2 < 2 ^ 32) ↔ ShortRuns st ino start stop := by
  obtain ⟨hd1, hd2, hd3⟩ := cachelineDown_bounds start
  obtain ⟨hu1, hu2, hu3⟩ := cachelineUp_bounds stop
  constructor
  · intro hshort p a hp hinv
    by_contra hlong
    -- the first byte of the entry in the range, and the stretch it is in
    have hpage : InPage st ino (max start ((entryAt st.nv a).pgoff * PAGE_SIZE)) ∧
        (st.info ino).tree.get (max start ((entryAt st.nv a).pgoff * PAGE_SIZE) / PAGE_SIZE)
          = some a := by
      have hget : (st.info ino).tree.get
          (max start ((entryAt st.nv a).pgoff * PAGE_SIZE) / PAGE_SIZE) = some a := by
        apply h.full hp hinv
        · simp only [PAGE_SIZE] at *
          omega
        · simp only [PAGE_SIZE] at *
          omega
      exact ⟨by rw [InPage, hget]; simp, hget⟩
    obtain ⟨t, ht, h1, h2⟩ := hcov _ (le_max_left _ _) (by omega) hpage.1
    obtain ⟨hs, b, hst⟩ := hT.each t ht
    have hab : a = b := by
      have := hst.one _ h1 h2
      rw [hpage.2, Option.some.injEq] at this
      exact this
    have hstop := hst.stop
    rw [stretchEnd, ← hab, if_pos hinv] at hstop
    have hlt := hshort t ht
    obtain ⟨m, hm⟩ := hst.lines.1
    omega
  intro hshort t ht
  obtain ⟨hs, a, hst⟩ := hT.each t ht
  have hpos := hst.pos_lt
  have hget := hst.one t.1 le_rfl (by omega)
  obtain ⟨h1, h2⟩ := h.within _ a hget
  have hstop := hst.stop
  by_cases hinv : st.nv.invalid a = 0
  · have hrun := hshort _ a hget hinv
    rw [stretchEnd, if_pos hinv] at hstop
    simp only [PAGE_SIZE] at *
    omega
  rw [stretchEnd, if_neg hinv] at hstop
  simp only [PAGE_SIZE] at *
  omega

/-- The end, as the code computes it. -/
theorem stop_eq (st : State al) (ino end_ : Nat) :
    (if end_ + 1 > (st.info ino).iSize then (st.info ino).iSize else end_ + 1)
      = rangeEnd st ino end_ := by
  unfold rangeEnd
  split <;> omega

/-- An empty range. -/
theorem novaFsync_of_empty {end_ : Nat} (h : rangeEnd st ino end_ ≤ start) (rounds : Nat) :
    novaFsync st ino true start end_ rounds = some (-ENODATA, []) := by
  have hno : (st.info ino).iSize = 0 ∨ start ≥ rangeEnd st ino end_ := .inr h
  simp only [novaFsync, Bool.not_true, Bool.false_eq_true, if_false, stop_eq, if_pos hno]

/-- A range of some bytes. -/
theorem novaFsync_of_range {end_ : Nat} (h : start < rangeEnd st ino end_) (rounds : Nat) :
    novaFsync st ino true start end_ rounds
      = fsyncLoop st ino (cachelineAlign (rangeEnd st ino end_)) rounds
        (cachelineDown start) [] := by
  have hle : rangeEnd st ino end_ ≤ (st.info ino).iSize := Nat.min_le_right _ _
  have hno : ¬ ((st.info ino).iSize = 0 ∨ start ≥ rangeEnd st ino end_) := by omega
  simp only [novaFsync, Bool.not_true, Bool.false_eq_true, if_false, stop_eq, if_neg hno]

/-- An end that does not wrap. -/
theorem cachelineAlign_of_lt (h : cachelineUp stop < 2 ^ 63) :
    cachelineAlign stop = (cachelineUp stop : Nat) := by
  unfold cachelineAlign loffT
  rw [Int.bmod_def]
  split <;> omega

/-- An end that wraps. -/
theorem cachelineAlign_wrapped (h : cachelineUp stop = 2 ^ 63) : cachelineAlign stop = -2 ^ 63 := by
  unfold cachelineAlign loffT
  rw [h]
  decide

/-- The call returns. -/
theorem SyncFile.returns (h : SyncFile st ino) (hsize : (st.info ino).iSize < 2 ^ 63)
    (mapped : Bool) (start end_ : Nat) :
    ∃ R, ∀ rounds, R ≤ rounds → novaFsync st ino mapped start end_ rounds ≠ none := by
  cases mapped with
  | false => exact ⟨0, fun _ _ => by simp [novaFsync]⟩
  | true =>
    have hle : rangeEnd st ino end_ ≤ (st.info ino).iSize := Nat.min_le_right _ _
    by_cases hempty : rangeEnd st ino end_ ≤ start
    · exact ⟨0, fun rounds _ => by simp [novaFsync_of_empty hempty]⟩
    obtain ⟨hd1, hd2, hd3⟩ := cachelineDown_bounds start
    obtain ⟨hu1, hu2, hu3⟩ := cachelineUp_bounds (rangeEnd st ino end_)
    by_cases hloff : cachelineUp (rangeEnd st ino end_) < 2 ^ 63
    · obtain ⟨R, T, -, -, hrun⟩ := fsyncLoop_spec h hu3 hloff (by omega) hd3
      refine ⟨R, fun rounds hR => ?_⟩
      rw [novaFsync_of_range (by omega), cachelineAlign_of_lt hloff, hrun rounds hR]
      simp
    obtain ⟨T, -, -, hrun⟩ := fsyncLoop_wrapped h (s := cachelineDown start) (by omega) hd3
    refine ⟨1, fun rounds hR => ?_⟩
    rw [novaFsync_of_range (by omega), cachelineAlign_wrapped (by omega), hrun rounds hR]
    simp

/-- `nova_fsync` flushes every mapped byte of the range if and only if the
range is empty, or no call is for 4 GiB or more and the rounded end is in
reach. -/
theorem fsync_flushes_iff (h : SyncFile st ino) (start end_ : Nat)
    (hsize : (st.info ino).iSize < 2 ^ 63) :
    FlushesAll st ino start end_ ↔ rangeEnd st ino end_ ≤ start ∨
        (ShortRuns st ino start (rangeEnd st ino end_) ∧
          InReach st ino start (rangeEnd st ino end_)) := by
  have hle : rangeEnd st ino end_ ≤ (st.info ino).iSize := Nat.min_le_right _ _
  have hnoData : rangeEnd st ino end_ ≤ start → ∀ rounds,
      novaFsync st ino true start end_ rounds = some (-ENODATA, []) := novaFsync_of_empty
  have hcall : start < rangeEnd st ino end_ → ∀ rounds,
      novaFsync st ino true start end_ rounds = fsyncLoop st ino
        (cachelineAlign (rangeEnd st ino end_)) rounds (cachelineDown start) [] :=
    novaFsync_of_range
  generalize hstop : rangeEnd st ino end_ = stop at *
  by_cases hempty : stop ≤ start
  · -- -ENODATA
    refine iff_of_true ⟨0, fun rounds _ => ⟨-ENODATA, [], hnoData hempty rounds,
      .inl ⟨rfl, ?_⟩⟩⟩ (.inl hempty)
    rw [hstop]
    exact hempty
  obtain ⟨hd1, hd2, hd3⟩ := cachelineDown_bounds start
  obtain ⟨hu1, hu2, hu3⟩ := cachelineUp_bounds stop
  have hcall := hcall (Nat.lt_of_not_le hempty)
  -- with the calls known, it is a matter of what they cover
  have hreduce : ∀ (T : List (Nat × Nat)) (R : Nat), (∀ rounds, R ≤ rounds →
      novaFsync st ino true start end_ rounds = some (0, T.map (callOf st ino))) →
      (FlushesAll st ino start end_ ↔ ∀ x, start ≤ x → x < stop → InPage st ino x →
        ∃ c ∈ T.map (callOf st ino), c.Covers st ino x) := by
    intro T R hrun
    constructor
    · rintro ⟨R', hall⟩
      obtain ⟨ret, calls, hres, hcov⟩ := hall (max R R') (le_max_right _ _)
      rw [hrun _ (le_max_left _ _), Option.some.injEq, Prod.mk.injEq] at hres
      rw [hstop, ← hres.2] at hcov
      rcases hcov with ⟨-, hcon⟩ | hcov
      · exact absurd hcon hempty
      · exact hcov
    intro hcov
    refine ⟨R, fun rounds hR => ⟨0, _, hrun rounds hR, .inr ?_⟩⟩
    rw [hstop]
    exact hcov
  simp only [hempty, false_or]
  by_cases hloff : cachelineUp stop < 2 ^ 63
  · have halign := cachelineAlign_of_lt hloff
    obtain ⟨R, T, hT, hcov, hrun⟩ := fsyncLoop_spec h hu3 hloff (by omega) hd3
    rw [hreduce T R fun rounds hR => by
        rw [hcall, halign, hrun rounds hR, nil_append], h.covered_iff hT hu2]
    have hin : ∀ x, start ≤ x → x < stop → InPage st ino x → ∃ t ∈ T, t.1 ≤ x ∧ x < t.1 + t.2 := by
      intro x h1 h2 h3
      exact hcov x (by omega) (by omega) h3
    rw [h.short_iff hT hin]
    constructor
    · intro hboth
      exact ⟨hboth.2, .inl hloff⟩
    · intro hboth
      exact ⟨hin, hboth.1⟩
  have hup : cachelineUp stop = 2 ^ 63 := by omega
  have halign := cachelineAlign_wrapped hup
  obtain ⟨T, hT, hfirst, hrun⟩ := fsyncLoop_wrapped h (s := cachelineDown start)
    (by omega) hd3
  rw [hreduce T 1 fun rounds hR => by
      rw [hcall, halign, hrun rounds hR, nil_append],
    h.covered_iff (e := 2 ^ 63) hT (by omega)]
  have hreach : InReach st ino start stop ↔ ∀ x, start ≤ x → x < stop → InPage st ino x →
      ∃ t ∈ T, t.1 ≤ x ∧ x < t.1 + t.2 := by
    unfold InReach
    simp only [hloff, false_or]
    constructor
    · intro hall x h1 h2 h3
      rw [hfirst x (by omega), ← hup]
      exact hall x h1 h2 h3
    intro hall x h1 h2 h3
    rw [hup, ← hfirst x (by omega)]
    exact hall x h1 h2 h3
  rw [← hreach]
  rw [← hup] at hT
  constructor
  · intro hboth
    exact ⟨(h.short_iff hT (hreach.1 hboth.1)).1 hboth.2, hboth.1⟩
  · intro hboth
    exact ⟨hboth.2, (h.short_iff hT (hreach.1 hboth.2)).2 hboth.1⟩

/-- A file with one page. -/
theorem onePage_sync (p size : Nat) : SyncFile (onePage p size) 5 := by
  have hget : ∀ q a, ((onePage p size).info 5).tree.get q = some a → q = p ∧ a = 4096 := by
    intro q a hq
    have hqp : q = p := onePage_mapped.1 (by rw [Seek.Mapped, hq]; rfl)
    refine ⟨hqp, ?_⟩
    rw [hqp] at hq
    simpa [onePage] using hq.symm
  refine ⟨?_, ?_, ?_⟩
  · intro q a hq
    rw [(hget q a hq).1]
    exact ⟨le_refl p, Nat.lt_succ_self p⟩
  · intro q a hq r h1 h2
    have hr : r = p := by
      rw [(hget q a hq).1] at h2
      exact Nat.le_antisymm h2 h1
    rw [hr]
    simp [onePage]
  intro q a hq
  rw [(hget q a hq).2]
  have hself : ((onePage p size).info 5).tree.get p = some 4096 := by simp [onePage]
  show 0 + mapped ((onePage p size).info 5).tree.get 4096 p (p + 1) = 1
  rw [mapped_first _ _ (Nat.lt_succ_self p), if_pos hself, mapped_empty _ _ le_rfl]

/-- One page behind a hole. -/
theorem fsync_flushes_iff_small :
    SyncFile (onePage 2 16384) 5 ∧ FlushesAll (onePage 2 16384) 5 100 (2 ^ 63 - 1) := by
  have hfile := onePage_sync 2 16384
  refine ⟨hfile, (fsync_flushes_iff hfile 100 (2 ^ 63 - 1) (by decide)).2 (.inr ⟨?_, ?_⟩)⟩
  · intro p a _ _
    have hend : cachelineUp (rangeEnd (onePage 2 16384) 5 (2 ^ 63 - 1)) = 16384 := by decide
    rw [hend]
    omega
  · exact .inl (by decide)

/-- A file of the largest size, one page behind a hole, and `fsync` of all
of it: nothing is flushed. -/
theorem fsync_largest_file :
    SyncFile (onePage 1 (2 ^ 63 - 1)) 5 ∧
      (∀ rounds, novaFsync (onePage 1 (2 ^ 63 - 1)) 5 true 0 (2 ^ 63 - 1) (rounds + 1)
        = some (0, [])) ∧ ¬ FlushesAll (onePage 1 (2 ^ 63 - 1)) 5 0 (2 ^ 63 - 1) := by
  have hrun : ∀ rounds, novaFsync (onePage 1 (2 ^ 63 - 1)) 5 true 0 (2 ^ 63 - 1) (rounds + 1)
      = some (0, []) := by
    intro rounds
    rfl
  refine ⟨onePage_sync _ _, hrun, ?_⟩
  rintro ⟨R, hall⟩
  obtain ⟨ret, calls, hres, hcov⟩ := hall (R + 1) (Nat.le_succ R)
  rw [hrun, Option.some.injEq, Prod.mk.injEq] at hres
  rcases hcov with ⟨-, hcon⟩ | hcov
  · exact absurd hcon (by decide)
  have hmap : InPage (onePage 1 (2 ^ 63 - 1)) 5 4096 := by
    intro hnone
    cases hnone
  obtain ⟨c, hc, -⟩ := hcov 4096 (by decide) (by decide) hmap
  rw [← hres.2] at hc
  cases hc

end Themis.Fsync
