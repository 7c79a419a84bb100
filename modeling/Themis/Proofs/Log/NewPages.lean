/-
New log pages: `nova_allocate_inode_log_pages` returns the first page of
a chain of pages nobody used, linked in the order the runs of blocks
came from the allocator, and touches no memory but their links.
-/
import Themis.Proofs.Log.Pages

namespace Themis.Log

open Lib List

variable {al : BlockAllocator}
variable {k b num : Nat} {st st1 : State al}

attribute [local simp] Nvmm.apply

-- === frames

/-- Only the links of the pages `N` (and the allocator) differ. -/
structure LinksOnly (N : List Nat) (st st' : State al) : Prop where
  slot : st'.nv.slot = st.nv.slot
  invalid : st'.nv.invalid = st.nv.invalid
  logHead : st'.nv.logHead = st.nv.logHead
  logTail : st'.nv.logTail = st.nv.logTail
  record : st'.nv.record = st.nv.record
  data : st'.data = st.data
  info : st'.info = st.info
  next : ∀ p, p ∉ N → st'.nv.next p = st.nv.next p

namespace LinksOnly

variable {N M : List Nat} {st st' st'' : State al}

/-- Nothing was done. -/
theorem refl (st : State al) : LinksOnly N st st :=
  ⟨rfl, rfl, rfl, rfl, rfl, rfl, rfl, fun _ _ => rfl⟩

/-- Links of `N`, then of `M`. -/
theorem trans (h : LinksOnly N st st') (h' : LinksOnly M st' st'') :
    LinksOnly (N ++ M) st st'' where
  slot := h'.slot.trans h.slot
  invalid := h'.invalid.trans h.invalid
  logHead := h'.logHead.trans h.logHead
  logTail := h'.logTail.trans h.logTail
  record := h'.record.trans h.record
  data := h'.data.trans h.data
  info := h'.info.trans h.info
  next p hp := by
    rw [mem_append, not_or] at hp
    rw [h'.next p hp.2, h.next p hp.1]

/-- A longer list of pages. -/
theorem mono (h : LinksOnly N st st') (hNM : ∀ p ∈ N, p ∈ M) : LinksOnly M st st' :=
  { h with next := fun p hp => h.next p fun hpN => hp (hNM p hpN) }

/-- A link is stored. -/
theorem setNext (st : State al) (page q : Nat) (b : Bool) :
    LinksOnly [page] st (novaSetNextPageAddress st page q b) := by
  refine ⟨?_, ?_, ?_, ?_, ?_, ?_, ?_, ?_⟩
  · simp
  · simp
  · simp
  · simp
  · simp
  · simp
  · simp
  intro p hp
  have hne : p ≠ page := by simpa using hp
  simp [hne]

end LinksOnly

-- === runs of pages

/-- Adjacent pages. -/
def pageRun : Nat → Nat → List Nat
  | _, 0 => []
  | page, k + 1 => page :: pageRun (page + PAGE_SIZE) k

/-- The pages of a run. -/
theorem mem_pageRun {page p : Nat} :
    p ∈ pageRun page k ↔ ∃ i, i < k ∧ p = page + i * PAGE_SIZE := by
  induction k generalizing page with
  | zero => simp [pageRun]
  | succ k ih =>
    simp only [pageRun, mem_cons, ih]
    constructor
    · intro h
      rcases h with rfl | ⟨i, hi, rfl⟩
      · exact ⟨0, by omega, by omega⟩
      · exact ⟨i + 1, by omega, by simp only [PAGE_SIZE]; omega⟩
    intro h
    obtain ⟨i, hi, rfl⟩ := h
    cases i with
    | zero => left; omega
    | succ i =>
      right
      exact ⟨i, by omega, by simp only [PAGE_SIZE]; omega⟩

/-- The pages of a run of blocks. -/
theorem mem_blockRun {p : Nat} :
    p ∈ pageRun (b * PAGE_SIZE) k ↔
      p % PAGE_SIZE = 0 ∧ b ≤ p / PAGE_SIZE ∧ p / PAGE_SIZE < b + k := by
  rw [mem_pageRun]
  simp only [PAGE_SIZE]
  constructor
  · intro h
    omega
  · intro h
    exact ⟨p / 4096 - b, by omega, by omega⟩

/-- A run has its length. -/
theorem length_pageRun (page k : Nat) : (pageRun page k).length = k := by
  induction k generalizing page with
  | zero => rfl
  | succ k ih => simp [pageRun, ih]

/-- No page twice. -/
theorem nodup_pageRun (page k : Nat) : (pageRun page k).Nodup := by
  induction k generalizing page with
  | zero => exact nodup_nil
  | succ k ih =>
    refine nodup_cons.2 ⟨?_, ih _⟩
    intro hmem
    obtain ⟨i, -, hi⟩ := mem_pageRun.1 hmem
    simp only [PAGE_SIZE] at hi
    omega

/-- The last page of a run. -/
theorem pageRun_succ (page k : Nat) :
    pageRun page (k + 1) = pageRun page k ++ [page + k * PAGE_SIZE] := by
  induction k generalizing page with
  | zero => simp [pageRun]
  | succ k ih =>
    rw [pageRun, ih (page + PAGE_SIZE), pageRun]
    simp only [cons_append, List.cons.injEq, append_cancel_left_eq, and_true, true_and]
    simp only [PAGE_SIZE]
    omega

-- === coalescing

section

variable (st : State al)

/-- Linking allocates nothing. -/
@[simp] theorem linkRun_alloc (page n : Nat) :
    (linkRun st page n).alloc = st.alloc := by
  induction n generalizing st page with
  | zero => rfl
  | succ n ih => rw [linkRun, ih]; simp

/-- Linking a run links its pages. -/
theorem linkRun_spec (page n : Nat) :
    LinksOnly (pageRun page n) st (linkRun st page n) ∧
      Linked (linkRun st page n).nv.next (pageRun page n) (page + n * PAGE_SIZE) := by
  induction n generalizing st page with
  | zero => exact ⟨LinksOnly.refl st, trivial⟩
  | succ n ih =>
    have hset := LinksOnly.setNext st page (page + PAGE_SIZE) false
    obtain ⟨hlinks, hchain⟩ := ih (novaSetNextPageAddress st page (page + PAGE_SIZE) false)
        (page + PAGE_SIZE)
    have hnot : page ∉ pageRun (page + PAGE_SIZE) n := by
      have := nodup_pageRun page (n + 1)
      exact (nodup_cons.1 this).1
    have hpage := hlinks.next page hnot
    have hstop : page + (n + 1) * PAGE_SIZE = page + PAGE_SIZE + n * PAGE_SIZE := by
      simp only [PAGE_SIZE]
      omega
    refine ⟨hset.trans hlinks, ?_, ?_⟩
    · rw [linkRun, hpage]
      cases n with
      | zero => simp [pageRun]
      | succ n => simp [pageRun]
    · rw [hstop]
      exact hchain

/-- Coalescing allocates nothing. -/
@[simp] theorem novaCoalesceLogPages_alloc (prev first num : Nat) :
    (novaCoalesceLogPages st prev first num).alloc = st.alloc := by
  simp only [novaCoalesceLogPages, novaSetNextPageAddress_alloc, linkRun_alloc]
  split
  · rw [novaSetNextPageAddress_alloc]
  · rfl

/-- A run that ends in 0. -/
theorem coalesceRun_spec (first n : Nat) :
    let st' := novaSetNextPageAddress
      (linkRun st (first * PAGE_SIZE) n)
      (first * PAGE_SIZE + n * PAGE_SIZE) 0 true
    LinksOnly (pageRun (first * PAGE_SIZE) (n + 1)) st st' ∧
      Linked st'.nv.next (pageRun (first * PAGE_SIZE) (n + 1)) 0 := by
  intro st'
  obtain ⟨hlinks, hchain⟩ := linkRun_spec st (first * PAGE_SIZE) n
  have hset := LinksOnly.setNext (linkRun st (first * PAGE_SIZE) n)
    (first * PAGE_SIZE + n * PAGE_SIZE) 0 true
  rw [pageRun_succ]
  refine ⟨hlinks.trans hset, ?_⟩
  have hnodup := nodup_pageRun (first * PAGE_SIZE) (n + 1)
  rw [pageRun_succ, nodup_append] at hnodup
  have hnot : first * PAGE_SIZE + n * PAGE_SIZE ∉ pageRun (first * PAGE_SIZE) n := by
    intro hmem
    exact hnodup.2.2 _ hmem _ mem_cons_self rfl
  rw [Linked.append_iff]
  refine ⟨?_, ?_⟩
  · exact hchain.update_of_notMem hnot
  · simp [st', Linked]

/-- The first run. -/
theorem coalesce_first (first : Nat) (hnum : 0 < num) :
    let st' := novaCoalesceLogPages st 0 first num
    LinksOnly (pageRun (first * PAGE_SIZE) num) st st' ∧
      Linked st'.nv.next (pageRun (first * PAGE_SIZE) num) 0 := by
  have h := coalesceRun_spec st first (num - 1)
  rw [Nat.sub_add_cancel hnum] at h
  simpa [novaCoalesceLogPages] using h

/-- A further run is linked behind the last page. -/
theorem coalesce_next {l : List Nat} {prev first : Nat} (hprev : prev ≠ 0)
    (hnum : 0 < num) (hchain : Linked st.nv.next (l ++ [prev * PAGE_SIZE]) 0)
    (hnodup : (l ++ [prev * PAGE_SIZE] ++ pageRun (first * PAGE_SIZE) num).Nodup) :
    let st' := novaCoalesceLogPages st prev first num
    LinksOnly (prev * PAGE_SIZE :: pageRun (first * PAGE_SIZE) num) st st' ∧
      Linked st'.nv.next (l ++ [prev * PAGE_SIZE] ++ pageRun (first * PAGE_SIZE) num) 0 := by
  intro st'
  have hset := LinksOnly.setNext st (prev * PAGE_SIZE) (first * PAGE_SIZE) false
  obtain ⟨hlinks, hrun⟩ := coalesceRun_spec
    (novaSetNextPageAddress st (prev * PAGE_SIZE) (first * PAGE_SIZE) false)
    first (num - 1)
  rw [Nat.sub_add_cancel hnum] at hlinks hrun
  have hst' : st' = novaSetNextPageAddress
      (linkRun (novaSetNextPageAddress st (prev * PAGE_SIZE)
        (first * PAGE_SIZE) false) (first * PAGE_SIZE) (num - 1))
      (first * PAGE_SIZE + (num - 1) * PAGE_SIZE) 0 true := by
    simp only [st', novaCoalesceLogPages, if_pos hprev]
  rw [← hst'] at hlinks hrun
  refine ⟨hset.trans hlinks, ?_⟩
  rw [nodup_append] at hnodup
  obtain ⟨hleft, -, hdisj⟩ := hnodup
  have hnot : prev * PAGE_SIZE ∉ l := by
    intro hmem
    rw [nodup_append] at hleft
    exact hleft.2.2 _ hmem _ mem_cons_self rfl
  rw [Linked.append_iff]
  refine ⟨?_, hrun⟩
  have hhead : (pageRun (first * PAGE_SIZE) num).headD 0 = first * PAGE_SIZE := by
    obtain ⟨m, rfl⟩ := Nat.exists_eq_add_of_lt hnum
    rfl
  rw [hhead]
  have hlast := hchain.update_last (q := first * PAGE_SIZE) hnot
  apply hlast.congr
  intro p hp
  have hpr : p ∉ pageRun (first * PAGE_SIZE) num := by
    intro hmem
    exact hdisj p hp p hmem rfl
  rw [hlinks.next p hpr]
  simp

end

-- === allocation

/-- The pages `N` are new: linked to each other, unused before and in use
now. -/
structure NewPages (st st' : State al) (N : List Nat) : Prop where
  links : LinksOnly N st st'
  chain : Linked st'.nv.next N 0
  nodup : N.Nodup
  isPage : ∀ p ∈ N, IsPage p
  onDevice : ∀ p ∈ N, p / PAGE_SIZE < al.numBlocks
  fresh : ∀ p ∈ N, ¬ st.InUse (p / PAGE_SIZE)
  inUse : ∀ x, st'.InUse x ↔ st.InUse x ∨ ∃ p ∈ N, p / PAGE_SIZE = x

/-- What an allocation of log blocks gives. -/
theorem novaNewLogBlocks_some (h : novaNewLogBlocks st num = (some (b, k), st1)) :
    0 < k ∧ 0 < b ∧ b + k ≤ al.numBlocks ∧ LinksOnly [] st st1 ∧
      (∀ x, b ≤ x → x < b + k → ¬ st.InUse x) ∧
      ∀ x, st1.InUse x ↔ st.InUse x ∨ (b ≤ x ∧ x < b + k) := by
  simp only [novaNewLogBlocks, Prod.mk.injEq] at h
  obtain ⟨hr, rfl⟩ := h
  have hnew : al.newBlocks st.alloc .log num
      = (some (b, k), (al.newBlocks st.alloc .log num).2) := Prod.ext hr rfl
  obtain ⟨hk, -, hb, hdev, hfresh, hiff⟩ := al.new_some hnew
  exact ⟨hk, hb, hdev, ⟨rfl, rfl, rfl, rfl, rfl, rfl, rfl, fun _ _ => rfl⟩, hfresh, hiff⟩

/-- An allocation that fails changes nothing. -/
theorem novaNewLogBlocks_none (h : novaNewLogBlocks st num = (none, st1)) :
    LinksOnly [] st st1 ∧ ∀ x, st1.InUse x ↔ st.InUse x := by
  simp only [novaNewLogBlocks, Prod.mk.injEq] at h
  obtain ⟨hr, rfl⟩ := h
  have hnew : al.newBlocks st.alloc .log num
      = (none, (al.newBlocks st.alloc .log num).2) := Prod.ext hr rfl
  exact ⟨⟨rfl, rfl, rfl, rfl, rfl, rfl, rfl, fun _ _ => rfl⟩, al.new_none hnew⟩

/-- A run and its last page. -/
theorem blockRun_split (hk : 0 < k) :
    pageRun (b * PAGE_SIZE) k = pageRun (b * PAGE_SIZE) (k - 1) ++ [(b + k - 1) * PAGE_SIZE] := by
  conv_lhs => rw [← Nat.sub_add_cancel hk, pageRun_succ]
  have : b * PAGE_SIZE + (k - 1) * PAGE_SIZE = (b + k - 1) * PAGE_SIZE := by
    simp only [PAGE_SIZE]
    omega
  rw [this]

/-- The blocks of a run of pages. -/
theorem exists_mem_blockRun {x : Nat} :
    (∃ p ∈ pageRun (b * PAGE_SIZE) k, p / PAGE_SIZE = x) ↔ b ≤ x ∧ x < b + k := by
  constructor
  · intro h
    obtain ⟨p, hp, rfl⟩ := h
    exact (mem_blockRun.1 hp).2
  intro h
  refine ⟨x * PAGE_SIZE, mem_blockRun.2 ?_, ?_⟩
  · simp only [PAGE_SIZE]
    omega
  · simp only [PAGE_SIZE]
    omega

/-- The pages of the first run are new. -/
theorem NewPages.first (h : novaNewLogBlocks st num = (some (b, k), st1)) :
    NewPages st (novaCoalesceLogPages st1 0 b k) (pageRun (b * PAGE_SIZE) k) := by
  obtain ⟨hk, hb, hdev, hframe, hfresh, hiff⟩ := novaNewLogBlocks_some h
  obtain ⟨hlinks, hchain⟩ := coalesce_first st1 b hk
  refine ⟨hframe.trans hlinks, hchain, nodup_pageRun _ _, ?_, ?_, ?_, ?_⟩
  · intro p hp
    obtain ⟨h1, h2, -⟩ := mem_blockRun.1 hp
    refine ⟨h1, ?_⟩
    simp only [PAGE_SIZE] at h2
    omega
  · intro p hp
    have := (mem_blockRun.1 hp).2.2
    omega
  · intro p hp
    obtain ⟨-, h1, h2⟩ := mem_blockRun.1 hp
    exact hfresh _ h1 h2
  intro x
  rw [exists_mem_blockRun, State.InUse, novaCoalesceLogPages_alloc]
  exact hiff x

/-- A further run is new as well. -/
theorem NewPages.next {st st1 st₂ : State al} {l : List Nat}
    {prev num b k : Nat} (hN : NewPages st st1 (l ++ [prev * PAGE_SIZE]))
    (h : novaNewLogBlocks st1 num = (some (b, k), st₂)) :
    NewPages st (novaCoalesceLogPages st₂ prev b k)
      (l ++ [prev * PAGE_SIZE] ++ pageRun (b * PAGE_SIZE) k) := by
  obtain ⟨hk, hb, hdev, hframe, hfresh, hiff⟩ := novaNewLogBlocks_some h
  have hmem : prev * PAGE_SIZE ∈ l ++ [prev * PAGE_SIZE] := by simp
  have hprev : prev ≠ 0 := by
    intro h0
    have := (hN.isPage _ hmem).2
    simp [h0] at this
  have hnew : ∀ p ∈ pageRun (b * PAGE_SIZE) k, ¬ st1.InUse (p / PAGE_SIZE) := by
    intro p hp
    obtain ⟨-, h1, h2⟩ := mem_blockRun.1 hp
    exact hfresh _ h1 h2
  have hnodup : (l ++ [prev * PAGE_SIZE] ++ pageRun (b * PAGE_SIZE) k).Nodup := by
    rw [nodup_append]
    refine ⟨hN.nodup, nodup_pageRun _ _, ?_⟩
    intro p hp q hq hpq
    subst hpq
    exact hnew p hq ((hN.inUse _).2 (.inr ⟨p, hp, rfl⟩))
  have hchain₂ : Linked st₂.nv.next (l ++ [prev * PAGE_SIZE]) 0 := by
    apply hN.chain.congr
    intro p _
    exact hframe.next p (not_mem_nil)
  obtain ⟨hlinks, hchain⟩ := coalesce_next st₂ hprev hk hchain₂ hnodup
  refine ⟨(hN.links.trans (hframe.trans hlinks)).mono ?_, hchain, hnodup, ?_, ?_, ?_, ?_⟩
  · intro p hp
    simp only [mem_append, mem_cons, nil_append] at hp ⊢
    tauto
  · intro p hp
    rcases mem_append.1 hp with hp | hp
    · exact hN.isPage p hp
    obtain ⟨h1, h2, -⟩ := mem_blockRun.1 hp
    refine ⟨h1, ?_⟩
    simp only [PAGE_SIZE] at h2
    omega
  · intro p hp
    rcases mem_append.1 hp with hp | hp
    · exact hN.onDevice p hp
    · have := (mem_blockRun.1 hp).2.2
      omega
  · intro p hp hu
    rcases mem_append.1 hp with hp | hp
    · exact hN.fresh p hp hu
    · exact hnew p hp ((hN.inUse _).2 (.inl hu))
  intro x
  have hx := hN.inUse x
  have hrun := exists_mem_blockRun (b := b) (k := k) (x := x)
  rw [State.InUse, novaCoalesceLogPages_alloc]
  simp only [mem_append, or_and_right, exists_or] at hx ⊢
  rw [hrun, ← or_assoc, ← hx]
  exact hiff x

/-- The rounds add new pages to new pages. -/
theorem allocateRest_spec (rounds : Nat) :
    ∀ {st1 : State al} {l : List Nat} (num : Nat) {prev ret : Nat},
      NewPages st st1 (l ++ [prev * PAGE_SIZE]) → (l ++ [prev * PAGE_SIZE]).length = ret →
      ∃ M, NewPages st (allocateRest rounds st1 num prev ret).2 (l ++ [prev * PAGE_SIZE] ++ M) ∧
        (l ++ [prev * PAGE_SIZE] ++ M).length = (allocateRest rounds st1 num prev ret).1 := by
  induction rounds with
  | zero =>
    intro st1 l num prev ret hN hlen
    exact ⟨[], by simpa [allocateRest] using hN, by simpa [allocateRest] using hlen⟩
  | succ rounds ih =>
    intro st1 l num prev ret hN hlen
    rw [allocateRest]
    split
    · exact ⟨[], by simpa using hN, by simpa using hlen⟩
    cases hnew : novaNewLogBlocks st1 num with
    | mk r st₂ =>
      cases r with
      | none =>
        -- the allocator gave out: whatever there is
        obtain ⟨hframe, hiff⟩ := novaNewLogBlocks_none hnew
        refine ⟨[], ?_, by simpa using hlen⟩
        rw [append_nil]
        refine ⟨(hN.links.trans hframe).mono (by simp), ?_, hN.nodup,
          hN.isPage, hN.onDevice, hN.fresh, ?_⟩
        · apply hN.chain.congr
          intro p _
          exact hframe.next p not_mem_nil
        · intro x
          exact (hiff x).trans (hN.inUse x)
      | some bk =>
        obtain ⟨b, k⟩ := bk
        have hk : 0 < k := (novaNewLogBlocks_some hnew).1
        have hnext := hN.next hnew
        -- the run again ends in the page to link from
        have hsplit := blockRun_split (b := b) hk
        rw [hsplit, ← append_assoc] at hnext
        have hlen' : (l ++ [prev * PAGE_SIZE] ++ pageRun (b * PAGE_SIZE) (k - 1)
            ++ [(b + k - 1) * PAGE_SIZE]).length = ret + k := by
          rw [append_assoc, ← hsplit, length_append, hlen, length_pageRun]
        obtain ⟨M, hM, hMlen⟩ := ih (num - k) hnext hlen'
        refine ⟨pageRun (b * PAGE_SIZE) (k - 1) ++ [(b + k - 1) * PAGE_SIZE] ++ M, ?_, ?_⟩
        · simpa [append_assoc] using hM
        · simpa [append_assoc] using hMlen

/-- The pages handed out are new and linked. -/
theorem novaAllocateInodeLogPages_some {st' : State al} {n head : Nat}
    (h : novaAllocateInodeLogPages st num = (some (n, head), st')) :
    ∃ N, NewPages st st' (head :: N) ∧ (head :: N).length = n := by
  unfold novaAllocateInodeLogPages at h
  cases hnew : novaNewLogBlocks st num with
  | mk r st1 =>
    rw [hnew] at h
    cases r with
    | none => cases h
    | some bk =>
      obtain ⟨b, k⟩ := bk
      obtain ⟨⟨rfl, rfl⟩, rfl⟩ := h
      have hk : 0 < k := (novaNewLogBlocks_some hnew).1
      have hfirst := NewPages.first hnew
      have hsplit := blockRun_split (b := b) hk
      have hlen : (pageRun (b * PAGE_SIZE) (k - 1) ++ [(b + k - 1) * PAGE_SIZE]).length = k := by
        rw [← hsplit, length_pageRun]
      rw [hsplit] at hfirst
      obtain ⟨M, hM, hMlen⟩ := allocateRest_spec num (num - k) hfirst hlen
      rw [← hsplit] at hM hMlen
      have hcons : pageRun (b * PAGE_SIZE) k
          = b * PAGE_SIZE :: pageRun (b * PAGE_SIZE + PAGE_SIZE) (k - 1) := by
        conv_lhs => rw [← Nat.sub_add_cancel hk, pageRun]
      rw [hcons] at hM hMlen
      exact ⟨_, hM, hMlen⟩

/-- Without pages nothing changes. -/
theorem novaAllocateInodeLogPages_none {st' : State al}
    (h : novaAllocateInodeLogPages st num = (none, st')) :
    LinksOnly [] st st' ∧ ∀ x, st'.InUse x ↔ st.InUse x := by
  unfold novaAllocateInodeLogPages at h
  cases hnew : novaNewLogBlocks st num with
  | mk r st1 =>
    rw [hnew] at h
    cases r with
    | none =>
      simp only [Prod.mk.injEq, true_and] at h
      subst h
      exact novaNewLogBlocks_none hnew
    | some bk => cases h

end Themis.Log
