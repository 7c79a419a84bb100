/-
The page loop of the fast collector (`nova_inode_log_fast_gc`): the pages
in front of the tail page that hold nothing valid leave the chain, the
others stay in order.

# The loop

`FastAt` describes the loop between two rounds: the dead head page `hd` (if
there is one), the pages `K` kept so far, the pages `todo` still to be
looked at, and the tail page with what follows it (`V`).
-/
import Themis.Proofs.Log.Validity

namespace Themis.Log

open Lib List

variable {al : BlockAllocator}
variable {st₀ : State al} {ino : Nat} {A : List Page} {V : List Nat}

/-- The verdict depends on the entry. -/
theorem entryDead_congr {nv nv' : Nvmm} {sih : InodeInfo} {a : Nat}
    (hs : nv'.slot a = nv.slot a) (hi : nv'.invalid a = nv.invalid a) :
    entryDead nv' sih a = entryDead nv sih a := by
  simp only [entryDead, currLogEntryInvalid, hs, hi]

/-- The loop between two rounds. -/
structure FastAt (st₀ : State al) (ino : Nat) (A : List Page) (V : List Nat)
    (st : State al) (v : FastVars) (hd : List Nat) (K todo : List Page) :
    Prop where
  links : LinksOnly (basesOf A) st₀ st
  pages : (hd ++ basesOf K ++ basesOf todo).Sublist (basesOf A)
  chain : Linked st.nv.next (hd ++ basesOf K ++ (basesOf todo ++ V)) 0
  curr : v.curr = (basesOf todo ++ V).headD 0
  last : ∀ l p, hd ++ basesOf K = l ++ [p] → v.lastPage = p
  head : st₀.nv.logHead ino
    = (hd ++ basesOf K ++ (basesOf todo ++ V)).headD 0
  found : v.foundHead = !K.isEmpty
  possible : K ≠ [] → v.possibleHead = (basesOf K).headD 0
  first : v.firstNeedFree = !hd.isEmpty
  single : hd.length ≤ 1
  inUse : ∀ x, st.InUse x ↔ st₀.InUse x ∧
    (x * PAGE_SIZE ∈ basesOf A →
      x * PAGE_SIZE ∈ hd ++ basesOf K ++ basesOf todo)
  kept : K ++ todo.filter (fun w => !pageDead st₀.nv (st₀.info ino) w)
    = A.filter (fun w => !pageDead st₀.nv (st₀.info ino) w)
  freed : v.freedPages + K.length + todo.length = A.length
  checked : v.checkedPages + todo.length = A.length
  bytes : v.validBytes + liveBytes st₀.nv (st₀.info ino) (entsOf todo)
    = liveBytes st₀.nv (st₀.info ino) (entsOf A)

/-- What the loop finds when it starts: full pages in use in front of the
tail page. -/
structure FastPre (st₀ : State al) (ino : Nat) (A : List Page) (V : List Nat) :
    Prop where
  full : ∀ w ∈ A, w.Sealed st₀.nv
  nodup : (basesOf A ++ V).Nodup
  nonempty : V ≠ []
  isPage : ∀ p ∈ V, IsPage p
  tail : st₀.nv.logTail ino / PAGE_SIZE = V.headD 0 / PAGE_SIZE
  inUse : ∀ p ∈ basesOf A, st₀.InUse (p / PAGE_SIZE)

/-- The last element is one. -/
theorem last_eq {α : Type*} {l m : List α} {p q : α} (h : l ++ [p] = m ++ [q]) : p = q :=
  singleton_inj.mp (append_inj' h rfl).2

namespace FastAt

variable {st₀ st : State al} {ino : Nat} {A K todo : List Page} {V hd : List Nat}
  {v : FastVars} {d : Page}

/-- Live bytes of two lists. -/
theorem liveBytes_append (nv : Nvmm) (sih : InodeInfo) (L M : List Nat) :
    liveBytes nv sih (L ++ M) = liveBytes nv sih L + liveBytes nv sih M := by simp [liveBytes]

/-- The loop starts at the head. -/
theorem init (hchain : Linked st₀.nv.next (basesOf A ++ V) 0)
    (hhead : st₀.nv.logHead ino = (basesOf A ++ V).headD 0) : FastAt st₀ ino A V st₀
      { curr := st₀.nv.logHead ino, lastPage := 0, possibleHead := 0,
        foundHead := false, firstNeedFree := false, checkedPages := 0,
        freedPages := 0, validBytes := 0 } [] [] A where
  links := LinksOnly.refl st₀
  pages := by simp
  chain := by simpa using hchain
  curr := hhead
  last l p h := by simp at h
  head := by simpa using hhead
  found := rfl
  possible h := absurd rfl h
  first := rfl
  single := by simp
  inUse x := by simp
  kept := by simp
  freed := by simp
  checked := by simp
  bytes := by simp

/-- The page at hand is one of the log. -/
theorem mem_todo (h : FastAt st₀ ino A V st v hd K (d :: todo)) : d.base ∈ basesOf A := by
  apply h.pages.subset
  simp

/-- Its link. -/
theorem next_curr (h : FastAt st₀ ino A V st v hd K (d :: todo)) :
    st.nv.next d.base = (basesOf todo ++ V).headD 0 := by
  have hc := h.chain
  rw [Linked.append_iff] at hc
  exact hc.2.1

/-- No page twice. -/
theorem nodup (h : FastAt st₀ ino A V st v hd K todo) (hpre : FastPre st₀ ino A V) :
    (hd ++ basesOf K ++ (basesOf todo ++ V)).Nodup := by
  rw [← append_assoc]
  have hsub : (hd ++ basesOf K ++ basesOf todo ++ V).Sublist (basesOf A ++ V) :=
    List.Sublist.append_right h.pages V
  exact hpre.nodup.sublist hsub

/-- A live page is kept. -/
theorem keep (h : FastAt st₀ ino A V st v hd K (d :: todo))
    (hlive : pageDead st₀.nv (st₀.info ino) d = false) : FastAt st₀ ino A V st
      { fastValid { v with
          validBytes :=
            v.validBytes + liveBytes st₀.nv (st₀.info ino) d.ents } with
        curr := (basesOf todo ++ V).headD 0
        checkedPages := v.checkedPages + 1 } hd (K ++ [d]) todo where
  links := h.links
  pages := by simpa using h.pages
  chain := by simpa using h.chain
  curr := rfl
  last l p hl := by
    have hlast : hd ++ basesOf K ++ [d.base] = l ++ [p] := by simpa [append_assoc] using hl
    exact h.curr.trans (last_eq hlast)
  head := by simpa using h.head
  found := by simp [fastValid]
  possible _ := by
    have hcurr := h.curr
    have hfound := h.found
    cases K with
    | nil => simp [fastValid, hfound, hcurr]
    | cons k K =>
      have hposs := h.possible (by simp)
      simp [fastValid, hfound, hposs]
  first := h.first
  single := h.single
  inUse x := by
    rw [h.inUse x]
    simp
  kept := by
    rw [← h.kept]
    simp [hlive]
  freed := by
    have := h.freed
    simp only [fastValid, length_append, length_cons, length_nil] at *
    omega
  checked := by
    have := h.checked
    simp only [length_cons] at *
    omega
  bytes := by
    have := h.bytes
    simp only [entsOf_cons, liveBytes_append, fastValid] at *
    omega

/-- A dead first page is left for later. -/
theorem dropHead (h : FastAt st₀ ino A V st v [] [] (d :: todo))
    (hdead : pageDead st₀.nv (st₀.info ino) d = true) : FastAt st₀ ino A V st
      { v with
        validBytes := v.validBytes + liveBytes st₀.nv (st₀.info ino) d.ents
        firstNeedFree := true
        lastPage := v.curr
        freedPages := v.freedPages + 1
        curr := (basesOf todo ++ V).headD 0
        checkedPages := v.checkedPages + 1 } [d.base] [] todo where
  links := h.links
  pages := by simpa using h.pages
  chain := by simpa using h.chain
  curr := rfl
  last l p hl := by
    have hlast : ([] : List Nat) ++ [d.base] = l ++ [p] := by simpa using hl
    exact h.curr.trans (last_eq hlast)
  head := by simpa using h.head
  found := h.found
  possible hK := absurd rfl hK
  first := rfl
  single := le_refl 1
  inUse x := by
    rw [h.inUse x]
    simp
  kept := by
    rw [← h.kept]
    simp [hdead]
  freed := by
    have := h.freed
    simp only [length_cons] at *
    omega
  checked := by
    have := h.checked
    simp only [length_cons] at *
    omega
  bytes := by
    have := h.bytes
    simp only [entsOf_cons, liveBytes_append] at *
    omega

/-- A dead page is taken out of the chain. -/
theorem drop (h : FastAt st₀ ino A V st v hd K (d :: todo)) (hpre : FastPre st₀ ino A V)
    (hdead : pageDead st₀.nv (st₀.info ino) d = true)
    {l : List Nat} {p : Nat} (hl : hd ++ basesOf K = l ++ [p]) :
    FastAt st₀ ino A V (freeCurrPage st d.base p)
      { v with
        validBytes := v.validBytes + liveBytes st₀.nv (st₀.info ino) d.ents
        freedPages := v.freedPages + 1
        curr := (basesOf todo ++ V).headD 0
        checkedPages := v.checkedPages + 1 } hd K todo := by
  have hnodup := h.nodup hpre
  have hdA := h.mem_todo
  obtain ⟨w, hw, hwd⟩ := mem_basesOf.1 hdA
  have hdpage : IsPage d.base := hwd ▸ (hpre.full w hw).isPage
  have hpA : p ∈ basesOf A := by
    apply h.pages.subset
    rw [hl]
    simp
  have hsub : (hd ++ basesOf K ++ basesOf todo).Sublist
      (hd ++ basesOf K ++ basesOf (d :: todo)) := by
    apply List.Sublist.append_left
    exact sublist_cons_self _ _
  -- the page at hand occurs once
  have hdnot : d.base ∉ hd ++ basesOf K ++ basesOf todo := by
    intro hmem
    rw [nodup_append] at hnodup
    obtain ⟨-, hright, hdisj⟩ := hnodup
    rcases mem_append.1 hmem with hmem | hmem
    · exact hdisj _ hmem d.base (by simp) rfl
    · simp only [basesOf_cons, cons_append, nodup_cons, mem_append, not_or] at hright
      exact hright.1.1 hmem
  have huse : st.InUse (d.base / PAGE_SIZE) := by
    rw [h.inUse]
    refine ⟨hpre.inUse _ hdA, ?_⟩
    intro _
    rw [div_mul_page hdpage]
    simp
  have hset := LinksOnly.setNext st p (st.nv.next d.base) true
  have hlinks : LinksOnly (basesOf A) st (freeCurrPage st d.base p) := by
    have := hset.trans (novaFreeLogBlocks_frame
      (novaSetNextPageAddress st p (st.nv.next d.base) true) (d.base / PAGE_SIZE) 1)
    apply this.mono
    intro q hq
    have hqp : q = p := by simpa using hq
    rw [hqp]
    exact hpA
  refine ⟨(h.links.trans hlinks).mono (by simp), hsub.trans h.pages, ?_, rfl,
    h.last, ?_, h.found, h.possible, h.first, h.single, ?_, ?_, ?_, ?_, ?_⟩
  · have hc := h.chain
    rw [hl] at hc hnodup ⊢
    simp only [basesOf_cons, append_assoc, cons_append, nil_append] at hc hnodup ⊢
    have hun := hc.unlink hnodup
    simpa [freeCurrPage, novaFreeLogBlocks, Nvmm.apply] using hun
  · have hh := h.head
    rw [hl] at hh ⊢
    cases l with
    | nil => simpa using hh
    | cons q l => simpa using hh
  · intro x
    have hx : (freeCurrPage st d.base p).InUse x ↔ st.InUse x ∧ x * PAGE_SIZE ≠ d.base := by
      have := free_page_inUse
        (novaSetNextPageAddress st p (st.nv.next d.base) true) hdpage
        (by simpa [State.InUse] using huse) x
      simpa [State.InUse, freeCurrPage] using this
    rw [hx, h.inUse x]
    constructor
    · intro hh
      obtain ⟨⟨h1, h2⟩, h3⟩ := hh
      refine ⟨h1, ?_⟩
      intro hxA
      have h4 := h2 hxA
      simp only [basesOf_cons, mem_append, mem_cons] at h4 ⊢
      tauto
    intro hh
    obtain ⟨h1, h2⟩ := hh
    refine ⟨⟨h1, fun hxA => hsub.subset (h2 hxA)⟩, ?_⟩
    intro hxd
    rw [hxd] at h2
    exact hdnot (h2 hdA)
  · rw [← h.kept]
    simp [hdead]
  · have := h.freed
    simp only [length_cons] at *
    omega
  · have := h.checked
    simp only [length_cons] at *
    omega
  have := h.bytes
  simp only [entsOf_cons, liveBytes_append] at *
  omega

end FastAt

/-- The verdict is that of the start. -/
theorem FastAt.verdict {st : State al} {K todo : List Page} {hd : List Nat} {v : FastVars}
    {d : Page} (h : FastAt st₀ ino A V st v hd K (d :: todo)) (hd' : d.Sealed st₀.nv) :
    currPageInvalid st.nv (st.info ino) d.base
      = some (pageDead st₀.nv (st₀.info ino) d, liveBytes st₀.nv (st₀.info ino) d.ents) := by
  have hsealed : d.Sealed st.nv := by
    apply hd'.of_page
    intro a _
    rw [h.links.slot]
  have hdeadEq : ∀ a, entryDead st.nv (st.info ino) a = entryDead st₀.nv (st₀.info ino) a := by
    intro a
    rw [h.links.info]
    apply entryDead_congr
    · rw [h.links.slot]
    · rw [h.links.invalid]
  rw [currPageInvalid_sealed _ hsealed]
  simp only [pageDead, liveBytes, hdeadEq, h.links.slot]
  congr 3
  funext a
  exact hdeadEq a

/-- The loop comes to the tail page with the live pages. -/
theorem fastLoop_spec (hpre : FastPre st₀ ino A V) :
    ∀ (todo : List Page) {st : State al} {v : FastVars} {hd : List Nat}
      {K : List Page} {rounds : Nat}, (∀ w ∈ todo, w ∈ A) →
      FastAt st₀ ino A V st v hd K todo → todo.length < rounds →
      ∃ st' v' hd' K', fastLoop ino rounds st v = some (st', v') ∧
        FastAt st₀ ino A V st' v' hd' K' [] ∧ v'.possibleHead = (basesOf K' ++ V).headD 0 := by
  intro todo
  induction todo with
  | nil =>
    intro st v hd K rounds _ h hrounds
    obtain ⟨n, rfl⟩ := Nat.exists_eq_add_of_lt hrounds
    have hcurr : v.curr = V.headD 0 := by simpa using h.curr
    have hstop : v.curr / PAGE_SIZE = st.nv.logTail ino / PAGE_SIZE := by
      rw [hcurr, h.links.logTail, hpre.tail]
    refine ⟨st, { v with
      possibleHead := if v.foundHead then v.possibleHead else v.curr }, hd, K, ?_, ?_, ?_⟩
    · rw [fastLoop, if_pos hstop]
    · refine ⟨h.links, h.pages, h.chain, h.curr, h.last, h.head, h.found,
        ?_, h.first, h.single, h.inUse, h.kept, h.freed, h.checked, h.bytes⟩
      intro hK
      have hf : v.foundHead = true := by
        rw [h.found]
        cases K with
        | nil => exact absurd rfl hK
        | cons k K => rfl
      simp [hf, h.possible hK]
    cases K with
    | nil =>
      have hf : v.foundHead = false := h.found
      simp [hf, hcurr]
    | cons k K =>
      have hf : v.foundHead = true := h.found
      have hp := h.possible (by simp)
      simp [hf, hp]
  | cons d todo ih =>
    intro st v hd K rounds hmem h hrounds
    obtain ⟨n, rfl⟩ := Nat.exists_eq_add_of_lt hrounds
    have hdA : d ∈ A := hmem d mem_cons_self
    have hsealed := hpre.full d hdA
    have hcurr : v.curr = d.base := by simpa using h.curr
    have hnodup := hpre.nodup
    rw [nodup_append] at hnodup
    have hVhead : V.headD 0 ∈ V := by
      cases hV : V with
      | nil => exact absurd hV hpre.nonempty
      | cons p V => simp
    have hdV : d.base ≠ V.headD 0 := hnodup.2.2 d.base (mem_basesOf.2 ⟨d, hdA, rfl⟩) _ hVhead
    have hgo : ¬ v.curr / PAGE_SIZE = st.nv.logTail ino / PAGE_SIZE := by
      rw [hcurr, h.links.logTail, hpre.tail]
      intro heq
      exact hdV (page_eq_of_div_eq hsealed.isPage (hpre.isPage _ hVhead) heq)
    have hne : ¬ v.curr = 0 := by
      have := hsealed.isPage.2
      omega
    have hnext : st.nv.next v.curr = (basesOf todo ++ V).headD 0 := by
      rw [hcurr]
      exact h.next_curr
    have hnext0 : ¬ (basesOf todo ++ V).headD 0 = 0 := by
      cases htodo : todo with
      | nil =>
        simp only [basesOf_nil, nil_append]
        have := (hpre.isPage _ hVhead).2
        omega
      | cons w todo' =>
        have hw : w ∈ A := hmem w (by rw [htodo]; simp)
        have := (hpre.full w hw).isPage.2
        simp only [basesOf_cons, cons_append, headD_cons]
        omega
    have hmem' : ∀ w ∈ todo, w ∈ A := fun w hw =>
      hmem w (mem_cons_of_mem _ hw)
    have hlen : todo.length < (d :: todo).length + n := by
      simp only [length_cons]
      omega
    have hverdict := h.verdict hsealed
    rw [fastLoop, if_neg hgo, if_neg hne]
    simp only [hnext, if_neg hnext0]
    rw [hcurr, hverdict]
    cases hdead : pageDead st₀.nv (st₀.info ino) d with
    | false =>
      have hstep := h.keep hdead
      have hgoal := ih hmem' hstep hlen
      simpa [fastValid, hcurr] using hgoal
    | true =>
      simp only [if_true, fastInvalid]
      by_cases hfirst : d.base = st.nv.logHead ino
      · -- the page at hand is the head, so nothing was kept so far
        have hempty : hd ++ basesOf K = [] := by
          by_contra hne'
          obtain ⟨q, l, hql⟩ := exists_cons_of_ne_nil hne'
          have hh := h.head
          rw [← h.links.logHead, ← hfirst, hql] at hh
          have hnd := h.nodup hpre
          rw [hql] at hnd
          simp only [basesOf_cons, cons_append, nodup_cons, mem_append, mem_cons, not_or] at hnd
          exact hnd.1.2.1 hh.symm
        rw [append_eq_nil_iff] at hempty
        obtain ⟨rfl, hKnil⟩ := hempty
        have hK : K = [] := by simpa [basesOf] using hKnil
        subst hK
        have hstep := h.dropHead hdead
        have hgoal := ih hmem' hstep hlen
        simpa [hfirst, hcurr] using hgoal
      have hsome : hd ++ basesOf K ≠ [] := by
        intro hnil
        have hh := h.head
        rw [hnil, ← h.links.logHead] at hh
        exact hfirst hh.symm
      obtain ⟨l, p, hlp⟩ : ∃ l p, hd ++ basesOf K = l ++ [p] :=
        ⟨_, _, (dropLast_append_getLast hsome).symm⟩
      have hlast := h.last l p hlp
      have hstep := h.drop hpre hdead hlp
      have hgoal := ih hmem' hstep hlen
      simpa [hfirst, hlast, hcurr] using hgoal

end Themis.Log
