/-
The data of one extent of a write: after its blocks are filled they hold
the bytes of the caller where these go, and everywhere else on their
pages what the file holds there.
-/
import Themis.Proofs.File.Attr

namespace Themis.File

open Lib Log

variable {al : BlockAllocator} {st st' : State al} {ino size : Nat}
  {L P pages : List Nat} {R : Nat → Prop}
variable {a n i offset kmem b bytes : Nat} {g g' : Nat → UInt8}

-- === filling

/-- Filling depends on what is filled in. -/
theorem fillBytes_congr {m : Nat → UInt8} (h : ∀ j, j < n → g j = g' j) :
    fillBytes m a n g = fillBytes m a n g' := by
  funext x
  unfold fillBytes
  split
  · exact h _ (by omega)
  · rfl

/-- Filling the device depends on what is filled in. -/
theorem fill_congr (h : ∀ j, j < n → g j = g' j) : fill st a n g = fill st a n g' := by
  simp only [fill, fillBytes_congr h]

/-- Filling elsewhere changes no byte of the file. -/
theorem fileByte_fill (h : ∀ i b, pageMap st ino i = some b → ∀ r, r < PAGE_SIZE →
      ¬ (a ≤ b * PAGE_SIZE + r ∧ b * PAGE_SIZE + r < a + n)) :
    fileByte (fill st a n g) ino = fileByte st ino := by
  funext q
  have hmap : pageMap (fill st a n g) ino = pageMap st ino := rfl
  cases hq : pageMap st ino (q / PAGE_SIZE) with
  | none => rw [fileByte_none (by rw [hmap]; exact hq), fileByte_none hq]
  | some b =>
    rw [fileByte_some (by rw [hmap]; exact hq), fileByte_some hq]
    simp only [fill, fillBytes]
    rw [if_neg (h _ b hq _ (mod_page_lt q))]

/-- A byte by its page. -/
theorem fileByte_page (st : State al) (ino i : Nat) {j : Nat}
    (hj : j < PAGE_SIZE) : fileByte st ino (i * PAGE_SIZE + j)
      = (pageMap st ino i).elim 0 fun b => st.data (b * PAGE_SIZE + j) := by
  have hdiv : (i * PAGE_SIZE + j) / PAGE_SIZE = i := by
    unfold PAGE_SIZE at *
    omega
  have hmod : (i * PAGE_SIZE + j) % PAGE_SIZE = j := by
    unfold PAGE_SIZE at *
    omega
  simp only [fileByte, hdiv, hmod]

/-- An edge is filled with what the file has there. -/
theorem fillEdge_eq (hoff : offset ≤ PAGE_SIZE) (hpos : ∀ b, pageMap st ino i = some b → 0 < b)
    (isEnd : Bool) : fillEdge st ino i offset kmem isEnd
      = if isEnd then fill st (kmem + offset) (PAGE_SIZE - offset) fun j =>
          fileByte st ino (i * PAGE_SIZE + (offset + j))
        else fill st kmem offset fun j => fileByte st ino (i * PAGE_SIZE + j) := by
  unfold fillEdge
  cases hget : novaGetWriteEntry st ino i with
  | none =>
    cases isEnd
    all_goals
      apply fill_congr
      intro j hj
      rw [fileByte_page st ino i (by omega), pageMap_none hget]
      rfl
  | some a =>
    have hmap := pageMap_some hget
    have hb := hpos _ hmap
    have hne : getNvmm st.nv a i * PAGE_SIZE ≠ 0 := by
      unfold PAGE_SIZE
      omega
    simp only [novaCopyPartialBlock, if_neg hne]
    cases isEnd
    all_goals
      apply fill_congr
      intro j hj
      rw [fileByte_page st ino i (by omega), hmap]
      simp only [Option.elim_some, Nat.add_assoc]

-- === one extent

/-- No page of the file is on these blocks. -/
def Unmapped (st : State al) (ino b n : Nat) : Prop :=
  ∀ i x, pageMap st ino i = some x → 0 < x ∧ ¬ (b ≤ x ∧ x < b + n)

/-- Filling them is filling elsewhere. -/
theorem Unmapped.outside (h : Unmapped st ino b n) {m : Nat} (ha : b * PAGE_SIZE ≤ a)
    (hm : a + m ≤ (b + n) * PAGE_SIZE) : ∀ i x, pageMap st ino i = some x → ∀ r, r < PAGE_SIZE →
      ¬ (a ≤ x * PAGE_SIZE + r ∧ x * PAGE_SIZE + r < a + m) := by
  intro i x hx r hr hcon
  apply (h i x hx).2
  unfold PAGE_SIZE at *
  omega

/-- What filling the blocks `[b, b + n)` for the bytes
`[pos, pos + bytes)` leaves. -/
structure FilledRun (st st' : State al) (ino pos bytes b n : Nat)
    (g : Nat → UInt8) : Prop where
  only : ∃ d, st' = { st with data := d }
  outside : ∀ x, ¬ (b * PAGE_SIZE ≤ x ∧ x < (b + n) * PAGE_SIZE) →
    st'.data x = st.data x
  inside : ∀ i r, i < n → r < PAGE_SIZE →
    st'.data ((b + i) * PAGE_SIZE + r)
      = if pos ≤ (pos / PAGE_SIZE + i) * PAGE_SIZE + r ∧
          (pos / PAGE_SIZE + i) * PAGE_SIZE + r < pos + bytes
        then g ((pos / PAGE_SIZE + i) * PAGE_SIZE + r - pos)
        else fileByte st ino ((pos / PAGE_SIZE + i) * PAGE_SIZE + r)

section arithmetic

variable {b s n o bytes i r : Nat}

/-- The first edge is inside. -/
theorem edge_le (ho : o ≤ PAGE_SIZE) (hn : 0 < n) : b * PAGE_SIZE + o ≤ (b + n) * PAGE_SIZE := by
  unfold PAGE_SIZE at *
  omega

/-- The last block. -/
theorem last_block (hn : 0 < n) : b * PAGE_SIZE + (n - 1) * PAGE_SIZE = (b + (n - 1)) * PAGE_SIZE ∧
      (b + (n - 1)) * PAGE_SIZE + PAGE_SIZE = (b + n) * PAGE_SIZE := by
  unfold PAGE_SIZE
  omega

/-- The bytes are inside. -/
theorem bytes_le (hn : (bytes + o - 1) / PAGE_SIZE + 1 = n) :
    b * PAGE_SIZE + o + bytes ≤ (b + n) * PAGE_SIZE := by
  unfold PAGE_SIZE at *
  omega

/-- Pages and blocks, shifted. -/
theorem page_shift :
    (b + i) * PAGE_SIZE + r + s * PAGE_SIZE = b * PAGE_SIZE + ((s + i) * PAGE_SIZE + r) := by
  unfold PAGE_SIZE
  omega

/-- In front of the bytes is the first page. -/
theorem first_page (ho : o < PAGE_SIZE)
    (h : (s + i) * PAGE_SIZE + r < s * PAGE_SIZE + o) : i = 0 ∧ r < o := by
  unfold PAGE_SIZE at *
  omega

/-- Behind the bytes is the last page. -/
theorem last_page (hb : 0 < bytes) (hi : i < n) (hr : r < PAGE_SIZE)
    (hn : (bytes + o - 1) / PAGE_SIZE + 1 = n)
    (h : s * PAGE_SIZE + o + bytes ≤ (s + i) * PAGE_SIZE + r) :
    i = n - 1 ∧ o + bytes ≤ (n - 1) * PAGE_SIZE + r := by
  unfold PAGE_SIZE at *
  omega

/-- Where the bytes end in it. -/
theorem end_offset (hb : 0 < bytes) (hr : r < PAGE_SIZE) (hn : (bytes + o - 1) / PAGE_SIZE + 1 = n)
    (h : o + bytes ≤ (n - 1) * PAGE_SIZE + r) :
    (o + bytes) % PAGE_SIZE ≠ 0 ∧ (o + bytes) % PAGE_SIZE ≤ r := by
  unfold PAGE_SIZE at *
  omega

/-- The first edge is in front of the last. -/
theorem head_lt_rest (hb : 0 < bytes) (ho : o < PAGE_SIZE)
    (hn : (bytes + o - 1) / PAGE_SIZE + 1 = n) (he : (o + bytes) % PAGE_SIZE ≠ 0) :
    o ≤ (n - 1) * PAGE_SIZE + (o + bytes) % PAGE_SIZE := by
  unfold PAGE_SIZE at *
  omega

end arithmetic

/-- What the edges of an extent hold once they are filled. -/
structure EdgesFilled (st st' : State al) (ino s o bytes b n : Nat) : Prop where
  only : ∃ d, st' = { st with data := d }
  outside : ∀ x, ¬ (b * PAGE_SIZE ≤ x ∧ x < (b + n) * PAGE_SIZE) →
    st'.data x = st.data x
  head : ∀ j, j < o → st'.data (b * PAGE_SIZE + j)
    = fileByte st ino (s * PAGE_SIZE + j)
  rest : ∀ j, j < PAGE_SIZE → o + bytes ≤ (n - 1) * PAGE_SIZE + j →
    st'.data ((b + (n - 1)) * PAGE_SIZE + j)
      = fileByte st ino ((s + (n - 1)) * PAGE_SIZE + j)

/-- The first edge. -/
theorem head_filled (st : State al) (ino s o b : Nat) (ho : o ≤ PAGE_SIZE)
    (hpos : ∀ x, pageMap st ino s = some x → 0 < x) :
    (if o ≠ 0 then fillEdge st ino s o (b * PAGE_SIZE) false else st)
      = fill st (b * PAGE_SIZE) o fun j =>
          fileByte st ino (s * PAGE_SIZE + j) := by
  by_cases ho0 : o = 0
  · have hnone : fillBytes st.data (b * PAGE_SIZE) 0
        (fun j => fileByte st ino (s * PAGE_SIZE + j)) = st.data := by
      funext x
      unfold fillBytes
      rw [if_neg (by omega)]
    rw [if_neg (by simp [ho0]), ho0]
    simp only [fill, hnone]
  · rw [if_pos ho0]
    exact fillEdge_eq ho hpos false

/-- Both edges. -/
theorem novaHandleHeadTailBlocks_spec {pos : Nat} (hun : Unmapped st ino b n) (hb : 0 < bytes)
    (hn : (bytes + pos % PAGE_SIZE - 1) / PAGE_SIZE + 1 = n) :
    EdgesFilled st (novaHandleHeadTailBlocks st ino pos bytes (b * PAGE_SIZE)) ino
      (pos / PAGE_SIZE) (pos % PAGE_SIZE) bytes b n := by
  have ho := mod_page_lt pos
  have hend : (pos + bytes) % PAGE_SIZE = (pos % PAGE_SIZE + bytes) % PAGE_SIZE := by
    rw [Nat.mod_add_mod]
  unfold novaHandleHeadTailBlocks
  simp only [hn, hend]
  generalize pos / PAGE_SIZE = s at *
  generalize pos % PAGE_SIZE = o at *
  have hn0 : 0 < n := by
    rw [← hn]
    exact Nat.succ_pos _
  obtain ⟨hkmem, hrun⟩ := last_block (b := b) hn0
  rw [head_filled st ino s o b ho.le fun x hx => (hun s x hx).1,
    show s + n - 1 = s + (n - 1) by omega, hkmem]
  have hedge := edge_le (b := b) ho.le hn0
  -- the head does not show in the file
  have hsame : fileByte (fill st (b * PAGE_SIZE) o fun j =>
      fileByte st ino (s * PAGE_SIZE + j)) ino = fileByte st ino :=
    fileByte_fill (hun.outside le_rfl hedge)
  have hdata : ∀ x, (fill st (b * PAGE_SIZE) o fun j =>
      fileByte st ino (s * PAGE_SIZE + j)).data x = if b * PAGE_SIZE ≤ x ∧ x < b * PAGE_SIZE + o
        then fileByte st ino (s * PAGE_SIZE + (x - b * PAGE_SIZE))
        else st.data x := fun x => rfl
  have hmap : pageMap (fill st (b * PAGE_SIZE) o fun j =>
      fileByte st ino (s * PAGE_SIZE + j)) ino = pageMap st ino := rfl
  have honly : ∃ d, (fill st (b * PAGE_SIZE) o fun j =>
      fileByte st ino (s * PAGE_SIZE + j)) = { st with data := d } := ⟨_, rfl⟩
  generalize (fill st (b * PAGE_SIZE) o fun j =>
    fileByte st ino (s * PAGE_SIZE + j)) = st1 at *
  obtain ⟨d, hd⟩ := honly
  by_cases he : (o + bytes) % PAGE_SIZE = 0
  · rw [if_neg (by simp [he])]
    refine ⟨⟨d, hd⟩, ?_, ?_, ?_⟩
    · intro x hx
      rw [hdata x, if_neg (by omega)]
    · intro j hj
      rw [hdata, if_pos (by omega), Nat.add_sub_cancel_left]
    · intro j hj hle
      exact absurd he (end_offset hb hj hn hle).1
  have hoe : (o + bytes) % PAGE_SIZE < PAGE_SIZE := mod_page_lt _
  have hsep := head_lt_rest hb ho hn he
  rw [if_pos he, fillEdge_eq hoe.le (fun x hx => by
    rw [hmap] at hx
    exact (hun _ x hx).1), if_pos rfl, hsame]
  refine ⟨?_, ?_, ?_, ?_⟩
  · rw [hd]
    exact ⟨_, rfl⟩
  · intro x hx
    simp only [fill, fillBytes]
    rw [if_neg (by omega), hdata x, if_neg (by omega)]
  · intro j hj
    simp only [fill, fillBytes]
    rw [if_neg (by omega), hdata, if_pos (by omega), Nat.add_sub_cancel_left]
  intro j hj hle
  have hoej := (end_offset hb hj hn hle).2
  simp only [fill, fillBytes]
  rw [if_pos (by omega), show (o + bytes) % PAGE_SIZE + ((b + (n - 1)) * PAGE_SIZE + j -
      ((b + (n - 1)) * PAGE_SIZE + (o + bytes) % PAGE_SIZE)) = j by omega]

/-- Edges and bytes of an extent. -/
theorem fillExtent_spec {w : WriteReq} {v : WriteVars} (hun : Unmapped st ino b n) (hb : 0 < bytes)
    (hn : (bytes + v.pos % PAGE_SIZE - 1) / PAGE_SIZE + 1 = n) :
    FilledRun st (fillExtent st ino w v b bytes) ino v.pos bytes b n
      fun j => w.buf (v.written + j) := by
  have hedge : EdgesFilled st
      (if v.pos % PAGE_SIZE ≠ 0 ∨ (v.pos % PAGE_SIZE + bytes) % PAGE_SIZE ≠ 0 then
        novaHandleHeadTailBlocks st ino v.pos bytes (b * PAGE_SIZE) else st) ino
      (v.pos / PAGE_SIZE) (v.pos % PAGE_SIZE) bytes b n := by
    split
    · exact novaHandleHeadTailBlocks_spec hun hb hn
    rename_i hnot
    rw [not_or, not_not, not_not] at hnot
    refine ⟨⟨st.data, rfl⟩, fun _ _ => rfl, ?_, ?_⟩
    · intro j hj
      omega
    · intro j hj hle
      exact absurd hnot.2 (end_offset hb hj hn hle).1
  have ho := mod_page_lt v.pos
  have hpage : v.pos / PAGE_SIZE * PAGE_SIZE + v.pos % PAGE_SIZE = v.pos :=
    Nat.div_add_mod' v.pos PAGE_SIZE
  have hle := bytes_le (b := b) hn
  unfold fillExtent
  simp only
  generalize (if v.pos % PAGE_SIZE ≠ 0 ∨ (v.pos % PAGE_SIZE + bytes) % PAGE_SIZE ≠ 0 then
    novaHandleHeadTailBlocks st ino v.pos bytes (b * PAGE_SIZE) else st) = st1
    at *
  generalize hs : v.pos / PAGE_SIZE = s at *
  generalize v.pos % PAGE_SIZE = o at *
  obtain ⟨⟨d, hd⟩, hout, hhead, hrest⟩ := hedge
  refine ⟨?_, ?_, ?_⟩
  · rw [hd]
    exact ⟨_, rfl⟩
  · intro x hx
    simp only [fill, fillBytes]
    rw [if_neg (by omega)]
    exact hout x hx
  intro i r hi hr
  have hshift := page_shift (b := b) (s := s) (i := i) (r := r)
  simp only [fill, fillBytes, hs]
  by_cases hin : v.pos ≤ (s + i) * PAGE_SIZE + r ∧ (s + i) * PAGE_SIZE + r < v.pos + bytes
  · rw [if_pos hin, if_pos (by omega), show (b + i) * PAGE_SIZE + r - (b * PAGE_SIZE + o)
        = (s + i) * PAGE_SIZE + r - v.pos by omega]
  rw [if_neg hin, if_neg (by omega)]
  by_cases hlow : (s + i) * PAGE_SIZE + r < v.pos
  · obtain ⟨rfl, hro⟩ := first_page (s := s) (i := i) (r := r) ho (by omega)
    exact hhead r hro
  obtain ⟨hin1, hrn⟩ := last_page (s := s) hb hi hr hn (by omega)
  rw [hin1]
  exact hrest r hr hrn

-- === filling is local

/-- Filling an edge writes data only. -/
theorem fillEdge_data (st : State al) (ino pgoff offset kmem : Nat) (isEnd : Bool) :
    ∃ d, fillEdge st ino pgoff offset kmem isEnd = { st with data := d } := by
  unfold fillEdge novaCopyPartialBlock
  split
  · split
    · exact ⟨_, rfl⟩
    · exact ⟨_, rfl⟩
  dsimp only
  split
  · exact ⟨st.data, rfl⟩
  split
  · exact ⟨_, rfl⟩
  · exact ⟨_, rfl⟩

/-- Filling both writes data only. -/
theorem novaHandleHeadTailBlocks_data (st : State al) (ino pos count kmem : Nat) :
    ∃ d, novaHandleHeadTailBlocks st ino pos count kmem = { st with data := d } := by
  unfold novaHandleHeadTailBlocks
  dsimp only
  obtain ⟨d, hd⟩ : ∃ d, (if pos % PAGE_SIZE ≠ 0 then
      fillEdge st ino (pos / PAGE_SIZE) (pos % PAGE_SIZE) kmem false else st)
        = { st with data := d } := by
    split
    · exact fillEdge_data st ino _ _ _ _
    · exact ⟨st.data, rfl⟩
  rw [hd]
  split
  · exact fillEdge_data { st with data := d } ino _ _ _ _
  · exact ⟨d, rfl⟩

/-- Filling an extent writes data only. -/
theorem fillExtent_data (st : State al) (ino : Nat) (w : WriteReq) (v : WriteVars)
    (b bytes : Nat) : ∃ d, fillExtent st ino w v b bytes = { st with data := d } := by
  unfold fillExtent
  dsimp only
  split
  · obtain ⟨d, hd⟩ := novaHandleHeadTailBlocks_data st ino v.pos bytes (b * PAGE_SIZE)
    rw [hd]
    exact ⟨_, rfl⟩
  · exact ⟨_, rfl⟩

end Themis.File
