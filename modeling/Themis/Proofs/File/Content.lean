/-
The contents of a file. What it is for is a `ByteFile`: bytes up to a
size, zeroes behind it. Writes and size changes of the code follow those
of the abstract file (`ContentRun.content`), and a read copies the bytes
of the abstract file (`read_refines`).

# The reader

`do_dax_mapping_read` copies up to a whole extent at once if the extent
has lost no page. That is right because `invalid_pages` is exact: an
extent that has lost none stands under all of its pages
(`readSource_spec`).
-/
import Themis.Proofs.File.Run

namespace Themis.File

open Lib Log List

variable {al : BlockAllocator} {st st' : State al} {ino : Nat} {L pages : List Nat}
variable {index a isize pos len : Nat} {f : ByteFile}

-- === the abstract file

/-- A file as its user sees it. -/
structure ByteFile where
  size : Nat
  byte : Nat → UInt8
  zero : ∀ q, size ≤ q → byte q = 0

namespace ByteFile

/-- An empty file. -/
def empty : ByteFile := ⟨0, fun _ => 0, fun _ _ => rfl⟩

/-- `len` bytes of `buf` at `pos`. -/
def write (f : ByteFile) (pos len : Nat) (buf : Nat → UInt8) : ByteFile where
  size := max (pos + len) f.size
  byte q := if pos ≤ q ∧ q < pos + len then buf (q - pos) else f.byte q
  zero q hq := by
    rw [if_neg (by omega)]
    exact f.zero q (by omega)

/-- Cut, or grown with zeros. -/
def resize (f : ByteFile) (size : Nat) : ByteFile where
  size := size
  byte q := if size ≤ q then 0 else f.byte q
  zero q hq := by rw [if_pos hq]

/-- The bytes a read returns. -/
def read (f : ByteFile) (pos len : Nat) : List UInt8 :=
  (List.range (min len (f.size - pos))).map fun i => f.byte (pos + i)

end ByteFile

/-- The abstract file is the file of the state. -/
structure Content (st : State al) (ino : Nat) (f : ByteFile) : Prop where
  size : (st.info ino).iSize = f.size
  byte : ∀ q, fileByte st ino q = f.byte q

-- === one extent

/-- The byte a chunk takes from its source, `i` bytes behind the start of
the page. -/
def sourceByte (data : Nat → UInt8) (nvmm : Option Nat) (i : Nat) : UInt8 :=
  match nvmm with
  | none => 0
  | some b => data (b * PAGE_SIZE + i)

/-- A run of pages of one entry. -/
theorem FileOk.whole (h : FileOk st ino L pages) (hi : (st.info ino).tree.get index = some a)
    (hinv : st.nv.invalid a = 0) {j : Nat} (h1 : (entryAt st.nv a).pgoff ≤ j)
    (h2 : j < (entryAt st.nv a).pgoff + (entryAt st.nv a).numPages) :
    (st.info ino).tree.get j = some a := by
  obtain ⟨he, -, -⟩ := h.file.entry hi
  have hcount := h.file.counted a (h.file.tree_mem index a hi) _ he
  rw [hinv, Nat.zero_add] at hcount
  -- as many pages as the range has, so all of them
  have hall : (Finset.Ico (entryAt st.nv a).pgoff
      ((entryAt st.nv a).pgoff + (entryAt st.nv a).numPages)).filter
        (fun k => (st.info ino).tree.get k = some a) = Finset.Ico (entryAt st.nv a).pgoff
        ((entryAt st.nv a).pgoff + (entryAt st.nv a).numPages) := by
    apply Finset.eq_of_subset_of_card_le (Finset.filter_subset _ _)
    rw [Nat.card_Ico]
    have : mapped (st.info ino).tree.get a (entryAt st.nv a).pgoff
        ((entryAt st.nv a).pgoff + (entryAt st.nv a).numPages)
        = (entryAt st.nv a).numPages := hcount
    rw [mapped] at this
    omega
  have hmem : j ∈ Finset.Ico (entryAt st.nv a).pgoff
      ((entryAt st.nv a).pgoff + (entryAt st.nv a).numPages) := Finset.mem_Ico.2 ⟨h1, h2⟩
  rw [← hall] at hmem
  exact (Finset.mem_filter.1 hmem).2

/-- The page of a byte behind a page start. -/
theorem page_offset (index i : Nat) : (index * PAGE_SIZE + i) / PAGE_SIZE = index + i / PAGE_SIZE ∧
      (index * PAGE_SIZE + i) % PAGE_SIZE = i % PAGE_SIZE := by
  unfold PAGE_SIZE
  omega

/-- The bytes of such a run. -/
theorem extent_bytes_of {n : Nat} (hpgoff : (entryAt st.nv a).pgoff ≤ index)
    (hall : ∀ j, index ≤ j → j < index + n → (st.info ino).tree.get j = some a) {i : Nat}
    (hi : i < n * PAGE_SIZE) : fileByte st ino (index * PAGE_SIZE + i)
      = sourceByte st.data (some (getNvmm st.nv a index)) i := by
  obtain ⟨hdiv, hmod⟩ := page_offset index i
  have hlt : i / PAGE_SIZE < n := Nat.div_lt_of_lt_mul (by rwa [Nat.mul_comm])
  have hmap : pageMap st ino ((index * PAGE_SIZE + i) / PAGE_SIZE)
      = some (getNvmm st.nv a (index + i / PAGE_SIZE)) := by
    rw [hdiv]
    exact pageMap_some (hall _ (Nat.le_add_right _ _) (Nat.add_lt_add_left hlt _))
  rw [fileByte_some hmap, hmod]
  apply congrArg st.data
  have hblock : getNvmm st.nv a (index + i / PAGE_SIZE)
      = getNvmm st.nv a index + i / PAGE_SIZE := by
    unfold getNvmm
    generalize i / PAGE_SIZE = k
    omega
  rw [hblock, Nat.add_mul, Nat.add_assoc, Nat.div_add_mod']

/-- What a read finds at a page. -/
theorem FileOk.readSource_spec (h : FileOk st ino L pages) (index : Nat) :
    ∃ nvmm n, readSource st ino index = some (nvmm, n * PAGE_SIZE) ∧ 0 < n ∧
      ∀ i, i < n * PAGE_SIZE →
        fileByte st ino (index * PAGE_SIZE + i) = sourceByte st.data nvmm i := by
  unfold readSource novaGetWriteEntry
  cases hget : (st.info ino).tree.get index with
  | none =>
    refine ⟨none, 1, by simp, Nat.one_pos, ?_⟩
    intro i hi
    rw [Nat.one_mul] at hi
    have hpage : (index * PAGE_SIZE + i) / PAGE_SIZE = index := by
      rw [(page_offset index i).1, Nat.div_eq_of_lt hi, Nat.add_zero]
    apply fileByte_none
    rw [hpage]
    exact pageMap_none hget
  | some a =>
    obtain ⟨-, h1, h2⟩ := h.file.entry hget
    simp only
    rw [if_neg (by omega)]
    by_cases hinv : st.nv.invalid a = 0
    · refine ⟨_, (entryAt st.nv a).numPages - (index - (entryAt st.nv a).pgoff),
        by rw [if_pos hinv], by omega, ?_⟩
      intro i hi
      apply extent_bytes_of h1 _ hi
      intro j hj1 hj2
      exact h.whole hget hinv (by omega) (by omega)
    refine ⟨_, 1, by rw [if_neg hinv, Nat.one_mul], Nat.one_pos, ?_⟩
    intro i hi
    apply extent_bytes_of h1 _ hi
    intro j hj1 hj2
    rw [show j = index by omega]
    exact hget

-- === the loop

/-- The bytes of a chunk. -/
theorem Chunk.bytes_eq (c : Chunk) (data : Nat → UInt8) :
    c.bytes data = (List.range c.nr).map fun i => sourceByte data c.nvmm (c.offset + i) := by
  unfold Chunk.bytes sourceByte
  apply map_congr_left
  intro i _
  cases c.nvmm with
  | none => rfl
  | some b => simp only [Nat.add_assoc]

/-- A range in two parts. -/
theorem range_map_add {α : Type} (g : Nat → α) (m n : Nat) :
    (List.range (m + n)).map g = (List.range m).map g ++ (List.range n).map fun i => g (m + i) := by
  rw [range_add, map_append, List.map_map]
  rfl

/-- The position behind a chunk. -/
theorem next_position (index offset nr : Nat) :
    (index + (offset + nr) / PAGE_SIZE) * PAGE_SIZE + (offset + nr) % PAGE_SIZE
      = index * PAGE_SIZE + offset + nr := by
  unfold PAGE_SIZE
  omega

/-- In front of the end the loop goes on. -/
theorem not_at_end {offset : Nat} (hoff : offset < PAGE_SIZE)
    (hin : index * PAGE_SIZE + offset < isize) : ¬ (index > (isize - 1) / PAGE_SIZE ∨
      (index = (isize - 1) / PAGE_SIZE ∧ (isize - 1) % PAGE_SIZE + 1 ≤ offset)) := by
  unfold PAGE_SIZE at *
  omega

/-- From the end on it stops. -/
theorem at_end (hpos : 0 < isize) (hend : isize ≤ pos) : pos / PAGE_SIZE > (isize - 1) / PAGE_SIZE ∨
      (pos / PAGE_SIZE = (isize - 1) / PAGE_SIZE ∧
        (isize - 1) % PAGE_SIZE + 1 ≤ pos % PAGE_SIZE) := by
  unfold PAGE_SIZE
  omega

/-- The read loop returns the bytes of the file. -/
theorem FileOk.readLoop_spec (h : FileOk st ino L pages) :
    ∀ rounds index offset copied, offset < PAGE_SIZE → copied < len →
      len - copied ≤ rounds → index * PAGE_SIZE + offset + (len - copied) ≤ isize →
      ∃ cs, readLoop st ino isize len rounds index offset copied = (0, cs) ∧
        (cs.map Chunk.nr).sum = len - copied ∧
        cs.flatMap (fun c => c.bytes st.data) = (List.range (len - copied)).map
          fun i => fileByte st ino (index * PAGE_SIZE + offset + i) := by
  intro rounds
  induction rounds with
  | zero =>
    intro index offset copied _ hc hr _
    omega
  | succ rounds ih =>
    intro index offset copied hoff hc hr hin
    obtain ⟨nvmm, n, hsrc, hn, hbytes⟩ := h.readSource_spec index
    have hroom : PAGE_SIZE ≤ n * PAGE_SIZE := Nat.le_mul_of_pos_left _ hn
    unfold readLoop
    rw [if_neg (not_at_end hoff (by omega)), hsrc]
    simp only
    generalize hnr : min (n * PAGE_SIZE - offset) (len - copied) = nr
    -- the bytes of this round
    have hchunk : (Chunk.bytes ⟨index, offset, nr, nvmm⟩ st.data) = (List.range nr).map
          fun i => fileByte st ino (index * PAGE_SIZE + offset + i) := by
      rw [Chunk.bytes_eq]
      apply map_congr_left
      intro i hi
      have hlt : i < nr := mem_range.1 hi
      rw [Nat.add_assoc, hbytes (offset + i) (by omega)]
    by_cases hmore : copied + nr < len
    · rw [if_pos hmore]
      have hpos := next_position index offset nr
      obtain ⟨cs, hres, hsum, hcs⟩ := ih (index + (offset + nr) / PAGE_SIZE)
        ((offset + nr) % PAGE_SIZE) (copied + nr) (mod_page_lt _) hmore (by omega)
        (by rw [hpos]; omega)
      rw [hres]
      refine ⟨_, rfl, ?_, ?_⟩
      · rw [map_cons, sum_cons, hsum]
        show nr + (len - (copied + nr)) = len - copied
        omega
      rw [flatMap_cons, hchunk, hcs, hpos,
        show len - copied = nr + (len - (copied + nr)) by omega, range_map_add]
      simp only [Nat.add_assoc]
    have hlast : nr = len - copied := by omega
    rw [if_neg hmore]
    refine ⟨_, rfl, ?_, ?_⟩
    · simp [hlast]
    · rw [flatMap_cons, flatMap_nil, append_nil, hchunk, hlast]

-- === the read

/-- The length is cut down to the rest of the file; behind its end the
difference has wrapped around, but there nothing is copied. -/
theorem readLength_eq (hsize : isize < 2 ^ 63) (hpos : pos ≤ isize) :
    readLength len isize pos = min len (isize - pos) := by
  have hroom : ulongOfInt ((isize : Int) - pos) = isize - pos := by
    unfold ulongOfInt
    omega
  unfold readLength
  simp only [hroom]
  split <;> omega

/-- A read returns the bytes of the file. -/
theorem FileOk.read (h : FileOk st ino L pages) (hsize : (st.info ino).iSize < 2 ^ 63)
    (pos len : Nat) : ∃ cs, doDaxMappingRead st ino pos len true
        = (((min len ((st.info ino).iSize - pos) : Nat) : Int), cs) ∧
      cs.flatMap (fun c => c.bytes st.data) = (List.range (min len ((st.info ino).iSize - pos))).map
          fun i => fileByte st ino (pos + i) := by
  unfold doDaxMappingRead
  simp only [Bool.not_true, Bool.false_eq_true, if_false]
  generalize hisize : (st.info ino).iSize = isize at *
  by_cases h0 : isize = 0
  · exact ⟨[], by simp [h0], by simp [h0]⟩
  rw [if_neg h0]
  by_cases hend : isize ≤ pos
  · -- behind the end
    have hnone : isize - pos = 0 := by omega
    rw [hnone, Nat.min_zero]
    split
    · exact ⟨[], rfl, rfl⟩
    rename_i hlen
    obtain ⟨k, hk⟩ := Nat.exists_eq_succ_of_ne_zero hlen
    refine ⟨[], ?_, rfl⟩
    rw [hk, readLoop]
    rw [if_pos (at_end (by omega) hend)]
    simp
  rw [readLength_eq hsize (by omega)]
  generalize hn : min len (isize - pos) = n
  by_cases hn0 : n = 0
  · exact ⟨[], by simp [hn0], by simp [hn0]⟩
  rw [if_neg hn0]
  have hpos : pos / PAGE_SIZE * PAGE_SIZE + pos % PAGE_SIZE = pos :=
    Nat.div_add_mod' pos PAGE_SIZE
  have hin : pos / PAGE_SIZE * PAGE_SIZE + pos % PAGE_SIZE + (n - 0) ≤ isize := by
    omega
  obtain ⟨cs, hres, hsum, hbytes⟩ := h.readLoop_spec n (pos / PAGE_SIZE)
    (pos % PAGE_SIZE) 0 (mod_page_lt _) (Nat.pos_of_ne_zero hn0) (Nat.sub_le n 0) hin
  rw [hres]
  refine ⟨cs, ?_, ?_⟩
  · simp [hsum]
  · rw [hbytes, hpos]
    simp

-- === runs

/-- The runs of a regular file, each with the abstract file it stands
for. -/
inductive ContentRun (ino : Nat) : State al → ByteFile → Prop
  /-- A file that was just created. -/
  | fresh {st : State al} (hlog : EmptyLog st ino)
      (htree : ∀ i, (st.info ino).tree.get i = none)
      (hsize : (st.info ino).iSize = 0) (hrec : (st.nv.record ino).iSize = 0)
      (hreg : isReg (st.info ino).attrs.mode = true)
      (hrecReg : isReg (st.nv.record ino).attrs.mode = true) :
      ContentRun ino st ByteFile.empty
  | write {st st' : State al} {f : ByteFile} {w : WriteReq} {ret : Int}
      (h : ContentRun ino st f) (hadm : w.Admitted)
      (hres : novaCowFileWrite st ino w = some (ret, st')) (hret : ret ≠ -ENOSPC) :
      ContentRun ino st' (f.write (w.place st ino) w.len w.buf)
  | setsize {st st' : State al} {f : ByteFile} {attr : Iattr} {ret : Int}
      {eofBlocks : Bool} {time : Nat} (h : ContentRun ino st f)
      (hmode : attr.valid.testBit 0 = true → isReg attr.mode = true)
      (hset : attr.setsSize = true)
      (hres : novaNotifyChange st ino attr 0 eofBlocks time = some (ret, st')) :
      ContentRun ino st' (f.resize attr.size)
  | setattr {st st' : State al} {f : ByteFile} {attr : Iattr} {changeOk ret : Int}
      {eofBlocks : Bool} {time : Nat} (h : ContentRun ino st f)
      (hmode : attr.valid.testBit 0 = true → isReg attr.mode = true)
      (hset : attr.setsSize = false)
      (hres : novaNotifyChange st ino attr changeOk eofBlocks time = some (ret, st')) :
      ContentRun ino st' f
  | reload {st st' : State al} {f : ByteFile} (h : ContentRun ino st f)
      (hres : reload st ino = some st') : ContentRun ino st' f

/-- Such a run is a run of the file. -/
theorem ContentRun.fileRun (h : ContentRun ino st f) : FileRun ino st := by
  induction h with
  | fresh hlog htree hsize hrec hreg hrecReg => exact .fresh hlog htree hsize hrec hreg hrecReg
  | write h hadm hres hret ih => exact ih.write hres hret
  | setsize h hmode hset hres ih => exact ih.setattr hmode hres
  | setattr h hmode hset hres ih => exact ih.setattr hmode hres
  | reload h hres ih => exact ih.reload hres

/-- A write that returns its length is a write. -/
theorem Content.write {f : ByteFile} {w : WriteReq} {ret : Int} (h : Content st ino f)
    (hok : FileOk st ino L pages) (hadm : w.Admitted)
    (hres : novaCowFileWrite st ino w = some (ret, st')) (hret : ret ≠ -ENOSPC) :
    ret = w.len ∧ Content st' ino (f.write (w.place st ino) w.len w.buf) := by
  rcases hok.write hres hret with ⟨hno, -⟩ | ⟨-, hlen, L', pages', hw⟩
  · exact absurd hadm hno
  refine ⟨hlen, ?_, ?_⟩
  · rw [hw.iSize, h.size]
    rfl
  intro q
  rw [hw.bytes q, target, h.byte q]
  rfl

/-- Along every run the contents are as written. -/
theorem ContentRun.content (h : ContentRun ino st f) : Content st ino f := by
  induction h with
  | fresh hlog htree hsize hrec hreg hrecReg =>
    exact ⟨hsize, fun q => fileByte_none (pageMap_none (htree _))⟩
  | write h hadm hres hret ih =>
    obtain ⟨⟨L, pages, hok⟩, -⟩ := h.fileRun.ok
    exact (ih.write hok hadm hres hret).2
  | @setsize st st' f attr ret eofBlocks time h hmode hset hres ih =>
    obtain ⟨⟨L, pages, hok⟩, -⟩ := h.fileRun.ok
    obtain ⟨-, -, -, hsize, -, hbytes, -⟩ := hok.notifyChange hmode hres
    refine ⟨by rw [hsize, if_pos ⟨rfl, hset⟩]; rfl, ?_⟩
    intro q
    rw [hbytes q, ih.byte q]
    simp [hset, ByteFile.resize]
  | setattr h hmode hset hres ih =>
    obtain ⟨⟨L, pages, hok⟩, -⟩ := h.fileRun.ok
    obtain ⟨-, -, -, hsize, -, hbytes, -⟩ := hok.notifyChange hmode hres
    refine ⟨?_, ?_⟩
    · rw [hsize, if_neg (by simp [hset])]
      exact ih.size
    intro q
    rw [hbytes q, if_neg (by simp [hset])]
    exact ih.byte q
  | reload h hres ih =>
    obtain ⟨⟨L, pages, hok⟩, hreg⟩ := h.fileRun.ok
    obtain ⟨-, hbytes, hsize, -⟩ := hok.reload hreg hres
    refine ⟨hsize.trans ih.size, ?_⟩
    intro q
    rw [hbytes]
    exact ih.byte q

/-- Reads refine the abstract file: after any run, any read returns as many
bytes as the abstract file has there, and copies them. A further write
returns its length and leaves the bytes outside of it alone. Sizes are
`loff_t` values. -/
theorem read_refines {f : ByteFile} (h : ContentRun ino st f) (hsize : f.size < 2 ^ 63) :
    (∀ pos len, ∃ cs, doDaxMappingRead st ino pos len true
        = (((min len (f.size - pos) : Nat) : Int), cs) ∧
      cs.flatMap (fun c => c.bytes st.data) = f.read pos len) ∧
    ∀ w ret st', w.Admitted → novaCowFileWrite st ino w = some (ret, st') →
      ret ≠ -ENOSPC → ret = w.len ∧
        ∀ q, q < f.size → ¬ (w.place st ino ≤ q ∧ q < w.place st ino + w.len) →
          fileByte st' ino q = fileByte st ino q := by
  obtain ⟨⟨L, pages, hok⟩, -⟩ := h.fileRun.ok
  have hc := h.content
  constructor
  · intro pos len
    obtain ⟨cs, hres, hbytes⟩ := hok.read (by rw [hc.size]; exact hsize) pos len
    rw [hc.size] at hres hbytes
    refine ⟨cs, hres, ?_⟩
    rw [hbytes]
    apply map_congr_left
    intro i _
    exact hc.byte _
  intro w ret st' hadm hres hret
  obtain ⟨hlen, hc'⟩ := hc.write hok hadm hres hret
  refine ⟨hlen, ?_⟩
  intro q _ hout
  rw [hc'.byte q, hc.byte q]
  exact if_neg hout

/-- A write of 5000 bytes at position 100, read back from its last page
on. -/
theorem read_refines_one_write :
    ∃ f, ContentRun 17 writtenFile f ∧ f.size = 5100 ∧
      ∃ cs, doDaxMappingRead writtenFile 17 5098 10 true = (2, cs) ∧
        cs.flatMap (fun c => c.bytes writtenFile.data) = [UInt8.ofNat 4998, UInt8.ofNat 4999] := by
  have hrun : ContentRun 17 newFile ByteFile.empty :=
    .fresh ⟨rfl, rfl⟩ (fun _ => rfl) rfl rfl (by decide) (by decide)
  have hw := hrun.write ⟨by decide, rfl, rfl, rfl⟩ writtenFile_eq (by decide)
  have hsize : (ByteFile.empty.write (someWrite.place newFile 17) someWrite.len
      someWrite.buf).size = 5100 := by decide +kernel
  obtain ⟨cs, hres, hbytes⟩ := (read_refines hw (by rw [hsize]; decide)).1 5098 10
  rw [hsize] at hres
  refine ⟨_, hw, hsize, cs, hres, hbytes.trans ?_⟩
  decide +kernel

end Themis.File
