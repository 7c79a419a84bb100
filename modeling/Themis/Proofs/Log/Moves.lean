/-
What a collection does to the entries of a log, seen from the entries:
some are dropped, the others are moved, in order, to new offsets, and
the tree of the inode follows them.
-/
import Themis.Proofs.Log.Append

namespace Themis.Log

open Lib List Function

variable {al : BlockAllocator}
variable {kept : List (Nat × Nat)} {st st' st1 : State al} {ino : Nat} {L : List Nat}
variable {x a b : Nat} {nv : Nvmm} {L' L1 : List Nat}

-- === relocation

/-- Where an entry was moved to. -/
def reloc : List (Nat × Nat) → Nat → Nat
  | [], x => x
  | (a, b) :: kept, x => if x = a then b else reloc kept x

/-- An entry that was not moved. -/
theorem reloc_of_notMem (h : x ∉ kept.map Prod.fst) : reloc kept x = x := by
  induction kept with
  | nil => rfl
  | cons q kept ih =>
    simp only [map_cons, mem_cons, not_or] at h
    simp only [reloc, if_neg h.1]
    exact ih h.2

/-- An entry that was moved. -/
theorem reloc_mem (h : x ∈ kept.map Prod.fst) : (x, reloc kept x) ∈ kept := by
  induction kept with
  | nil => cases h
  | cons q kept ih =>
    simp only [reloc]
    split
    · rename_i hx
      rw [hx]
      exact mem_cons_self
    rename_i hx
    simp only [map_cons, mem_cons] at h
    exact mem_cons_of_mem _ (ih (h.resolve_left hx))

/-- One more move. -/
theorem reloc_snoc (ha : a ∉ kept.map Prod.fst) (x : Nat) :
    reloc (kept ++ [(a, b)]) x = if x = a then b else reloc kept x := by
  induction kept with
  | nil => rfl
  | cons q kept ih =>
    obtain ⟨c, d⟩ := q
    simp only [map_cons, mem_cons, not_or] at ha
    simp only [cons_append, reloc, ih ha.2]
    by_cases hxc : x = c
    · have hca : c ≠ a := Ne.symm ha.1
      simp [hxc, hca]
    · simp [hxc]

/-- One more move, seen from the tree. -/
theorem redirect_reloc (ha : a ∉ kept.map Prod.fst) (ha' : a ∉ kept.map Prod.snd) (x : Nat) :
    (if reloc kept x = a then b else reloc kept x) = reloc (kept ++ [(a, b)]) x := by
  rw [reloc_snoc ha]
  by_cases hx : x ∈ kept.map Prod.fst
  · have hmem := reloc_mem hx
    have hne : reloc kept x ≠ a := by
      intro heq
      apply ha'
      rw [← heq]
      exact List.mem_map.2 ⟨_, hmem, rfl⟩
    have hxa : x ≠ a := fun h => ha (h ▸ hx)
    rw [if_neg hne, if_neg hxa]
  · rw [reloc_of_notMem hx]

-- === the tree

/-- An index of the tree under which an entry may stand: a page it
covers, or the hash of its name. -/
def LogEntry.HasKey : LogEntry → Nat → Prop
  | .fileWrite e, i => e.pgoff ≤ i ∧ i < e.pgoff + e.numPages
  | .dirLog d, i => i = bkdrHash d.name
  | _, _ => False

/-- The tree refers to entries under their own keys. -/
def KeysOk (nv : Nvmm) (t : Radix Nat) : Prop :=
  ∀ i a, t.get i = some a → (nv.slot a).HasKey i

/-- The tree after an entry was moved. -/
theorem novaGcAssignFileEntry_get (old new i : Nat) :
    ∀ (num start : Nat) (t : Radix Nat), (novaGcAssignFileEntry t old new start num).get i
        = if start ≤ i ∧ i < start + num ∧ t.get i = some old then some new else t.get i := by
  intro num
  induction num with
  | zero =>
    intro start t
    rw [if_neg (by omega)]
    rfl
  | succ num ih =>
    intro start t
    rw [novaGcAssignFileEntry, ih]
    by_cases hi : i = start
    · subst hi
      by_cases hget : t.get i = some old
      · simp [hget]
      · simp [hget]
    have hsame : (if t.get start = some old then t.set start new else t).get i = t.get i := by
      split
      · exact t.get_set_of_ne new hi
      · rfl
    rw [hsame]
    by_cases hget : t.get i = some old
    · by_cases hr : start + 1 ≤ i ∧ i < start + 1 + num
      · rw [if_pos ⟨hr.1, hr.2, hget⟩, if_pos ⟨by omega, by omega, hget⟩]
      · rw [if_neg (fun h => hr ⟨h.1, h.2.1⟩), if_neg (fun h => hr ⟨by omega, by omega⟩)]
    · rw [if_neg (fun h => hget h.2.2), if_neg (fun h => hget h.2.2)]

/-- Under its keys an entry is replaced by its copy. -/
theorem novaGcAssignNewEntry_tree {sih : InodeInfo} {p new : Nat}
    (hkeys : ∀ i, sih.tree.get i = some p → (nv.slot p).HasKey i) (i : Nat) :
    (novaGcAssignNewEntry nv sih p new).tree.get i
      = (sih.tree.get i).map fun x => if x = p then new else x := by
  have hother : (nv.slot p).HasKey i ∨ sih.tree.get i ≠ some p := by
    by_cases h : sih.tree.get i = some p
    · exact .inl (hkeys i h)
    · exact .inr h
  -- entries that never stand in a tree
  have hplain : sih.tree.get i ≠ some p →
      sih.tree.get i = (sih.tree.get i).map fun x => if x = p then new else x := by
    intro hne
    cases hget : sih.tree.get i with
    | none => rfl
    | some x =>
      have : x ≠ p := fun h => hne (by rw [hget, h])
      simp [this]
  simp only [novaGcAssignNewEntry]
  cases hs : nv.slot p with
  | fileWrite e =>
    rw [hs] at hother
    simp only [novaGcAssignFileEntry_get]
    by_cases hget : sih.tree.get i = some p
    · have hkey : e.pgoff ≤ i ∧ i < e.pgoff + e.numPages := hother.resolve_right fun h => h hget
      rw [if_pos ⟨hkey.1, hkey.2, hget⟩, hget]
      simp
    · rw [if_neg fun h => hget h.2.2]
      exact hplain hget
  | dirLog d =>
    rw [hs] at hother
    simp only [novaGcAssignDentry]
    by_cases hget : sih.tree.get i = some p
    · have hkey : i = bkdrHash d.name := hother.resolve_right fun h => h hget
      rw [← hkey, hget]
      simp
    rw [← hplain hget]
    by_cases hi : i = bkdrHash d.name
    · rw [← hi, if_neg hget]
    split
    · exact sih.tree.get_set_of_ne new hi
    · rfl
  | _ =>
    rw [hs] at hother
    exact hplain (hother.resolve_left id)

/-- The other fields stay. -/
theorem novaGcAssignNewEntry_fields (nv : Nvmm) (sih : InodeInfo) (p new : Nat) :
    (novaGcAssignNewEntry nv sih p new).logPages = sih.logPages ∧
      (novaGcAssignNewEntry nv sih p new).sihSize = sih.sihSize ∧
      (novaGcAssignNewEntry nv sih p new).iSize = sih.iSize ∧
      (novaGcAssignNewEntry nv sih p new).attrs = sih.attrs := by
  simp only [novaGcAssignNewEntry]
  split <;> exact ⟨rfl, rfl, rfl, rfl⟩

-- === moves

/-- The first two entries, if they followed each other and one page has
room for both, follow each other where they were moved to. -/
def FirstPair (nv : Nvmm) (kept : List (Nat × Nat)) : Prop :=
  ∀ q r K, kept = q :: r :: K → q.1 + (nv.slot q.1).size = r.1 →
    (nv.slot q.1).size + (nv.slot r.1).size ≤ LAST_ENTRY →
    q.2 + (nv.slot q.1).size = r.2

/-- A collection of the entries `L`: those in `kept` were moved with
their contents, the others were expendable, and the tree follows. -/
structure Moves (st st' : State al) (ino : Nat) (L : List Nat)
    (kept : List (Nat × Nat)) : Prop where
  sub : (kept.map Prod.fst).Sublist L
  same : ∀ q ∈ kept, st'.nv.slot q.2 = st.nv.slot q.1 ∧
    st'.nv.invalid q.2 = st.nv.invalid q.1
  dropped : ∀ a ∈ L, a ∉ kept.map Prod.fst → Expendable st.nv a
  tree : ∀ i, (st'.info ino).tree.get i
    = ((st.info ino).tree.get i).map (reloc kept)
  pair : FirstPair st.nv kept

/-- The entries where they are. -/
def stay (L : List Nat) : List (Nat × Nat) := L.map fun a => (a, a)

@[simp] theorem stay_fst (L : List Nat) : (stay L).map Prod.fst = L := by simp [stay, comp_def]

@[simp] theorem stay_snd (L : List Nat) : (stay L).map Prod.snd = L := by simp [stay, comp_def]

/-- Nothing is moved. -/
@[simp] theorem reloc_stay (L : List Nat) (x : Nat) : reloc (stay L) x = x := by
  by_cases hx : x ∈ L
  · have hfst : x ∈ (stay L).map Prod.fst := by simpa using hx
    obtain ⟨a, -, hpair⟩ := List.mem_map.1 (reloc_mem hfst)
    rw [Prod.mk.injEq] at hpair
    exact hpair.2.symm.trans hpair.1
  · exact reloc_of_notMem (by simpa using hx)

/-- No pair. -/
theorem FirstPair.nil (nv : Nvmm) : FirstPair nv [] := by
  intro q r K hk
  cases hk

/-- What stays keeps its distance. -/
theorem FirstPair.stay (nv : Nvmm) (L : List Nat) : FirstPair nv (stay L) := by
  intro q r K hk hnext _
  have hmem : ∀ x ∈ q :: r :: K, x.2 = x.1 := by
    rw [← hk]
    intro x hx
    obtain ⟨a, -, rfl⟩ := List.mem_map.1 hx
    rfl
  rw [hmem q (by simp), hmem r (by simp)]
  exact hnext

/-- Entries that stay, behind moved ones. -/
theorem FirstPair.append_stay {C : List Nat} (h : FirstPair nv kept)
    (hC : ∀ q ∈ kept, ∀ c ∈ C, q.1 + (nv.slot q.1).size ≠ c) :
    FirstPair nv (kept ++ Log.stay C) := by
  intro q r K hk hnext hroom
  rcases kept with _ | ⟨q', _ | ⟨r', kept⟩⟩
  · exact FirstPair.stay nv C q r K hk hnext hroom
  · rw [cons_append, nil_append, List.cons.injEq] at hk
    obtain ⟨rfl, hk⟩ := hk
    have hr : r ∈ Log.stay C := by simp [hk]
    obtain ⟨c, hc, rfl⟩ := List.mem_map.1 hr
    exact absurd hnext (hC q' (by simp) c hc)
  rw [cons_append, cons_append, List.cons.injEq, List.cons.injEq] at hk
  obtain ⟨rfl, rfl, -⟩ := hk
  exact h q' r' kept rfl hnext hroom

/-- Entries are dropped and none is moved. -/
theorem Moves.of_drop (hsub : L'.Sublist L) (hslot : ∀ a ∈ L', st'.nv.slot a = st.nv.slot a)
    (hinv : ∀ a ∈ L', st'.nv.invalid a = st.nv.invalid a)
    (hdrop : ∀ a ∈ L, a ∉ L' → Expendable st.nv a)
    (htree : (st'.info ino).tree.get = (st.info ino).tree.get) : Moves st st' ino L (stay L') where
  sub := by simpa using hsub
  same q hq := by
    obtain ⟨a, ha, rfl⟩ := List.mem_map.1 hq
    exact ⟨hslot a ha, hinv a ha⟩
  dropped a ha hna := hdrop a ha (by simpa using hna)
  tree i := by
    have hid : reloc (stay L') = id := by
      funext x
      exact reloc_stay L' x
    rw [htree, hid, Option.map_id]
    rfl
  pair := FirstPair.stay st.nv L'

/-- Dropping, then moving. -/
theorem Moves.drop_then (h1 : Moves st st1 ino L (stay L1)) (h : Moves st1 st' ino L1 kept) :
    Moves st st' ino L kept where
  sub := by
    have hL1 : L1.Sublist L := by simpa using h1.sub
    exact h.sub.trans hL1
  same q hq := by
    have hmem : q.1 ∈ L1 := h.sub.subset (List.mem_map.2 ⟨q, hq, rfl⟩)
    obtain ⟨h2, h3⟩ := h1.same (q.1, q.1) (List.mem_map.2 ⟨q.1, hmem, rfl⟩)
    obtain ⟨h4, h5⟩ := h.same q hq
    exact ⟨h4.trans h2, h5.trans h3⟩
  dropped a ha hna := by
    by_cases haL : a ∈ L1
    · have hexp := h.dropped a haL hna
      obtain ⟨h2, h3⟩ := h1.same (a, a) (List.mem_map.2 ⟨a, haL, rfl⟩)
      simp only [Expendable, h2, h3] at hexp
      exact hexp
    · exact h1.dropped a ha (by simpa using haL)
  tree i := by
    have hid : reloc (stay L1) = id := by
      funext x
      exact reloc_stay L1 x
    have h2 := h1.tree i
    rw [hid, Option.map_id] at h2
    rw [h.tree i, h2]
    rfl
  pair q r K hk := by
    have hslot : ∀ x ∈ kept, st1.nv.slot x.1 = st.nv.slot x.1 := by
      intro x hx
      have hmem : x.1 ∈ L1 := h.sub.subset (List.mem_map.2 ⟨x, hx, rfl⟩)
      exact (h1.same (x.1, x.1) (List.mem_map.2 ⟨x.1, hmem, rfl⟩)).1
    have hpair := h.pair q r K hk
    rw [hslot q (by simp [hk]), hslot r (by simp [hk])] at hpair
    exact hpair

-- === the last SET_ATTR entry

/-- The entry is a SET_ATTR entry. -/
def LogEntry.isSetAttr : LogEntry → Bool
  | .setAttr _ => true
  | _ => false

/-- Such an entry has attributes. -/
theorem LogEntry.exists_of_isSetAttr {e : LogEntry} (h : e.isSetAttr = true) :
    ∃ a, e = .setAttr a := by
  cases e with
  | setAttr a => exact ⟨a, rfl⟩
  | _ => cases h

/-- The entry sets the size. -/
def LogEntry.setsSize : LogEntry → Bool
  | .setAttr e => e.setsSize
  | _ => false

/-- What `last_setattr` becomes when the entries of `kept` are copied in
order: each SET_ATTR entry among them claims to be the last one. -/
def lastCopied (nv : Nvmm) (last : Nat) (kept : List (Nat × Nat)) : Nat :=
  kept.foldl (fun acc q => if (nv.slot q.1).isSetAttr then q.2 else acc) last

/-- One more copy. -/
theorem lastCopied_snoc (nv : Nvmm) (last a b : Nat) (kept : List (Nat × Nat)) :
    lastCopied nv last (kept ++ [(a, b)])
      = if (nv.slot a).isSetAttr then b else lastCopied nv last kept := by
  unfold lastCopied
  rw [foldl_append]
  rfl

/-- The last copied SET_ATTR entry, if there is one. -/
theorem lastCopied_cases (nv : Nvmm) (last : Nat) (kept : List (Nat × Nat)) :
    (lastCopied nv last kept = last ∧ ∀ q ∈ kept, (nv.slot q.1).isSetAttr = false) ∨
      ∃ q ∈ kept, (nv.slot q.1).isSetAttr = true ∧ lastCopied nv last kept = q.2 := by
  induction kept using reverseRecOn with
  | nil => exact .inl ⟨rfl, by simp⟩
  | append_singleton kept q ih =>
    obtain ⟨a, b⟩ := q
    rw [lastCopied_snoc]
    cases hq : (nv.slot a).isSetAttr with
    | true =>
      exact .inr ⟨(a, b), by simp, hq, rfl⟩
    | false =>
      rcases ih with ⟨hlast, hnone⟩ | ⟨q, hmem, hset, hlast⟩
      · refine .inl ⟨hlast, ?_⟩
        intro r hr
        rcases mem_append.1 hr with hr | hr
        · exact hnone r hr
        · rw [mem_singleton.1 hr]
          exact hq
      · exact .inr ⟨q, mem_append_left _ hmem, hset, hlast⟩

/-- What copying `kept` out of the entries `done` did to `last_setattr`:
an entry was copied for its size or because it was still taken for the
last one, and the last one is passed over only behind another copy. -/
structure SetattrCopied (st₀ st : State al) (ino : Nat) (done : List Nat)
    (kept : List (Nat × Nat)) : Prop where
  last : (st.info ino).lastSetattr
    = lastCopied st₀.nv (st₀.info ino).lastSetattr kept
  why : ∀ q ∈ kept, (st₀.nv.slot q.1).isSetAttr = true →
    (st₀.nv.slot q.1).setsSize = true ∨ q.1 = (st₀.info ino).lastSetattr
  found : (st₀.info ino).lastSetattr ∈ done →
    (st₀.nv.slot (st₀.info ino).lastSetattr).isSetAttr = true →
    (st₀.info ino).lastSetattr ∈ kept.map Prod.fst ∨
      ∃ q ∈ kept, (st₀.nv.slot q.1).isSetAttr = true

/-- `last_setattr` after a collection: it was not touched and nothing was
moved, or entries were copied. -/
def SetattrFollows (st st' : State al) (ino : Nat) (L : List Nat)
    (kept : List (Nat × Nat)) : Prop :=
  ((st'.info ino).lastSetattr = (st.info ino).lastSetattr ∧
    (∀ q ∈ kept, q.2 = q.1) ∧
    ((st.info ino).lastSetattr ∈ L →
      (st.nv.slot (st.info ino).lastSetattr).isSetAttr = true →
      (st.info ino).lastSetattr ∈ kept.map Prod.fst)) ∨
  SetattrCopied st st' ino L kept

/-- Only the inode matters. -/
theorem SetattrFollows.congr (h : SetattrFollows st st1 ino L kept) (hinfo : st'.info = st1.info) :
    SetattrFollows st st' ino L kept := by
  rcases h with ⟨h1, h2, h3⟩ | ⟨h1, h2, h3⟩
  · exact .inl ⟨by rw [hinfo]; exact h1, h2, h3⟩
  · exact .inr ⟨by rw [hinfo]; exact h1, h2, h3⟩

/-- No entry was copied. -/
theorem SetattrFollows.of_stay (hlast : (st'.info ino).lastSetattr = (st.info ino).lastSetattr)
    (hkeep : (st.info ino).lastSetattr ∈ L →
      (st.nv.slot (st.info ino).lastSetattr).isSetAttr = true → (st.info ino).lastSetattr ∈ L') :
    SetattrFollows st st' ino L (stay L') := by
  refine .inl ⟨hlast, ?_, ?_⟩
  · intro q hq
    obtain ⟨a, -, rfl⟩ := List.mem_map.1 hq
    rfl
  · rw [stay_fst]
    exact hkeep

/-- Dropping, then copying. -/
theorem SetattrFollows.drop_then (h : SetattrFollows st1 st' ino L1 kept)
    (hsub : ∀ q ∈ kept, q.1 ∈ L1) (hslot : ∀ a ∈ L1, st1.nv.slot a = st.nv.slot a)
    (hlast : (st1.info ino).lastSetattr = (st.info ino).lastSetattr)
    (hkeep : (st.info ino).lastSetattr ∈ L →
      (st.nv.slot (st.info ino).lastSetattr).isSetAttr = true → (st.info ino).lastSetattr ∈ L1) :
    SetattrFollows st st' ino L kept := by
  have hq : ∀ q ∈ kept, st1.nv.slot q.1 = st.nv.slot q.1 := fun q hq =>
    hslot q.1 (hsub q hq)
  rcases h with ⟨h1, h2, h3⟩ | ⟨h1, h2, h3⟩
  · refine .inl ⟨h1.trans hlast, h2, fun hin hset => ?_⟩
    have hin1 := hkeep hin hset
    rw [hlast] at h3
    exact h3 hin1 (by rw [hslot _ hin1]; exact hset)
  have hcopied : lastCopied st1.nv (st1.info ino).lastSetattr kept
      = lastCopied st.nv (st.info ino).lastSetattr kept := by
    rw [hlast]
    apply foldl_ext
    intro acc q hmem
    rw [hq q hmem]
  refine .inr ⟨h1.trans hcopied, ?_, ?_⟩
  · intro q hmem hset
    rw [← hq q hmem] at hset ⊢
    rw [← hlast]
    exact h2 q hmem hset
  intro hin hset
  have hin1 := hkeep hin hset
  rw [hlast] at h3
  rcases h3 hin1 (by rw [hslot _ hin1]; exact hset) with h4 | ⟨q, hmem, h4⟩
  · exact .inl h4
  · exact .inr ⟨q, hmem, by rw [← hq q hmem]; exact h4⟩

end Themis.Log
