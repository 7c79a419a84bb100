/-
Persistent memory behind a write-back cache. A store becomes durable
once its line has been written back and a fence has passed; a
non-temporal store needs only the fence. A crash keeps what is durable
and any part of what is not.

# Parameters

`M` is the memory, `S` a store to it and `F` what one flush call covers.
`Pmem.covers f s` says that the flush writes back the line of `s`,
`Pmem.hits s s'` that the non-temporal store `s` forces out the line of
an earlier store `s'`.
-/
import Mathlib.Data.List.Sublists

namespace Themis.Lib

open List Function

/-- What a program does to persistent memory, in order. -/
inductive Event (S F : Type) where
  | store (s : S)
  | ntStore (s : S)
  | flush (f : F)
  | fence
  deriving Repr, DecidableEq

/-- The effect of stores and flushes. -/
structure Pmem (M S F : Type) where
  apply : M → S → M
  covers : F → S → Bool
  hits : S → S → Bool

namespace Pmem

variable {M S F : Type} (pm : Pmem M S F)
variable {m' : M} {evs : List (Event S F)}

/-- What has reached the medium, and the stores that have not, oldest
first, each with a mark that says its line has been written back. -/
structure Cache (M S : Type) where
  durable : M
  pending : List (S × Bool)

/-- One event. -/
def step (c : Cache M S) : Event S F → Cache M S
  | .store s => { c with pending := c.pending ++ [(s, false)] }
  | .ntStore s =>
    { c with
      pending := c.pending.map (fun q => (q.1, q.2 || pm.hits s q.1))
        ++ [(s, true)] }
  | .flush f =>
    { c with pending := c.pending.map fun q => (q.1, q.2 || pm.covers f q.1) }
  | .fence =>
    { durable := ((c.pending.filter (·.2)).map (·.1)).foldl pm.apply c.durable
      pending := c.pending.filter fun q => !q.2 }

/-- A sequence of events. -/
def exec (c : Cache M S) (evs : List (Event S F)) : Cache M S :=
  evs.foldl pm.step c

/-- What the program sees. -/
def view (c : Cache M S) : M :=
  (c.pending.map (·.1)).foldl pm.apply c.durable

/-- A memory a crash can leave: any part of the pending stores has
reached the medium. -/
def Image (c : Cache M S) (m : M) : Prop :=
  ∃ kept, List.Sublist kept (c.pending.map (·.1)) ∧
    m = kept.foldl pm.apply c.durable

/-- A crash may keep the stores that `p` selects. -/
theorem image_filter (c : Cache M S) (p : S → Bool) :
    pm.Image c (((c.pending.map (·.1)).filter p).foldl pm.apply c.durable) :=
  ⟨_, filter_sublist, rfl⟩

/-- Events one part after the other. -/
theorem exec_append (c : Cache M S) (A B : List (Event S F)) :
    pm.exec c (A ++ B) = pm.exec (pm.exec c A) B := by simp [exec]

/-- Non-temporal stores wait for a fence only. -/
theorem exec_ntStores (m : M) (A : List S) :
    pm.exec (F := F) ⟨m, []⟩ (A.map .ntStore) = ⟨m, A.map fun s => (s, true)⟩ := by
  induction A using reverseRecOn with
  | nil => rfl
  | append_singleton A s ih =>
    rw [map_append, exec_append, ih]
    simp [exec, step, comp_def]

/-- Stores wait for a flush. -/
theorem exec_stores (c : Cache M S) (D : List S) :
    pm.exec (F := F) c (D.map .store) = ⟨c.durable, c.pending ++ D.map fun s => (s, false)⟩ := by
  induction D generalizing c with
  | nil => simp [exec]
  | cons s D ih =>
    show pm.exec (pm.step c (.store s)) (D.map .store) = _
    rw [ih]
    simp [step]

/-- What is stored on the way. -/
def stored : List (Event S F) → List S
  | [] => []
  | .store s :: evs => s :: stored evs
  | .ntStore s :: evs => s :: stored evs
  | .flush _ :: evs => stored evs
  | .fence :: evs => stored evs

/-- The stores of two parts. -/
theorem stored_append (A B : List (Event S F)) : stored (A ++ B) = stored A ++ stored B := by
  induction A with
  | nil => rfl
  | cons e A ih => cases e <;> simp [stored, ih]

/-- What is durable was made of stores from `K`, and so is what is
pending. -/
structure MadeOf (m : M) (K : S → Prop) (c : Cache M S) : Prop where
  durable : ∃ ks : List S, (∀ s ∈ ks, K s) ∧ c.durable = ks.foldl pm.apply m
  pending : ∀ q ∈ c.pending, K q.1

variable {pm} {m : M} {K : S → Prop} {c : Cache M S}

/-- One event with stores from `K`. -/
theorem MadeOf.step {e : Event S F} (h : pm.MadeOf m K c) (he : ∀ s ∈ stored [e], K s) :
    pm.MadeOf m K (pm.step c e) := by
  cases e with
  | store s =>
    refine ⟨h.durable, ?_⟩
    intro q hq
    rcases mem_append.1 hq with hq | hq
    · exact h.pending q hq
    · rw [mem_singleton.1 hq]
      exact he s (by simp [stored])
  | ntStore s =>
    refine ⟨h.durable, ?_⟩
    intro q hq
    rcases mem_append.1 hq with hq | hq
    · obtain ⟨r, hr, rfl⟩ := List.mem_map.1 hq
      exact h.pending r hr
    · rw [mem_singleton.1 hq]
      exact he s (by simp [stored])
  | flush f =>
    refine ⟨h.durable, ?_⟩
    intro q hq
    obtain ⟨r, hr, rfl⟩ := List.mem_map.1 hq
    exact h.pending r hr
  | fence =>
    obtain ⟨ks, hks, hd⟩ := h.durable
    refine ⟨⟨ks ++ (c.pending.filter (·.2)).map (·.1), ?_, ?_⟩, ?_⟩
    · intro s hs
      rcases mem_append.1 hs with hs | hs
      · exact hks s hs
      · obtain ⟨q, hq, rfl⟩ := List.mem_map.1 hs
        exact h.pending q (mem_filter.1 hq).1
    · rw [foldl_append, ← hd]
      rfl
    · intro q hq
      exact h.pending q (mem_filter.1 hq).1

/-- Any events with stores from `K`. -/
theorem MadeOf.exec (h : pm.MadeOf m K c) (evs : List (Event S F))
    (hevs : ∀ s ∈ stored evs, K s) : pm.MadeOf m K (pm.exec c evs) := by
  induction evs generalizing c with
  | nil => exact h
  | cons e evs ih =>
    have happ : stored (e :: evs) = stored [e] ++ stored evs := stored_append [e] evs
    rw [happ] at hevs
    apply ih (h.step fun s hs => hevs s (mem_append_left _ hs))
    exact fun s hs => hevs s (mem_append_right _ hs)

/-- A crash leaves something made of stores from `K`. -/
theorem MadeOf.image (h : pm.MadeOf m K c) (hi : pm.Image c m') :
    ∃ ks : List S, (∀ s ∈ ks, K s) ∧ m' = ks.foldl pm.apply m := by
  obtain ⟨ks, hks, hd⟩ := h.durable
  obtain ⟨kept, hsub, rfl⟩ := hi
  refine ⟨ks ++ kept, ?_, by rw [foldl_append, ← hd]⟩
  intro s hs
  rcases mem_append.1 hs with hs | hs
  · exact hks s hs
  · obtain ⟨q, hq, rfl⟩ := List.mem_map.1 (hsub.subset hs)
    exact h.pending q hq

end Pmem

end Themis.Lib
