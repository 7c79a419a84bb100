/-
What the repair of the super block and a rejected remount leave behind.

# Repair

Magic number and checksum are tested one after the other, with a repair in
between that stores a fresh checksum. A second copy that passes one of the
two tests is thus taken for whole, whatever the other one says of it
(`repair_sound_iff`).

# Remount

The words in front of a bad one have taken effect. The flags and the mount
options are put back; group, mode and debug mask keep what the last
accepted word about each of them said (`parseTokens_eq`).
-/
import Themis.Lib.LastEvent
import Themis.Super

namespace Themis.Super

open Lib

-- === repair

variable (crc16 : Statics → Nat) (now : Nat)

/-- A copy with the right magic number. -/
def HasMagic (ps : SuperBlock) : Prop := ps.statics.magic = NOVA_SUPER_MAGIC

/-- A copy whose checksum matches. -/
def HasSum (ps : SuperBlock) : Prop := ps.sum = crc16 ps.statics

/-- Magic and checksum are right. -/
def Intact (ps : SuperBlock) : Prop := HasMagic ps ∧ HasSum crc16 ps

/-- The checked part is the same. -/
def SameStatic (a b : SuperBlock) : Prop := a.sum = b.sum ∧ a.statics = b.statics

/-- A check that passes leaves in the first copy what an intact copy had,
and leaves an intact first copy alone. -/
def Sound (c : Copies) (r : Nat × Copies) : Prop :=
  (r.1 = 1 → ∃ ps, (ps = c.primary ∨ ps = c.redund) ∧ Intact crc16 ps ∧
      SameStatic r.2.primary ps) ∧
    (Intact crc16 c.primary → SameStatic r.2.primary c.primary)

variable {crc16 now}

/-- When the checksum is accepted. -/
theorem novaCalcChecksum_eq_zero {ps : SuperBlock} :
    novaCalcChecksum crc16 ps = 0 ↔ HasSum crc16 ps := by
  unfold novaCalcChecksum HasSum
  split
  · rename_i h
    simp [h]
  · rename_i h
    simp [h]

/-- A repair ends with a right checksum. -/
theorem hasSum_repair (c : Copies) : HasSum crc16 (repair crc16 now c).primary := rfl

/-- Returning 0 with nothing changed is sound. -/
theorem sound_of_zero {c : Copies} {r : Nat × Copies} (hr : r.1 = 0) (hc : r.2 = c) :
    Sound crc16 c r := by
  refine ⟨fun h => ?_, fun _ => ?_⟩
  · rw [hr] at h
    cases h
  · rw [hc]
    exact ⟨rfl, rfl⟩

/-- When a repair is sound. -/
theorem sound_repair_iff {c : Copies} (hbad : ¬ Intact crc16 c.primary) :
    Sound crc16 c (1, repair crc16 now c) ↔ Intact crc16 c.redund := by
  constructor
  · intro h
    obtain ⟨ps, hps, hintact, -⟩ := h.1 rfl
    rcases hps with rfl | rfl
    · exact absurd hintact hbad
    · exact hintact
  intro h
  refine ⟨fun _ => ⟨c.redund, .inr rfl, h, ?_⟩, fun h' => absurd h' hbad⟩
  -- the new checksum is the one the copy had
  exact ⟨h.2.symm, rfl⟩

/-- The check of the super block blesses no damage exactly if the second
copy, where it is needed, passes both tests or fails the one it is asked
for. -/
theorem repair_sound_iff (crc16 : Statics → Nat) (now : Nat) (c : Copies) :
    Sound crc16 c (novaCheckIntegrity crc16 now c) ↔
      (¬ HasMagic c.primary → HasMagic c.redund → HasSum crc16 c.redund) ∧
      (HasMagic c.primary → ¬ HasSum crc16 c.primary →
        HasSum crc16 c.redund → HasMagic c.redund) := by
  unfold novaCheckIntegrity
  by_cases hm : HasMagic c.primary
  · have hmagic : ¬ c.primary.statics.magic ≠ NOVA_SUPER_MAGIC := not_not.2 hm
    rw [if_neg fun h => hmagic h.1]
    simp only
    rw [if_neg hmagic]
    simp only [hm, not_true_eq_false, false_imp_iff, true_imp_iff, true_and]
    by_cases hs : HasSum crc16 c.primary
    · rw [if_neg (not_not.2 (novaCalcChecksum_eq_zero.2 hs))]
      simp only [hs, not_true_eq_false, false_imp_iff, iff_true]
      exact ⟨fun _ => ⟨_, .inl rfl, ⟨hm, hs⟩, rfl, rfl⟩, fun _ => ⟨rfl, rfl⟩⟩
    rw [if_pos (mt novaCalcChecksum_eq_zero.1 hs)]
    simp only [hs, not_false_eq_true, true_imp_iff]
    by_cases hr : HasSum crc16 c.redund
    · rw [if_neg (not_not.2 (novaCalcChecksum_eq_zero.2 hr)), sound_repair_iff fun h => hs h.2]
      simp [Intact, hr]
    rw [if_pos (mt novaCalcChecksum_eq_zero.1 hr)]
    simp only [hr, false_imp_iff, iff_true]
    exact sound_of_zero rfl rfl
  simp only [hm, not_false_eq_true, true_imp_iff, false_imp_iff, and_true]
  by_cases hr : HasMagic c.redund
  · rw [if_neg fun h => h.2 hr]
    have hmagic : c.primary.statics.magic ≠ NOVA_SUPER_MAGIC := hm
    rw [if_pos hmagic, if_neg (not_not.2 (novaCalcChecksum_eq_zero.2 (hasSum_repair c))),
      sound_repair_iff fun h => hm h.1]
    simp [Intact, hr]
  rw [if_pos ⟨hm, hr⟩]
  simp only [hr, false_imp_iff, iff_true]
  exact sound_of_zero rfl rfl

/-- Both copies damaged: the first has no magic number, the second has it
but not the checksum 7. -/
def damaged : Copies :=
  ⟨⟨7, ⟨0, 0, 0, 4096, 65536, []⟩, 0, 0, 0, 0⟩,
    ⟨8, ⟨0, NOVA_SUPER_MAGIC, 0, 4096, 1, []⟩, 0, 0, 0, 0⟩⟩

/-- The check passes, with the size of the damaged copy. -/
theorem repair_blesses_damage :
    (novaCheckIntegrity (fun _ => 7) 0 damaged).1 = 1 ∧
      ¬ Intact (fun _ => 7) damaged.primary ∧ ¬ Intact (fun _ => 7) damaged.redund ∧
      ¬ Sound (fun _ => 7) damaged (novaCheckIntegrity (fun _ => 7) 0 damaged) := by
  have hp : ¬ Intact (fun _ => 7) damaged.primary := fun h =>
    absurd (show damaged.primary.statics.magic = NOVA_SUPER_MAGIC from h.1) (by decide)
  have hr : ¬ Intact (fun _ => 7) damaged.redund := fun h =>
    absurd (show damaged.redund.sum = 7 from h.2) (by decide)
  refine ⟨by decide, hp, hr, fun h => ?_⟩
  obtain ⟨ps, hps, hintact, -⟩ := h.1 (by decide)
  rcases hps with rfl | rfl
  · exact hp hintact
  · exact hr hintact

-- === remount

variable {makeKuid makeKgid : Int → Nat} {o o' : Options}

/-- What a remount accepts. -/
def Token.accepted : Token → Bool
  | .gid n => n.isSome
  | .mode n => n.isSome
  | .dbgmask n => n.isSome
  | .errCont => true
  | .errPanic => true
  | .errRo => true
  | _ => false

/-- The group a token sets. -/
def Token.setsGid (makeKgid : Int → Nat) : Token → Option Nat
  | .gid n => n.map makeKgid
  | _ => none

/-- The mode a token sets. -/
def Token.setsMode : Token → Option (BitVec 32)
  | .mode n => n.map fun n => BitVec.ofInt 32 n &&& 0o1777
  | _ => none

/-- The mask a token sets. -/
def Token.setsDbgmask : Token → Option (BitVec 32)
  | .dbgmask n => n.map fun n => BitVec.ofInt 32 n
  | _ => none

/-- The options after accepted words, up to the mount options. -/
structure Parsed (makeKgid : Int → Nat) (ts : List Token) (o o' : Options) : Prop where
  sFlags : o'.sFlags = o.sFlags
  uid : o'.uid = o.uid
  bpi : o'.bpi = o.bpi
  gid : o'.gid = (lastEvent (Token.setsGid makeKgid) ts).getD o.gid
  mode : o'.mode = (lastEvent Token.setsMode ts).getD o.mode
  dbgmask : o'.dbgmask = (lastEvent Token.setsDbgmask ts).getD o.dbgmask

/-- A token is refused, or takes effect. -/
theorem applyToken_cases (makeKuid makeKgid : Int → Nat) (o : Options) (t : Token) :
    (t.accepted = false ∧ applyToken makeKuid makeKgid true o t = none) ∨
      (t.accepted = true ∧ ∃ o', applyToken makeKuid makeKgid true o t = some o' ∧
        Parsed makeKgid [t] o o') := by
  cases t
  case gid n | mode n | dbgmask n =>
    cases n with
    | none => exact .inl ⟨rfl, rfl⟩
    | some n => exact .inr ⟨rfl, _, rfl, rfl, rfl, rfl, rfl, rfl, rfl⟩
  case errCont | errPanic | errRo => exact .inr ⟨rfl, _, rfl, rfl, rfl, rfl, rfl, rfl, rfl⟩
  all_goals exact .inl ⟨rfl, rfl⟩

/-- One more token. -/
theorem Parsed.cons {t : Token} {ts : List Token} {o1 : Options}
    (h : Parsed makeKgid [t] o o1) (h' : Parsed makeKgid ts o1 o') :
    Parsed makeKgid (t :: ts) o o' := by
  have hgetD : ∀ {β : Type} (x y : Option β) (d : β),
      x.getD ((none.or y).getD d) = (x.or y).getD d := by
    intro β x y d
    cases x <;> rfl
  refine ⟨h'.sFlags.trans h.sFlags, h'.uid.trans h.uid, h'.bpi.trans h.bpi, ?_, ?_, ?_⟩
  · rw [h'.gid, h.gid]
    exact hgetD _ _ _
  · rw [h'.mode, h.mode]
    exact hgetD _ _ _
  · rw [h'.dbgmask, h.dbgmask]
    exact hgetD _ _ _

/-- The tokens up to the first refused one. -/
theorem parseTokens_eq (ts : List Token) : Parsed makeKgid (ts.takeWhile Token.accepted) o
      (parseTokens makeKuid makeKgid true o ts).2 := by
  induction ts generalizing o with
  | nil => exact ⟨rfl, rfl, rfl, rfl, rfl, rfl⟩
  | cons t ts ih =>
    unfold parseTokens
    rcases applyToken_cases makeKuid makeKgid o t with ⟨hacc, happ⟩ | ⟨hacc, o1, happ, hone⟩
    · rw [happ, List.takeWhile_cons_of_neg (by simp [hacc])]
      exact ⟨rfl, rfl, rfl, rfl, rfl, rfl⟩
    · rw [happ, List.takeWhile_cons_of_pos hacc]
      exact hone.cons ih

/-- A remount that is refused leaves everything as it was exactly if the
last words about group, mode and debug mask in front of the bad one, if
there are any, say what held before. -/
theorem rejected_remount_iff (makeKuid makeKgid : Int → Nat) (o : Options) (options : List Char)
    (herr : (novaRemount makeKuid makeKgid o (some options)).1 ≠ 0) :
    (novaRemount makeKuid makeKgid o (some options)).2 = o ↔
      (lastEvent (Token.setsGid makeKgid) ((tokensOf options).takeWhile Token.accepted)).getD
          o.gid = o.gid ∧
        (lastEvent Token.setsMode ((tokensOf options).takeWhile Token.accepted)).getD
          o.mode = o.mode ∧
        (lastEvent Token.setsDbgmask ((tokensOf options).takeWhile Token.accepted)).getD
          o.dbgmask = o.dbgmask := by
  have hparsed : Parsed makeKgid ((tokensOf options).takeWhile Token.accepted) o
      (novaParseOptions makeKuid makeKgid true o (some options)).2 := parseTokens_eq _
  unfold novaRemount at herr ⊢
  simp only at herr ⊢
  split
  · rw [← hparsed.gid, ← hparsed.mode, ← hparsed.dbgmask]
    constructor
    · intro h
      have hgid := congrArg Options.gid h
      have hmode := congrArg Options.mode h
      have hmask := congrArg Options.dbgmask h
      exact ⟨hgid, hmode, hmask⟩
    · rintro ⟨hgid, hmode, hmask⟩
      rw [hgid, hmode, hmask, hparsed.uid, hparsed.bpi]
  rename_i hgood
  rw [if_neg hgood] at herr
  exact absurd rfl herr

/-- The options of a mount. -/
def mounted : Options := ⟨0, 0x110, 0, 0, 0o755, 0, 0⟩

/-- A bad word behind a group that is set and set back. -/
theorem rejected_remount_iff_set_back :
    (novaRemount Int.toNat Int.toNat mounted (some "gid=5,gid=0,foo".toList)).1 ≠ 0 ∧
      (novaRemount Int.toNat Int.toNat mounted (some "gid=5,gid=0,foo".toList)).2 = mounted := by
  have herr : (novaRemount Int.toNat Int.toNat mounted (some "gid=5,gid=0,foo".toList)).1 ≠ 0 := by
    decide +kernel
  refine ⟨herr, (rejected_remount_iff _ _ _ _ herr).2 ?_⟩
  decide +kernel

/-- And behind it: the group is changed, and so is the debug mask. -/
theorem rejected_remount_changes_group :
    (novaRemount Int.toNat Int.toNat mounted (some "gid=5,dbgmask=0x10,foo".toList)).1 = -EINVAL ∧
      (novaRemount Int.toNat Int.toNat mounted (some "gid=5,dbgmask=0x10,foo".toList)).2
        = { mounted with gid := 5, dbgmask := 16 } := by decide +kernel

end Themis.Super
