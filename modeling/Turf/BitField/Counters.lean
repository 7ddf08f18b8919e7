import Mathlib.Data.Nat.ModEq
import Mathlib.Logic.Function.Basic
import Turf.BitField.Model
import Turf.Lib.Schedule

/-!
# Bit fields as independent counters

The operations on a word do to its fields what the same operations do to a record of
numbers, each with a bound of its own. Where an assertion admits a sum that has wrapped
around, the operand added to the word wraps around with it.
-/
namespace Turf.BitField

open Turf.Lib.Schedule Turf.Lib.Slices

variable {T : StorageType} {f : Field} {value v : Word T}

/-! ## Promoted arithmetic -/

theorem bits_le_promoted (T : StorageType) : T.bits ≤ T.promoted := by cases T <;> decide

theorem narrow (h : T.toInt = true) : T.bits ≤ 16 ∧ T.promoted = 32 := by
  cases T with
  | u8 => decide
  | u16 => decide
  | u32 => cases h
  | u64 => cases h

theorem promoted_of_wide (h : ¬ T.toInt = true) : T.promoted = T.bits := by
  cases T with
  | u8 => exact absurd (Eq.refl true) h
  | u16 => exact absurd (Eq.refl true) h
  | u32 => rfl
  | u64 => rfl

theorem toNat_lt_of_narrow (h : T.toInt = true) (x : Word T) : x.toNat < 2 ^ 16 :=
  Nat.lt_of_lt_of_le x.isLt (Nat.pow_le_pow_right (by decide) (narrow h).1)

@[simp] theorem promote_toNat (x : Word T) : (promote x).toNat = x.toNat :=
  BitVec.toNat_setWidth_of_le (bits_le_promoted T)

@[simp] theorem convert_toNat (x : BitVec T.promoted) :
    (convert x).toNat = x.toNat % 2 ^ T.bits := BitVec.toNat_setWidth T.bits x

/-- The value can be a promoted one or the sum of two: as an `int` it is not negative. -/
def Small (T : StorageType) (x : BitVec T.promoted) : Prop :=
  T.toInt = true → x.msb = false

theorem small_of_lt {x : BitVec T.promoted} (h : T.toInt = true → x.toNat < 2 ^ 31) :
    Small T x := by
  intro hint
  have hx := h hint
  have hwidth : 2 ^ T.promoted = 2 ^ 32 := congrArg (2 ^ ·) (narrow hint).2
  rw [BitVec.msb_eq_false_iff_two_mul_lt, hwidth]
  omega

theorem small_promote (x : Word T) : Small T (promote x) := by
  apply small_of_lt
  intro hint
  rw [promote_toNat]
  have hx := toNat_lt_of_narrow hint x
  omega

theorem shiftRight_toNat {x : BitVec T.promoted} (hx : Small T x) (k : Nat) :
    (shiftRight T x k).toNat = x.toNat / 2 ^ k := by
  unfold shiftRight
  split
  next hint =>
    rw [BitVec.sshiftRight_eq_of_msb_false (hx hint), BitVec.toNat_ushiftRight,
      Nat.shiftRight_eq_div_pow]
  next => rw [BitVec.toNat_ushiftRight, Nat.shiftRight_eq_div_pow]

theorem lessEq_iff {x y : BitVec T.promoted} (hx : Small T x) (hy : Small T y) :
    lessEq T x y = true ↔ x.toNat ≤ y.toNat := by
  unfold lessEq
  split
  next hint =>
    rw [BitVec.sle_iff_toInt_le, BitVec.toInt_eq_toNat_of_msb (hx hint),
      BitVec.toInt_eq_toNat_of_msb (hy hint)]
    exact Int.ofNat_le
  next => rw [BitVec.ule_iff_toNat_le]

/-- The sum of two values of the storage type in the arithmetic it is promoted to. -/
def sum (T : StorageType) (a b : Nat) : Nat :=
  if T.toInt then a + b else (a + b) % 2 ^ T.bits

theorem promote_add_toNat (x y : Word T) :
    (promote x + promote y).toNat = sum T x.toNat y.toNat := by
  rw [BitVec.toNat_add, promote_toNat, promote_toNat, sum]
  split
  next hint =>
    have hx := toNat_lt_of_narrow hint x
    have hy := toNat_lt_of_narrow hint y
    rw [(narrow hint).2]
    exact Nat.mod_eq_of_lt (by omega)
  next hwide => rw [promoted_of_wide hwide]

theorem small_add (x y : Word T) : Small T (promote x + promote y) := by
  apply small_of_lt
  intro hint
  have hx := toNat_lt_of_narrow hint x
  have hy := toNat_lt_of_narrow hint y
  rw [promote_add_toNat, sum, if_pos hint]
  omega

theorem sum_modEq (a b : Nat) : sum T a b ≡ a + b [MOD 2 ^ T.bits] := by
  unfold sum
  split
  next => rfl
  next => exact Nat.mod_modEq _ _

/-! ## One field -/

/-- What the static assertions say of a field. -/
structure Field.Fits (T : StorageType) (f : Field) : Prop where
  fits : f.offset + f.bits ≤ T.bits
  narrow : f.bits < T.bits

namespace Field

theorem Fits.maximum_toNat (h : f.Fits T) : (f.maximum T).toNat = 2 ^ f.bits - 1 := by
  have hle := bits_le_promoted T
  have hpow : 2 ^ f.bits < 2 ^ T.bits := Nat.pow_lt_pow_right (by decide) h.narrow
  have hpow' : 2 ^ T.bits ≤ 2 ^ T.promoted := Nat.pow_le_pow_right (by decide) hle
  have hpos : 0 < 2 ^ f.bits := Nat.two_pow_pos f.bits
  have hone : 1 < 2 ^ T.promoted := by omega
  have hshift : (promote (1#T.bits) <<< f.bits).toNat = 2 ^ f.bits := by
    rw [BitVec.toNat_shiftLeft, promote_toNat, BitVec.toNat_ofNat, Nat.one_mod_eq_one.mpr (by omega),
      Nat.one_shiftLeft, Nat.mod_eq_of_lt (by omega)]
  have hsub : (promote (1#T.bits) <<< f.bits - 1#T.promoted).toNat = 2 ^ f.bits - 1 := by
    rw [BitVec.toNat_sub_of_le, hshift, BitVec.toNat_ofNat, Nat.mod_eq_of_lt hone]
    rw [BitVec.le_def, hshift, BitVec.toNat_ofNat, Nat.mod_eq_of_lt hone]
    omega
  rw [maximum, convert_toNat, hsub, Nat.mod_eq_of_lt (by omega)]

theorem Fits.get_toNat (h : f.Fits T) (value : Word T) :
    (f.get value).toNat = slice value.toNat f.offset f.bits := by
  have hlt := slice_lt value.toNat f.offset f.bits
  have hpow : 2 ^ f.bits < 2 ^ T.bits := Nat.pow_lt_pow_right (by decide) h.narrow
  rw [get, convert_toNat, BitVec.toNat_and, shiftRight_toNat (small_promote value), promote_toNat,
    promote_toNat, h.maximum_toNat, Nat.and_two_pow_sub_one_eq_mod]
  exact Nat.mod_eq_of_lt (by unfold slice at hlt; omega)

theorem Fits.get_lt (h : f.Fits T) (value : Word T) : (f.get value).toNat < 2 ^ f.bits := by
  rw [h.get_toNat]
  exact slice_lt _ _ _

/-- The word with `y` in the field. -/
def put (f : Field) (value : Word T) (y : Nat) : Word T :=
  BitVec.ofNat T.bits (Lib.Slices.put value.toNat f.offset f.bits y)

theorem Fits.put_toNat (h : f.Fits T) (value : Word T) {y : Nat} (hy : y < 2 ^ f.bits) :
    (f.put value y).toNat = Lib.Slices.put value.toNat f.offset f.bits y := by
  rw [put, BitVec.toNat_ofNat]
  exact Nat.mod_eq_of_lt (put_lt hy value.isLt h.fits)

theorem Fits.maximum_getLsbD (h : f.Fits T) (i : Nat) :
    (f.maximum T).getLsbD i = decide (i < f.bits) := by
  rw [← BitVec.testBit_toNat, h.maximum_toNat, Nat.testBit_two_pow_sub_one]

theorem Fits.mask_getLsbD (h : f.Fits T) {i : Nat} (hi : i < T.bits) :
    (f.mask T).getLsbD i = decide (Lib.Slices.Covers f.offset f.bits i) := by
  have hpromoted := bits_le_promoted T
  rw [mask, convert, BitVec.getLsbD_setWidth, BitVec.getLsbD_shiftLeft, promote,
    BitVec.getLsbD_setWidth, h.maximum_getLsbD]
  by_cases hc : Lib.Slices.Covers f.offset f.bits i
  · obtain ⟨hlow, hhigh⟩ := hc
    simp [Lib.Slices.Covers, hlow, hhigh, show ¬ i < f.offset by omega, hi,
      show i < T.promoted by omega, show i - f.offset < T.promoted by omega,
      show i - f.offset < f.bits by omega]
  · by_cases hoff : i < f.offset
    · simp [hc, hoff]
    · have hbits : ¬ i - f.offset < f.bits := fun hlt => hc ⟨by omega, by omega⟩
      simp [hc, hbits]

/-- The masked word with the shifted operand is the word with the operand in the field. -/
theorem Fits.assign_put (h : f.Fits T) (value : Word T) {v : Word T} (hv : v.toNat < 2 ^ f.bits) :
    convert ((promote value &&& ~~~promote (f.mask T)) ||| (promote v <<< f.offset)) =
      f.put value v.toNat := by
  have hpromoted := bits_le_promoted T
  apply BitVec.eq_of_getLsbD_eq
  intro i hi
  rw [put, BitVec.getLsbD_ofNat, testBit_put hv, BitVec.testBit_toNat, BitVec.testBit_toNat, convert,
    BitVec.getLsbD_setWidth, BitVec.getLsbD_or, BitVec.getLsbD_and, BitVec.getLsbD_not,
    BitVec.getLsbD_shiftLeft]
  simp only [promote, BitVec.getLsbD_setWidth, h.mask_getLsbD hi]
  have hip : i < T.promoted := by omega
  have hip' : i - f.offset < T.promoted := by omega
  by_cases hc : Lib.Slices.Covers f.offset f.bits i
  · simp [hc, hi, hip, hip', show ¬ i < f.offset from fun hlt => absurd hc.1 (by omega)]
  · have hzero : ¬ i < f.offset → v.getLsbD (i - f.offset) = false := by
      intro hoff
      rw [← BitVec.testBit_toNat]
      apply Nat.testBit_lt_two_pow
      apply Nat.lt_of_lt_of_le hv
      apply Nat.pow_le_pow_right (by decide)
      by_contra hlt
      exact hc ⟨by omega, by omega⟩
    by_cases hoff : i < f.offset
    · simp [hc, hi, hip, hoff]
    · simp [hc, hi, hip, hip', hoff, hzero hoff]

theorem Fits.assign_eq (h : f.Fits T) (value v : Word T) :
    f.assign value v = if v.toNat < 2 ^ f.bits then some (f.put value v.toNat) else none := by
  have hpos : 0 < 2 ^ f.bits := Nat.two_pow_pos f.bits
  have hcond : lessEq T (promote v) (promote (f.maximum T)) = true ↔ v.toNat < 2 ^ f.bits := by
    rw [lessEq_iff (small_promote v) (small_promote _), promote_toNat, promote_toNat,
      h.maximum_toNat]
    omega
  by_cases hv : v.toNat < 2 ^ f.bits
  · rw [assign, if_pos (hcond.mpr hv), if_pos hv, h.assign_put value hv]
  · rw [assign, if_neg (fun hle => hv (hcond.mp hle)), if_neg hv]

/-- The shifted operand changes the field alone: what is carried out of the word is what the
sum has lost by wrapping around. -/
theorem Fits.add_put (h : f.Fits T) (value v : Word T)
    (hsum : sum T (f.get value).toNat v.toNat < 2 ^ f.bits) :
    convert (promote value + (promote v <<< f.offset)) =
      f.put value (sum T (f.get value).toNat v.toNat) := by
  apply BitVec.eq_of_toNat_eq
  have hdvd : 2 ^ T.bits ∣ 2 ^ T.promoted := pow_dvd_pow 2 (bits_le_promoted T)
  have hword : (convert (promote value + (promote v <<< f.offset))).toNat ≡
      value.toNat + 2 ^ f.offset * v.toNat [MOD 2 ^ T.bits] := by
    rw [convert_toNat, BitVec.toNat_add, BitVec.toNat_shiftLeft, promote_toNat, promote_toNat,
      Nat.shiftLeft_eq, Nat.add_mod_mod, Nat.mul_comm]
    exact (Nat.mod_modEq _ _).trans ((Nat.mod_modEq _ _).of_dvd hdvd)
  have hput : Lib.Slices.put value.toNat f.offset f.bits (sum T (f.get value).toNat v.toNat) ≡
      value.toNat + 2 ^ f.offset * v.toNat [MOD 2 ^ T.bits] := by
    have hsplit := put_add_slice value.toNat f.offset f.bits (sum T (f.get value).toNat v.toNat)
    have hmod : value.toNat + 2 ^ f.offset * sum T (f.get value).toNat v.toNat ≡
        value.toNat + 2 ^ f.offset * ((f.get value).toNat + v.toNat) [MOD 2 ^ T.bits] :=
      ((sum_modEq _ _).mul_left _).add_left _
    rw [← hsplit, ← h.get_toNat, Nat.mul_add, Nat.add_comm _ (2 ^ f.offset * v.toNat),
      ← Nat.add_assoc] at hmod
    exact Nat.ModEq.add_right_cancel' _ hmod
  rw [h.put_toNat value hsum]
  exact (hword.trans hput.symm).eq_of_lt_of_lt (convert _).isLt (put_lt hsum value.isLt h.fits)

theorem Fits.addAssign_eq (h : f.Fits T) (value v : Word T) :
    f.addAssign value v =
      if sum T (f.get value).toNat v.toNat < 2 ^ f.bits then
        some (f.put value (sum T (f.get value).toNat v.toNat))
      else none := by
  have hpos : 0 < 2 ^ f.bits := Nat.two_pow_pos f.bits
  have hcond : lessEq T (promote (f.get value) + promote v) (promote (f.maximum T)) = true ↔
      sum T (f.get value).toNat v.toNat < 2 ^ f.bits := by
    rw [lessEq_iff (small_add _ v) (small_promote _), promote_add_toNat, promote_toNat,
      h.maximum_toNat]
    omega
  by_cases hsum : sum T (f.get value).toNat v.toNat < 2 ^ f.bits
  · rw [addAssign, if_pos (hcond.mpr hsum), if_pos hsum, h.add_put value v hsum]
  · rw [addAssign, if_neg (fun hle => hsum (hcond.mp hle)), if_neg hsum]

theorem Fits.sub_put (h : f.Fits T) (value v : Word T) (hv : v.toNat ≤ (f.get value).toNat) :
    convert (promote value - (promote v <<< f.offset)) =
      f.put value ((f.get value).toNat - v.toNat) := by
  have hget : (f.get value).toNat < 2 ^ f.bits := h.get_lt value
  have hless : (f.get value).toNat - v.toNat < 2 ^ f.bits := by omega
  have hsplit := put_add_slice value.toNat f.offset f.bits ((f.get value).toNat - v.toNat)
  have hmul : 2 ^ f.offset * ((f.get value).toNat - v.toNat) + 2 ^ f.offset * v.toNat =
      2 ^ f.offset * (f.get value).toNat := by rw [← Nat.mul_add, Nat.sub_add_cancel hv]
  rw [← h.get_toNat] at hsplit
  have hpow : 2 ^ T.bits ≤ 2 ^ T.promoted := Nat.pow_le_pow_right (by decide) (bits_le_promoted T)
  have hvalue := value.isLt
  have hlt := put_lt hless hvalue h.fits
  have hshift : (promote v <<< f.offset).toNat = 2 ^ f.offset * v.toNat := by
    rw [BitVec.toNat_shiftLeft, promote_toNat, Nat.shiftLeft_eq, Nat.mul_comm]
    exact Nat.mod_eq_of_lt (by omega)
  apply BitVec.eq_of_toNat_eq
  rw [h.put_toNat value hless, convert_toNat, BitVec.toNat_sub_of_le, hshift, promote_toNat,
    Nat.mod_eq_of_lt (by omega)]
  · omega
  · rw [BitVec.le_def, hshift, promote_toNat]
    omega

theorem Fits.subAssign_eq (h : f.Fits T) (value v : Word T) :
    f.subAssign value v =
      if v.toNat ≤ (f.get value).toNat then some (f.put value ((f.get value).toNat - v.toNat))
      else none := by
  have hcond : lessEq T (promote v) (promote (f.get value)) = true ↔
      v.toNat ≤ (f.get value).toNat := by
    rw [lessEq_iff (small_promote v) (small_promote _), promote_toNat, promote_toNat]
  by_cases hv : v.toNat ≤ (f.get value).toNat
  · rw [subAssign, if_pos (hcond.mpr hv), if_pos hv, h.sub_put value v hv]
  · rw [subAssign, if_neg (fun hle => hv (hcond.mp hle)), if_neg hv]

/-! What an operation that succeeds leaves in the word. -/

theorem Fits.put_of_assign (h : f.Fits T) {value value' v : Word T}
    (hs : f.assign value v = some value') :
    ∃ y, y < 2 ^ f.bits ∧ value' = f.put value y := by
  rw [h.assign_eq] at hs
  obtain ⟨hlt, heq⟩ := Option.ite_none_right_eq_some.mp hs
  exact ⟨_, hlt, (Option.some.inj heq).symm⟩

theorem Fits.put_of_addAssign (h : f.Fits T) {value value' v : Word T}
    (hs : f.addAssign value v = some value') :
    ∃ y, y < 2 ^ f.bits ∧ value' = f.put value y := by
  rw [h.addAssign_eq] at hs
  obtain ⟨hlt, heq⟩ := Option.ite_none_right_eq_some.mp hs
  exact ⟨_, hlt, (Option.some.inj heq).symm⟩

theorem Fits.put_of_subAssign (h : f.Fits T) {value value' v : Word T}
    (hs : f.subAssign value v = some value') :
    ∃ y, y < 2 ^ f.bits ∧ value' = f.put value y := by
  rw [h.subAssign_eq] at hs
  obtain ⟨hle, heq⟩ := Option.ite_none_right_eq_some.mp hs
  have hlt : (f.get value).toNat < 2 ^ f.bits := h.get_lt value
  exact ⟨_, by omega, (Option.some.inj heq).symm⟩

theorem Fits.put_getLsbD (h : f.Fits T) (value : Word T) {y i : Nat} (hy : y < 2 ^ f.bits)
    (hi : ¬ f.Covers i) : (f.put value y).getLsbD i = value.getLsbD i := by
  have hnot : ¬ Lib.Slices.Covers f.offset f.bits i := hi
  rw [← BitVec.testBit_toNat, h.put_toNat value hy, testBit_put hy, if_neg hnot,
    BitVec.testBit_toNat]

end Field

/-! ## All fields of a word -/

theorem BitFieldArray.fits_element {a : BitFieldArray T} {i : Int} (h : a.element i = some f) :
    f.Fits T := by
  unfold element at h
  split at h
  next hi =>
    cases h
    have hle : a.bitsPerItem * (i.toNat + 1) ≤ a.bitsPerItem * a.numItems :=
      Nat.mul_le_mul_left _ (by omega)
    have hfits := a.fits
    rw [Nat.mul_add, Nat.mul_one] at hle
    exact ⟨by simp only; omega, a.narrow⟩
  next => cases h

theorem Layout.fits {L : Layout T} {r : Ref} (h : L.field r = some f) : f.Fits T := by
  unfold Layout.field fieldOf at h
  cases r with
  | member d =>
    simp only at h
    split at h
    next m _ =>
      cases h
      exact ⟨m.fits, m.narrow⟩
    next => cases h
  | element d i =>
    simp only at h
    split at h
    next a _ => exact a.fits_element h
    next => cases h

/-- A number for every field. -/
abbrev Counters := Ref → Nat

namespace Counters

/-- The counter takes a value within its bound; the others stay. -/
def set (L : Layout T) (c : Counters) (r : Ref) (x : Nat) : Option Counters :=
  (L.field r).bind fun f => if x < 2 ^ f.bits then some (Function.update c r x) else none

end Counters

/-- The counters that a word holds. -/
def Layout.read (L : Layout T) (value : Word T) : Counters := fun r =>
  match L.field r with
  | some f => (f.get value).toNat
  | none => 0

/-- What an operation does to a record of counters. -/
def Counters.step (L : Layout T) (c : Counters) : Op T → Option Counters
  | .assign r v => c.set L r v.toNat
  | .assignField r r' => if (L.field r').isSome then c.set L r (c r') else none
  | .assignMember r other => c.set L r (L.read other r)
  | .addAssign r v => c.set L r (sum T (c r) v.toNat)
  | .subAssign r v => if v.toNat ≤ c r then c.set L r (c r - v.toNat) else none
  | .increment r => c.set L r (sum T (c r) 1)
  | .decrement r => if 1 ≤ c r then c.set L r (c r - 1) else none

namespace Layout

variable {L : Layout T} {r : Ref}

theorem read_eq (h : L.field r = some f) (value : Word T) :
    L.read value r = (f.get value).toNat := by
  rw [read, h]

theorem read_lt (h : L.field r = some f) (value : Word T) : L.read value r < 2 ^ f.bits := by
  rw [read_eq h]
  exact (fits h).get_lt value

/-- Replacing one field replaces one counter: no other field has a bit of it. -/
theorem read_put (h : L.field r = some f) (value : Word T) {y : Nat} (hy : y < 2 ^ f.bits) :
    L.read (f.put value y) = Function.update (L.read value) r y := by
  funext r'
  by_cases hr : r' = r
  · rw [hr, Function.update_self, read_eq h, (fits h).get_toNat, (fits h).put_toNat value hy,
      slice_put hy]
  · rw [Function.update_of_ne hr]
    cases h' : L.field r' with
    | none => rw [read, read, h']
    | some g =>
      rw [read_eq h', read_eq h', (fits h').get_toNat, (fits h').get_toNat,
        (fits h).put_toNat value hy]
      exact slice_put_of_disjoint hy (L.disjoint r r' f g (Ne.symm hr) h h')

/-- Writing a value where the bound allows it. -/
theorem map_put (h : L.field r = some f) (value : Word T) (y : Nat) :
    (if y < 2 ^ f.bits then some (f.put value y) else none).map L.read =
      (L.read value).set L r y := by
  rw [Counters.set, h]
  by_cases hy : y < 2 ^ f.bits
  · rw [if_pos hy, Option.map_some, read_put h value hy]
    exact (if_pos hy).symm
  · rw [if_neg hy]
    exact (if_neg hy).symm

theorem map_assign (L : Layout T) (r : Ref) (value v : Word T) :
    ((L.field r).bind fun f => f.assign value v).map L.read = (L.read value).set L r v.toNat := by
  cases h : L.field r with
  | none => rw [Counters.set, h, Option.bind_none, Option.bind_none, Option.map_none]
  | some f => rw [Option.bind_some, (fits h).assign_eq, map_put h]

theorem map_addAssign (L : Layout T) (r : Ref) (value v : Word T) :
    ((L.field r).bind fun f => f.addAssign value v).map L.read =
      (L.read value).set L r (sum T (L.read value r) v.toNat) := by
  cases h : L.field r with
  | none => rw [Counters.set, h, Option.bind_none, Option.bind_none, Option.map_none]
  | some f => rw [Option.bind_some, (fits h).addAssign_eq, map_put h, read_eq h]

theorem map_subAssign (L : Layout T) (r : Ref) (value v : Word T) :
    ((L.field r).bind fun f => f.subAssign value v).map L.read =
      if v.toNat ≤ L.read value r then (L.read value).set L r (L.read value r - v.toNat)
      else none := by
  cases h : L.field r with
  | none => rw [Counters.set, h, Option.bind_none, Option.bind_none, Option.map_none, ite_self]
  | some f =>
    have hlt := read_lt h value
    rw [Option.bind_some, (fits h).subAssign_eq, ← read_eq h]
    split
    next hv => rw [← map_put h value, if_pos (by omega)]
    next => rfl

theorem one_toNat (T : StorageType) : (1#T.bits : Word T).toNat = 1 := by cases T <;> decide

/-- One operation on the word is the operation on its counters, assertions included. -/
theorem map_step (L : Layout T) (value : Word T) (op : Op T) :
    (L.step value op).map L.read = Counters.step L (L.read value) op := by
  cases op with
  | assign r v => exact map_assign L r value v
  | assignField r r' =>
    cases h' : L.field r' with
    | none =>
      simp only [step, Counters.step, h', Option.bind_none, Option.bind_fun_none, Option.map_none]
      rfl
    | some g =>
      simp only [step, Counters.step, h', Option.bind_some]
      rw [map_assign, read_eq h']
      rfl
  | assignMember r other =>
    cases h : L.field r with
    | none => simp only [step, Counters.step, Counters.set, h, Option.bind_none, Option.map_none]
    | some f =>
      have hassign := map_assign L r value (f.get other)
      rw [h, Option.bind_some, ← read_eq h] at hassign
      simp only [step, h, Option.bind_some]
      exact hassign
  | addAssign r v => exact map_addAssign L r value v
  | subAssign r v => exact map_subAssign L r value v
  | increment r =>
    have hadd := map_addAssign L r value 1#T.bits
    rw [one_toNat] at hadd
    exact hadd
  | decrement r =>
    have hsub := map_subAssign L r value 1#T.bits
    rw [one_toNat] at hsub
    exact hsub

theorem put_of_field {value value' : Word T} {g : Field → Option (Word T)}
    (hs : (L.field r).bind g = some value')
    (hg : ∀ f, L.field r = some f → g f = some value' →
      ∃ y, y < 2 ^ f.bits ∧ value' = f.put value y) :
    ∃ f y, L.field r = some f ∧ y < 2 ^ f.bits ∧ value' = f.put value y := by
  obtain ⟨f, hf, h⟩ := Option.bind_eq_some_iff.mp hs
  obtain ⟨y, hy⟩ := hg f hf h
  exact ⟨f, y, hf, hy⟩

/-- An operation replaces the field that it names and nothing else. -/
theorem step_put (L : Layout T) {value value' : Word T} {op : Op T}
    (hs : L.step value op = some value') :
    ∃ f y, L.field op.target = some f ∧ y < 2 ^ f.bits ∧ value' = f.put value y := by
  cases op with
  | assign r v => exact put_of_field hs fun f hf h => (fits hf).put_of_assign h
  | assignField r r' =>
    apply put_of_field hs
    intro f hf h
    obtain ⟨g, -, h⟩ := Option.bind_eq_some_iff.mp h
    exact (fits hf).put_of_assign h
  | assignMember r other => exact put_of_field hs fun f hf h => (fits hf).put_of_assign h
  | addAssign r v => exact put_of_field hs fun f hf h => (fits hf).put_of_addAssign h
  | subAssign r v => exact put_of_field hs fun f hf h => (fits hf).put_of_subAssign h
  | increment r => exact put_of_field hs fun f hf h => (fits hf).put_of_addAssign h
  | decrement r => exact put_of_field hs fun f hf h => (fits hf).put_of_subAssign h

/-- The bits that no operation's field covers stay. -/
theorem run_getLsbD (L : Layout T) {value value' : Word T} {ops : List (Op T)}
    (hr : run L.step value ops = some value') {i : Nat}
    (hi : ∀ op ∈ ops, ∀ f, L.field op.target = some f → ¬ f.Covers i) :
    value'.getLsbD i = value.getLsbD i := by
  refine run_preserves_labels (P := fun w => w.getLsbD i = value.getLsbD i)
    (L := fun op => ∀ f, L.field op.target = some f → ¬ f.Covers i) ?_ hr hi (Eq.refl _)
  intro w op w' hs hcover hw
  obtain ⟨f, y, hf, hy, rfl⟩ := L.step_put hs
  rw [(fits hf).put_getLsbD w hy (hcover f hf), hw]

end Layout

/-- Every sequence of operations on a word does to its fields what it does to a record of
counters, and fails an assertion where a counter would leave its bound. Every field stays
within its maximum, and no bit changes outside the fields that the operations name. -/
theorem independent_counters (T : StorageType) (L : Layout T) (value : Word T)
    (ops : List (Op T)) :
    (run L.step value ops).map L.read = run (Counters.step L) (L.read value) ops ∧
      ∀ value', run L.step value ops = some value' →
        (∀ r f, L.field r = some f → L.read value' r ≤ (f.maximum T).toNat) ∧
          ∀ i, (∀ op ∈ ops, ∀ f, L.field op.target = some f → ¬ f.Covers i) →
            value'.getLsbD i = value.getLsbD i := by
  refine ⟨run_map L.read L.map_step value ops, ?_⟩
  intro value' hr
  constructor
  · intro r f hf
    have hlt := Layout.read_lt hf value'
    rw [(Layout.fits hf).maximum_toNat]
    omega
  · intro i hi
    exact L.run_getLsbD hr hi

/-- A member of four bits and an array of three elements of two bits, in a `u32`. -/
def packed : Layout .u32 where
  decls := [.member ⟨0, 4, by decide, by decide⟩, .array ⟨4, 2, 3, by decide, by decide⟩]
  disjoint := by
    have hfield : ∀ {r f}, fieldOf [Declaration.member (T := .u32) ⟨0, 4, by decide, by decide⟩,
        .array ⟨4, 2, 3, by decide, by decide⟩] r = some f →
        (r = .member 0 ∧ f = ⟨0, 4⟩) ∨ ∃ i : Nat, r = .element 1 i ∧ f = ⟨4 + 2 * i, 2⟩ := by
      intro r f h
      match r with
      | .member 0 =>
        cases h
        exact .inl ⟨rfl, rfl⟩
      | .member 1 => cases h
      | .member (d + 2) => cases h
      | .element 0 i => cases h
      | .element 1 i =>
        obtain ⟨hi, heq⟩ := Option.ite_none_right_eq_some.mp h
        cases heq
        exact .inr ⟨i.toNat, by rw [Int.toNat_of_nonneg hi.1], rfl⟩
      | .element (d + 2) i => cases h
    intro r r' f f' hne h h' i hc hc'
    rcases hfield h with ⟨rfl, rfl⟩ | ⟨k, rfl, rfl⟩
    · rcases hfield h' with ⟨rfl, rfl⟩ | ⟨k', rfl, rfl⟩
      · exact hne rfl
      · obtain ⟨-, hhigh⟩ := hc
        obtain ⟨hlow, -⟩ := hc'
        simp only at hhigh hlow
        omega
    · rcases hfield h' with ⟨rfl, rfl⟩ | ⟨k', rfl, rfl⟩
      · obtain ⟨hlow, -⟩ := hc
        obtain ⟨-, hhigh⟩ := hc'
        simp only at hhigh hlow
        omega
      · obtain ⟨hlow, hhigh⟩ := hc
        obtain ⟨hlow', hhigh'⟩ := hc'
        have hk : k = k' := by
          simp only at hlow hhigh hlow' hhigh'
          omega
        exact hne (by rw [hk])

/-- The sum of the second operation wraps around to 1, which the assertion admits. -/
theorem independent_counters_packed :
    run packed.step 0 [.assign (.member 0) 3, .addAssign (.member 0) 0xfffffffe,
      .increment (.element 1 2), .assignField (.element 1 0) (.member 0)] = some 0x111 ∧
      packed.read 0x111 (.element 1 1) ≤ 3 :=
  ⟨by decide, ((independent_counters .u32 packed 0 [.assign (.member 0) 3,
    .addAssign (.member 0) 0xfffffffe, .increment (.element 1 2),
    .assignField (.element 1 0) (.member 0)]).2 0x111 (by decide)).1 (.element 1 1) ⟨6, 2⟩
    (by decide)⟩

end Turf.BitField
