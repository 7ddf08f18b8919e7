import Turf.Affinity.SetAffinity
import Turf.Lib.Smear

/-!
# Powers of two

`roundUpPowerOf2`, `isPowerOf2` and `countSetBits` of Util.h. `isPowerOf2` takes an `ureg`, so on a
32-bit platform it sees only the lower half of a 64-bit number.
-/
namespace Turf.Util

open Turf.Lib.Smear Turf.Lib.SetBits
open Turf.Affinity (countSetBits)

/-! ## The code -/

/-- The overload for `u32`. -/
def roundUpPowerOf2U32 (v : BitVec 32) : BitVec 32 := roundUp [1, 2, 4, 8, 16] v

/-- The overload for `u64`. -/
def roundUpPowerOf2U64 (v : BitVec 64) : BitVec 64 := roundUp [1, 2, 4, 8, 16, 32] v

/-- The overload for `s32`, which has the same bits before and after the conversions. -/
def roundUpPowerOf2S32 (v : BitVec 32) : BitVec 32 := roundUpPowerOf2U32 v

/-- The overload for `s64`. -/
def roundUpPowerOf2S64 (v : BitVec 64) : BitVec 64 := roundUpPowerOf2U64 v

/-- The width of `ureg`. -/
def uregBits (wide : Bool) : Nat := if wide then 64 else 32

def isPowerOf2 (wide : Bool) (v : BitVec (uregBits wide)) : Bool := v &&& (v - 1) = 0

/-- `isPowerOf2` called with a number of another width, which is converted first. -/
def isPowerOf2Of (wide : Bool) {w : Nat} (v : BitVec w) : Bool := isPowerOf2 wide (v.setWidth _)

/-! ## Rounding -/

/-- What the overloads for a width do, unsigned and signed. -/
structure RoundsUp (w : Nat) (f g : BitVec w → BitVec w) : Prop where
  least : ∀ v : BitVec w, 1 ≤ v.toNat → v.toNat ≤ 2 ^ (w - 1) →
    ∃ k, (f v).toNat = 2 ^ k ∧ 2 ^ k < 2 * v.toNat ∧ v.toNat ≤ 2 ^ k
  signed : ∀ v : BitVec w, 1 ≤ v.toInt → v.toInt ≤ 2 ^ (w - 2) →
    ∃ k, (g v).toInt = 2 ^ k ∧ 2 ^ k < 2 * v.toInt ∧ v.toInt ≤ 2 ^ k
  mono : ∀ v v' : BitVec w, 1 ≤ v.toNat → v.toNat ≤ v'.toNat → v'.toNat ≤ 2 ^ (w - 1) →
    (f v).toNat ≤ (f v').toNat
  idempotent : ∀ v : BitVec w, 1 ≤ v.toNat → v.toNat ≤ 2 ^ (w - 1) → f (f v) = f v

section Rounding

variable {w k : Nat} {v v' : BitVec w}

/-- A positive number that is small enough to be rounded up as a signed one. -/
theorem toNat_of_toInt (hlow : 1 ≤ v.toInt) (hhigh : v.toInt ≤ 2 ^ (w - 2)) :
    v.toInt = v.toNat ∧ v.toNat ≤ 2 ^ (w - 2) := by
  have hpos : 2 * v.toNat < 2 ^ w := BitVec.toInt_pos_iff.mp (by omega)
  have heq := BitVec.toInt_eq_toNat_of_lt hpos
  rw [heq] at hhigh
  exact ⟨heq, by exact_mod_cast hhigh⟩

theorem roundsUp (hw : 2 ≤ w) (hk : w ≤ 2 ^ k) :
    RoundsUp w (roundUp (doubling k)) (roundUp (doubling k)) := by
  have hround : ∀ v : BitVec w, 1 ≤ v.toNat → v.toNat ≤ 2 ^ (w - 1) →
      (roundUp (doubling k) v).toNat = ceilPow v.toNat :=
    fun v hlow hhigh => roundUp_toNat (by omega) hk hlow hhigh
  constructor
  · intro v hlow hhigh
    refine ⟨Nat.size (v.toNat - 1), hround v hlow hhigh, ?_, ?_⟩
    · exact ceilPow_lt hlow
    · exact le_ceilPow v.toNat
  · intro v hlow hhigh
    obtain ⟨heq, hle⟩ := toNat_of_toInt hlow hhigh
    have hpow : 2 ^ (w - 1) = 2 * 2 ^ (w - 2) := by
      rw [← Nat.pow_succ', show (w - 2).succ = w - 1 by omega]
    have hpow' : 2 ^ w = 2 * 2 ^ (w - 1) := by
      rw [← Nat.pow_succ', show (w - 1).succ = w by omega]
    have hnat := hround v (by omega) (by omega)
    have hsmall := ceilPow_le (by omega : 1 ≤ v.toNat) hle
    have hint : (roundUp (doubling k) v).toInt = ceilPow v.toNat := by
      rw [BitVec.toInt_eq_toNat_of_lt (by omega), hnat]
    have hlt := ceilPow_lt (by omega : 1 ≤ v.toNat)
    have hge := le_ceilPow v.toNat
    rw [heq, hint]
    refine ⟨Nat.size (v.toNat - 1), ?_, ?_, ?_⟩
    · rw [ceilPow]
      push_cast
      rfl
    · exact_mod_cast hlt
    · exact_mod_cast hge
  · intro v v' hlow hle hhigh
    rw [hround v hlow (by omega), hround v' (by omega) hhigh]
    exact ceilPow_mono hle
  · intro v hlow hhigh
    have hnat := hround v hlow hhigh
    apply BitVec.eq_of_toNat_eq
    have hpos : 1 ≤ ceilPow v.toNat := Nat.one_le_two_pow
    rw [hround _ (by omega) (by rw [hnat]; exact ceilPow_le hlow hhigh), hnat]
    exact ceilPow_two_pow _

end Rounding

/-! ## Single bits -/

section Bits

variable {w : Nat} {v : BitVec w}

theorem and_pred_eq_zero_iff (hv : 1 ≤ v.toNat) : v &&& (v - 1) = 0 ↔ v.toNat.isPowerOfTwo := by
  rw [← Nat.and_sub_one_eq_zero_iff_isPowerOfTwo (by omega), ← toNat_pred hv, ← BitVec.toNat_and]
  exact BitVec.toNat_eq

theorem roundUp_eq_self_iff {k : Nat} (hw : 0 < w) (hk : w ≤ 2 ^ k) (hlow : 1 ≤ v.toNat)
    (hhigh : v.toNat ≤ 2 ^ (w - 1)) : roundUp (doubling k) v = v ↔ v.toNat.isPowerOfTwo := by
  rw [← ceilPow_eq_self_iff, ← roundUp_toNat hw hk hlow hhigh]
  exact BitVec.toNat_eq

theorem countSetBits_eq_one_iff (v : BitVec 64) : countSetBits v = 1 ↔ v.toNat.isPowerOfTwo := by
  rw [countSetBits, Affinity.Win32.countSetBits_loop, Nat.zero_add]
  exact rank_eq_one_iff

/-- The test, for a number that an `ureg` holds. -/
theorem isPowerOf2Of_iff {wide : Bool} (hv : 1 ≤ v.toNat) (hfits : v.toNat < 2 ^ uregBits wide) :
    isPowerOf2Of wide v ↔ v.toNat.isPowerOfTwo := by
  have hsame : (v.setWidth (uregBits wide)).toNat = v.toNat := by
    rw [BitVec.toNat_setWidth, Nat.mod_eq_of_lt hfits]
  rw [isPowerOf2Of, isPowerOf2, decide_eq_true_iff, and_pred_eq_zero_iff (by omega), hsame]

end Bits

/-- The three tests for a power of two agree on a number. -/
def Agree (wide : Bool) {w : Nat} (f : BitVec w → BitVec w) (v : BitVec w) : Prop :=
  (isPowerOf2Of wide v ↔ f v = v) ∧ (f v = v ↔ countSetBits (v.setWidth 64) = 1)

theorem agree_of_fits {wide : Bool} {w k : Nat} {v : BitVec w} (hw : 0 < w) (hw64 : w ≤ 64)
    (hk : w ≤ 2 ^ k) (hlow : 1 ≤ v.toNat) (hhigh : v.toNat ≤ 2 ^ (w - 1))
    (hfits : v.toNat < 2 ^ uregBits wide) : Agree wide (roundUp (doubling k)) v := by
  have hself := roundUp_eq_self_iff hw hk hlow hhigh
  have hsame : (v.setWidth 64).toNat = v.toNat := by
    rw [BitVec.toNat_setWidth, Nat.mod_eq_of_lt]
    exact Nat.lt_of_lt_of_le v.isLt (Nat.pow_le_pow_right (by decide) hw64)
  constructor
  · rw [isPowerOf2Of_iff hlow hfits, hself]
  · rw [hself, countSetBits_eq_one_iff, hsame]

/-- The overloads round up to powers of two, and the three tests for a power agree on all numbers
that they take. -/
theorem powersOf2 (wide : Bool) :
    RoundsUp 32 roundUpPowerOf2U32 roundUpPowerOf2S32 ∧
    RoundsUp 64 roundUpPowerOf2U64 roundUpPowerOf2S64 ∧
    (∀ v : BitVec 32, 1 ≤ v.toNat → v.toNat ≤ 2 ^ 31 → Agree wide roundUpPowerOf2U32 v) ∧
    ∀ v : BitVec 64, 1 ≤ v.toNat → v.toNat ≤ 2 ^ 63 → v.toNat < 2 ^ uregBits wide →
      Agree wide roundUpPowerOf2U64 v := by
  refine ⟨?_, ?_, ?_, ?_⟩
  · exact roundsUp (k := 5) (by decide) (by decide)
  · exact roundsUp (k := 6) (by decide) (by decide)
  · intro v hlow hhigh
    have hfits : v.toNat < 2 ^ uregBits wide := by
      cases wide with
      | false => exact v.isLt
      | true => exact Nat.lt_trans v.isLt (by decide)
    exact agree_of_fits (k := 5) (by decide) (by decide) (by decide) hlow hhigh hfits
  · intro v hlow hhigh hfits
    exact agree_of_fits (k := 6) (by decide) (by decide) (by decide) hlow hhigh hfits

/-- A 32-bit platform takes a number with a bit in each half for a power of two. -/
theorem isPowerOf2_truncates :
    1 ≤ (0x100000001 : BitVec 64).toNat ∧ (0x100000001 : BitVec 64).toNat ≤ 2 ^ 63 ∧
      isPowerOf2Of false (0x100000001 : BitVec 64) = true ∧
      roundUpPowerOf2U64 0x100000001 ≠ 0x100000001 ∧ countSetBits 0x100000001 = 2 := by decide

end Turf.Util
