import Mathlib.Data.Nat.Size
import Turf.Lib.SetBits

/-!
# Rounding up to a power of two

Or-ing a word with itself shifted right by 1, 2, 4, ... sets all bits below its highest set one.
Done to the predecessor of a number, this gives the predecessor of the least power of two that is
not below the number.
-/
namespace Turf.Lib.Smear

open Turf.Lib.SetBits

/-! ## The least power -/

/-- The least power of two that is at least `n`. -/
def ceilPow (n : Nat) : Nat := 2 ^ Nat.size (n - 1)

theorem le_ceilPow (n : Nat) : n ≤ ceilPow n := by
  have hlt := Nat.lt_size_self (n - 1)
  unfold ceilPow
  omega

theorem ceilPow_lt {n : Nat} (hn : 1 ≤ n) : ceilPow n < 2 * n := by
  unfold ceilPow
  cases hs : Nat.size (n - 1) with
  | zero => omega
  | succ k =>
    have hlow : 2 ^ k ≤ n - 1 := Nat.lt_size.mp (by omega)
    rw [Nat.pow_succ]
    omega

theorem ceilPow_le {n k : Nat} (hn : 1 ≤ n) (h : n ≤ 2 ^ k) : ceilPow n ≤ 2 ^ k := by
  apply Nat.pow_le_pow_right (by decide)
  exact Nat.size_le.mpr (by omega)

theorem ceilPow_mono {m n : Nat} (h : m ≤ n) : ceilPow m ≤ ceilPow n :=
  Nat.pow_le_pow_right (by decide) (Nat.size_le_size (Nat.sub_le_sub_right h 1))

theorem ceilPow_two_pow (k : Nat) : ceilPow (2 ^ k) = 2 ^ k :=
  Nat.le_antisymm (ceilPow_le (Nat.one_le_two_pow) (Nat.le_refl _)) (le_ceilPow _)

theorem ceilPow_eq_self_iff {n : Nat} : ceilPow n = n ↔ n.isPowerOfTwo := by
  constructor
  · intro h
    exact ⟨Nat.size (n - 1), h.symm⟩
  · intro ⟨k, hk⟩
    rw [hk, ceilPow_two_pow]

/-! ## Smearing -/

variable {w : Nat}

/-- `v |= v >> s` for each shift. -/
def smear (shifts : List Nat) (v : BitVec w) : BitVec w :=
  shifts.foldl (fun v s => v ||| v >>> s) v

/-- The shifts 1, 2, 4, ..., each twice the one before it. -/
def doubling (k : Nat) : List Nat := (List.range k).map fun i => 2 ^ i

theorem smear_succ (k : Nat) (v : BitVec w) :
    smear (doubling (k + 1)) v =
      smear (doubling k) v ||| smear (doubling k) v >>> 2 ^ k := by
  rw [smear, smear, doubling, List.range_succ, List.map_append, List.foldl_append]
  rfl

/-- After the first `k` shifts a bit is set if one of the `2 ^ k` from it on was. -/
theorem getLsbD_smear (k : Nat) (v : BitVec w) (i : Nat) :
    (smear (doubling k) v).getLsbD i = true ↔ ∃ j, i ≤ j ∧ j < i + 2 ^ k ∧ v.getLsbD j = true := by
  induction k generalizing i with
  | zero =>
    constructor
    · intro h
      exact ⟨i, Nat.le_refl i, Nat.lt_succ_self i, h⟩
    · intro ⟨j, hij, hji, hj⟩
      obtain rfl : j = i := by omega
      exact hj
  | succ k ih =>
    rw [smear_succ, BitVec.getLsbD_or, Bool.or_eq_true, BitVec.getLsbD_ushiftRight, ih, ih]
    have htwo : 2 ^ (k + 1) = 2 ^ k + 2 ^ k := by rw [Nat.pow_succ, Nat.mul_two]
    constructor
    · intro h
      rcases h with ⟨j, hij, hji, hj⟩ | ⟨j, hij, hji, hj⟩
      · exact ⟨j, hij, by omega, hj⟩
      · exact ⟨j, by omega, by omega, hj⟩
    · intro ⟨j, hij, hji, hj⟩
      by_cases hnear : j < i + 2 ^ k
      · exact .inl ⟨j, hij, hnear, hj⟩
      · exact .inr ⟨j, by omega, by omega, hj⟩

/-- With enough shifts all bits below the highest set one are set. -/
theorem smear_toNat {k : Nat} (hk : w ≤ 2 ^ k) (v : BitVec w) :
    (smear (doubling k) v).toNat = 2 ^ Nat.size v.toNat - 1 := by
  apply Nat.eq_of_testBit_eq
  intro i
  rw [BitVec.testBit_toNat, Nat.testBit_two_pow_sub_one, Bool.eq_iff_iff, decide_eq_true_iff,
    getLsbD_smear, Nat.lt_size]
  constructor
  · intro ⟨j, hij, _, hj⟩
    have hge := Nat.ge_two_pow_of_testBit (x := v.toNat) (by rw [BitVec.testBit_toNat]; exact hj)
    exact Nat.le_trans (Nat.pow_le_pow_right (by decide) hij) hge
  · intro hge
    obtain ⟨j, hij, hj⟩ := Nat.exists_ge_and_testBit_of_ge_two_pow hge
    rw [BitVec.testBit_toNat] at hj
    have hjw := BitVec.lt_of_getLsbD hj
    exact ⟨j, hij, by omega, hj⟩

/-- `v--`, the shifts, `v++` -/
def roundUp (shifts : List Nat) (v : BitVec w) : BitVec w := smear shifts (v - 1) + 1

/-- Up to the highest power of two in the word nothing wraps around. -/
theorem roundUp_toNat {k : Nat} (hw : 0 < w) (hk : w ≤ 2 ^ k) {v : BitVec w} (hlow : 1 ≤ v.toNat)
    (hhigh : v.toNat ≤ 2 ^ (w - 1)) : (roundUp (doubling k) v).toNat = ceilPow v.toNat := by
  have hpow : 2 ^ (w - 1) < 2 ^ w := Nat.pow_lt_pow_right (by decide) (by omega)
  have hone : (1 : BitVec w).toNat = 1 := Nat.mod_eq_of_lt (Nat.one_lt_two_pow hw.ne')
  have hle := ceilPow_le hlow hhigh
  have hpos : 0 < ceilPow v.toNat := Nat.two_pow_pos _
  rw [roundUp, BitVec.toNat_add, smear_toNat hk, toNat_pred hlow, hone]
  show (ceilPow v.toNat - 1 + 1) % 2 ^ w = _
  rw [Nat.sub_add_cancel hpos, Nat.mod_eq_of_lt (by omega)]

end Turf.Lib.Smear
