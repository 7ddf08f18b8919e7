import Mathlib.Data.BitVec
import Mathlib.Logic.Function.Basic

/-!
# Mixing steps of a bit vector

Folding a word onto itself, `h ^ (h >> k)` or `h ^ (h << k)` with `k` positive, loses
nothing: read from the bits that stay as they are, every bit follows from those before
it. When `2k` is no less than the width, folding right is its own inverse, and when only
`3k` is, folding twice over undoes it. A product is undone by the inverse of its factor.
-/
namespace Turf.Lib.Mixing

variable {w : Nat}

/-- `h ^ (h >> k)`. -/
def foldRight (k : Nat) (h : BitVec w) : BitVec w := h ^^^ h >>> k

/-- `h ^ (h << k)`. -/
def foldLeft (k : Nat) (h : BitVec w) : BitVec w := h ^^^ h <<< k

/-- `h ^ ((h ^ (h >> k)) >> k)`. -/
def foldRightTwice (k : Nat) (h : BitVec w) : BitVec w := h ^^^ foldRight k h >>> k

theorem xor_cancel (a b : BitVec w) : a ^^^ b ^^^ b = a := by
  rw [BitVec.xor_assoc, BitVec.xor_self, BitVec.xor_zero]

theorem xor_xor_xor_comm (a b c d : BitVec w) :
    (a ^^^ b) ^^^ (c ^^^ d) = (a ^^^ c) ^^^ (b ^^^ d) := by
  ac_rfl

theorem foldRight_xor (k : Nat) (g h : BitVec w) :
    foldRight k (g ^^^ h) = foldRight k g ^^^ foldRight k h := by
  simp only [foldRight, BitVec.ushiftRight_xor_distrib]
  ac_rfl

theorem foldLeft_xor (k : Nat) (g h : BitVec w) :
    foldLeft k (g ^^^ h) = foldLeft k g ^^^ foldLeft k h := by
  simp only [foldLeft, BitVec.shiftLeft_xor_distrib]
  ac_rfl

theorem foldRight_foldRight {k : Nat} (hk : w ≤ 2 * k) (h : BitVec w) :
    foldRight k (foldRight k h) = h := by
  have hlost : h >>> k >>> k = 0#w := by
    rw [← BitVec.shiftRight_add]
    exact BitVec.ushiftRight_eq_zero (by omega)
  simp only [foldRight, BitVec.ushiftRight_xor_distrib, hlost, BitVec.xor_zero]
  exact xor_cancel h (h >>> k)

theorem ushiftRight_thrice {k : Nat} (hk : w ≤ 3 * k) (h : BitVec w) : h >>> k >>> k >>> k = 0#w := by
  rw [← BitVec.shiftRight_add, ← BitVec.shiftRight_add]
  exact BitVec.ushiftRight_eq_zero (by omega)

theorem foldRightTwice_foldRight {k : Nat} (hk : w ≤ 3 * k) (h : BitVec w) :
    foldRightTwice k (foldRight k h) = h := by
  simp only [foldRightTwice, foldRight, BitVec.ushiftRight_xor_distrib, ushiftRight_thrice hk,
    BitVec.xor_zero]
  rw [xor_cancel (h >>> k)]
  exact xor_cancel h (h >>> k)

theorem foldRight_foldRightTwice {k : Nat} (hk : w ≤ 3 * k) (h : BitVec w) :
    foldRight k (foldRightTwice k h) = h := by
  simp only [foldRightTwice, foldRight, BitVec.ushiftRight_xor_distrib, ushiftRight_thrice hk,
    BitVec.xor_zero]
  exact xor_cancel h _

/-- By induction from the high bits: a bit of the fold and the bit `k` above give the bit. -/
theorem foldRight_injective {k : Nat} (hk : 0 < k) :
    Function.Injective (foldRight k : BitVec w → BitVec w) := by
  intro g h hgh
  have hbits : ∀ n i, w ≤ i + n → g.getLsbD i = h.getLsbD i := by
    intro n
    induction n with
    | zero =>
      intro i hi
      rw [BitVec.getLsbD_of_ge g i hi, BitVec.getLsbD_of_ge h i hi]
    | succ n ih =>
      intro i hi
      have habove := ih (k + i) (by omega)
      have hbit := congrArg (fun v : BitVec w => v.getLsbD i) hgh
      simpa [foldRight, habove] using hbit
  exact BitVec.eq_of_getLsbD_eq fun i _ => hbits w i (by omega)

/-- By induction from the low bits. -/
theorem foldLeft_injective {k : Nat} (hk : 0 < k) :
    Function.Injective (foldLeft k : BitVec w → BitVec w) := by
  intro g h hgh
  have hbits : ∀ i, i < w → g.getLsbD i = h.getLsbD i := by
    intro i
    induction i using Nat.strong_induction_on with
    | h i ih =>
      intro hi
      have hbit := congrArg (fun v : BitVec w => v.getLsbD i) hgh
      simp only [foldLeft, BitVec.getLsbD_xor, BitVec.getLsbD_shiftLeft, hi] at hbit
      by_cases hlow : i < k
      · simpa [hlow] using hbit
      · have hbelow := ih (i - k) (by omega) (by omega)
        simpa [hlow, hbelow] using hbit
  exact BitVec.eq_of_getLsbD_eq hbits

theorem mul_mul_cancel {c d : BitVec w} (hcd : c * d = 1) (h : BitVec w) : h * c * d = h := by
  rw [BitVec.mul_assoc, hcd]
  exact BitVec.mul_one h

end Turf.Lib.Mixing
