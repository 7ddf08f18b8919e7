import Mathlib.Data.Nat.Bitwise
import Mathlib.Tactic.Ring

/-!
# Slices of a natural number's bits

A slice is a run of bits read as a number of its own. Replacing one leaves every other bit as
it is, and adding to the number at the slice's place is replacing the slice as long as the
slice does not overflow.
-/
namespace Turf.Lib.Slices

variable {x o b o' b' y w i : Nat}

/-- The `b` bits of `x` from bit `o` on. -/
def slice (x o b : Nat) : Nat := x / 2 ^ o % 2 ^ b

/-- `x` with `y` for the `b` bits from bit `o` on. -/
def put (x o b y : Nat) : Nat := 2 ^ (o + b) * (x / 2 ^ (o + b)) + (2 ^ o * y + x % 2 ^ o)

/-- Bit `i` is one of the `b` bits from bit `o` on. -/
def Covers (o b i : Nat) : Prop := o ≤ i ∧ i < o + b

instance : Decidable (Covers o b i) := inferInstanceAs (Decidable (_ ∧ _))

theorem slice_lt (x o b : Nat) : slice x o b < 2 ^ b := Nat.mod_lt _ (Nat.two_pow_pos b)

theorem testBit_slice (x o b i : Nat) :
    (slice x o b).testBit i = (decide (i < b) && x.testBit (i + o)) := by
  rw [slice, Nat.testBit_mod_two_pow, Nat.testBit_div_two_pow]

theorem testBit_put (hy : y < 2 ^ b) (i : Nat) :
    (put x o b y).testBit i = if Covers o b i then y.testBit (i - o) else x.testBit i := by
  have hmod : x % 2 ^ o < 2 ^ o := Nat.mod_lt _ (Nat.two_pow_pos o)
  have hlow : 2 ^ o * y + x % 2 ^ o < 2 ^ (o + b) := by
    calc 2 ^ o * y + x % 2 ^ o < 2 ^ o * y + 2 ^ o := by omega
      _ = 2 ^ o * (y + 1) := by ring
      _ ≤ 2 ^ o * 2 ^ b := Nat.mul_le_mul_left _ hy
      _ = 2 ^ (o + b) := (Nat.pow_add 2 o b).symm
  rw [put, Nat.testBit_two_pow_mul_add _ hlow, Nat.testBit_two_pow_mul_add _ hmod,
    Nat.testBit_div_two_pow, Nat.testBit_mod_two_pow]
  by_cases hi : i < o
  · have hnot : ¬ Covers o b i := fun h => absurd h.1 (by omega)
    simp [hnot, hi, show i < o + b by omega]
  · by_cases hb : i < o + b
    · have hc : Covers o b i := ⟨by omega, hb⟩
      simp [hc, hi, hb]
    · have hnot : ¬ Covers o b i := fun h => hb h.2
      simp [hnot, hb, show i - (o + b) + (o + b) = i by omega]

theorem put_lt (hy : y < 2 ^ b) (hx : x < 2 ^ w) (hw : o + b ≤ w) : put x o b y < 2 ^ w := by
  apply Nat.lt_pow_two_of_testBit
  intro i hi
  have hnot : ¬ Covers o b i := fun h => absurd h.2 (by omega)
  rw [testBit_put hy, if_neg hnot]
  exact Nat.testBit_lt_two_pow (Nat.lt_of_lt_of_le hx (Nat.pow_le_pow_right (by decide) hi))

@[simp] theorem slice_put (hy : y < 2 ^ b) : slice (put x o b y) o b = y := by
  apply Nat.eq_of_testBit_eq
  intro i
  rw [testBit_slice, testBit_put hy]
  by_cases hi : i < b
  · have hc : Covers o b (i + o) := ⟨by omega, by omega⟩
    simp [hc, hi]
  · have hzero : y.testBit i = false :=
      Nat.testBit_lt_two_pow (Nat.lt_of_lt_of_le hy (Nat.pow_le_pow_right (by decide) (by omega)))
    simp [hi, hzero]

/-- A slice that shares no bit with the replaced one stays. -/
theorem slice_put_of_disjoint (hy : y < 2 ^ b) (hd : ∀ i, Covers o b i → ¬ Covers o' b' i) :
    slice (put x o b y) o' b' = slice x o' b' := by
  apply Nat.eq_of_testBit_eq
  intro i
  rw [testBit_slice, testBit_slice, testBit_put hy]
  by_cases hi : i < b'
  · have hnot : ¬ Covers o b (i + o') := fun hc => hd _ hc ⟨by omega, by omega⟩
    rw [if_neg hnot]
  · simp [hi]

/-- What adding at the place of a slice does to the number, the slice being replaced. -/
theorem put_add_slice (x o b y : Nat) : put x o b y + 2 ^ o * slice x o b = x + 2 ^ o * y := by
  have hlow : 2 ^ o * (x / 2 ^ o) + x % 2 ^ o = x := Nat.div_add_mod x (2 ^ o)
  have hhigh : 2 ^ b * (x / 2 ^ o / 2 ^ b) + x / 2 ^ o % 2 ^ b = x / 2 ^ o :=
    Nat.div_add_mod (x / 2 ^ o) (2 ^ b)
  have hsplit : x / 2 ^ (o + b) = x / 2 ^ o / 2 ^ b := by rw [Nat.div_div_eq_div_mul, Nat.pow_add]
  rw [put, slice, hsplit, Nat.pow_add]
  calc 2 ^ o * 2 ^ b * (x / 2 ^ o / 2 ^ b) + (2 ^ o * y + x % 2 ^ o) +
        2 ^ o * (x / 2 ^ o % 2 ^ b)
      = 2 ^ o * (2 ^ b * (x / 2 ^ o / 2 ^ b) + x / 2 ^ o % 2 ^ b) + x % 2 ^ o + 2 ^ o * y := by ring
    _ = x + 2 ^ o * y := by rw [hhigh, hlow]

end Turf.Lib.Slices
