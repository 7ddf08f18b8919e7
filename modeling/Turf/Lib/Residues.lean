import Mathlib.NumberTheory.LegendreSymbol.Basic

/-!
# Squares and their negatives modulo a prime

Modulo a prime congruent to 3 modulo 4 no negative of a nonzero square is a square. So
squaring below half of the prime and negating the square above it is a permutation of the
residues.
-/
namespace Turf.Lib.Residues

/-- The square of `x` modulo `p`, negated when `x` is past the half of `p`. -/
def signedSquare (p x : ℕ) : ℕ := if x ≤ p / 2 then x * x % p else p - x * x % p

variable {p x y : ℕ}

theorem signedSquare_low (hx : x ≤ p / 2) : signedSquare p x = x * x % p := if_pos hx

theorem signedSquare_high (hx : ¬x ≤ p / 2) : signedSquare p x = p - x * x % p := if_neg hx

section Prime

variable [Fact p.Prime]

theorem natCast_eq_zero (hx : x < p) : (x : ZMod p) = 0 ↔ x = 0 := by
  rw [ZMod.natCast_eq_zero_iff]
  constructor
  · intro hdvd
    exact Nat.eq_zero_of_dvd_of_lt hdvd hx
  · rintro rfl
    exact dvd_zero p

/-- The square of what is past the half is not zero. -/
theorem square_mod_pos (hx : x < p) (hhigh : ¬x ≤ p / 2) : 0 < x * x % p := by
  apply Nat.pos_of_ne_zero
  intro hzero
  have hdvd : p ∣ x * x := Nat.dvd_of_mod_eq_zero hzero
  have hdvdx : p ∣ x := by
    rcases (Nat.Prime.dvd_mul Fact.out).mp hdvd with h | h <;> exact h
  have hx0 : x = 0 := Nat.eq_zero_of_dvd_of_lt hdvdx hx
  omega

theorem signedSquare_lt (hx : x < p) : signedSquare p x < p := by
  by_cases hhalf : x ≤ p / 2
  · rw [signedSquare_low hhalf]
    exact Nat.mod_lt _ (by omega)
  · have hpos := square_mod_pos hx hhalf
    rw [signedSquare_high hhalf]
    omega

/-- Two residues of one square are equal or add up to the prime. -/
theorem eq_or_add_eq (hx : x < p) (hy : y < p) (h : x * x % p = y * y % p) :
    x = y ∨ (x + y) % p = 0 := by
  have hsq : (x : ZMod p) ^ 2 = (y : ZMod p) ^ 2 := by
    have hcast := (ZMod.natCast_eq_natCast_iff' (x * x) (y * y) p).mpr h
    simpa [pow_two] using hcast
  rcases sq_eq_sq_iff_eq_or_eq_neg.mp hsq with heq | hneg
  · left
    have hmod := (ZMod.natCast_eq_natCast_iff' x y p).mp heq
    rwa [Nat.mod_eq_of_lt hx, Nat.mod_eq_of_lt hy] at hmod
  · right
    have hsum : ((x + y : ℕ) : ZMod p) = 0 := by
      rw [Nat.cast_add, hneg, neg_add_cancel]
    exact Nat.mod_eq_zero_of_dvd ((ZMod.natCast_eq_zero_iff _ _).mp hsum)

/-- The square of a residue of one half is not the negative of one of the other. -/
theorem square_ne_neg (hp : p % 4 = 3) (hy : y < p) (hhigh : ¬y ≤ p / 2) :
    x * x % p ≠ p - y * y % p := by
  intro h
  have hpos := square_mod_pos hy hhigh
  have hlt : y * y % p < p := Nat.mod_lt _ (by omega)
  have hsum : (x * x + y * y) % p = 0 := by
    rw [Nat.add_mod, h, Nat.sub_add_cancel hlt.le, Nat.mod_self]
  have hcast : (x : ZMod p) ^ 2 = -(y : ZMod p) ^ 2 := by
    have hzero : ((x * x + y * y : ℕ) : ZMod p) = 0 :=
      (ZMod.natCast_eq_zero_iff _ _).mpr (Nat.dvd_of_mod_eq_zero hsum)
    push_cast at hzero
    rw [pow_two, pow_two]
    exact eq_neg_of_add_eq_zero_left hzero
  have hy0 : (y : ZMod p) ≠ 0 := by
    intro hz
    have := (natCast_eq_zero hy).mp hz
    omega
  exact ZMod.mod_four_ne_three_of_sq_eq_neg_sq' hy0 hcast hp

theorem signedSquare_injOn (hp : p % 4 = 3) (hx : x < p) (hy : y < p)
    (h : signedSquare p x = signedSquare p y) : x = y := by
  by_cases hlx : x ≤ p / 2
  · by_cases hly : y ≤ p / 2
    · rw [signedSquare_low hlx, signedSquare_low hly] at h
      rcases eq_or_add_eq hx hy h with heq | hsum
      · exact heq
      · have hzero : x + y = 0 := by
          rwa [Nat.mod_eq_of_lt (by omega)] at hsum
        omega
    · rw [signedSquare_low hlx, signedSquare_high hly] at h
      exact absurd h (square_ne_neg hp hy hly)
  · by_cases hly : y ≤ p / 2
    · rw [signedSquare_high hlx, signedSquare_low hly] at h
      exact absurd h.symm (square_ne_neg hp hx hlx)
    · have hposx := square_mod_pos hx hlx
      have hposy := square_mod_pos hy hly
      have hltx : x * x % p < p := Nat.mod_lt _ (by omega)
      have hlty : y * y % p < p := Nat.mod_lt _ (by omega)
      rw [signedSquare_high hlx, signedSquare_high hly] at h
      rcases eq_or_add_eq hx hy (by omega) with heq | hsum
      · exact heq
      · have hdiv : (x + y) / p * p = x + y := Nat.div_mul_cancel (Nat.dvd_of_mod_eq_zero hsum)
        have hone : (x + y) / p = 1 := Nat.div_eq_of_lt_le (by omega) (by omega)
        rw [hone] at hdiv
        omega

end Prime
end Turf.Lib.Residues
