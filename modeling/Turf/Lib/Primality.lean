import Mathlib.NumberTheory.LucasPrimality

/-!
# Primes by their witnesses

Lucas' test with everything written as remainders of naturals that the kernel can
compute: a witness whose powers tell the prime factors of `p - 1` apart proves `p` prime.
-/
namespace Turf.Lib.Primality

/-- `a ^ e % m`, for an exponent of `b` bits. -/
def powMod (m : ℕ) : ℕ → ℕ → ℕ → ℕ
  | 0, _, _ => 1 % m
  | b + 1, a, e => a ^ (e % 2) * powMod m b (a * a % m) (e / 2) % m

theorem powMod_eq (m : ℕ) {b e : ℕ} (a : ℕ) (he : e < 2 ^ b) : powMod m b a e = a ^ e % m := by
  induction b generalizing a e with
  | zero =>
    obtain rfl : e = 0 := by omega
    simp [powMod]
  | succ b ih =>
    have hhalf : e / 2 < 2 ^ b := by omega
    have hsplit : a ^ (e % 2) * (a * a) ^ (e / 2) = a ^ e := by
      rw [← pow_two, ← pow_mul, ← pow_add, Nat.mod_add_div]
    rw [powMod, ih (a * a % m) hhalf, ← Nat.pow_mod, Nat.mul_mod_mod, hsplit]

/-- A prime that divides a product of primes is one of them. -/
theorem mem_of_dvd_prod {q : ℕ} {fs : List ℕ} (hq : q.Prime) (hfs : ∀ f ∈ fs, f.Prime)
    (hdvd : q ∣ fs.prod) : q ∈ fs := by
  obtain ⟨f, hf, hqf⟩ := hq.prime.dvd_prod_iff.mp hdvd
  obtain rfl := (Nat.prime_dvd_prime_iff_eq hq (hfs f hf)).mp hqf
  exact hf

theorem natCast_pow_eq_one_iff {p : ℕ} (hp : 1 < p) (a n : ℕ) :
    (a : ZMod p) ^ n = 1 ↔ a ^ n % p = 1 := by
  have hone : 1 % p = 1 := Nat.mod_eq_of_lt hp
  rw [← Nat.cast_pow, ← Nat.cast_one, ZMod.natCast_eq_natCast_iff', hone]

theorem prime_of_witness {p : ℕ} (b a : ℕ) (fs : List ℕ) (hp : 1 < p) (hb : p < 2 ^ b)
    (hfs : ∀ f ∈ fs, f.Prime) (hprod : fs.prod = p - 1) (hone : powMod p b a (p - 1) = 1)
    (hdiv : ∀ f ∈ fs, powMod p b a ((p - 1) / f) ≠ 1) : p.Prime := by
  have hpow : ∀ e, e ≤ p - 1 → ((a : ZMod p) ^ e = 1 ↔ powMod p b a e = 1) := by
    intro e he
    rw [natCast_pow_eq_one_iff hp, powMod_eq p a (by omega)]
  apply lucas_primality p (a : ZMod p)
  · exact (hpow (p - 1) le_rfl).mpr hone
  · intro q hq hdvd h
    have hmem : q ∈ fs := mem_of_dvd_prod hq hfs (hprod ▸ hdvd)
    exact hdiv q hmem ((hpow _ (Nat.div_le_self _ _)).mp h)

end Turf.Lib.Primality
