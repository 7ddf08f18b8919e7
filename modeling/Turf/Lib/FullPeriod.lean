import Mathlib.Data.Set.Card
import Mathlib.Dynamics.PeriodicPts.Lemmas
import Mathlib.Order.Interval.Set.Nat
import Mathlib.Tactic.Ring

/-!
# Maps of full period

A point that comes back after `N` steps, and after `N / q` steps for no prime factor `q`
of `N`, has period `N`. When the map keeps a set of `N` points, the orbit of such a
point of the set meets each point of it at exactly one count of steps below `N`.
-/
namespace Turf.Lib.FullPeriod

open Function

variable {α : Type*} {f : α → α} {N : ℕ} {x : α}

theorem minimalPeriod_eq_of_prime (hper : IsPeriodicPt f N x)
    (hprime : ∀ q, q.Prime → q ∣ N → ¬IsPeriodicPt f (N / q) x) : minimalPeriod f x = N := by
  obtain ⟨c, hc⟩ := hper.minimalPeriod_dvd
  by_cases hone : c = 1
  · rw [hc, hone, mul_one]
  · obtain ⟨q, hq, hqc⟩ := Nat.exists_prime_and_dvd hone
    obtain ⟨d, rfl⟩ := hqc
    have hdiv : N / q = minimalPeriod f x * d := by
      rw [hc, mul_left_comm, Nat.mul_div_cancel_left _ hq.pos]
    have hshort : IsPeriodicPt f (N / q) x := by
      rw [hdiv]
      exact (isPeriodicPt_minimalPeriod f x).mul_const d
    exact absurd hshort (hprime q hq ⟨minimalPeriod f x * d, by rw [hc]; ring⟩)

theorem existsUnique_iterate {s : Set α} (hs : s.Finite) (hcard : s.ncard = N)
    (hmaps : Set.MapsTo f s s) (hx : x ∈ s) (hper : minimalPeriod f x = N) {y : α} (hy : y ∈ s) :
    ∃! k, k < N ∧ f^[k] x = y := by
  have hinj : Set.InjOn (fun k => f^[k] x) (Set.Iio N) := by
    rw [← hper]
    exact iterate_injOn_Iio_minimalPeriod
  have hsub : (fun k => f^[k] x) '' Set.Iio N ⊆ s := by
    rintro z ⟨k, -, rfl⟩
    exact hmaps.iterate k hx
  have himage : (fun k => f^[k] x) '' Set.Iio N = s := by
    apply Set.eq_of_subset_of_ncard_le hsub _ hs
    rw [hinj.ncard_image, hcard, Set.ncard_Iio_nat]
  rw [← himage] at hy
  obtain ⟨k, hk, hky⟩ := hy
  refine ⟨k, ⟨hk, hky⟩, ?_⟩
  rintro j ⟨hj, hjy⟩
  exact hinj hj hk (hjy.trans hky.symm)

/-! ## Rotations -/

/-- A step around a circle of `n` places. -/
def rotate (n step x : ℕ) : ℕ := (x + step) % n

theorem rotate_iterate {n step x : ℕ} (hx : x < n) (k : ℕ) :
    (rotate n step)^[k] x = (x + k * step) % n := by
  induction k with
  | zero => rw [iterate_zero, id, Nat.zero_mul, Nat.add_zero, Nat.mod_eq_of_lt hx]
  | succ k ih =>
    rw [iterate_succ_apply', ih, rotate, Nat.mod_add_mod, Nat.succ_mul, Nat.add_assoc]

/-- A step that has no factor in common with the number of places leads through all of them. -/
theorem rotate_visits {n step x y : ℕ} (hcop : step.Coprime n) (hx : x < n) (hy : y < n) :
    ∃ k < n, (rotate n step)^[k] x = y := by
  have hn : 0 < n := Nat.zero_lt_of_lt hx
  have hper : minimalPeriod (rotate n step) x = n := by
    apply minimalPeriod_eq_of_prime
    · show (rotate n step)^[n] x = x
      rw [rotate_iterate hx, Nat.add_mul_mod_self_left, Nat.mod_eq_of_lt hx]
    · intro q hq hqn hback
      obtain ⟨m, rfl⟩ := hqn
      have hm : 0 < m := Nat.pos_of_mul_pos_left hn
      have hsame : (x + m * step) % (q * m) = (x + 0) % (q * m) := by
        rw [Nat.mul_div_cancel_left m hq.pos] at hback
        rw [← rotate_iterate hx, Nat.add_zero, Nat.mod_eq_of_lt hx]
        exact hback
      have hdvd : q * m ∣ m * step :=
        Nat.modEq_zero_iff_dvd.mp (Nat.ModEq.add_left_cancel' x hsame)
      rw [Nat.mul_comm q] at hdvd
      have hqs : q ∣ step := Nat.dvd_of_mul_dvd_mul_left hm hdvd
      have hone : q ∣ 1 := by
        rw [← hcop]
        exact Nat.dvd_gcd hqs (Nat.dvd_mul_right q m)
      exact hq.one_lt.ne' (Nat.dvd_one.mp hone)
  have hmaps : Set.MapsTo (rotate n step) (Set.Iio n) (Set.Iio n) := fun z _ => Nat.mod_lt _ hn
  obtain ⟨k, hk, -⟩ := existsUnique_iterate (Set.finite_Iio n) (Set.ncard_Iio_nat n) hmaps hx hper hy
  exact ⟨k, hk.1, hk.2⟩

end Turf.Lib.FullPeriod
