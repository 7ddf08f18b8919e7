import Turf.Extra.Random
import Turf.Lib.Gf2
import Turf.Lib.Primality
import Mathlib.Tactic.NormNum.Prime

/-!
# The period of `Random`

The transition of `next64` is additive for exclusive or. Its characteristic polynomial,
`modulus`, vanishes at it; modulo that polynomial `x` to the power `2 ^ 128 - 1` is one
and no power to a quotient by a prime factor fixes anything. So every nonzero pair has the
full period.
-/
namespace Turf.Extra.Random

open Turf.Lib.Gf2 Turf.Lib.Mixing Turf.Lib

abbrev Vec := Bits 64 × Bits 64

def toVec (r : Random) : Vec := (r.s0, r.s1)

def ofVec (v : Vec) : Random := ⟨v.1, v.2⟩

theorem step_s1_xor (a b c d : BitVec 64) :
    (step ⟨a ^^^ c, b ^^^ d⟩).s1 = (step ⟨a, b⟩).s1 ^^^ (step ⟨c, d⟩).s1 := by
  simp only [step_s1, foldRight_xor, foldLeft_xor]
  exact xor_xor_xor_comm _ _ _ _

theorem step_add (u v : Vec) :
    toVec (step (ofVec (u + v))) = toVec (step (ofVec u)) + toVec (step (ofVec v)) :=
  Prod.ext rfl (step_s1_xor u.1 u.2 v.1 v.2)

/-- The transition, as an endomorphism of the pairs under exclusive or. -/
def transition : AddMonoid.End Vec := AddMonoidHom.mk' (fun v => toVec (step (ofVec v))) step_add

/-- The characteristic polynomial of the transition. -/
def modulus : Nat := 0x101f9f801f6fd0098bd82fd40e01730f9

theorem act_modulus_left : ∀ i < 64, act transition 129 modulus (unit 64 i, 0) = 0 := by
  decide +kernel

theorem act_modulus_right : ∀ i < 64, act transition 129 modulus (0, unit 64 i) = 0 := by
  decide +kernel

theorem add_self (v : Vec) : v + v = 0 := Prod.ext (Bits.add_self v.1) (Bits.add_self v.2)

theorem eval_modulus : eval transition 129 modulus = 0 :=
  eval_eq_zero act_modulus_left act_modulus_right

theorem root : Root transition 128 modulus where
  two f := AddMonoidHom.ext fun v => add_self (f v)
  lt := by decide
  top := by decide
  zero := eval_modulus

/-- The prime factors of `2 ^ 128 - 1`. -/
def factors : List Nat := [3, 5, 17, 257, 641, 65537, 274177, 6700417, 67280421310721]

/-- The inverse modulo `modulus` of `x` to the power `(2 ^ 128 - 1) / q`, less one. -/
def inverse : Nat → Nat
  | 3 => 0xb5a6337f9e59aca6dba165cdfbf0af93
  | 5 => 0x626439318adf48efa15870a3b5bec277
  | 17 => 0x634d665e79fa31324ab9f5a0342442c2
  | 257 => 0xbc66ad751f007eff03b782c3069824d2
  | 641 => 0x734790767bfd3bfa62ba20b019f62874
  | 65537 => 0x1ca24f6ee64b11a3917e51c8243c6d5c
  | 274177 => 0xc6c3e92290e941ecaa88cd3a16d69133
  | 6700417 => 0xae6d3eab5b6c369d58c890e682f77499
  | 67280421310721 => 0xbfc454fdbe0d9b18631fa9d97667c6f2
  | _ => 0

theorem prime_67280421310721 : Nat.Prime 67280421310721 := by
  apply Primality.prime_of_witness 46 3 [2, 2, 2, 2, 2, 2, 2, 2, 5, 47, 373, 2998279]
  · decide
  · decide
  · simp only [List.forall_mem_cons]
    norm_num
  · decide
  · decide +kernel
  · decide +kernel

theorem factors_prime : ∀ q ∈ factors, q.Prime := by
  have hsmall : ∀ q ∈ [3, 5, 17, 257, 641, 65537, 274177, 6700417], q.Prime := by
    simp only [List.forall_mem_cons]
    norm_num
  intro q hq
  rcases List.mem_append.mp (show q ∈ [3, 5, 17, 257, 641, 65537, 274177, 6700417] ++ _ from hq)
    with h | h
  · exact hsmall q h
  · obtain rfl := List.mem_singleton.mp h
    exact prime_67280421310721

theorem mem_factors {q : Nat} (hq : q.Prime) (hdvd : q ∣ 2 ^ 128 - 1) : q ∈ factors := by
  apply Primality.mem_of_dvd_prod hq factors_prime
  rwa [show factors.prod = 2 ^ 128 - 1 by decide]

theorem pow_period : pow 128 modulus 128 2 (2 ^ 128 - 1) = 1 := by decide +kernel

theorem pow_inverse : ∀ q ∈ factors,
    mul 128 modulus 128 (inverse q) (pow 128 modulus 128 2 ((2 ^ 128 - 1) / q) ^^^ 1) = 1 := by
  decide +kernel

theorem minimalPeriod_transition {v : Vec} (hv : v ≠ 0) :
    Function.minimalPeriod transition v = 2 ^ 128 - 1 :=
  minimalPeriod_eq root (by decide) (by decide) pow_period
    (fun q hq hdvd => ⟨inverse q, pow_inverse q (mem_factors hq hdvd)⟩) hv

theorem toVec_iterate (k : Nat) (r : Random) : toVec (step^[k] r) = transition^[k] (toVec r) :=
  Function.Semiconj.iterate_right (f := toVec) (fun _ => rfl) k r

theorem toVec_injective : Function.Injective toVec :=
  Function.LeftInverse.injective (g := ofVec) fun _ => rfl

theorem toVec_ne_zero {r : Random} (h : r ≠ zero) : toVec r ≠ 0 := by
  intro hz
  exact h (toVec_injective hz)

theorem card_nonzero : ({v : Vec | v ≠ 0} : Set Vec).ncard = 2 ^ 128 - 1 := by
  have hall : Nat.card Vec = 2 ^ 128 := by
    rw [Nat.card_prod, Bits.card, ← pow_add]
  have hdiff : {v : Vec | v ≠ 0} = Set.univ \ {0} := by
    ext v
    simp
  rw [hdiff, Set.ncard_sdiff_singleton_of_mem (Set.mem_univ 0), Set.ncard_univ, hall]

/-- From a nonzero pair, the generator is back at it after `2 ^ 128 - 1` steps, and has been
at each nonzero pair exactly once on the way. -/
theorem full_period {r : Random} (h : r ≠ zero) :
    step^[2 ^ 128 - 1] r = r ∧ ∀ t, t ≠ zero → ∃! k, k < 2 ^ 128 - 1 ∧ step^[k] r = t := by
  have hv := toVec_ne_zero h
  have hperiod := minimalPeriod_transition hv
  constructor
  · apply toVec_injective
    rw [toVec_iterate, ← hperiod]
    exact Function.iterate_minimalPeriod
  · intro t ht
    have hmaps : Set.MapsTo transition {v : Vec | v ≠ 0} {v : Vec | v ≠ 0} := by
      intro v hv hz
      have hstep : step (ofVec v) = zero := toVec_injective hz
      exact step_ne_zero (r := ofVec v) (fun hzero => hv (congrArg toVec hzero)) hstep
    obtain ⟨k, ⟨hk, hkt⟩, honly⟩ := FullPeriod.existsUnique_iterate (Set.toFinite _) card_nonzero
      hmaps hv hperiod (toVec_ne_zero ht)
    refine ⟨k, ⟨hk, ?_⟩, ?_⟩
    · apply toVec_injective
      rw [toVec_iterate, hkt]
    · rintro j ⟨hj, rfl⟩
      exact honly j ⟨hj, (toVec_iterate j r).symm⟩

theorem full_period_one :
    step^[2 ^ 128 - 1] ⟨1, 0⟩ = ⟨1, 0⟩ ∧
      ∀ t, t ≠ zero → ∃! k, k < 2 ^ 128 - 1 ∧ step^[k] ⟨1, 0⟩ = t :=
  full_period (by decide)

end Turf.Extra.Random
