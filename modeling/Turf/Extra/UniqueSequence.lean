import Turf.Lib.Primality
import Turf.Lib.Residues
import Mathlib.Data.BitVec
import Mathlib.Tactic.NormNum.Prime

/-!
# `UniqueSequence`

`permute` squares modulo a prime just below `2 ^ 32` and leaves the five values above the
prime alone. It is a permutation of all 32-bit values, and so is what `next` does to its
counter, which runs through all of them before it repeats.
-/
namespace Turf.Extra

open Turf.Lib Turf.Lib.Residues

structure UniqueSequence where
  curIndex : BitVec 32
  param0 : BitVec 32
  param1 : BitVec 32

namespace UniqueSequence

/-- The constructor from three numbers. -/
def new (startIndex : BitVec 32) (param0 : BitVec 32 := 0x7012fe08)
    (param1 : BitVec 32 := 0x5bf03635) : UniqueSequence :=
  ⟨startIndex, param0, param1⟩

def prime : BitVec 32 := 4294967291

def permute (x : BitVec 32) : BitVec 32 :=
  if x ≥ prime then x
  else
    let residue := ((x.setWidth 64 * x.setWidth 64) % prime.setWidth 64).setWidth 32
    if x ≤ prime / 2 then residue else prime - residue

def next (u : UniqueSequence) : BitVec 32 × UniqueSequence :=
  (permute ((permute u.curIndex + u.param0) ^^^ u.param1), { u with curIndex := u.curIndex + 1 })

/-- The state after `n` calls. -/
def skip (u : UniqueSequence) : Nat → UniqueSequence
  | 0 => u
  | n + 1 => (next (u.skip n)).2

/-- What the call after `n` others returns. -/
def output (u : UniqueSequence) (n : Nat) : BitVec 32 := (next (u.skip n)).1

/-- What `next` returns while the counter is `i`. -/
def value (u : UniqueSequence) (i : BitVec 32) : BitVec 32 :=
  permute ((permute i + u.param0) ^^^ u.param1)

theorem prime_prime : Nat.Prime 4294967291 := by
  apply Primality.prime_of_witness 32 2 [2, 5, 19, 22605091]
  · decide
  · decide
  · simp only [List.forall_mem_cons]
    norm_num
  · decide
  · decide +kernel
  · decide +kernel

theorem permute_high {x : BitVec 32} (hx : 4294967291 ≤ x.toNat) : permute x = x :=
  if_pos hx

/-- Below the prime, `permute` is the signed square: no product or difference wraps. -/
theorem permute_low {x : BitVec 32} (hx : x.toNat < 4294967291) :
    (permute x).toNat = signedSquare 4294967291 x.toNat := by
  have hge : ¬x ≥ prime := by
    intro h
    exact absurd hx (Nat.not_lt.mpr h)
  have hsquare : x.toNat * x.toNat < 2 ^ 64 := by
    calc x.toNat * x.toNat < 2 ^ 32 * 2 ^ 32 := Nat.mul_lt_mul'' x.isLt x.isLt
      _ = 2 ^ 64 := by norm_num
  have hlt : x.toNat * x.toNat % 4294967291 < 4294967291 := Nat.mod_lt _ (by norm_num)
  have hwide : x.toNat % 2 ^ 64 = x.toNat := Nat.mod_eq_of_lt (by omega)
  have hresidue : (((x.setWidth 64 * x.setWidth 64) % prime.setWidth 64).setWidth 32).toNat =
      x.toNat * x.toNat % 4294967291 := by
    rw [BitVec.toNat_setWidth, BitVec.toNat_umod, BitVec.toNat_mul, BitVec.toNat_setWidth, hwide,
      Nat.mod_eq_of_lt hsquare]
    exact Nat.mod_eq_of_lt (hlt.trans (by decide))
  have hhalf : x ≤ prime / 2 ↔ x.toNat ≤ 4294967291 / 2 := Iff.rfl
  unfold permute
  rw [if_neg hge]
  by_cases hx2 : x.toNat ≤ 4294967291 / 2
  · rw [signedSquare_low hx2, if_pos (hhalf.mpr hx2), hresidue]
  · have hpos : 0 < x.toNat * x.toNat % 4294967291 :=
      have : Fact (Nat.Prime 4294967291) := ⟨prime_prime⟩
      square_mod_pos hx hx2
    rw [signedSquare_high hx2, if_neg (fun h => hx2 (hhalf.mp h)), BitVec.toNat_sub, hresidue]
    have hprime : prime.toNat = 4294967291 := by decide
    rw [hprime]
    omega

theorem permute_injective : Function.Injective permute := by
  have : Fact (Nat.Prime 4294967291) := ⟨prime_prime⟩
  intro x y h
  by_cases hx : x.toNat < 4294967291
  · have hxlt := signedSquare_lt hx
    by_cases hy : y.toNat < 4294967291
    · apply BitVec.eq_of_toNat_eq
      apply signedSquare_injOn (by norm_num) hx hy
      rw [← permute_low hx, ← permute_low hy, h]
    · have hyval := permute_high (Nat.not_lt.mp hy)
      rw [← permute_low hx, h, hyval] at hxlt
      exact absurd hxlt hy
  · have hxval := permute_high (Nat.not_lt.mp hx)
    by_cases hy : y.toNat < 4294967291
    · have hylt := signedSquare_lt hy
      rw [← permute_low hy, ← h, hxval] at hylt
      exact absurd hylt hx
    · rwa [hxval, permute_high (Nat.not_lt.mp hy)] at h

instance : Finite (BitVec 32) := Finite.of_equiv _ BitVec.equivFin.symm.toEquiv

theorem permute_bijective : Function.Bijective permute :=
  Finite.injective_iff_bijective.mp permute_injective

theorem value_bijective (u : UniqueSequence) : Function.Bijective u.value := by
  apply Finite.injective_iff_bijective.mp
  intro i j h
  have hxor := (BitVec.xor_left_inj u.param1).mp (permute_injective h)
  exact permute_injective (BitVec.add_left_inj u.param0 |>.mp hxor)

theorem skip_eq (u : UniqueSequence) (n : Nat) :
    u.skip n = { u with curIndex := u.curIndex + BitVec.ofNat 32 n } := by
  induction n with
  | zero => simp [skip]
  | succ n ih => simp [skip, ih, next, BitVec.ofNat_add, BitVec.add_assoc]

theorem output_eq (u : UniqueSequence) (n : Nat) :
    u.output n = u.value (u.curIndex + BitVec.ofNat 32 n) := by
  rw [output, skip_eq]
  rfl

/-- `permute` is a bijection, and `2 ^ 32` calls in a row, from wherever the counter stands
and across its wrap-around, return different values and every value. -/
theorem outputs_distinct (startIndex param0 param1 : BitVec 32) (n : Nat) :
    Function.Bijective permute ∧
      (∀ i j, i < 2 ^ 32 → j < 2 ^ 32 →
        (new startIndex param0 param1).output (n + i) =
          (new startIndex param0 param1).output (n + j) → i = j) ∧
      ∀ v, ∃! i, i < 2 ^ 32 ∧ (new startIndex param0 param1).output (n + i) = v := by
  have hdistinct : ∀ i j, i < 2 ^ 32 → j < 2 ^ 32 →
      (new startIndex param0 param1).output (n + i) =
        (new startIndex param0 param1).output (n + j) → i = j := by
    intro i j hi hj h
    rw [output_eq, output_eq] at h
    have hindex := (BitVec.add_right_inj _).mp ((value_bijective _).injective h)
    have hmod := congrArg BitVec.toNat hindex
    simp only [BitVec.toNat_ofNat] at hmod
    omega
  refine ⟨permute_bijective, hdistinct, fun v => ?_⟩
  obtain ⟨c, hc⟩ := (value_bijective (new startIndex param0 param1)).surjective v
  -- how far the counter is from `c` after `n` calls
  let i := (c - startIndex - BitVec.ofNat 32 n).toNat
  have hi : (new startIndex param0 param1).output (n + i) = v := by
    rw [output_eq, BitVec.ofNat_add, BitVec.ofNat_toNat, BitVec.setWidth_eq, ← hc]
    congr 1
    show startIndex + (BitVec.ofNat 32 n + (c - startIndex - BitVec.ofNat 32 n)) = c
    rw [BitVec.add_comm (BitVec.ofNat 32 n), BitVec.sub_add_cancel, BitVec.add_comm,
      BitVec.sub_add_cancel]
  refine ⟨i, ⟨BitVec.isLt _, hi⟩, ?_⟩
  rintro j ⟨hj, hjv⟩
  exact hdistinct j i hj (BitVec.isLt _) (hjv.trans hi.symm)

end UniqueSequence
end Turf.Extra
