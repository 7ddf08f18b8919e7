import Turf.Lib.Mixing

/-!
# The avalanche functions

`avalanche` and `deavalanche` of `Util.h`, one pair for each width. Each is a chain of
folds to the right and products; the other member of the pair undoes the links in the
opposite order.
-/
namespace Turf.Util

open Turf.Lib.Mixing

/-- `avalanche(u32)`. -/
def avalanche32 (h : BitVec 32) : BitVec 32 :=
  let h := h ^^^ h >>> 16
  let h := h * 0x85ebca6b
  let h := h ^^^ h >>> 13
  let h := h * 0xc2b2ae35
  h ^^^ h >>> 16

/-- `deavalanche(u32)`. -/
def deavalanche32 (h : BitVec 32) : BitVec 32 :=
  let h := h ^^^ h >>> 16
  let h := h * 0x7ed1b41d
  let h := h ^^^ (h ^^^ h >>> 13) >>> 13
  let h := h * 0xa5cb9243
  h ^^^ h >>> 16

/-- `avalanche(u64)`. -/
def avalanche64 (h : BitVec 64) : BitVec 64 :=
  let h := h ^^^ h >>> 33
  let h := h * 0xff51afd7ed558ccd
  let h := h ^^^ h >>> 33
  let h := h * 0xc4ceb9fe1a85ec53
  h ^^^ h >>> 33

/-- `deavalanche(u64)`. -/
def deavalanche64 (h : BitVec 64) : BitVec 64 :=
  let h := h ^^^ h >>> 33
  let h := h * 0x9cb4b2f8129337db
  let h := h ^^^ h >>> 33
  let h := h * 0x4f74430c22a54005
  h ^^^ h >>> 33

theorem avalanche32_eq (h : BitVec 32) :
    avalanche32 h = foldRight 16 (foldRight 13 (foldRight 16 h * 0x85ebca6b) * 0xc2b2ae35) := rfl

theorem deavalanche32_eq (h : BitVec 32) :
    deavalanche32 h = foldRight 16 (foldRightTwice 13 (foldRight 16 h * 0x7ed1b41d) * 0xa5cb9243) :=
  rfl

theorem avalanche64_eq (h : BitVec 64) :
    avalanche64 h =
      foldRight 33 (foldRight 33 (foldRight 33 h * 0xff51afd7ed558ccd) * 0xc4ceb9fe1a85ec53) := rfl

theorem deavalanche64_eq (h : BitVec 64) :
    deavalanche64 h =
      foldRight 33 (foldRight 33 (foldRight 33 h * 0x9cb4b2f8129337db) * 0x4f74430c22a54005) := rfl

theorem deavalanche32_avalanche32 (h : BitVec 32) : deavalanche32 (avalanche32 h) = h := by
  rw [avalanche32_eq, deavalanche32_eq, foldRight_foldRight (by decide),
    mul_mul_cancel (by decide), foldRightTwice_foldRight (by decide),
    mul_mul_cancel (by decide), foldRight_foldRight (by decide)]

theorem avalanche32_deavalanche32 (h : BitVec 32) : avalanche32 (deavalanche32 h) = h := by
  rw [avalanche32_eq, deavalanche32_eq, foldRight_foldRight (by decide),
    mul_mul_cancel (by decide), foldRight_foldRightTwice (by decide),
    mul_mul_cancel (by decide), foldRight_foldRight (by decide)]

theorem deavalanche64_avalanche64 (h : BitVec 64) : deavalanche64 (avalanche64 h) = h := by
  rw [avalanche64_eq, deavalanche64_eq, foldRight_foldRight (by decide),
    mul_mul_cancel (by decide), foldRight_foldRight (by decide),
    mul_mul_cancel (by decide), foldRight_foldRight (by decide)]

theorem avalanche64_deavalanche64 (h : BitVec 64) : avalanche64 (deavalanche64 h) = h := by
  rw [avalanche64_eq, deavalanche64_eq, foldRight_foldRight (by decide),
    mul_mul_cancel (by decide), foldRight_foldRight (by decide),
    mul_mul_cancel (by decide), foldRight_foldRight (by decide)]

theorem avalanche64_injective : Function.Injective avalanche64 :=
  Function.LeftInverse.injective deavalanche64_avalanche64

@[simp] theorem avalanche64_zero : avalanche64 0 = 0 := by decide

/-- Only zero is mixed to zero. -/
theorem avalanche64_eq_zero_iff {h : BitVec 64} : avalanche64 h = 0 ↔ h = 0 := by
  constructor
  · intro hz
    exact avalanche64_injective (hz.trans avalanche64_zero.symm)
  · rintro rfl
    exact avalanche64_zero

/-- A function that undoes another and is undone by it: both are bijections, both fix zero
as soon as one does, and different keys stay different. -/
structure Undoes {w : Nat} (mix unmix : BitVec w → BitVec w) : Prop where
  unmix_mix : ∀ h, unmix (mix h) = h
  mix_unmix : ∀ h, mix (unmix h) = h
  mix_bijective : Function.Bijective mix
  unmix_bijective : Function.Bijective unmix
  mix_zero : mix 0 = 0
  unmix_zero : unmix 0 = 0

theorem undoes_of_inverse {w : Nat} {mix unmix : BitVec w → BitVec w}
    (hleft : ∀ h, unmix (mix h) = h) (hright : ∀ h, mix (unmix h) = h) (hzero : mix 0 = 0) :
    Undoes mix unmix where
  unmix_mix := hleft
  mix_unmix := hright
  mix_bijective := Function.bijective_iff_has_inverse.mpr ⟨unmix, hleft, hright⟩
  unmix_bijective := Function.bijective_iff_has_inverse.mpr ⟨mix, hright, hleft⟩
  mix_zero := hzero
  unmix_zero := by
    calc unmix 0 = unmix (mix 0) := by rw [hzero]
      _ = 0 := hleft 0

/-- Both overloads are bijections that fix zero, each undone by its partner. -/
theorem avalanche_deavalanche_inverse :
    Undoes avalanche32 deavalanche32 ∧ Undoes avalanche64 deavalanche64 :=
  ⟨undoes_of_inverse deavalanche32_avalanche32 avalanche32_deavalanche32 (by decide),
    undoes_of_inverse deavalanche64_avalanche64 avalanche64_deavalanche64 (by decide)⟩

end Turf.Util
