import Mathlib.Data.BitVec

/-!
# A 64-bit value as two 32-bit words

`high ++ low` is the value of a register pair. The halves of a value give it back,
and addition, conjunction and disjunction of pairs are done word by word, the
addition with the carry of the low words.
-/
namespace Turf.Lib.Words

abbrev Word := BitVec 32

theorem halves_append (v : BitVec 64) : v.extractLsb' 32 32 ++ v.extractLsb' 0 32 = v := by
  ext i hi
  simp only [BitVec.getElem_append, BitVec.getElem_extractLsb']
  split
  · simp [BitVec.getLsbD_eq_getElem hi]
  · simp [show 32 + (i - 32) = i by omega, BitVec.getLsbD_eq_getElem hi]

@[simp] theorem low_append (high low : Word) : (high ++ low).extractLsb' 0 32 = low := by
  ext i hi
  rw [BitVec.getElem_extractLsb', BitVec.getLsbD_append]
  simp [hi, BitVec.getLsbD_eq_getElem]

@[simp] theorem high_append (high low : Word) : (high ++ low).extractLsb' 32 32 = high := by
  ext i hi
  rw [BitVec.getElem_extractLsb', BitVec.getLsbD_append]
  simp [hi, BitVec.getLsbD_eq_getElem]

theorem pair_eq_iff {high low : Word} {v : BitVec 64} :
    high ++ low = v ↔ low = v.extractLsb' 0 32 ∧ high = v.extractLsb' 32 32 := by
  constructor
  · rintro rfl
    simp
  · rintro ⟨rfl, rfl⟩
    exact halves_append v

theorem append_inj {h l h' l' : Word} : h ++ l = h' ++ l' ↔ h = h' ∧ l = l' := by
  rw [pair_eq_iff, low_append, high_append]
  exact and_comm

theorem append_toNat (high low : Word) : (high ++ low).toNat = high.toNat * 2 ^ 32 + low.toNat := by
  have hlt := low.isLt
  rw [BitVec.toNat_append, ← Nat.shiftLeft_add_eq_or_of_lt hlt, Nat.shiftLeft_eq]

/-- Adding the low words and then the high words with the carry adds the pairs. -/
theorem adds_adc (ah al bh bl : Word) :
    (ah + bh + BitVec.ofNat 32 (decide (2 ^ 32 ≤ al.toNat + bl.toNat)).toNat) ++ (al + bl) =
      (ah ++ al) + (bh ++ bl) := by
  apply BitVec.eq_of_toNat_eq
  rw [append_toNat, BitVec.toNat_add (ah ++ al), append_toNat, append_toNat]
  have h1 := al.isLt
  have h2 := bl.isLt
  have h3 := ah.isLt
  have h4 := bh.isLt
  by_cases hc : 2 ^ 32 ≤ al.toNat + bl.toNat
  · simp only [hc, decide_true, Bool.toNat_true, BitVec.toNat_add, BitVec.toNat_ofNat]
    omega
  · simp only [hc, decide_false, Bool.toNat_false, BitVec.toNat_add, BitVec.toNat_ofNat]
    omega

theorem and_append (ah al bh bl : Word) :
    (ah &&& bh) ++ (al &&& bl) = (ah ++ al) &&& (bh ++ bl) := BitVec.and_append.symm

theorem or_append (ah al bh bl : Word) :
    (ah ||| bh) ++ (al ||| bl) = (ah ++ al) ||| (bh ++ bl) := BitVec.or_append.symm

end Turf.Lib.Words
