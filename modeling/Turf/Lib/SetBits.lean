import Mathlib.Data.BitVec

/-!
# The set bits of a word, by their rank

The rank of a position is the number of set bits below it. The ranks of the set bits are
0, 1, 2, ... in order, so a set bit is known by its rank.
-/
namespace Turf.Lib.SetBits

variable {w : Nat}

def rank (v : BitVec w) (k : Nat) : Nat := v.cpopNatRec k 0

@[simp] theorem rank_zero (v : BitVec w) : rank v 0 = 0 := rfl

theorem rank_succ (v : BitVec w) (k : Nat) : rank v (k + 1) = rank v k + (v.getLsbD k).toNat := by
  simp only [rank, BitVec.cpopNatRec_succ, BitVec.cpopNatRec_add]

/-- There are no set bits beyond the word. -/
theorem rank_of_le (v : BitVec w) {n : Nat} (h : w ≤ n) : rank v n = rank v w := by
  obtain ⟨k, rfl⟩ := Nat.exists_eq_add_of_le h
  exact BitVec.cpopNatRec_of_le k w (Nat.le_refl w)

theorem rank_mono (v : BitVec w) {i k : Nat} (h : i ≤ k) : rank v i ≤ rank v k := by
  obtain ⟨n, rfl⟩ := Nat.exists_eq_add_of_le h
  induction n with
  | zero => exact Nat.le_refl _
  | succ n ih =>
    rw [← Nat.add_assoc, rank_succ]
    exact Nat.le_add_right_of_le (ih (Nat.le_add_right i n))

theorem rank_lt_of_set {v : BitVec w} {i k : Nat} (hi : v.getLsbD i = true) (h : i < k) :
    rank v i < rank v k := by
  have hle := rank_mono v (Nat.succ_le_of_lt h)
  rw [Nat.succ_eq_add_one, rank_succ, hi, Bool.toNat_true] at hle
  omega

/-- Every number below the rank of a position is the rank of a set bit below it. -/
theorem exists_rank_eq (v : BitVec w) {n j : Nat} (h : j < rank v n) :
    ∃ k, k < n ∧ v.getLsbD k = true ∧ rank v k = j := by
  induction n with
  | zero => exact absurd h (Nat.not_lt_zero j)
  | succ n ih =>
    by_cases hj : j < rank v n
    · obtain ⟨k, hk, hset, hrank⟩ := ih hj
      exact ⟨k, Nat.lt_succ_of_lt hk, hset, hrank⟩
    · rw [rank_succ] at h
      cases hset : v.getLsbD n with
      | false =>
        rw [hset, Bool.toNat_false] at h
        omega
      | true =>
        rw [hset, Bool.toNat_true] at h
        exact ⟨n, Nat.lt_succ_self n, hset, by omega⟩

/-- Counting from the lowest bit up. -/
theorem rank_succ_shift (v : BitVec w) (n : Nat) :
    rank v (n + 1) = (v.getLsbD 0).toNat + rank (v >>> 1) n := by
  induction n with
  | zero => simp [rank_succ]
  | succ n ih =>
    rw [rank_succ, ih, rank_succ (v >>> 1), BitVec.getLsbD_ushiftRight, Nat.add_comm 1 n,
      Nat.add_assoc]

theorem rank_zero_word (n : Nat) : rank (0 : BitVec w) n = 0 := BitVec.cpopNatRec_zero

theorem ne_zero_of_rank_pos {v : BitVec w} {n : Nat} (h : 0 < rank v n) : v ≠ 0 := by
  intro hv
  rw [hv, rank_zero_word] at h
  exact Nat.lt_irrefl 0 h

theorem and_twoPow_ne_zero {v : BitVec w} {i : Nat} (hi : i < w) :
    v &&& BitVec.twoPow w i ≠ 0 ↔ v.getLsbD i = true := by
  have hpos : BitVec.twoPow w i ≠ 0#w := by
    intro hz
    have htwo := congrArg BitVec.toNat hz
    rw [BitVec.toNat_twoPow_of_lt hi, BitVec.toNat_ofNat, Nat.zero_mod] at htwo
    exact absurd htwo (Nat.pos_iff_ne_zero.mp (Nat.two_pow_pos i))
  rw [BitVec.and_twoPow]
  cases v.getLsbD i
  · simp
  · simpa using hpos

theorem twoPow_shiftLeft_one (w i : Nat) : BitVec.twoPow w i <<< 1 = BitVec.twoPow w (i + 1) := by
  rw [BitVec.twoPow_eq, BitVec.twoPow_eq, BitVec.shiftLeft_add]

theorem twoPow_inj {i k : Nat} (hi : i < w) (hk : k < w)
    (h : BitVec.twoPow w i = BitVec.twoPow w k) : i = k := by
  have hpow := congrArg BitVec.toNat h
  rw [BitVec.toNat_twoPow_of_lt hi, BitVec.toNat_twoPow_of_lt hk] at hpow
  exact Nat.pow_right_injective (Nat.le_refl 2) hpow

theorem toNat_pred {v : BitVec w} (hv : 1 ≤ v.toNat) : (v - 1).toNat = v.toNat - 1 := by
  have hone : (1 : BitVec w).toNat = 1 := Nat.mod_eq_of_lt (Nat.lt_of_le_of_lt hv v.isLt)
  rw [BitVec.toNat_sub_of_le (by rw [BitVec.le_def, hone]; exact hv), hone]

/-! ## The lowest set bit -/

/-- `k` is the position of the lowest set bit. -/
def Lowest (v : BitVec w) (k : Nat) : Prop :=
  v.getLsbD k = true ∧ ∀ i, i < k → v.getLsbD i = false

theorem Lowest.toNat_eq {v : BitVec w} {k : Nat} (h : Lowest v k) :
    v.toNat = 2 ^ (k + 1) * (v.toNat / 2 ^ (k + 1)) + 2 ^ k := by
  have hmod : v.toNat % 2 ^ (k + 1) = 2 ^ k := by
    apply Nat.eq_of_testBit_eq
    intro i
    rw [Nat.testBit_mod_two_pow, BitVec.testBit_toNat, Nat.testBit_two_pow]
    rcases Nat.lt_trichotomy i k with hlt | rfl | hgt
    · simp [h.2 i hlt, Nat.ne_of_gt hlt]
    · simp [h.1]
    · have hne : k ≠ i := Nat.ne_of_lt hgt
      simp [hne, show ¬ i < k + 1 by omega]
  have hdiv := Nat.div_add_mod v.toNat (2 ^ (k + 1))
  rw [hmod] at hdiv
  exact hdiv.symm

/-- Subtracting 1 turns over the bits up to the lowest set one. -/
theorem Lowest.xor_pred {v : BitVec w} {k : Nat} (h : Lowest v k) (i : Nat) :
    (v ^^^ (v - 1)).getLsbD i = decide (i ≤ k) := by
  have hpow : 2 ^ k < 2 ^ (k + 1) := Nat.pow_lt_pow_right (by decide) (Nat.lt_succ_self k)
  have hpos := Nat.two_pow_pos k
  have hv := h.toNat_eq
  have hpred : (v - 1).toNat = 2 ^ (k + 1) * (v.toNat / 2 ^ (k + 1)) + (2 ^ k - 1) := by
    rw [toNat_pred (by omega)]
    omega
  rw [BitVec.getLsbD_xor, ← BitVec.testBit_toNat, ← BitVec.testBit_toNat, hpred]
  nth_rewrite 1 [hv]
  rw [Nat.testBit_two_pow_mul_add _ hpow, Nat.testBit_two_pow_mul_add _ (by omega),
    Nat.testBit_two_pow, Nat.testBit_two_pow_sub_one]
  rcases Nat.lt_trichotomy i k with hlt | rfl | hgt
  · simp [Nat.lt_succ_of_lt hlt, Nat.ne_of_gt hlt, hlt, Nat.le_of_lt hlt]
  · simp
  · simp [show ¬ i < k + 1 by omega, show ¬ i ≤ k by omega]

/-! ## A single set bit -/

theorem toNat_eq_two_pow_iff {v : BitVec w} {k : Nat} :
    v.toNat = 2 ^ k ↔ ∀ i, v.getLsbD i = decide (k = i) := by
  constructor
  · intro h i
    rw [← BitVec.testBit_toNat, h, Nat.testBit_two_pow]
  · intro h
    apply Nat.eq_of_testBit_eq
    intro i
    rw [BitVec.testBit_toNat, h, Nat.testBit_two_pow]

/-- A word with one set bit is a power of two. -/
theorem rank_eq_one_iff {v : BitVec w} : rank v w = 1 ↔ v.toNat.isPowerOfTwo := by
  constructor
  · intro h
    obtain ⟨k, hk, hset, -⟩ := exists_rank_eq v (by omega : 0 < rank v w)
    refine ⟨k, toNat_eq_two_pow_iff.mpr fun i => ?_⟩
    by_cases hik : k = i
    · rw [← hik, hset, decide_eq_true rfl]
    · rw [decide_eq_false hik, Bool.eq_false_iff]
      intro hi
      have hiw := BitVec.lt_of_getLsbD hi
      rcases Nat.lt_or_gt_of_ne hik with hlt | hgt
      · have hfirst := rank_lt_of_set hset hlt
        have hsecond := rank_lt_of_set hi hiw
        omega
      · have hfirst := rank_lt_of_set hi hgt
        have hsecond := rank_lt_of_set hset hk
        omega
  · intro ⟨k, hk⟩
    have hbits := toNat_eq_two_pow_iff.mp hk
    have hset : v.getLsbD k = true := by rw [hbits, decide_eq_true rfl]
    have hpos := rank_lt_of_set hset (BitVec.lt_of_getLsbD hset)
    by_contra hne
    obtain ⟨i, -, hi, hzero⟩ := exists_rank_eq v (by omega : 0 < rank v w)
    obtain ⟨j, -, hj, hone⟩ := exists_rank_eq v (by omega : 1 < rank v w)
    rw [hbits, decide_eq_true_iff] at hi hj
    rw [← hi] at hzero
    rw [← hj] at hone
    omega

end Turf.Lib.SetBits
