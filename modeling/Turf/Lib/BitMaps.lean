import Mathlib.Data.BitVec

/-!
# Sets of small numbers as words

The bit at a position tells whether the position is in the set. The least one is found by arithmetic
on the word alone.
-/
namespace Turf.Lib.BitMaps

variable {w : Nat} {x : BitVec w} {i j : Nat}

/-- The lowest set bit. -/
def leastBit (x : BitVec w) : BitVec w := x &&& -x

/-- All bits to the left of the lowest set one. -/
def leftBits (x : BitVec w) : BitVec w := (x <<< 1) ||| -(x <<< 1)

theorem ctz_lt (h : x ≠ 0#w) : x.ctz.toNat < w := by
  have hlt := BitVec.ctz_lt_iff_ne_zero.mpr h
  rw [BitVec.lt_def] at hlt
  exact hlt.trans_le (Nat.mod_le _ _)

theorem ctz_le (h : x.getLsbD i) : x.ctz.toNat ≤ i := by
  by_contra hlt
  rw [BitVec.getLsbD_false_of_lt_ctz (Nat.lt_of_not_le hlt)] at h
  cases h

theorem ne_zero_of_getLsbD (h : x.getLsbD i) : x ≠ 0#w := by
  intro hzero
  rw [hzero, BitVec.getLsbD_zero] at h
  cases h

/-- The number of trailing zeros is the least position. -/
theorem ctz_eq (h : x.getLsbD i) (hlow : ∀ j < i, x.getLsbD j = false) : x.ctz.toNat = i := by
  refine Nat.le_antisymm (ctz_le h) (Nat.le_of_not_lt fun hlt => ?_)
  have hset := BitVec.getLsbD_true_ctz_of_ne_zero (ne_zero_of_getLsbD h)
  rw [hlow _ hlt] at hset
  cases hset

theorem exists_lt_iff (i : Nat) : (∃ j < i, x.getLsbD j = true) ↔ x ≠ 0#w ∧ x.ctz.toNat < i := by
  constructor
  · intro ⟨j, hj, hset⟩
    exact ⟨ne_zero_of_getLsbD hset, (ctz_le hset).trans_lt hj⟩
  · intro ⟨hne, hlt⟩
    exact ⟨_, hlt, BitVec.getLsbD_true_ctz_of_ne_zero hne⟩

theorem getLsbD_neg_eq (h : x ≠ 0#w) (i : Nat) :
    (-x).getLsbD i = (x.getLsbD i ^^ (decide (i < w) && decide (x.ctz.toNat < i))) := by
  rw [BitVec.getLsbD_neg]
  simp only [exists_lt_iff, ne_eq, h, not_false_eq_true, true_and]

theorem getLsbD_leastBit (h : x ≠ 0#w) (i : Nat) : (leastBit x).getLsbD i = decide (i = x.ctz.toNat) := by
  rw [leastBit, BitVec.getLsbD_and, getLsbD_neg_eq h]
  cases hi : x.getLsbD i with
  | false =>
    rw [Bool.false_and, eq_comm, decide_eq_false_iff_not]
    intro heq
    rw [heq, BitVec.getLsbD_true_ctz_of_ne_zero h] at hi
    cases hi
  | true =>
    have hle := ctz_le hi
    have hlt := BitVec.lt_of_getLsbD hi
    rw [Bool.true_and, decide_eq_true hlt, Bool.true_and, Bool.true_xor, ← decide_not, decide_eq_decide]
    omega

theorem ctz_leastBit (h : x ≠ 0#w) : (leastBit x).ctz.toNat = x.ctz.toNat := by
  apply ctz_eq
  · rw [getLsbD_leastBit h, decide_eq_true rfl]
  · intro j hj
    rw [getLsbD_leastBit h, decide_eq_false hj.ne]

theorem getLsbD_leftBits (h : x ≠ 0#w) (i : Nat) :
    (leftBits x).getLsbD i = (decide (i < w) && decide (x.ctz.toNat < i)) := by
  have hlow := BitVec.getLsbD_true_ctz_of_ne_zero h
  have hctz := ctz_lt h
  have hbit : ∀ j, (x <<< 1).getLsbD j = (decide (j < w) && (decide (1 ≤ j) && x.getLsbD (j - 1))) := by
    intro j
    rw [BitVec.getLsbD_shiftLeft, Bool.and_assoc, ← decide_not, decide_eq_decide.mpr Nat.not_lt]
  rw [leftBits, BitVec.getLsbD_or]
  by_cases htop : x.ctz.toNat + 1 < w
  · have hset : (x <<< 1).getLsbD (x.ctz.toNat + 1) = true := by
      rw [hbit, decide_eq_true htop, decide_eq_true (Nat.le_add_left 1 _), Nat.add_sub_cancel, hlow]
      rfl
    have hnext : (x <<< 1).ctz.toNat = x.ctz.toNat + 1 := by
      apply ctz_eq hset
      intro j hj
      rw [hbit]
      cases j with
      | zero => simp
      | succ j => rw [Nat.add_sub_cancel, BitVec.getLsbD_false_of_lt_ctz (by omega), Bool.and_false, Bool.and_false]
    rw [getLsbD_neg_eq (ne_zero_of_getLsbD hset), hnext]
    by_cases hi : i < w
    · rw [decide_eq_true hi, Bool.true_and, Bool.true_and]
      cases hb : (x <<< 1).getLsbD i with
      | false =>
        have hne : i ≠ x.ctz.toNat + 1 := fun heq => by rw [heq, hset] at hb; cases hb
        rw [Bool.false_or, Bool.false_xor, decide_eq_decide]
        omega
      | true =>
        have hge := ctz_le hb
        rw [Bool.true_or, eq_comm, decide_eq_true_eq]
        omega
    · rw [decide_eq_false hi, Bool.false_and, Bool.false_and, hbit, decide_eq_false hi]
      rfl
  · have hzero : x <<< 1 = 0#w := by
      apply BitVec.eq_of_getLsbD_eq
      intro j hj
      rw [hbit, BitVec.getLsbD_zero]
      cases j with
      | zero => simp
      | succ j => rw [Nat.add_sub_cancel, BitVec.getLsbD_false_of_lt_ctz (by omega), Bool.and_false, Bool.and_false]
    rw [hzero, BitVec.neg_zero, BitVec.getLsbD_zero, Bool.or_false, eq_comm, Bool.and_eq_false_iff]
    by_cases hi : i < w
    · exact .inr (decide_eq_false (by omega))
    · exact .inl (decide_eq_false hi)

/-! ## Single positions -/

theorem getLsbD_bit (hi : i < w) (j : Nat) : (1#w <<< i).getLsbD j = decide (i = j) := by
  rw [← BitVec.twoPow_eq, BitVec.getLsbD_twoPow, decide_eq_true hi, Bool.true_and]

theorem getLsbD_mark (hi : i < w) (j : Nat) :
    (x ||| 1#w <<< i).getLsbD j = (x.getLsbD j || decide (i = j)) := by
  rw [BitVec.getLsbD_or, getLsbD_bit hi]

theorem getLsbD_clear (hi : i < w) (j : Nat) :
    (x &&& ~~~(1#w <<< i)).getLsbD j = (x.getLsbD j && decide (i ≠ j)) := by
  rw [BitVec.getLsbD_and, BitVec.getLsbD_not, getLsbD_bit hi, decide_not]
  by_cases hj : j < w
  · rw [decide_eq_true hj, Bool.true_and]
  · rw [BitVec.getLsbD_of_ge _ _ (Nat.le_of_not_lt hj), Bool.false_and, Bool.false_and]

theorem isMarked_iff (hi : i < w) : x &&& 1#w <<< i ≠ 0#w ↔ x.getLsbD i := by
  constructor
  · intro hne
    obtain ⟨j, hj⟩ : ∃ j, (x &&& 1#w <<< i).getLsbD j = true := by
      by_contra hnone
      refine hne (BitVec.eq_of_getLsbD_eq fun j _ => ?_)
      rw [BitVec.getLsbD_zero]
      exact Bool.eq_false_iff.mpr fun hset => hnone ⟨j, hset⟩
    rw [BitVec.getLsbD_and, getLsbD_bit hi, Bool.and_eq_true, decide_eq_true_eq] at hj
    rw [hj.2]
    exact hj.1
  · intro hset
    apply ne_zero_of_getLsbD (i := i)
    rw [BitVec.getLsbD_and, hset, getLsbD_bit hi, decide_eq_true rfl]
    rfl

theorem ctz_bit (hi : i < w) : (1#w <<< i).ctz.toNat = i := by
  apply ctz_eq
  · rw [getLsbD_bit hi, decide_eq_true rfl]
  · intro j hj
    rw [getLsbD_bit hi, decide_eq_false hj.ne']

theorem ne_zero_of_bit (hi : i < w) : 1#w <<< i ≠ 0#w := by
  apply ne_zero_of_getLsbD (i := i)
  rw [getLsbD_bit hi, decide_eq_true rfl]

theorem eq_zero_iff : x = 0#w ↔ ∀ i, x.getLsbD i = false := by
  constructor
  · intro h i
    rw [h, BitVec.getLsbD_zero]
  · intro h
    exact BitVec.eq_of_getLsbD_eq fun i _ => (h i).trans BitVec.getLsbD_zero.symm

end Turf.Lib.BitMaps
