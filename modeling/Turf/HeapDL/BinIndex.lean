import Mathlib.Data.Nat.Bitwise
import Mathlib.Order.Monotone.Basic
import Turf.HeapDL.Bins
import Turf.HeapDL.Sizes

/-!
# Which sizes a treebin holds

Two treebins for each power of two, and everything else in the last one. A size that does not fit in
the word of `compute_tree_index` can end up in any of them, and is found there again, but the bins
are in the order of their sizes only below that.
-/
namespace Turf.HeapDL

open Turf.Lib.DigitalTree Turf.Lib.DigitalTree.Trie

variable {c : Config} {narrow : Bool} {s s' i d : Nat}

/-- `S >> TREEBIN_SHIFT` is held whole. -/
def FitsIndex (narrow : Bool) (s : Nat) : Prop := narrow = true → s < 2 ^ 40

instance (narrow : Bool) (s : Nat) : Decidable (FitsIndex narrow s) := inferInstanceAs (Decidable (_ → _))

theorem fitsIndex_wide (s : Nat) : FitsIndex false s := fun hnarrow => absurd hnarrow Bool.false_ne_true

theorem FitsIndex.mono (h : FitsIndex narrow s) (hle : s' ≤ s) : FitsIndex narrow s' :=
  fun hn => hle.trans_lt (h hn)

theorem FitsIndex.index_eq (h : FitsIndex narrow s) :
    computeTreeIndex narrow s = computeTreeIndex false s := by
  cases narrow with
  | false => rfl
  | true =>
    have hlt := h rfl
    have hmod : s / 2 ^ 8 % 2 ^ 32 = s / 2 ^ 8 := Nat.mod_eq_of_lt (by omega)
    simp only [computeTreeIndex, hmod, ite_true, Bool.false_eq_true, ite_false]

theorem log2_bounds {x : Nat} (hx : x ≠ 0) : 2 ^ x.log2 ≤ x ∧ x < 2 ^ (x.log2 + 1) :=
  ⟨Nat.log2_self_le hx, Nat.lt_log2_self⟩

theorem computeTreeIndex_lt (narrow : Bool) (s : Nat) : computeTreeIndex narrow s < 32 := by
  unfold computeTreeIndex
  simp only
  generalize (if narrow then s / 2 ^ 8 % 2 ^ 32 else s / 2 ^ 8) = x
  split
  · omega
  · next hx =>
    split
    · omega
    · next hle =>
      have hlog : x.log2 < 16 := (Nat.log2_lt hx).mpr (by omega)
      have hbit := Nat.mod_lt (s / 2 ^ (x.log2 + 7)) (show 0 < 2 by omega)
      omega

/-! ## The bounds of a bin -/

theorem minsize_eq (i : Nat) : minsizeForTreeIndex i = (2 + i % 2) * 2 ^ (i / 2 + 7) := by
  have hdouble : 2 ^ (i / 2 + 8) = 2 ^ (i / 2 + 7) * 2 := Nat.pow_succ ..
  have hpos := Nat.two_pow_pos (i / 2 + 7)
  have hlt : i % 2 * 2 ^ (i / 2 + 7) < 2 ^ (i / 2 + 8) := by
    have hle := Nat.mul_le_mul_right (2 ^ (i / 2 + 7)) (show i % 2 ≤ 1 by omega)
    omega
  have hor := Nat.two_pow_add_eq_or_of_lt hlt 1
  rw [Nat.mul_one] at hor
  rw [minsizeForTreeIndex, show i / 2 + 8 - 1 = i / 2 + 7 from rfl, ← hor, hdouble, Nat.add_mul]
  omega

theorem minsize_succ (i : Nat) : minsizeForTreeIndex (i + 1) = (3 + i % 2) * 2 ^ (i / 2 + 7) := by
  rw [minsize_eq]
  rcases Nat.mod_two_eq_zero_or_one i with h | h
  · rw [h, show (i + 1) % 2 = 1 by omega, show (i + 1) / 2 = i / 2 by omega]
  · have hdouble : 2 ^ (i / 2 + 8) = 2 ^ (i / 2 + 7) * 2 := Nat.pow_succ ..
    rw [h, show (i + 1) % 2 = 0 by omega, show (i + 1) / 2 + 7 = i / 2 + 8 by omega, hdouble]
    omega

theorem minsize_strictMono : StrictMono minsizeForTreeIndex := by
  apply strictMono_nat_of_lt_succ
  intro i
  rw [minsize_succ, minsize_eq]
  exact Nat.mul_lt_mul_of_pos_right (by omega) (Nat.two_pow_pos _)

theorem isSmall_iff : isSmall s ↔ s < 2 ^ 8 := by
  rw [isSmall, decide_eq_true_eq]
  omega

/-- Below the last bin, the index tells the leading bits of a size. -/
theorem index_leading (hs : 2 ^ 8 ≤ s) (hi : computeTreeIndex false s ≠ 31) :
    s / 2 ^ (computeTreeIndex false s / 2 + 7) = 2 + computeTreeIndex false s % 2 := by
  have hx : s / 2 ^ 8 ≠ 0 := by omega
  obtain ⟨hlow, hhigh⟩ := log2_bounds hx
  unfold computeTreeIndex at hi ⊢
  simp only [Bool.false_eq_true, ite_false] at hi ⊢
  rw [if_neg hx] at hi ⊢
  split at hi
  · omega
  · next hle =>
    rw [if_neg hle]
    generalize (s / 2 ^ 8).log2 = k at hlow hhigh ⊢
    have hpow : 2 ^ (k + 1) = 2 ^ k * 2 := Nat.pow_succ ..
    have hpow' : 2 ^ (k + 7) = 2 ^ k * 128 := Nat.pow_add ..
    have hquot : 2 ≤ s / 2 ^ (k + 7) ∧ s / 2 ^ (k + 7) < 4 := by
      rw [Nat.le_div_iff_mul_le (Nat.two_pow_pos _), Nat.div_lt_iff_lt_mul (Nat.two_pow_pos _)]
      omega
    have hhalf : (2 * k + s / 2 ^ (k + 7) % 2) / 2 = k := by omega
    rw [hhalf]
    omega

theorem index_of_large (hs : 2 ^ 8 ≤ s) :
    computeTreeIndex false s = 31 → minsizeForTreeIndex 31 ≤ s := by
  have hx : s / 2 ^ 8 ≠ 0 := by omega
  obtain ⟨hlow, hhigh⟩ := log2_bounds hx
  rw [minsize_eq]
  unfold computeTreeIndex
  simp only [Bool.false_eq_true, ite_false]
  rw [if_neg hx]
  split
  · intro _
    omega
  · next hle =>
    intro heq
    have hlog : (s / 2 ^ 8).log2 < 16 := (Nat.log2_lt hx).mpr (by omega)
    have hk : (s / 2 ^ 8).log2 = 15 := by omega
    rw [hk] at heq hlow hhigh
    omega

theorem minsize_le (hs : 2 ^ 8 ≤ s) : minsizeForTreeIndex (computeTreeIndex false s) ≤ s := by
  by_cases hi : computeTreeIndex false s = 31
  · rw [hi]
    exact index_of_large hs hi
  · rw [minsize_eq, ← index_leading hs hi]
    exact Nat.div_mul_le_self _ _

theorem lt_minsize (hs : 2 ^ 8 ≤ s) (hi : computeTreeIndex false s ≠ 31) :
    s < minsizeForTreeIndex (computeTreeIndex false s + 1) := by
  have hleading := index_leading hs hi
  rw [minsize_succ, show 3 + computeTreeIndex false s % 2 =
    s / 2 ^ (computeTreeIndex false s / 2 + 7) + 1 by omega, Nat.add_mul, Nat.one_mul]
  exact Nat.lt_div_mul_add (Nat.two_pow_pos _)

/-- Larger sizes are in later bins, if not in the same one. -/
theorem lt_of_index_lt (hs : 2 ^ 8 ≤ s) (hs' : 2 ^ 8 ≤ s') (hfits : FitsIndex narrow s)
    (hfits' : FitsIndex narrow s') (h : computeTreeIndex narrow s < computeTreeIndex narrow s') :
    s < s' := by
  rw [hfits.index_eq, hfits'.index_eq] at h
  have hlt := computeTreeIndex_lt false s'
  calc s
    _ < minsizeForTreeIndex (computeTreeIndex false s + 1) := lt_minsize hs (by omega)
    _ ≤ minsizeForTreeIndex (computeTreeIndex false s') := minsize_strictMono.monotone h
    _ ≤ s' := minsize_le hs'

/-! ## The digits of a size -/

theorem modulus_eq (c : Config) : modulus c = 2 ^ sizeTBits c := by
  unfold modulus sizeTBits sizeT
  split <;> rfl

theorem sizeTBits_ge (c : Config) : 32 ≤ sizeTBits c := by
  unfold sizeTBits sizeT
  split <;> omega

theorem treeDigit_eq (c : Config) (i s d : Nat) :
    treeDigit c i s d = (decide (leftshiftForTreeIndex c i + d < sizeTBits c) &&
      s.testBit (sizeTBits c - 1 - (leftshiftForTreeIndex c i + d))) := by
  have hbits := sizeTBits_ge c
  rw [treeDigit, ← Nat.testBit_eq_decide_div_mod_eq, modulus_eq, Nat.testBit_mod_two_pow,
    Nat.testBit_mul_two_pow, decide_eq_true (by omega), Bool.true_and]
  congr 1
  rw [decide_eq_decide]
  omega

/-- Sizes of one bin that agree in the digits agree in the bits above. -/
theorem testBit_above {a b : Nat} (ha : 2 ^ 8 ≤ a) (hb : 2 ^ 8 ≤ b) (ha' : a < modulus c)
    (hb' : b < modulus c) (hai : computeTreeIndex false a = i) (hbi : computeTreeIndex false b = i) {j : Nat}
    (hj : sizeTBits c - leftshiftForTreeIndex c i ≤ j) : a.testBit j = b.testBit j := by
  have hi : i < 32 := hai ▸ computeTreeIndex_lt false a
  have hbits := sizeTBits_ge c
  by_cases hlast : i = 31
  · rw [leftshiftForTreeIndex, if_pos hlast, Nat.sub_zero] at hj
    have hle := Nat.pow_le_pow_right (show 0 < 2 by omega) hj
    rw [← modulus_eq] at hle
    rw [Nat.testBit_lt_two_pow (ha'.trans_le hle), Nat.testBit_lt_two_pow (hb'.trans_le hle)]
  · rw [leftshiftForTreeIndex, if_neg hlast] at hj
    have hleading := index_leading ha (by rw [hai]; exact hlast)
    have hleading' := index_leading hb (by rw [hbi]; exact hlast)
    rw [hai] at hleading
    rw [hbi, ← hleading] at hleading'
    obtain ⟨k, rfl⟩ := Nat.exists_eq_add_of_le (show i / 2 + 7 ≤ j by omega)
    rw [Nat.add_comm, ← Nat.testBit_div_two_pow, ← hleading', Nat.testBit_div_two_pow]

/-- In the trees the digits of the sizes are in the order of the sizes. -/
theorem ordered_of_index {ks : List Nat} (h : ∀ s ∈ ks, 2 ^ 8 ≤ s ∧ s < modulus c ∧
    FitsIndex narrow s ∧ computeTreeIndex narrow s = i) : Ordered (treeDigit c i) ks := by
  intro d a ha b hb hagree hda hdb
  obtain ⟨ha, ha', hfa, hai⟩ := h a ha
  obtain ⟨hb, hb', hfb, hbi⟩ := h b hb
  rw [hfa.index_eq] at hai
  rw [hfb.index_eq] at hbi
  have hd : leftshiftForTreeIndex c i + d < sizeTBits c := by
    rw [treeDigit_eq, Bool.and_eq_true, decide_eq_true_eq] at hdb
    exact hdb.1
  rw [treeDigit_eq, decide_eq_true hd, Bool.true_and] at hda hdb
  apply Nat.lt_of_testBit (sizeTBits c - 1 - (leftshiftForTreeIndex c i + d)) hda hdb
  intro j hj
  by_cases hhigh : sizeTBits c - leftshiftForTreeIndex c i ≤ j
  · exact testBit_above ha hb ha' hb' hai hbi hhigh
  · have hdigit := hagree (sizeTBits c - 1 - leftshiftForTreeIndex c i - j) (by omega)
    rw [treeDigit_eq, treeDigit_eq, decide_eq_true (by omega), Bool.true_and, Bool.true_and] at hdigit
    rwa [show sizeTBits c - 1 - (leftshiftForTreeIndex c i +
      (sizeTBits c - 1 - leftshiftForTreeIndex c i - j)) = j by omega] at hdigit

end Turf.HeapDL
