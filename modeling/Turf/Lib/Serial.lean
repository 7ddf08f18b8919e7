import Mathlib.Data.BitVec
import Mathlib.Order.RelIso.Basic

/-!
# Comparing readings of a counter that wraps around

A reading is a word, and one reading is before another if their difference, taken as a signed
number, is negative. Among all readings this is no order. Within a window of at most half of
them, counted from some base, it is that of the offsets from the base.
-/
namespace Turf.Lib.Serial

variable {w : Nat}

def Before (a b : BitVec w) : Prop := (a - b).toInt < 0

instance (a b : BitVec w) : Decidable (Before a b) := inferInstanceAs (Decidable (_ < _))

/-- A duration leads forward exactly if it is positive, the least one apart. -/
theorem before_add_iff {a d : BitVec w} (hd : d ≠ BitVec.intMin w) : Before a (a + d) ↔ 0 < d.toInt := by
  rw [Before, sub_add_cancel_left, BitVec.toInt_neg_of_ne_intMin hd]
  omega

/-! ## Windows -/

def offset (base a : BitVec w) : Nat := (a - base).toNat

/-- The first `n` readings from a base on. -/
def Window (base : BitVec w) (n : Nat) (a : BitVec w) : Prop := offset base a < n

theorem offset_add (base : BitVec w) {x : Nat} (hx : x < 2 ^ w) :
    offset base (base + BitVec.ofNat w x) = x := by
  rw [offset, add_sub_cancel_left, BitVec.toNat_ofNat, Nat.mod_eq_of_lt hx]

theorem offset_injective (base : BitVec w) : Function.Injective (offset base) := by
  intro a c h
  have hsub : a - base = c - base := BitVec.eq_of_toNat_eq h
  rw [← BitVec.sub_add_cancel a base, hsub, BitVec.sub_add_cancel]

section

variable {base a c : BitVec w} {n : Nat}

/-- Elapsed time within a window is the difference of the offsets. -/
theorem toInt_sub_window (hn : 2 * n ≤ 2 ^ w) (ha : Window base n a) (hc : Window base n c) :
    (a - c).toInt = (offset base a : Int) - offset base c := by
  unfold Window offset at *
  rw [← sub_sub_sub_cancel_right a c base, BitVec.toInt_sub, BitVec.toInt_eq_toNat_of_lt (by omega),
    BitVec.toInt_eq_toNat_of_lt (by omega), Int.bmod_eq_of_le (by omega) (by omega)]

theorem before_window_iff (hn : 2 * n ≤ 2 ^ w) (ha : Window base n a) (hc : Window base n c) :
    Before a c ↔ offset base a < offset base c := by
  rw [Before, toInt_sub_window hn ha hc]
  omega

/-- A window with its order is a part of the numbers with theirs. -/
def windowEmbedding (base : BitVec w) {n : Nat} (hn : 2 * n ≤ 2 ^ w) :
    (fun p q : {a // Window base n a} => Before p.1 q.1) ↪r ((· < ·) : Nat → Nat → Prop) where
  toFun p := offset base p.1
  inj' _ _ h := Subtype.ext (offset_injective base h)
  map_rel_iff' := fun {p q} => (before_window_iff hn p.2 q.2).symm

theorem window_strictTotalOrder (base : BitVec w) {n : Nat} (hn : 2 * n ≤ 2 ^ w) :
    IsStrictTotalOrder {a // Window base n a} fun p q => Before p.1 q.1 :=
  (windowEmbedding base hn).isStrictTotalOrder

end

end Turf.Lib.Serial
