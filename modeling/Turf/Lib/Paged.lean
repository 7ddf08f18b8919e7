import Mathlib.Data.List.Range
import Mathlib.Data.Nat.Basic

/-!
# A sequence laid out in pages

Pages of one size hold a sequence: position `k` is slot `k % size` of page `k / size`. What
is proved here says that this layout loses nothing: a slot has one position, and going
through pages and their slots in order is going through the positions in order.
-/
namespace Turf.Lib.Paged

variable {size : Nat}

/-- The page and the slot of a position. -/
def place (size k : Nat) : Nat × Nat := (k / size, k % size)

theorem place_mul_add {i : Nat} (hi : i < size) (p : Nat) : place size (p * size + i) = (p, i) := by
  have hpos : 0 < size := by omega
  unfold place
  rw [Nat.mul_comm, Nat.mul_add_div hpos, Nat.div_eq_of_lt hi, Nat.add_zero, Nat.mul_add_mod,
    Nat.mod_eq_of_lt hi]

theorem position_place (size k : Nat) : (place size k).1 * size + (place size k).2 = k := by
  rw [Nat.mul_comm]
  exact Nat.div_add_mod k size

theorem place_injective : Function.Injective (place size) := by
  intro j k hjk
  rw [← position_place size j, hjk, position_place]

/-- The first `m` slots of a page, as positions. -/
theorem map_range {m : Nat} (hm : m ≤ size) (p : Nat) :
    (List.range m).map (fun i => (p, i)) = (List.range' (p * size) m).map (place size) := by
  rw [List.range'_eq_map_range, List.map_map]
  apply List.map_congr_left
  intro i hi
  have hlt := List.mem_range.mp hi
  exact (place_mul_add (by omega) p).symm

/-- Full pages one after the other, and then the first `m` slots of the next. -/
theorem flatMap_range {m : Nat} (hm : m ≤ size) (p k : Nat) {f : Nat → Nat}
    (hfull : ∀ q, p ≤ q → q < p + k → f q = size) (hlast : f (p + k) = m) :
    (List.range' p (k + 1)).flatMap (fun q => (List.range (f q)).map fun i => (q, i)) =
      (List.range' (p * size) (k * size + m)).map (place size) := by
  induction k generalizing p with
  | zero =>
    have hlast' : f p = m := hlast
    rw [Nat.zero_mul, Nat.zero_add, Nat.zero_add, List.range'_one, List.flatMap_singleton, hlast',
      map_range hm]
  | succ k ih =>
    have hrest := ih (p + 1) (fun q hle hlt => hfull q (by omega) (by omega))
      (by rw [show p + 1 + k = p + (k + 1) by omega]; exact hlast)
    have hsplit : (k + 1) * size + m = size + (k * size + m) := by
      rw [Nat.succ_mul]
      omega
    have happend := List.range'_append_1 (s := p * size) (m := size) (n := k * size + m)
    rw [List.range'_succ, List.flatMap_cons, hrest, hfull p (Nat.le_refl p) (by omega),
      map_range (Nat.le_refl size), hsplit, Nat.succ_mul, ← happend, List.map_append]

end Turf.Lib.Paged
