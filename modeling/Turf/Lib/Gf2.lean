import Mathlib.Algebra.Ring.Hom.Defs
import Mathlib.Algebra.GroupWithZero.Action.End
import Mathlib.Algebra.Module.Hom
import Mathlib.Data.BitVec
import Mathlib.Data.Nat.Bitwise
import Turf.Lib.FullPeriod

/-!
# Polynomials over the field of two elements

A natural number stands for the polynomial whose coefficient of `x ^ i` is its bit `i`.
`eval r n c` is the value at `r` of the terms of `c` below `x ^ n`, in any ring where
`a + a = 0`. At a root `r` of a polynomial `p` of degree `n`, products and powers modulo
`p` have the values they should, so a statement about a power of an endomorphism comes
down to a computation with naturals.
-/
namespace Turf.Lib.Gf2

section Eval

variable {R : Type*} [Ring R]

/-- Bit `0` of `c` in the ring. -/
def coeff (R : Type*) [Ring R] (c : Nat) : R := if c.testBit 0 then 1 else 0

def eval (r : R) : Nat → Nat → R
  | 0, _ => 0
  | n + 1, c => coeff R c + eval r n (c / 2) * r

/-- The product of `x` and `c`, of degree below `n`, modulo `p` of degree `n`. -/
def mulX (n p c : Nat) : Nat := 2 * c ^^^ p * ((2 * c) >>> n)

/-- The product of the terms of `c` below `x ^ k` and `d`, modulo `p`. -/
def mul (n p : Nat) : Nat → Nat → Nat → Nat
  | 0, _, _ => 0
  | k + 1, c, d => d * (c % 2) ^^^ mul n p k (c / 2) (mulX n p d)

/-- The power of `a`, modulo `p`, to the exponent made of the low `b` bits of `e`. -/
def pow (n p : Nat) : Nat → Nat → Nat → Nat
  | 0, _, _ => 1
  | b + 1, a, e =>
    if e.testBit 0 then mul n p n (pow n p b (mul n p n a a) (e / 2)) a
    else pow n p b (mul n p n a a) (e / 2)

/-- `p` is a polynomial of degree `n`, with `r` for a root, and sums cancel. -/
structure Root (r : R) (n p : Nat) : Prop where
  two : ∀ a : R, a + a = 0
  lt : p < 2 ^ (n + 1)
  top : p.testBit n
  zero : eval r (n + 1) p = 0

theorem coeff_xor (htwo : ∀ a : R, a + a = 0) (c d : Nat) :
    coeff R (c ^^^ d) = coeff R c + coeff R d := by
  unfold coeff
  rw [Nat.testBit_xor]
  cases c.testBit 0 <;> cases d.testBit 0 <;> simp [htwo]

theorem eval_xor (htwo : ∀ a : R, a + a = 0) (r : R) (n : Nat) (c d : Nat) :
    eval r n (c ^^^ d) = eval r n c + eval r n d := by
  induction n generalizing c d with
  | zero => simp [eval]
  | succ n ih =>
    have hhalf : (c ^^^ d) / 2 = c / 2 ^^^ d / 2 := Nat.xor_div_two
    simp only [eval, coeff_xor htwo, hhalf, ih, add_mul]
    exact add_add_add_comm _ _ _ _

@[simp] theorem eval_zero (r : R) (n : Nat) : eval r n 0 = 0 := by
  induction n with
  | zero => simp [eval]
  | succ n ih => simp [eval, coeff, ih]

theorem eval_one (r : R) {n : Nat} (hn : 0 < n) : eval r n 1 = 1 := by
  obtain ⟨m, rfl⟩ := Nat.exists_eq_add_of_lt hn
  simp [eval, coeff]

/-- Terms above the degree add nothing. -/
theorem eval_succ_of_lt (r : R) {n c : Nat} (hc : c < 2 ^ n) : eval r (n + 1) c = eval r n c := by
  induction n generalizing c with
  | zero =>
    obtain rfl : c = 0 := by omega
    simp
  | succ n ih =>
    have hhalf : c / 2 < 2 ^ n := by omega
    rw [eval, ih hhalf, eval]

theorem eval_commute (r : R) (n c : Nat) : eval r n c * r = r * eval r n c := by
  induction n generalizing c with
  | zero => simp [eval]
  | succ n ih =>
    have hcoeff : coeff R c * r = r * coeff R c := by
      unfold coeff
      split <;> simp
    rw [eval, add_mul, mul_add, hcoeff, ← mul_assoc, ih]

theorem eval_two_mul (r : R) (n c : Nat) : eval r (n + 1) (2 * c) = r * eval r n c := by
  have hhalf : 2 * c / 2 = c := by omega
  simp [eval, coeff, hhalf, eval_commute]

variable {r : R} {n p : Nat}

theorem lt_of_testBit_eq_false {x : Nat} (hx : x < 2 ^ (n + 1)) (hbit : x.testBit n = false) :
    x < 2 ^ n := by
  apply Nat.lt_pow_two_of_testBit
  intro i hi
  rcases Nat.eq_or_lt_of_le hi with rfl | hlt
  · exact hbit
  · exact Nat.testBit_lt_two_pow (hx.trans_le (Nat.pow_le_pow_right (by decide) hlt))

theorem mulX_spec (h : Root r n p) {c : Nat} (hc : c < 2 ^ n) :
    mulX n p c < 2 ^ n ∧ eval r n (mulX n p c) = r * eval r n c := by
  have hdouble : 2 * c < 2 ^ (n + 1) := by
    rw [pow_succ]
    omega
  have hvalue : eval r (n + 1) (2 * c) = r * eval r n c := eval_two_mul r n c
  unfold mulX
  by_cases hlow : 2 * c < 2 ^ n
  · rw [Nat.shiftRight_eq_zero _ _ hlow, Nat.mul_zero, Nat.xor_zero, ← eval_succ_of_lt r hlow]
    exact ⟨hlow, hvalue⟩
  · have hone : (2 * c) >>> n = 1 := by
      rw [Nat.shiftRight_eq_div_pow]
      exact Nat.div_eq_of_lt_le (by omega) (by omega)
    have htop : (2 * c).testBit n := by simp [Nat.testBit, hone]
    rw [hone, Nat.mul_one]
    have hlt : 2 * c ^^^ p < 2 ^ n := by
      apply lt_of_testBit_eq_false (Nat.xor_lt_two_pow hdouble h.lt)
      rw [Nat.testBit_xor, htop, h.top, Bool.xor_self]
    refine ⟨hlt, ?_⟩
    rw [← eval_succ_of_lt r hlt, eval_xor h.two, h.zero, add_zero, hvalue]

/-- By induction on the terms of the first factor. -/
theorem mul_spec (h : Root r n p) (k c : Nat) {d : Nat} (hd : d < 2 ^ n) :
    mul n p k c d < 2 ^ n ∧ eval r n (mul n p k c d) = eval r k c * eval r n d := by
  induction k generalizing c d with
  | zero => simp [mul, eval]
  | succ k ih =>
    obtain ⟨hlt, hvalue⟩ := mulX_spec h hd
    obtain ⟨hrest, heval⟩ := ih (c / 2) hlt
    have hterm : d * (c % 2) < 2 ^ n ∧ eval r n (d * (c % 2)) = coeff R c * eval r n d := by
      unfold coeff
      rw [Nat.testBit_zero]
      rcases Nat.mod_two_eq_zero_or_one c with h0 | h1
      · simp [h0]
      · simpa [h1] using hd
    rw [mul, eval, eval_xor h.two, hterm.2, heval, hvalue, add_mul, mul_assoc]
    exact ⟨Nat.xor_lt_two_pow hterm.1 hrest, rfl⟩

theorem pow_spec (h : Root r n p) (hn : 0 < n) (b : Nat) {a e : Nat} (ha : a < 2 ^ n)
    (he : e < 2 ^ b) : pow n p b a e < 2 ^ n ∧ eval r n (pow n p b a e) = eval r n a ^ e := by
  induction b generalizing a e with
  | zero =>
    obtain rfl : e = 0 := by omega
    rw [pow, pow_zero, eval_one r hn]
    exact ⟨Nat.one_lt_two_pow hn.ne', rfl⟩
  | succ b ih =>
    obtain ⟨hlt, hsquare⟩ := mul_spec h n a ha
    obtain ⟨hroot, hvalue⟩ := ih hlt (show e / 2 < 2 ^ b by omega)
    rw [hsquare, ← pow_two, ← pow_mul] at hvalue
    have hhalf := Nat.div_add_mod e 2
    rw [pow, Nat.testBit_zero]
    rcases Nat.mod_two_eq_zero_or_one e with h0 | h1
    · rw [h0, Nat.add_zero] at hhalf
      simpa [h0, hhalf, hroot] using hvalue
    · obtain ⟨hprod, hmul⟩ := mul_spec h n (pow n p b (mul n p n a a) (e / 2)) ha
      have hpow : eval r n a ^ e = eval r n a ^ (2 * (e / 2)) * eval r n a := by
        rw [← pow_succ, ← h1, hhalf]
      rw [hvalue, ← hpow] at hmul
      simpa [h1, hprod] using hmul

end Eval

section Act

variable {G : Type*} [AddCommGroup G]

/-- The value of `c` at `f`, applied to `v`. -/
def act (f : G → G) : Nat → Nat → G → G
  | 0, _, _ => 0
  | n + 1, c, v => (if c.testBit 0 then v else 0) + act f n (c / 2) (f v)

theorem eval_apply (f : AddMonoid.End G) (n c : Nat) (v : G) : eval f n c v = act f n c v := by
  induction n generalizing c v with
  | zero => exact AddMonoidHom.zero_apply v
  | succ n ih =>
    have hcoeff : coeff (AddMonoid.End G) c v = if c.testBit 0 then v else 0 := by
      unfold coeff
      split <;> rfl
    rw [eval, act, ← ih, ← hcoeff]
    rfl

variable {f : AddMonoid.End G} {n p N : Nat}

theorem eval_pow_apply (h : Root f n p) (hn : 1 < n) {e : Nat} (he : e < 2 ^ n) (v : G) :
    eval f n (pow n p n 2 e) v = f^[e] v := by
  have htwo : 2 < 2 ^ n := Nat.lt_of_lt_of_le (by decide) (Nat.pow_le_pow_right (by decide) hn)
  have hx : eval f n 2 = f := by
    obtain ⟨m, rfl⟩ := Nat.exists_eq_add_of_lt hn
    rw [eval_two_mul f (1 + m) 1, eval_one f (by omega), mul_one]
  rw [(pow_spec h (by omega) n htwo he).2, hx]
  exact congrFun (AddMonoid.End.coe_pow G f e) v

/-- `x ^ N` is one modulo `p` and `x ^ (N / q) - 1` is invertible for the prime factors `q` of
`N`: every vector but zero comes back after `N` steps and not before. -/
theorem minimalPeriod_eq (h : Root f n p) (hn : 1 < n) (hN : N < 2 ^ n)
    (hone : pow n p n 2 N = 1)
    (hinv : ∀ q, q.Prime → q ∣ N → ∃ c, mul n p n c (pow n p n 2 (N / q) ^^^ 1) = 1)
    {v : G} (hv : v ≠ 0) : Function.minimalPeriod f v = N := by
  apply FullPeriod.minimalPeriod_eq_of_prime
  · have hvalue := eval_pow_apply h hn hN v
    rw [hone, eval_one f (by omega)] at hvalue
    exact hvalue.symm
  · intro q hq hqN hfix
    obtain ⟨c, hc⟩ := hinv q hq hqN
    have hlt : N / q < 2 ^ n := (Nat.div_le_self N q).trans_lt hN
    have htwo : 2 < 2 ^ n := Nat.lt_of_lt_of_le (by decide) (Nat.pow_le_pow_right (by decide) hn)
    have hpow : pow n p n 2 (N / q) ^^^ 1 < 2 ^ n :=
      Nat.xor_lt_two_pow (pow_spec h (by omega) n htwo hlt).1 (by omega)
    have hprod := (mul_spec h n c hpow).2
    rw [hc, eval_xor h.two, eval_one f (by omega)] at hprod
    have hfixed : eval f n (pow n p n 2 (N / q)) v = v :=
      (eval_pow_apply h hn hlt v).trans hfix
    have hzero : v = eval f n c (eval f n (pow n p n 2 (N / q)) v + v) :=
      congrArg (fun g : AddMonoid.End G => g v) hprod
    have hself : v + v = 0 := congrArg (fun g : AddMonoid.End G => g v) (h.two 1)
    rw [hfixed, hself, map_zero] at hzero
    exact hv hzero

end Act

section Bits

variable {w : Nat}

/-- Bit vectors, added by exclusive or. -/
def Bits (w : Nat) : Type := BitVec w

instance : DecidableEq (Bits w) := inferInstanceAs (DecidableEq (BitVec w))

instance : Add (Bits w) := ⟨BitVec.xor⟩

instance : Zero (Bits w) := ⟨BitVec.zero w⟩

instance : Neg (Bits w) := ⟨id⟩

instance : AddCommGroup (Bits w) where
  nsmul := nsmulRec
  zsmul := zsmulRec
  add_assoc := BitVec.xor_assoc
  zero_add _ := BitVec.zero_xor
  add_zero _ := BitVec.xor_zero
  neg_add_cancel _ := BitVec.xor_self
  add_comm := BitVec.xor_comm

theorem Bits.add_self (v : Bits w) : v + v = 0 := neg_add_cancel v

instance : Finite (Bits w) := Finite.of_equiv (Fin (2 ^ w)) (BitVec.equivFin (m := w)).symm.toEquiv

theorem Bits.card (w : Nat) : Nat.card (Bits w) = 2 ^ w :=
  (Nat.card_congr (BitVec.equivFin (m := w)).toEquiv).trans (Nat.card_fin _)

/-- The vector of one bit. -/
def unit (w i : Nat) : Bits w := BitVec.twoPow w i

/-- The bits of `v` below `k`. -/
def low (k : Nat) (v : BitVec w) : BitVec w := (v.setWidth k).setWidth w

theorem low_zero (v : BitVec w) : low 0 v = 0#w := by
  apply BitVec.eq_of_getLsbD_eq
  simp [low]

theorem low_width (v : BitVec w) : low w v = v := by simp [low]

theorem low_succ (k : Nat) (v : BitVec w) :
    low (k + 1) v = low k v ^^^ if v.getLsbD k then BitVec.twoPow w k else 0#w := by
  apply BitVec.eq_of_getLsbD_eq
  intro i hi
  rcases Nat.lt_trichotomy i k with hlt | rfl | hgt
  · have hne : i ≠ k := by omega
    cases v.getLsbD k <;> simp [low, hi, hne, hlt, Nat.lt_succ_of_lt hlt]
  · rw [BitVec.getLsbD_eq_getElem hi]
    cases h : v[i] <;> simp [low, hi, h]
  · have hne : i ≠ k := by omega
    have hge : ¬i < k + 1 := by omega
    have hge' : ¬i < k := by omega
    cases v.getLsbD k <;> simp [low, hi, hne, hge, hge']

/-- An additive map is known by its values at the vectors of one bit. -/
theorem Bits.hom_ext {M : Type*} [AddMonoid M] {f g : Bits w →+ M}
    (h : ∀ i, i < w → f (unit w i) = g (unit w i)) : f = g := by
  have hlow : ∀ k, k ≤ w → ∀ v : BitVec w, f (low k v) = g (low k v) := by
    intro k
    induction k with
    | zero =>
      intro _ v
      rw [low_zero]
      exact (map_zero f).trans (map_zero g).symm
    | succ k ih =>
      intro hk v
      have hbit : f (if v.getLsbD k then unit w k else 0) =
          g (if v.getLsbD k then unit w k else 0) := by
        split
        · exact h k hk
        · rw [map_zero, map_zero]
      rw [low_succ]
      calc f (low k v ^^^ if v.getLsbD k then BitVec.twoPow w k else 0#w)
          = f (low k v) + f (if v.getLsbD k then unit w k else 0) := map_add f _ _
        _ = g (low k v) + g (if v.getLsbD k then unit w k else 0) := by rw [ih (by omega) v, hbit]
        _ = g (low k v ^^^ if v.getLsbD k then BitVec.twoPow w k else 0#w) := (map_add g _ _).symm
  apply AddMonoidHom.ext
  intro v
  calc f v = f (low w v) := congrArg f (low_width v).symm
    _ = g (low w v) := hlow w le_rfl v
    _ = g v := congrArg g (low_width v)

theorem Bits.prod_hom_ext {u : Nat} {M : Type*} [AddMonoid M] {f g : Bits u × Bits w →+ M}
    (hl : ∀ i, i < u → f (unit u i, 0) = g (unit u i, 0))
    (hr : ∀ i, i < w → f (0, unit w i) = g (0, unit w i)) : f = g := by
  have hleft : f.comp (AddMonoidHom.inl _ _) = g.comp (AddMonoidHom.inl _ _) := Bits.hom_ext hl
  have hright : f.comp (AddMonoidHom.inr _ _) = g.comp (AddMonoidHom.inr _ _) := Bits.hom_ext hr
  apply AddMonoidHom.ext
  rintro ⟨x, y⟩
  have hx : f (x, 0) = g (x, 0) := DFunLike.congr_fun hleft x
  have hy : f (0, y) = g (0, y) := DFunLike.congr_fun hright y
  have hsum : (x, y) = (x, (0 : Bits w)) + ((0 : Bits u), y) := by simp
  rw [hsum, map_add, map_add, hx, hy]

/-- A polynomial vanishes at an endomorphism of pairs when it does on those of one bit. -/
theorem eval_eq_zero {u n p : Nat} {f : AddMonoid.End (Bits u × Bits w)}
    (hl : ∀ i, i < u → act f n p (unit u i, 0) = 0)
    (hr : ∀ i, i < w → act f n p (0, unit w i) = 0) : eval f n p = 0 := by
  apply Bits.prod_hom_ext
  · intro i hi
    exact (eval_apply f n p (unit u i, 0)).trans (hl i hi)
  · intro i hi
    exact (eval_apply f n p (0, unit w i)).trans (hr i hi)

end Bits
end Turf.Lib.Gf2
