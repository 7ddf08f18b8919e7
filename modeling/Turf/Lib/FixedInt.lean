import Mathlib.Data.BitVec

/-!
# Integer types of a fixed width

A value of an integer type is an integer in the range of the type. Converting to a
type takes the value of its range that is congruent modulo `2 ^ bits`, whether the
type is signed or not, so a value and its conversions to types of the same width have
the same bits.
-/
namespace Turf.Lib.FixedInt

structure IntType where
  bits : Nat
  signed : Bool
  deriving DecidableEq

/-- The value in range that is congruent to `x`. -/
def IntType.wrap (T : IntType) (x : Int) : Int :=
  if T.signed then x.bmod (2 ^ T.bits) else x % (2 ^ T.bits : Nat)

theorem IntType.wrap_wrap (T : IntType) (x : Int) : T.wrap (T.wrap x) = T.wrap x := by
  unfold IntType.wrap
  split
  · exact Int.bmod_bmod
  · exact Int.emod_emod_of_dvd x (dvd_refl _)

structure Val (T : IntType) where
  int : Int
  range : T.wrap int = int

variable {T : IntType}

theorem Val.ext {x y : Val T} (h : x.int = y.int) : x = y := by
  obtain ⟨a, ha⟩ := x
  obtain ⟨b, hb⟩ := y
  cases h
  rfl

instance : DecidableEq (Val T) := fun x y => decidable_of_iff (x.int = y.int)
  ⟨Val.ext, fun h => by rw [h]⟩

/-- Conversion to the type. -/
def IntType.cast (T : IntType) (x : Int) : Val T := ⟨T.wrap x, T.wrap_wrap x⟩

instance : Zero (Val T) := ⟨T.cast 0⟩

/-- The bits of the value in two's complement. -/
def Val.toBits (x : Val T) : BitVec T.bits := BitVec.ofInt T.bits x.int

def IntType.ofBits (T : IntType) (b : BitVec T.bits) : Val T := T.cast b.toNat

@[simp] theorem Val.cast_int (x : Val T) : T.cast x.int = x := Val.ext x.range

theorem IntType.ofInt_wrap (T : IntType) (x : Int) :
    BitVec.ofInt T.bits (T.wrap x) = BitVec.ofInt T.bits x := by
  apply BitVec.eq_of_toInt_eq
  rw [BitVec.toInt_ofInt, BitVec.toInt_ofInt, IntType.wrap]
  split
  · exact Int.bmod_bmod
  · exact Int.emod_bmod x _

@[simp] theorem IntType.toBits_cast (T : IntType) (x : Int) :
    (T.cast x).toBits = BitVec.ofInt T.bits x := T.ofInt_wrap x

@[simp] theorem IntType.ofBits_ofInt (T : IntType) (x : Int) :
    T.ofBits (BitVec.ofInt T.bits x) = T.cast x := by
  apply Val.ext
  show T.wrap ((BitVec.ofInt T.bits x).toNat : Int) = T.wrap x
  have hnat : ((BitVec.ofInt T.bits x).toNat : Int) = x % (2 ^ T.bits : Nat) := by
    rw [BitVec.toNat_ofInt, Int.toNat_of_nonneg]
    have hpos : 0 < 2 ^ T.bits := Nat.two_pow_pos T.bits
    exact Int.emod_nonneg x (by omega)
  rw [hnat]
  unfold IntType.wrap
  split
  · exact Int.emod_bmod x _
  · exact Int.emod_emod_of_dvd x (dvd_refl _)

@[simp] theorem Val.ofBits_toBits (x : Val T) : T.ofBits x.toBits = x := by
  unfold Val.toBits
  rw [IntType.ofBits_ofInt, Val.cast_int]

theorem Val.toBits_inj {x y : Val T} : x.toBits = y.toBits ↔ x = y := by
  constructor
  · intro h
    rw [← x.ofBits_toBits, h, y.ofBits_toBits]
  · intro h
    rw [h]

@[simp] theorem IntType.toBits_ofBits (T : IntType) (b : BitVec T.bits) : (T.ofBits b).toBits = b := by
  unfold IntType.ofBits
  rw [IntType.toBits_cast]
  apply BitVec.eq_of_toNat_eq
  simp

/-- A value and its conversion to another type of the same width have the same bits. -/
theorem Val.toBits_convert (x : Val T) (signed : Bool) :
    (IntType.cast ⟨T.bits, signed⟩ x.int).toBits = x.toBits :=
  IntType.toBits_cast ⟨T.bits, signed⟩ x.int

theorem Val.toBits_neg (x : Val T) : (T.cast (-x.int)).toBits = -x.toBits := by
  rw [IntType.toBits_cast, Val.toBits, ← BitVec.ofInt_neg]

theorem Val.ofBits_add (x y : Val T) : T.ofBits (x.toBits + y.toBits) = T.cast (x.int + y.int) := by
  unfold Val.toBits
  rw [← BitVec.ofInt_add, IntType.ofBits_ofInt]

theorem Val.ofBits_sub (x y : Val T) : T.ofBits (x.toBits + -y.toBits) = T.cast (x.int - y.int) := by
  unfold Val.toBits
  rw [← BitVec.ofInt_neg, ← BitVec.ofInt_add, IntType.ofBits_ofInt, Int.sub_eq_add_neg]

/-! ## Without wrapping around -/

/-- The value of an exact result. There is none where the type cannot hold it. -/
def IntType.checked (T : IntType) (x : Int) : Option (Val T) :=
  if h : T.wrap x = x then some ⟨x, h⟩ else none

theorem IntType.checked_some {x : Int} (h : T.wrap x = x) : T.checked x = some ⟨x, h⟩ := dif_pos h

theorem IntType.checked_none {x : Int} (h : T.wrap x ≠ x) : T.checked x = none := dif_neg h

theorem two_pow_eq {b : Nat} (hb : 0 < b) : 2 ^ b = 2 * 2 ^ (b - 1) := by
  obtain ⟨c, rfl⟩ := Nat.exists_eq_succ_of_ne_zero hb.ne'
  rw [Nat.succ_sub_one, Nat.pow_succ, Nat.mul_comm]

/-- The range of a signed type. -/
theorem IntType.signed_wrap_iff {b : Nat} (hb : 0 < b) (x : Int) :
    IntType.wrap ⟨b, true⟩ x = x ↔ -(2 ^ (b - 1) : Nat) ≤ x ∧ x < (2 ^ (b - 1) : Nat) := by
  rw [IntType.wrap, if_pos rfl, Int.bmod_eq_iff (Nat.two_pow_pos b), Int.sub_self]
  have htwo := two_pow_eq hb
  show -((2 ^ b : Nat) / 2 : Int) ≤ x ∧ x < ((2 ^ b : Nat) + 1 : Int) / 2 ∧ _ ↔ _
  rw [htwo]
  simp only [dvd_zero, and_true]
  omega

/-- The value that is one too large is the least. -/
theorem IntType.signed_wrap_half {b : Nat} (hb : 0 < b) :
    IntType.wrap ⟨b, true⟩ (2 ^ (b - 1) : Nat) = -(2 ^ (b - 1) : Nat) := by
  rw [IntType.wrap, if_pos rfl, Int.bmod_eq_iff (Nat.two_pow_pos b)]
  have htwo := two_pow_eq hb
  have hpos := Nat.two_pow_pos (b - 1)
  show -((2 ^ b : Nat) / 2 : Int) ≤ _ ∧ _ < ((2 ^ b : Nat) + 1 : Int) / 2 ∧ ((2 ^ b : Nat) : Int) ∣ _
  rw [htwo]
  refine ⟨by omega, by omega, ⟨-1, by push_cast; omega⟩⟩

/-- A type holds the negation of a value of a type that is no wider unless both are equally wide
and the value is the least. -/
theorem Val.neg_fits_iff {b c : Nat} (hb : 0 < b) (hc : b ≤ c) (x : Val ⟨b, true⟩) :
    IntType.wrap ⟨c, true⟩ (-x.int) = -x.int ↔ ¬ (b = c ∧ x.int = -(2 ^ (b - 1) : Nat)) := by
  obtain ⟨hlow, hhigh⟩ := (IntType.signed_wrap_iff hb x.int).mp x.range
  rw [IntType.signed_wrap_iff (Nat.lt_of_lt_of_le hb hc)]
  rcases Nat.eq_or_lt_of_le hc with heq | hlt
  · subst heq
    omega
  · have hdouble : 2 ^ b ≤ 2 ^ (c - 1) := Nat.pow_le_pow_right (by decide) (by omega)
    rw [two_pow_eq hb] at hdouble
    have hpos := Nat.two_pow_pos (b - 1)
    omega

/-! ## Congruence -/

theorem IntType.wrap_eq_iff_dvd (T : IntType) (x y : Int) :
    T.wrap x = T.wrap y ↔ ((2 ^ T.bits : Nat) : Int) ∣ x - y := by
  unfold IntType.wrap
  split
  · rw [Int.bmod_eq_bmod_iff_bmod_sub_eq_zero, Int.dvd_iff_bmod_eq_zero]
  · rw [Int.emod_eq_emod_iff_emod_sub_eq_zero, Int.dvd_iff_emod_eq_zero]

theorem IntType.dvd_wrap_sub (T : IntType) (x : Int) : ((2 ^ T.bits : Nat) : Int) ∣ T.wrap x - x :=
  (T.wrap_eq_iff_dvd _ _).mp (T.wrap_wrap x)

/-- Nothing is lost in a type that is at least as wide. -/
theorem IntType.wrap_wrap_of_le {T U : IntType} (h : T.bits ≤ U.bits) (x : Int) :
    T.wrap (U.wrap x) = T.wrap x := by
  rw [IntType.wrap_eq_iff_dvd]
  have hdvd : ((2 ^ T.bits : Nat) : Int) ∣ (2 ^ U.bits : Nat) :=
    Int.natCast_dvd_natCast.mpr (Nat.pow_dvd_pow 2 h)
  exact Int.dvd_trans hdvd (U.dvd_wrap_sub x)

/-- The range of an unsigned type. -/
theorem IntType.unsigned_wrap_iff (b : Nat) (x : Int) :
    IntType.wrap ⟨b, false⟩ x = x ↔ 0 ≤ x ∧ x < (2 ^ b : Nat) := by
  have hpos : (0 : Int) < (2 ^ b : Nat) := Int.natCast_pos.mpr (Nat.two_pow_pos b)
  rw [IntType.wrap, if_neg (by simp)]
  constructor
  · intro h
    rw [← h]
    exact ⟨Int.emod_nonneg x (by omega), Int.emod_lt_of_pos x hpos⟩
  · intro ⟨hlow, hhigh⟩
    exact Int.emod_eq_of_lt hlow hhigh

/-! ## Compound addition -/

/-- `x += y` with a signed `x` and an unsigned `y`. The sum has the type of `y` unless that of `x`
is wider, where it may overflow. -/
def addAssign {T U : IntType} (x : Val T) (y : Val U) : Option (Val T) :=
  if T.bits ≤ U.bits then some (T.cast (U.wrap (U.wrap x.int + y.int)))
  else T.checked (x.int + y.int)

section

variable {T U : IntType} {x : Val T} {y : Val U}

theorem IntType.wrap_sum (h : T.bits ≤ U.bits) (x y : Int) :
    T.wrap (U.wrap (U.wrap x + y)) = T.wrap (x + y) := by
  rw [IntType.wrap_wrap_of_le h, IntType.wrap_eq_iff_dvd]
  have hdvd : ((2 ^ T.bits : Nat) : Int) ∣ (2 ^ U.bits : Nat) :=
    Int.natCast_dvd_natCast.mpr (Nat.pow_dvd_pow 2 h)
  have heq : U.wrap x + y - (x + y) = U.wrap x - x := by omega
  rw [heq]
  exact Int.dvd_trans hdvd (U.dvd_wrap_sub x)

theorem addAssign_wrap {r : Val T} (h : addAssign x y = some r) :
    T.wrap (x.int + y.int) = r.int := by
  rw [addAssign] at h
  split at h
  · next hle =>
    cases h
    exact (IntType.wrap_sum hle x.int y.int).symm
  · by_cases hfits : T.wrap (x.int + y.int) = x.int + y.int
    · rw [IntType.checked_some hfits] at h
      cases h
      exact hfits
    · rw [IntType.checked_none hfits] at h
      cases h

theorem addAssign_exact (h : T.wrap (x.int + y.int) = x.int + y.int) :
    addAssign x y = some ⟨x.int + y.int, h⟩ := by
  rw [addAssign]
  split
  · next hle =>
    apply congrArg some
    apply Val.ext
    show T.wrap (U.wrap (U.wrap x.int + y.int)) = x.int + y.int
    rw [IntType.wrap_sum hle, h]
  · exact IntType.checked_some h

/-- The result is `y` itself only where there was nothing to add to. -/
theorem eq_zero_of_addAssign {r : Val T} (h : addAssign x y = some r) (hr : r.int = y.int) :
    x.int = 0 := by
  have hwrap := addAssign_wrap h
  have hdvd : ((2 ^ T.bits : Nat) : Int) ∣ x.int - 0 := by
    have hsum : T.wrap (x.int + y.int) = T.wrap y.int := by rw [hwrap, ← hr, r.range]
    have heq : x.int - 0 = x.int + y.int - y.int := by omega
    rw [heq]
    exact (T.wrap_eq_iff_dvd _ _).mp hsum
  have hzero : T.wrap 0 = 0 := by
    unfold IntType.wrap
    split
    · exact Int.zero_bmod
    · exact Int.zero_emod _
  rw [← x.range, (T.wrap_eq_iff_dvd _ _).mpr hdvd, hzero]

end

/-! ## Saturation -/

/-- The value of a signed type that is closest. -/
def saturate (b : Nat) (x : Int) : Int :=
  max (-(2 ^ (b - 1) : Nat)) (min x ((2 ^ (b - 1) : Nat) - 1))

theorem saturate_range {b : Nat} (hb : 0 < b) (x : Int) :
    IntType.wrap ⟨b, true⟩ (saturate b x) = saturate b x := by
  have hpos := Nat.two_pow_pos (b - 1)
  rw [IntType.signed_wrap_iff hb, saturate]
  omega

theorem saturate_of_fits {b : Nat} (hb : 0 < b) {x : Int} (h : IntType.wrap ⟨b, true⟩ x = x) :
    saturate b x = x := by
  rw [IntType.signed_wrap_iff hb] at h
  rw [saturate]
  omega

/-- A type holds what a narrower one does. -/
theorem signed_wrap_mono {b c : Nat} (hb : 0 < b) (hc : b ≤ c) {x : Int}
    (h : IntType.wrap ⟨b, true⟩ x = x) : IntType.wrap ⟨c, true⟩ x = x := by
  have hpow : 2 ^ (b - 1) ≤ 2 ^ (c - 1) := Nat.pow_le_pow_right (by decide) (by omega)
  rw [IntType.signed_wrap_iff hb] at h
  rw [IntType.signed_wrap_iff (by omega)]
  omega

/-- Saturation in one type and conversion to another keep an integer that fits both, and only then. -/
theorem wrap_saturate_iff {b c : Nat} (hb : 0 < b) (hc : 0 < c) (x : Int) :
    IntType.wrap ⟨c, true⟩ (saturate b x) = x ↔
      IntType.wrap ⟨b, true⟩ x = x ∧ IntType.wrap ⟨c, true⟩ x = x := by
  constructor
  · intro h
    have hfits : IntType.wrap ⟨c, true⟩ x = x := by rw [← h, IntType.wrap_wrap]
    refine ⟨?_, hfits⟩
    rcases Nat.le_total c b with hle | hle
    · exact signed_wrap_mono hc hle hfits
    · have hsat := saturate_range hb x
      rw [signed_wrap_mono hb hle hsat] at h
      rw [h] at hsat
      exact hsat
  · intro ⟨hfits, hfits'⟩
    rw [saturate_of_fits hb hfits, hfits']

end Turf.Lib.FixedInt
