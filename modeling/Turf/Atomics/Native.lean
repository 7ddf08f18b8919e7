import Turf.Atomics.Wrappers

/-!
# The signed arithmetic of `Atomic_Native`

The only signed computation of the `.inc` files is the negation in `fetchSub`. It is done on
the parameter, in `int` where the parameter is narrower, and overflows for the least value of
a type that is not.
-/
namespace Turf.Atomics.Native

open Turf.Lib.FixedInt Turf.Atomics.X86 Turf.Atomics.Wrappers

variable {T : IntType}

/-- The type in which the negation of a signed parameter is computed. -/
def promoted (bits : Nat) : IntType := ⟨max 32 bits, true⟩

/-- `-operand`. There is no value where the computation overflows. -/
def negate {bits : Nat} (operand : Val ⟨bits, true⟩) : Option (Val (promoted bits)) :=
  (promoted bits).checked (-((promoted bits).cast operand.int).int)

/-- `Atomic_Native` with its signed arithmetic: a call has no result where that overflows. -/
def native (T : IntType) (turf : Backend T.bits) : Impl T where
  Obj := BitVec T.bits
  construct := (atomicNative T turf).construct
  call mValue
    | .fetchSub operand =>
      (negate (toS operand)).bind fun negated =>
        ((turf.fetchAdd (IntType.cast ⟨T.bits, true⟩ negated.int).toBits).alone 2 mValue).map
          fun out => (.value (T.ofBits out.1), out.2)
    | op => (atomicNative T turf).call mValue op

/-- The negation of the operand overflows: its width is at least that of `int`, and it has
the bits of the least signed value. -/
def Overflows : Op T → Prop
  | .fetchSub operand => 32 ≤ T.bits ∧ operand = T.cast (2 ^ (T.bits - 1) : Nat)
  | _ => False

/-! ## The negation -/

theorem toS_least_iff (hbits : 0 < T.bits) (operand : Val T) :
    (toS operand).int = -(2 ^ (T.bits - 1) : Nat) ↔
      operand = T.cast (2 ^ (T.bits - 1) : Nat) := by
  have hleast : (IntType.cast ⟨T.bits, true⟩ (2 ^ (T.bits - 1) : Nat)).int =
      -(2 ^ (T.bits - 1) : Nat) := IntType.signed_wrap_half hbits
  rw [← hleast, ← Val.toBits_inj, IntType.toBits_cast, ← toS_toBits]
  constructor
  · intro h
    rw [Val.ext h, IntType.toBits_cast]
  · intro h
    rw [Val.toBits_inj.mp (h.trans (IntType.toBits_cast ⟨T.bits, true⟩ _).symm)]

theorem promote {bits : Nat} (hbits : 0 < bits) (operand : Val ⟨bits, true⟩) :
    ((promoted bits).cast operand.int).int = operand.int := by
  obtain ⟨hlow, hhigh⟩ := (IntType.signed_wrap_iff hbits operand.int).mp operand.range
  have hwide : 2 ^ (bits - 1) ≤ 2 ^ (max 32 bits - 1) :=
    Nat.pow_le_pow_right (by decide) (by omega)
  exact (IntType.signed_wrap_iff (by omega) operand.int).mpr ⟨by omega, by omega⟩

theorem negate_eq (hbits : 0 < T.bits) (operand : Val T) :
    (Overflows (.fetchSub operand) → negate (toS operand) = none) ∧
      (¬ Overflows (.fetchSub operand) →
        ∃ negated, negate (toS operand) = some negated ∧ negated.int = -(toS operand).int) := by
  have hfits := Val.neg_fits_iff hbits (Nat.le_max_right 32 T.bits) (toS operand)
  have hwidth : T.bits = max 32 T.bits ↔ 32 ≤ T.bits := by omega
  rw [hwidth, toS_least_iff hbits] at hfits
  rw [negate, promote hbits]
  constructor
  · intro h
    exact IntType.checked_none fun hwrap => hfits.mp hwrap h
  · intro h
    exact ⟨_, IntType.checked_some (hfits.mpr h), rfl⟩

/-! ## Calls -/

theorem call_overflows (hbits : 0 < T.bits) (turf : Backend T.bits) (mValue : BitVec T.bits)
    {op : Op T} (h : Overflows op) : (native T turf).call mValue op = none := by
  cases op with
  | fetchSub operand =>
    have hnone := (negate_eq hbits operand).1 h
    show (negate (toS operand)).bind _ = none
    rw [hnone, Option.bind_none]
  | _ => exact h.elim

theorem call_eq (hbits : 0 < T.bits) (turf : Backend T.bits) (mValue : BitVec T.bits) {op : Op T}
    (h : ¬ Overflows op) :
    (native T turf).call mValue op = (atomicNative T turf).call mValue op := by
  cases op with
  | fetchSub operand =>
    obtain ⟨negated, hsome, hint⟩ := (negate_eq hbits operand).2 h
    show (negate (toS operand)).bind _ = _
    rw [hsome, Option.bind_some, hint]
    rfl
  | _ => rfl

theorem calls_eq (hbits : 0 < T.bits) (turf : Backend T.bits) (mValue : BitVec T.bits)
    (ops : List (Op T)) (h : ∀ op ∈ ops, ¬ Overflows op) :
    (native T turf).calls mValue ops = (atomicNative T turf).calls mValue ops := by
  induction ops generalizing mValue with
  | nil => rfl
  | cons op ops ih =>
    obtain ⟨hop, hops⟩ := List.forall_mem_cons.mp h
    show ((native T turf).call mValue op).bind _ = ((atomicNative T turf).call mValue op).bind _
    rw [call_eq hbits turf mValue hop]
    congr 1
    funext out
    rw [ih out.2 hops]
    rfl

theorem calls_none (hbits : 0 < T.bits) (turf : Backend T.bits) (mValue : BitVec T.bits)
    (ops : List (Op T)) {op : Op T} (hmem : op ∈ ops) (h : Overflows op) :
    (native T turf).calls mValue ops = none := by
  induction ops generalizing mValue with
  | nil => cases hmem
  | cons first ops ih =>
    show ((native T turf).call mValue first).bind _ = none
    rcases List.mem_cons.mp hmem with heq | hrest
    · rw [← heq, call_overflows hbits turf mValue h, Option.bind_none]
    · cases (native T turf).call mValue first with
      | none => rfl
      | some out => rw [Option.bind_some, ih out.2 hrest, Option.map_none]

/-- An object tracks a variable, and no signed computation overflows, exactly while no operand
of `fetchSub` has a negation that does. -/
theorem tracks_iff (p : Platform) (width : Width) (signed : Bool)
    (v : Val (intType width signed)) (ops : List (Op (intType width signed))) :
    (native (intType width signed) (p.backend width)).history v ops =
        some ((steps v ops).1, .value (steps v ops).2) ↔
      ∀ op ∈ ops, ¬ Overflows op := by
  have hbits : 0 < (intType width signed).bits := by
    show 0 < width.bits
    cases width <;> decide
  constructor
  · intro hhistory op hmem hover
    have hnone := calls_none hbits (p.backend width)
      ((native (intType width signed) (p.backend width)).construct v) ops hmem hover
    rw [Impl.history, hnone, Option.bind_none] at hhistory
    cases hhistory
  · intro h
    have hcalls := calls_eq hbits (p.backend width)
      ((native (intType width signed) (p.backend width)).construct v) ops h
    rw [Impl.history, hcalls]
    exact (atomicNative_refines (p.backend_sequential width)).history v ops

/-- Subtracting `0x80000000` from an `unsigned int` negates the least `int`. -/
theorem unsigned_least_overflows :
    (native (intType .w32 false) (Platform.gccX64.backend .w32)).history 0
        [.fetchSub (IntType.cast _ 0x80000000)] = none ∧
      ¬ ∀ (p : Platform) (width : Width) (signed : Bool) (v : Val (intType width signed))
        (ops : List (Op (intType width signed))),
        (native (intType width signed) (p.backend width)).history v ops =
          some ((steps v ops).1, .value (steps v ops).2) := by
  have hnone : (native (intType .w32 false) (Platform.gccX64.backend .w32)).history 0
      [.fetchSub (IntType.cast _ 0x80000000)] = none := by decide
  refine ⟨hnone, fun h => ?_⟩
  have hhistory := h .gccX64 .w32 false 0 [.fetchSub (IntType.cast _ 0x80000000)]
  rw [hnone] at hhistory
  cases hhistory

end Turf.Atomics.Native
