import Turf.Atomics.Gcc
import Turf.Atomics.Msvc
import Turf.Lib.FixedInt

/-!
# The three implementations of `turf::Atomic`

`Atomic_Native` converts its arguments to the fixed-width types of the C functions and
their results back to `T`. `Atomic_CPP11` and `Atomic_Boost` forward to `std::atomic`
and `boost::atomic`, which enter as classes with documented operations. The memory
orders select fences only, and none of the operations reads them otherwise.
-/
namespace Turf.Atomics.Wrappers

open Turf.Lib.FixedInt Turf.Lib.SharedWord Turf.Atomics.X86

variable {T : IntType}

/-! ## The operations of an object -/

inductive Op (T : IntType) where
  | loadNonatomic
  | load
  | storeNonatomic (value : Val T)
  | store (value : Val T)
  | exchange (desired : Val T)
  | compareExchange (expected desired : Val T)
  | compareExchangeStrong (expected desired : Val T)
  | fetchAdd (operand : Val T)
  | fetchSub (operand : Val T)
  | fetchAnd (operand : Val T)
  | fetchOr (operand : Val T)

/-- What the caller sees of one operation; `strong` has the value of `expected` after it. -/
inductive Ret (T : IntType) where
  | unit
  | value (v : Val T)
  | strong (result : Bool) (expected : Val T)
  deriving DecidableEq

/-- An implementation. A call that runs out of rounds has no result. -/
structure Impl (T : IntType) where
  Obj : Type
  construct : Val T → Obj
  call : Obj → Op T → Option (Ret T × Obj)

def Impl.calls (impl : Impl T) : impl.Obj → List (Op T) → Option (List (Ret T) × impl.Obj)
  | obj, [] => some ([], obj)
  | obj, op :: ops =>
    (impl.call obj op).bind fun out =>
      (impl.calls out.2 ops).map fun rest => (out.1 :: rest.1, rest.2)

/-- All that a single thread sees of an object constructed with `v`: what its operations
return, and what a last `loadNonatomic` reads. -/
def Impl.history (impl : Impl T) (v : Val T) (ops : List (Op T)) :
    Option (List (Ret T) × Ret T) :=
  (impl.calls (impl.construct v) ops).bind fun out =>
    (impl.call out.2 .loadNonatomic).map fun last => (out.1, last.1)

/-! ## Atomic_Native -/

/-- Conversion of an argument to a parameter of type `u8` to `u64`. -/
def toU (x : Val T) : BitVec T.bits := (IntType.cast ⟨T.bits, false⟩ x.int).toBits

/-- Conversion of an argument to a parameter of type `s8` to `s64`. -/
def toS (x : Val T) : Val ⟨T.bits, true⟩ := IntType.cast ⟨T.bits, true⟩ x.int

/-- The classes of the `.inc` files, over the C functions of their width. The negation
of the least value of a type wraps around. -/
def atomicNative (T : IntType) (turf : Backend T.bits) : Impl T where
  Obj := BitVec T.bits
  construct value := toU value
  call mValue
    | .loadNonatomic => some (.value (T.ofBits mValue), mValue)
    | .load =>
      (turf.load.alone 2 mValue).map fun out => (.value (T.ofBits out.1), out.2)
    | .storeNonatomic value => some (.unit, toU value)
    | .store value =>
      ((turf.store (toU value)).alone 2 mValue).map fun out => (.unit, out.2)
    | .exchange desired =>
      ((turf.exchange (toU desired)).alone 2 mValue).map fun out =>
        (.value (T.ofBits out.1), out.2)
    | .compareExchange expected desired =>
      ((turf.compareExchange (toU expected) (toU desired)).alone 2 mValue).map fun out =>
        (.value (T.ofBits out.1), out.2)
    | .compareExchangeStrong expected desired =>
      ((turf.compareExchange (toU expected) (toU desired)).alone 2 mValue).map fun out =>
        let previous := T.ofBits out.1
        let result : Bool := previous = expected
        (.strong result (if !result then previous else expected), out.2)
    | .fetchAdd operand =>
      ((turf.fetchAdd (toS operand).toBits).alone 2 mValue).map fun out =>
        (.value (T.ofBits out.1), out.2)
    | .fetchSub operand =>
      ((turf.fetchAdd (IntType.cast ⟨T.bits, true⟩ (-(toS operand).int)).toBits).alone 2 mValue).map
        fun out => (.value (T.ofBits out.1), out.2)
    | .fetchAnd operand =>
      ((turf.fetchAnd (toU operand)).alone 2 mValue).map fun out =>
        (.value (T.ofBits out.1), out.2)
    | .fetchOr operand =>
      ((turf.fetchOr (toU operand)).alone 2 mValue).map fun out =>
        (.value (T.ofBits out.1), out.2)

/-! ## Atomic_CPP11 and Atomic_Boost -/

/-- The members of `std::atomic<T>` and `boost::atomic<T>` the wrappers call.
`compareExchangeStrong` also gives the value it leaves in `expected`. -/
structure AtomicClass (T : IntType) where
  Obj : Type
  construct : Val T → Obj
  load : Obj → Val T
  store : Obj → Val T → Obj
  exchange : Obj → Val T → Val T × Obj
  compareExchangeStrong : Obj → Val T → Val T → Bool × Val T × Obj
  fetchAdd : Obj → Val T → Val T × Obj
  fetchSub : Obj → Val T → Val T × Obj
  fetchAnd : Obj → Val T → Val T × Obj
  fetchOr : Obj → Val T → Val T × Obj

/-- The documented behaviour: `load` is the value of the object, `fetchAdd` and
`fetchSub` wrap around, and `expected` is written on failure only. -/
structure AtomicClass.Documented (c : AtomicClass T) : Prop where
  construct : ∀ v, c.load (c.construct v) = v
  store : ∀ o v, c.load (c.store o v) = v
  exchange : ∀ o v, (c.exchange o v).1 = c.load o ∧ c.load (c.exchange o v).2 = v
  equal : ∀ o expected desired, c.load o = expected →
    ∃ o', c.compareExchangeStrong o expected desired = (true, expected, o') ∧ c.load o' = desired
  different : ∀ o expected desired, c.load o ≠ expected →
    ∃ o', c.compareExchangeStrong o expected desired = (false, c.load o, o') ∧ c.load o' = c.load o
  fetchAdd : ∀ o x, (c.fetchAdd o x).1 = c.load o ∧
    c.load (c.fetchAdd o x).2 = T.cast ((c.load o).int + x.int)
  fetchSub : ∀ o x, (c.fetchSub o x).1 = c.load o ∧
    c.load (c.fetchSub o x).2 = T.cast ((c.load o).int - x.int)
  fetchAnd : ∀ o x, (c.fetchAnd o x).1 = c.load o ∧
    c.load (c.fetchAnd o x).2 = T.ofBits ((c.load o).toBits &&& x.toBits)
  fetchOr : ∀ o x, (c.fetchOr o x).1 = c.load o ∧
    c.load (c.fetchOr o x).2 = T.ofBits ((c.load o).toBits ||| x.toBits)

/-- The body of `Atomic_CPP11` and `Atomic_Boost`, which differ in the constructor. -/
def wrapper (c : AtomicClass T) (construct : Val T → c.Obj) : Impl T where
  Obj := c.Obj
  construct := construct
  call obj
    | .loadNonatomic => some (.value (c.load obj), obj)
    | .load => some (.value (c.load obj), obj)
    | .storeNonatomic value => some (.unit, c.store obj value)
    | .store value => some (.unit, c.store obj value)
    | .exchange desired =>
      let (previous, obj) := c.exchange obj desired
      some (.value previous, obj)
    | .compareExchange expected desired =>
      let (_, expected, obj) := c.compareExchangeStrong obj expected desired
      some (.value expected, obj)
    | .compareExchangeStrong expected desired =>
      let (result, expected, obj) := c.compareExchangeStrong obj expected desired
      some (.strong result expected, obj)
    | .fetchAdd operand =>
      let (previous, obj) := c.fetchAdd obj operand
      some (.value previous, obj)
    | .fetchSub operand =>
      let (previous, obj) := c.fetchSub obj operand
      some (.value previous, obj)
    | .fetchAnd operand =>
      let (previous, obj) := c.fetchAnd obj operand
      some (.value previous, obj)
    | .fetchOr operand =>
      let (previous, obj) := c.fetchOr obj operand
      some (.value previous, obj)

def atomicCPP11 (std : AtomicClass T) : Impl T := wrapper std std.construct

/-- The constructor initialises the base class with 0 and ignores its argument. -/
def atomicBoost (boost : AtomicClass T) : Impl T := wrapper boost fun _ => boost.construct 0

/-! ## The object as a variable -/

/-- An operation on a variable of type `T` that holds `v`. -/
def step (v : Val T) : Op T → Ret T × Val T
  | .loadNonatomic => (.value v, v)
  | .load => (.value v, v)
  | .storeNonatomic value => (.unit, value)
  | .store value => (.unit, value)
  | .exchange desired => (.value v, desired)
  | .compareExchange expected desired => (.value v, if v = expected then desired else v)
  | .compareExchangeStrong expected desired =>
    if v = expected then (.strong true expected, desired) else (.strong false v, v)
  | .fetchAdd operand => (.value v, T.cast (v.int + operand.int))
  | .fetchSub operand => (.value v, T.cast (v.int - operand.int))
  | .fetchAnd operand => (.value v, T.ofBits (v.toBits &&& operand.toBits))
  | .fetchOr operand => (.value v, T.ofBits (v.toBits ||| operand.toBits))

def steps (v : Val T) : List (Op T) → List (Ret T) × Val T
  | [] => ([], v)
  | op :: ops => ((step v op).1 :: (steps (step v op).2 ops).1, (steps (step v op).2 ops).2)

/-- An implementation whose objects are variables, constructed with `initial v`. -/
structure Refines (impl : Impl T) (initial : Val T → Val T) (value : impl.Obj → Val T) : Prop where
  construct : ∀ v, value (impl.construct v) = initial v
  call : ∀ obj op, ∃ obj', impl.call obj op = some ((step (value obj) op).1, obj') ∧
    value obj' = (step (value obj) op).2

theorem Refines.calls {impl : Impl T} {initial : Val T → Val T} {value : impl.Obj → Val T}
    (h : Refines impl initial value) (obj : impl.Obj) (ops : List (Op T)) :
    ∃ obj', impl.calls obj ops = some ((steps (value obj) ops).1, obj') ∧
      value obj' = (steps (value obj) ops).2 := by
  induction ops generalizing obj with
  | nil => exact ⟨obj, rfl, rfl⟩
  | cons op ops ih =>
    obtain ⟨mid, hcall, hmid⟩ := h.call obj op
    obtain ⟨obj', hrest, hobj⟩ := ih mid
    rw [hmid] at hrest hobj
    exact ⟨obj', by simp only [Impl.calls, hcall, Option.bind_some, hrest, Option.map_some, steps], hobj⟩

theorem Refines.history {impl : Impl T} {initial : Val T → Val T} {value : impl.Obj → Val T}
    (h : Refines impl initial value) (v : Val T) (ops : List (Op T)) :
    impl.history v ops =
      some ((steps (initial v) ops).1, .value (steps (initial v) ops).2) := by
  obtain ⟨obj, hcalls, hobj⟩ := h.calls (impl.construct v) ops
  obtain ⟨last, hlast, -⟩ := h.call obj .loadNonatomic
  rw [h.construct] at hcalls hobj
  simp only [Impl.history, hcalls, Option.bind_some, hlast, Option.map_some, hobj, step]

theorem toU_eq (x : Val T) : toU x = x.toBits := x.toBits_convert false

theorem toS_toBits (x : Val T) : (toS x).toBits = x.toBits := x.toBits_convert true

theorem toS_neg_toBits (x : Val T) :
    (IntType.cast ⟨T.bits, true⟩ (-(toS x).int)).toBits = -x.toBits := by
  rw [(toS x).toBits_neg, toS_toBits]

private theorem compareExchange_alone {turf : Backend T.bits} (hturf : turf.Sequential)
    (x expected desired : Val T) :
    (turf.compareExchange (toU expected) (toU desired)).alone 2 x.toBits =
      some (x.toBits, (if x = expected then desired else x).toBits) := by
  apply (hturf.rmw (.compareExchange (toU expected) (toU desired)) x.toBits).trans
  simp only [Rmw.effect, toU_eq, Val.toBits_inj, apply_ite Val.toBits]

/-- Every conversion keeps the bits, so the object is a variable that holds them. -/
theorem atomicNative_refines {turf : Backend T.bits} (hturf : turf.Sequential) :
    Refines (atomicNative T turf) id T.ofBits where
  construct v := by
    show T.ofBits (toU v) = v
    rw [toU_eq, Val.ofBits_toBits]
  call obj op := by
    obtain ⟨x, rfl⟩ : ∃ x : Val T, x.toBits = obj := ⟨T.ofBits obj, T.toBits_ofBits obj⟩
    cases op with
    | loadNonatomic => exact ⟨_, rfl, rfl⟩
    | load =>
      refine ⟨_, by simp only [atomicNative, hturf.load, Option.map_some]; rfl, rfl⟩
    | storeNonatomic value =>
      refine ⟨_, rfl, ?_⟩
      show T.ofBits (toU value) = value
      rw [toU_eq, Val.ofBits_toBits]
    | store value =>
      obtain ⟨r, hr⟩ := hturf.store (toU value) x.toBits
      refine ⟨_, by simp only [atomicNative, hr, Option.map_some]; rfl, ?_⟩
      show T.ofBits (toU value) = value
      rw [toU_eq, Val.ofBits_toBits]
    | exchange desired =>
      have hr : (turf.exchange (toU desired)).alone 2 x.toBits = some (x.toBits, toU desired) :=
        hturf.rmw (.exchange (toU desired)) x.toBits
      exact ⟨_, by simp only [atomicNative, hr, Option.map_some]; rfl, by simp [toU_eq, step]⟩
    | compareExchange expected desired =>
      have hr := compareExchange_alone hturf x expected desired
      exact ⟨_, by simp only [atomicNative, hr, Option.map_some]; rfl, by simp [step]⟩
    | compareExchangeStrong expected desired =>
      have hr := compareExchange_alone hturf x expected desired
      refine ⟨(if x = expected then desired else x).toBits, ?_, ?_⟩
      · simp only [atomicNative, hr, Option.map_some, Val.ofBits_toBits]
        by_cases h : x = expected
        · simp [step, h]
        · simp [step, h]
      · by_cases h : x = expected
        · simp [step, h]
        · simp [step, h]
    | fetchAdd operand =>
      have hr : (turf.fetchAdd (toS operand).toBits).alone 2 x.toBits =
          some (x.toBits, x.toBits + (toS operand).toBits) :=
        hturf.rmw (.fetchAdd (toS operand).toBits) x.toBits
      refine ⟨_, by simp only [atomicNative, hr, Option.map_some]; rfl, ?_⟩
      rw [toS_toBits, Val.ofBits_add, Val.ofBits_toBits]
      rfl
    | fetchSub operand =>
      have hr : (turf.fetchAdd (-operand.toBits)).alone 2 x.toBits =
          some (x.toBits, x.toBits + -operand.toBits) :=
        hturf.rmw (.fetchAdd (-operand.toBits)) x.toBits
      refine ⟨_, by simp only [atomicNative, toS_neg_toBits, hr, Option.map_some]; rfl, ?_⟩
      rw [Val.ofBits_sub, Val.ofBits_toBits]
      rfl
    | fetchAnd operand =>
      have hr : (turf.fetchAnd (toU operand)).alone 2 x.toBits =
          some (x.toBits, x.toBits &&& toU operand) :=
        hturf.rmw (.fetchAnd (toU operand)) x.toBits
      exact ⟨_, by simp only [atomicNative, hr, Option.map_some]; rfl, by simp [toU_eq, step]⟩
    | fetchOr operand =>
      have hr : (turf.fetchOr (toU operand)).alone 2 x.toBits =
          some (x.toBits, x.toBits ||| toU operand) :=
        hturf.rmw (.fetchOr (toU operand)) x.toBits
      exact ⟨_, by simp only [atomicNative, hr, Option.map_some]; rfl, by simp [toU_eq, step]⟩

theorem wrapper_refines {c : AtomicClass T} (hc : c.Documented) (construct : Val T → c.Obj)
    (initial : Val T → Val T) (hconstruct : ∀ v, c.load (construct v) = initial v) :
    Refines (wrapper c construct) initial c.load where
  construct := hconstruct
  call obj op := by
    cases op with
    | loadNonatomic => exact ⟨_, rfl, rfl⟩
    | load => exact ⟨_, rfl, rfl⟩
    | storeNonatomic value => exact ⟨_, rfl, hc.store obj value⟩
    | store value => exact ⟨_, rfl, hc.store obj value⟩
    | exchange desired =>
      obtain ⟨hret, hobj⟩ := hc.exchange obj desired
      exact ⟨_, by rw [step, ← hret]; rfl, hobj⟩
    | compareExchange expected desired =>
      by_cases h : c.load obj = expected
      · obtain ⟨obj', hcas, hobj⟩ := hc.equal obj expected desired h
        exact ⟨obj', by simp [wrapper, hcas, step, h], by simp [step, h, hobj]⟩
      · obtain ⟨obj', hcas, hobj⟩ := hc.different obj expected desired h
        exact ⟨obj', by simp [wrapper, hcas, step], by simp [step, h, hobj]⟩
    | compareExchangeStrong expected desired =>
      by_cases h : c.load obj = expected
      · obtain ⟨obj', hcas, hobj⟩ := hc.equal obj expected desired h
        exact ⟨obj', by simp [wrapper, hcas, step, h], by simp [step, h, hobj]⟩
      · obtain ⟨obj', hcas, hobj⟩ := hc.different obj expected desired h
        exact ⟨obj', by simp [wrapper, hcas, step, h], by simp [step, h, hobj]⟩
    | fetchAdd operand =>
      obtain ⟨hret, hobj⟩ := hc.fetchAdd obj operand
      exact ⟨_, by rw [step, ← hret]; rfl, hobj⟩
    | fetchSub operand =>
      obtain ⟨hret, hobj⟩ := hc.fetchSub obj operand
      exact ⟨_, by rw [step, ← hret]; rfl, hobj⟩
    | fetchAnd operand =>
      obtain ⟨hret, hobj⟩ := hc.fetchAnd obj operand
      exact ⟨_, by rw [step, ← hret]; rfl, hobj⟩
    | fetchOr operand =>
      obtain ⟨hret, hobj⟩ := hc.fetchOr obj operand
      exact ⟨_, by rw [step, ← hret]; rfl, hobj⟩

/-! ## The selectable implementations -/

/-- The widths of the integer types `turf::Atomic` supports. -/
inductive Width where
  | w8 | w16 | w32 | w64
  deriving DecidableEq

def Width.bits : Width → Nat
  | w8 => 8
  | w16 => 16
  | w32 => 32
  | w64 => 64

/-- An integer type: its width and its signedness, which for `char` the compiler chooses. -/
abbrev intType (width : Width) (signed : Bool) : IntType := ⟨width.bits, signed⟩

/-- What `Atomic_Native` is selected on; on a 32-bit CPU with the compiler's choices. -/
inductive Platform where
  | gccX64
  | gccX86 (order : WordOrder) (ecxEbx : BitVec 64)
  | msvcX64
  | msvcX86 (order : WordOrder) (edxEax : BitVec 64)

def Platform.backend : Platform → (width : Width) → Backend width.bits
  | gccX64, .w8 | gccX86 _ _, .w8 => Gcc.backend8
  | gccX64, .w16 | gccX86 _ _, .w16 => Gcc.backend16
  | gccX64, .w32 | gccX86 _ _, .w32 => Gcc.backend32
  | gccX64, .w64 => Gcc.X64.backend64
  | gccX86 order ecxEbx, .w64 => Gcc.X86.backend64 order ecxEbx
  | msvcX64, .w8 | msvcX86 _ _, .w8 => Msvc.backend8
  | msvcX64, .w16 | msvcX86 _ _, .w16 => Msvc.backend16
  | msvcX64, .w32 | msvcX86 _ _, .w32 => Msvc.backend32
  | msvcX64, .w64 => Msvc.X64.backend64
  | msvcX86 order edxEax, .w64 => Msvc.X86.backend64 order edxEax

theorem Platform.backend_sequential (p : Platform) (width : Width) :
    (p.backend width).Sequential := by
  cases p with
  | gccX64 => cases width <;> exact Gcc.asmBackend_sequential _
  | gccX86 order ecxEbx =>
    cases width with
    | w64 => exact Gcc.X86.backend64_sequential ecxEbx
    | _ => exact Gcc.asmBackend_sequential _
  | msvcX64 => cases width <;> exact Msvc.intrinsicBackend_sequential _
  | msvcX86 order edxEax =>
    cases width with
    | w64 => exact Msvc.X86.backend64_sequential edxEax
    | _ => exact Msvc.intrinsicBackend_sequential _

/-- The sequence overwrites the object before anything reads it. -/
def StoresFirst : List (Op T) → Prop
  | .store _ :: _ => True
  | .storeNonatomic _ :: _ => True
  | _ => False

/-- Two variables are told apart by any sequence that reads before it writes. -/
theorem steps_eq_iff (v u : Val T) (ops : List (Op T)) :
    steps v ops = steps u ops ↔ v = u ∨ StoresFirst ops := by
  constructor
  · intro h
    cases ops with
    | nil => exact Or.inl (congrArg Prod.snd h)
    | cons op ops =>
      have hret : (step v op).1 = (step u op).1 := (List.cons.inj (congrArg Prod.fst h)).1
      cases op with
      | storeNonatomic value => exact Or.inr trivial
      | store value => exact Or.inr trivial
      | compareExchangeStrong expected desired =>
        by_cases hv : v = expected
        · by_cases hu : u = expected
          · exact Or.inl (hv.trans hu.symm)
          · simp [step, hv, hu] at hret
        · by_cases hu : u = expected
          · simp [step, hv, hu] at hret
          · rw [step, step, if_neg hv, if_neg hu] at hret
            exact Or.inl (Ret.strong.inj hret).2
      | _ => exact Or.inl (Ret.value.inj hret)
  · intro h
    rcases h with rfl | hstores
    · rfl
    · cases ops with
      | nil => exact absurd hstores id
      | cons op ops =>
        cases op with
        | storeNonatomic value => rfl
        | store value => rfl
        | _ => exact absurd hstores id

/-- **The three implementations.** `Atomic_Native` and `Atomic_CPP11` always agree, and
`Atomic_Boost` agrees with them exactly when the object was to start at 0 or is stored
to before anything else. -/
theorem implementations_agree (p : Platform) (width : Width) (signed : Bool)
    (std boost : AtomicClass (intType width signed)) (hstd : std.Documented)
    (hboost : boost.Documented) (v : Val (intType width signed))
    (ops : List (Op (intType width signed))) :
    ∃ out, (atomicNative (intType width signed) (p.backend width)).history v ops = some out ∧
      (atomicCPP11 std).history v ops = some out ∧
      ((atomicBoost boost).history v ops = some out ↔ v = 0 ∨ StoresFirst ops) := by
  have hnative := (atomicNative_refines (T := intType width signed)
    (p.backend_sequential width)).history v ops
  have hcpp11 := (wrapper_refines hstd std.construct id hstd.construct).history v ops
  have hzero := (wrapper_refines hboost (fun _ => boost.construct 0) (fun _ => 0)
    fun _ => hboost.construct 0).history v ops
  refine ⟨_, hnative, hcpp11, ?_⟩
  rw [show (atomicBoost boost).history v ops = _ from hzero, Option.some_inj]
  have hpair : ((steps 0 ops).1, Ret.value (steps 0 ops).2) =
      ((steps v ops).1, Ret.value (steps v ops).2) ↔ steps v ops = steps 0 ops := by
    rw [Prod.ext_iff, Prod.ext_iff, Ret.value.injEq, eq_comm, eq_comm (a := (steps 0 ops).2)]
  exact hpair.trans (steps_eq_iff v 0 ops)

/-- A class that keeps its value and nothing else. -/
def cell (T : IntType) : AtomicClass T where
  Obj := Val T
  construct v := v
  load o := o
  store _ v := v
  exchange o v := (o, v)
  compareExchangeStrong o expected desired :=
    if o = expected then (true, expected, desired) else (false, o, o)
  fetchAdd o x := (o, T.cast (o.int + x.int))
  fetchSub o x := (o, T.cast (o.int - x.int))
  fetchAnd o x := (o, T.ofBits (o.toBits &&& x.toBits))
  fetchOr o x := (o, T.ofBits (o.toBits ||| x.toBits))

theorem cell_documented (T : IntType) : (cell T).Documented where
  construct _ := rfl
  store _ _ := rfl
  exchange _ _ := ⟨rfl, rfl⟩
  equal _ _ _ h := ⟨_, if_pos h, rfl⟩
  different _ _ _ h := ⟨_, if_neg h, rfl⟩
  fetchAdd _ _ := ⟨rfl, rfl⟩
  fetchSub _ _ := ⟨rfl, rfl⟩
  fetchAnd _ _ := ⟨rfl, rfl⟩
  fetchOr _ _ := ⟨rfl, rfl⟩

/-- A `signed char` stored to, overflowing and compared. -/
theorem implementations_agree_after_store :
    let T := intType .w8 true
    let ops : List (Op T) := [.store (T.cast (-100)), .fetchSub (T.cast 100),
      .compareExchangeStrong (T.cast (-100)) (T.cast 1)]
    (atomicBoost (cell T)).history (T.cast 5) ops =
      (atomicNative T (Platform.gccX64.backend .w8)).history (T.cast 5) ops ∧
    (atomicNative T (Platform.gccX64.backend .w8)).history (T.cast 5) ops =
      some ([.unit, .value (T.cast (-100)), .strong false (T.cast 56)], .value (T.cast 56)) := by
  intro T ops
  obtain ⟨out, hnative, -, hboost⟩ := implementations_agree .gccX64 .w8 true (cell T) (cell T)
    (cell_documented T) (cell_documented T) (T.cast 5) ops
  refine ⟨?_, by decide⟩
  rw [hnative, hboost.mpr (Or.inr trivial)]

/-- An `unsigned int` constructed with 5 and read at once is 0 under `Atomic_Boost`. -/
theorem atomicBoost_ignores_its_argument :
    ¬ ∀ (p : Platform) (width : Width) (signed : Bool)
      (std boost : AtomicClass (intType width signed)), std.Documented → boost.Documented →
      ∀ (v : Val (intType width signed)) (ops : List (Op (intType width signed))),
        (atomicNative (intType width signed) (p.backend width)).history v ops =
            (atomicCPP11 std).history v ops ∧
          (atomicCPP11 std).history v ops = (atomicBoost boost).history v ops := by
  intro h
  let T := intType .w32 false
  have hagree := (h .gccX64 .w32 false (cell T) (cell T) (cell_documented T) (cell_documented T)
    (T.cast 5) [.load]).2
  exact absurd hagree (by decide)

end Turf.Atomics.Wrappers
