import Turf.Atomics.X86

/-!
# The GCC backend for x86 and x64

The functions of atomic_gcc_x86-64.h. Up to 32 bits, and up to 64 bits on x64, they
are inline assembly at the operand's own size. The 64-bit operations of a 32-bit
CPU are C loops around `lock; cmpxchg8b`.
-/
namespace Turf.Atomics.Gcc

open Turf.Lib.SharedWord Turf.Atomics.X86

/-- A backend whose functions are all inline assembly at the operand's own size. -/
def asmBackend (w : Nat) : Backend w where
  load := loadWord
  store := storeWord
  compareExchange := compareExchangeAsm
  exchange := exchangeAsm
  fetchAdd := fetchAddAsm
  fetchAnd := fetchAndAsm
  fetchOr := fetchOrAsm

theorem asmBackend_atomic (w : Nat) : (asmBackend w).Atomic := by
  rintro (⟨expected, desired⟩ | desired | operand | operand | operand)
  · exact straight_atomic fun _ => rfl
  · exact straight_atomic fun _ => rfl
  · exact straight_atomic fun _ => rfl
  · exact retryAsm_atomic _
  · exact retryAsm_atomic _

theorem asmBackend_sequential (w : Nat) : (asmBackend w).Sequential where
  load _ := rfl
  store _ v := ⟨v, rfl⟩
  rmw op v := by
    rcases op with ⟨expected, desired⟩ | desired | operand | operand | operand
    · exact straight_alone _ v
    · exact straight_alone _ v
    · exact straight_alone _ v
    · exact retryAsm_alone _ v
    · exact retryAsm_alone _ v

/-! ## 8 bits -/

def load8Relaxed : Code 8 := loadWord
def store8Relaxed (desired : BitVec 8) : Code 8 := storeWord desired
def compareExchange8Relaxed (expected desired : BitVec 8) : Code 8 := compareExchangeAsm expected desired
def exchange8Relaxed (desired : BitVec 8) : Code 8 := exchangeAsm desired
def fetchAdd8Relaxed (operand : BitVec 8) : Code 8 := fetchAddAsm operand
def fetchAnd8Relaxed (operand : BitVec 8) : Code 8 := fetchAndAsm operand
def fetchOr8Relaxed (operand : BitVec 8) : Code 8 := fetchOrAsm operand

def backend8 : Backend 8 where
  load := load8Relaxed
  store := store8Relaxed
  compareExchange := compareExchange8Relaxed
  exchange := exchange8Relaxed
  fetchAdd := fetchAdd8Relaxed
  fetchAnd := fetchAnd8Relaxed
  fetchOr := fetchOr8Relaxed

/-! ## 16 bits -/

def load16Relaxed : Code 16 := loadWord
def store16Relaxed (desired : BitVec 16) : Code 16 := storeWord desired
def compareExchange16Relaxed (expected desired : BitVec 16) : Code 16 :=
  compareExchangeAsm expected desired
def exchange16Relaxed (desired : BitVec 16) : Code 16 := exchangeAsm desired
def fetchAdd16Relaxed (operand : BitVec 16) : Code 16 := fetchAddAsm operand
def fetchAnd16Relaxed (operand : BitVec 16) : Code 16 := fetchAndAsm operand
def fetchOr16Relaxed (operand : BitVec 16) : Code 16 := fetchOrAsm operand

def backend16 : Backend 16 where
  load := load16Relaxed
  store := store16Relaxed
  compareExchange := compareExchange16Relaxed
  exchange := exchange16Relaxed
  fetchAdd := fetchAdd16Relaxed
  fetchAnd := fetchAnd16Relaxed
  fetchOr := fetchOr16Relaxed

/-! ## 32 bits -/

def load32Relaxed : Code 32 := loadWord
def store32Relaxed (desired : BitVec 32) : Code 32 := storeWord desired
def compareExchange32Relaxed (expected desired : BitVec 32) : Code 32 :=
  compareExchangeAsm expected desired
def exchange32Relaxed (desired : BitVec 32) : Code 32 := exchangeAsm desired
def fetchAdd32Relaxed (operand : BitVec 32) : Code 32 := fetchAddAsm operand
def fetchAnd32Relaxed (operand : BitVec 32) : Code 32 := fetchAndAsm operand
def fetchOr32Relaxed (operand : BitVec 32) : Code 32 := fetchOrAsm operand

def backend32 : Backend 32 where
  load := load32Relaxed
  store := store32Relaxed
  compareExchange := compareExchange32Relaxed
  exchange := exchange32Relaxed
  fetchAdd := fetchAdd32Relaxed
  fetchAnd := fetchAnd32Relaxed
  fetchOr := fetchOr32Relaxed

/-! ## 64 bits on a 64-bit CPU -/

namespace X64

def load64Relaxed : Code 64 := loadWord
def store64Relaxed (desired : BitVec 64) : Code 64 := storeWord desired
def compareExchange64Relaxed (expected desired : BitVec 64) : Code 64 :=
  compareExchangeAsm expected desired
def exchange64Relaxed (desired : BitVec 64) : Code 64 := exchangeAsm desired
def fetchAdd64Relaxed (operand : BitVec 64) : Code 64 := fetchAddAsm operand
def fetchAnd64Relaxed (operand : BitVec 64) : Code 64 := fetchAndAsm operand
def fetchOr64Relaxed (operand : BitVec 64) : Code 64 := fetchOrAsm operand

def backend64 : Backend 64 where
  load := load64Relaxed
  store := store64Relaxed
  compareExchange := compareExchange64Relaxed
  exchange := exchange64Relaxed
  fetchAdd := fetchAdd64Relaxed
  fetchAnd := fetchAnd64Relaxed
  fetchOr := fetchOr64Relaxed

end X64

/-! ## 64 bits on a 32-bit CPU -/

namespace X86

variable (order : WordOrder)

/-- `cmpxchg8b` with whatever ECX:EBX holds as both operands. -/
def load64Relaxed (ecxEbx : BitVec 64) : Code 64 := .straight (cmpxchg ecxEbx ecxEbx)

/-- After a failed `cmpxchg8b` EDX:EAX holds the value met, which `jne 1b` tries next. -/
def store64Relaxed (desired : BitVec 64) : Code 64 where
  entry := nonatomic order
  body expected := do
    let edxEax ← cmpxchg expected desired
    if edxEax = expected then return .inr edxEax
    return .inl edxEax

def compareExchange64Relaxed (expected desired : BitVec 64) : Code 64 :=
  .straight (cmpxchg expected desired)

def exchange64Relaxed (desired : BitVec 64) : Code 64 where
  entry := nonatomic order
  body previous := do
    let probed ← cmpxchg previous desired
    if previous = probed then return .inr previous
    return .inl probed

/-- The loop of the three functions below: every round reads the location again. -/
def fetch64 (combine : BitVec 64 → BitVec 64) : Code 64 :=
  .loop do
    let previous ← nonatomic order
    let probed ← cmpxchg previous (combine previous)
    if probed = previous then return some previous else return none

def fetchAdd64Relaxed (operand : BitVec 64) : Code 64 := fetch64 order (· + operand)
def fetchAnd64Relaxed (operand : BitVec 64) : Code 64 := fetch64 order (· &&& operand)
def fetchOr64Relaxed (operand : BitVec 64) : Code 64 := fetch64 order (· ||| operand)

def backend64 (ecxEbx : BitVec 64) : Backend 64 where
  load := load64Relaxed ecxEbx
  store := store64Relaxed order
  compareExchange := compareExchange64Relaxed
  exchange := exchange64Relaxed order
  fetchAdd := fetchAdd64Relaxed order
  fetchAnd := fetchAnd64Relaxed order
  fetchOr := fetchOr64Relaxed order

variable {order}

/-- Whatever a torn read delivered, the location is written only where it was met. -/
theorem fetch64_atomic (combine : BitVec 64 → BitVec 64) :
    (fetch64 order combine).Atomic combine where
  entry := trivial
  body _ := by
    simp only [fetch64, Routine.loop, Prog.bind_eq, Prog.bind_assoc]
    apply pending_nonatomic
    intro previous v
    by_cases h : v = previous
    · right
      simp [h]
    · left
      simp [h]

theorem fetch64_alone (combine : BitVec 64 → BitVec 64) (v : BitVec 64) :
    (fetch64 order combine).alone 2 v = some (v, combine v) := by
  simp [Routine.alone, Routine.rounds, fetch64, Routine.loop, Prog.eval_bind, nonatomic_eval, cmpxchg]

theorem exchange64_atomic (desired : BitVec 64) :
    (exchange64Relaxed order desired).Atomic fun _ => desired where
  entry := pending_nonatomic fun _ => trivial
  body previous v := by
    by_cases h : v = previous
    · right
      simp [h]
    · left
      simp [h, Ne.symm h]

theorem backend64_atomic (ecxEbx : BitVec 64) : (backend64 order ecxEbx).Atomic := by
  rintro (⟨expected, desired⟩ | desired | operand | operand | operand)
  · exact straight_atomic fun _ => rfl
  · exact exchange64_atomic desired
  · exact fetch64_atomic _
  · exact fetch64_atomic _
  · exact fetch64_atomic _

theorem backend64_sequential (ecxEbx : BitVec 64) : (backend64 order ecxEbx).Sequential where
  load v := by
    have h : (if v = ecxEbx then ecxEbx else v) = v := by split <;> simp_all
    exact (straight_alone _ v).trans (by rw [h])
  store desired v := by
    refine ⟨v, ?_⟩
    simp [backend64, store64Relaxed, Routine.alone, Routine.rounds, nonatomic_eval, cmpxchg]
  rmw op v := by
    rcases op with ⟨expected, desired⟩ | desired | operand | operand | operand
    · exact straight_alone _ v
    · simp [backend64, Backend.code, Rmw.effect, exchange64Relaxed, Routine.alone, Routine.rounds,
        nonatomic_eval, cmpxchg]
    · exact fetch64_alone _ v
    · exact fetch64_alone _ v
    · exact fetch64_alone _ v

end X86

end Turf.Atomics.Gcc
