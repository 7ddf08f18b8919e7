import Turf.Atomics.X86

/-!
# The MSVC backend

The functions of atomic_msvc.h. They call an `_Interlocked` intrinsic where there is
one, which is a single indivisible instruction returning the value it met. On a
32-bit CPU the 64-bit operations loop around `_InterlockedCompareExchange64`, and a
failed attempt hands the value it met to the next one.
-/
namespace Turf.Atomics.Msvc

open Turf.Lib.SharedWord Turf.Atomics.X86

variable {w : Nat}

/-! ## Intrinsics -/

def interlockedCompareExchange (desired expected : BitVec w) : Prog (BitVec w) (BitVec w) :=
  cmpxchg expected desired

def interlockedExchange (desired : BitVec w) : Prog (BitVec w) (BitVec w) := xchg desired

def interlockedExchangeAdd (operand : BitVec w) : Prog (BitVec w) (BitVec w) := xadd operand

def interlockedAnd (operand : BitVec w) : Prog (BitVec w) (BitVec w) :=
  .locked (· &&& operand) .ret

def interlockedOr (operand : BitVec w) : Prog (BitVec w) (BitVec w) :=
  .locked (· ||| operand) .ret

/-- The functions of 8, 16 and 32 bits, and those of 64 bits on a 64-bit CPU, are one
intrinsic each, the one of their width. -/
def intrinsicBackend (w : Nat) : Backend w where
  load := loadWord
  store := storeWord
  compareExchange expected desired := .straight (interlockedCompareExchange desired expected)
  exchange desired := .straight (interlockedExchange desired)
  fetchAdd operand := .straight (interlockedExchangeAdd operand)
  fetchAnd operand := .straight (interlockedAnd operand)
  fetchOr operand := .straight (interlockedOr operand)

def backend8 : Backend 8 := intrinsicBackend 8
def backend16 : Backend 16 := intrinsicBackend 16
def backend32 : Backend 32 := intrinsicBackend 32

namespace X64

def backend64 : Backend 64 := intrinsicBackend 64

end X64

theorem intrinsicBackend_sequential (w : Nat) : (intrinsicBackend w).Sequential where
  load _ := rfl
  store _ v := ⟨v, rfl⟩
  rmw op v := by
    rcases op with ⟨expected, desired⟩ | desired | operand | operand | operand
    all_goals exact straight_alone _ v

/-! ## 64 bits on a 32-bit CPU -/

namespace X86

variable (order : WordOrder)

/-- `lock cmpxchg8b` after copying EDX:EAX, which hold anything, to ECX:EBX. -/
def load64Relaxed (edxEax : BitVec 64) : Code 64 := .straight (cmpxchg edxEax edxEax)

/-- The block sets ECX:EBX only; the first comparison is with whatever EDX:EAX hold. -/
def store64Relaxed (edxEax value : BitVec 64) : Code 64 where
  entry := .ret edxEax
  body expected := do
    let met ← cmpxchg expected value
    if met = expected then return .inr met
    return .inl met

def compareExchange64Relaxed (expected desired : BitVec 64) : Code 64 :=
  .straight (interlockedCompareExchange desired expected)

/-- The loop of the four functions below: `expected` starts as a plain read and is
then the value the failed attempt met. -/
def rmw64 (combine : BitVec 64 → BitVec 64) : Code 64 where
  entry := nonatomic order
  body expected := do
    let previous ← interlockedCompareExchange (combine expected) expected
    if previous = expected then return .inr previous
    return .inl previous

def exchange64Relaxed (desired : BitVec 64) : Code 64 := rmw64 order fun _ => desired
def fetchAdd64Relaxed (operand : BitVec 64) : Code 64 := rmw64 order (· + operand)
def fetchAnd64Relaxed (operand : BitVec 64) : Code 64 := rmw64 order (· &&& operand)
def fetchOr64Relaxed (operand : BitVec 64) : Code 64 := rmw64 order (· ||| operand)

def backend64 (edxEax : BitVec 64) : Backend 64 where
  load := load64Relaxed edxEax
  store := store64Relaxed edxEax
  compareExchange := compareExchange64Relaxed
  exchange := exchange64Relaxed order
  fetchAdd := fetchAdd64Relaxed order
  fetchAnd := fetchAnd64Relaxed order
  fetchOr := fetchOr64Relaxed order

variable {order}

/-- A round succeeds only on the value its new one was computed from, whether that
came from the torn read or from the attempt before. -/
theorem rmw64_atomic (combine : BitVec 64 → BitVec 64) :
    (rmw64 order combine).Atomic combine where
  entry := pending_nonatomic fun _ => trivial
  body expected v := by
    by_cases h : v = expected
    · right
      simp [h]
    · left
      simp [h]

theorem rmw64_alone (combine : BitVec 64 → BitVec 64) (v : BitVec 64) :
    (rmw64 order combine).alone 2 v = some (v, combine v) := by
  simp [Routine.alone, Routine.rounds, rmw64, nonatomic_eval, interlockedCompareExchange, cmpxchg]

theorem backend64_atomic (edxEax : BitVec 64) : (backend64 order edxEax).Atomic := by
  rintro (⟨expected, desired⟩ | desired | operand | operand | operand)
  · exact straight_atomic fun _ => rfl
  · exact rmw64_atomic _
  · exact rmw64_atomic _
  · exact rmw64_atomic _
  · exact rmw64_atomic _

theorem backend64_sequential (edxEax : BitVec 64) : (backend64 order edxEax).Sequential where
  load v := by
    have h : (if v = edxEax then edxEax else v) = v := by split <;> simp_all
    exact (straight_alone _ v).trans (by rw [h])
  store desired v := by
    refine ⟨v, ?_⟩
    by_cases h : v = edxEax
    · simp [backend64, store64Relaxed, Routine.alone, Routine.rounds, cmpxchg, h]
    · simp [backend64, store64Relaxed, Routine.alone, Routine.rounds, cmpxchg, h]
  rmw op v := by
    rcases op with ⟨expected, desired⟩ | desired | operand | operand | operand
    · exact straight_alone _ v
    · exact rmw64_alone _ v
    · exact rmw64_alone _ v
    · exact rmw64_alone _ v
    · exact rmw64_alone _ v

end X86

end Turf.Atomics.Msvc
