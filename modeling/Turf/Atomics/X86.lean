import Turf.Lib.SharedWord
import Turf.Lib.Words

/-!
# The read-modify-write operations on x86

Each C function is the code it runs on the word it is given, as a `Routine`: the
locked instructions and intrinsics are indivisible, a plain read of an aligned
word of at most the register size is indivisible too, and a plain read of a 64-bit
word on a 32-bit CPU is two reads of 32-bit words. The memory-order wrappers add
fences around these functions and compute nothing, so they are left out.
-/
namespace Turf.Atomics.X86

open Turf.Lib.SharedWord Turf.Lib.Words

variable {w : Nat}

/-- The code of one call on a location of `w` bits. -/
abbrev Code (w : Nat) := Routine (BitVec w) (BitVec w)

/-! ## Instructions -/

/-- `lock; cmpxchg`: the accumulator receives the value met, and ZF is set exactly
when that is the value the accumulator held. -/
def cmpxchg (expected desired : BitVec w) : Prog (BitVec w) (BitVec w) :=
  .locked (fun v => if v = expected then desired else v) .ret

def xchg (desired : BitVec w) : Prog (BitVec w) (BitVec w) := .locked (fun _ => desired) .ret

def xadd (operand : BitVec w) : Prog (BitVec w) (BitVec w) := .locked (· + operand) .ret

/-- A load of a whole word. -/
def mov : Prog (BitVec w) (BitVec w) := .observe .ret

/-- A store of a whole word. -/
def movTo (desired : BitVec w) : Prog (BitVec w) (BitVec w) := .locked (fun _ => desired) .ret

/-- Which half of a 64-bit word a 32-bit CPU reads first; the compiler chooses. -/
inductive WordOrder where
  | lowFirst
  | highFirst
  deriving DecidableEq

def readLow : Prog (BitVec 64) (BitVec 32) := .observe fun v => .ret (v.extractLsb' 0 32)
def readHigh : Prog (BitVec 64) (BitVec 32) := .observe fun v => .ret (v.extractLsb' 32 32)

/-- `object->nonatomic` on a 32-bit CPU: other threads may write between the halves. -/
def nonatomic (order : WordOrder) : Prog (BitVec 64) (BitVec 64) :=
  match order with
  | .lowFirst => do
    let low ← readLow
    let high ← readHigh
    return high ++ low
  | .highFirst => do
    let high ← readHigh
    let low ← readLow
    return high ++ low

/-! ## Inline assembly at the operand's own size

The blocks for 8, 16 and 32 bits, and for 64 bits on x64, differ in the suffix of
the instructions only. -/

def loadWord : Code w := .straight mov

def storeWord (desired : BitVec w) : Code w := .straight (movTo desired)

def compareExchangeAsm (expected desired : BitVec w) : Code w := .straight (cmpxchg expected desired)

def exchangeAsm (desired : BitVec w) : Code w := .straight (xchg desired)

def fetchAddAsm (operand : BitVec w) : Code w := .straight (xadd operand)

/-- The block of `fetchAnd` and `fetchOr`: load, combine in a second register,
`cmpxchg`, and `jne 1b`. A failed attempt loads the word again. -/
def retryAsm (combine : BitVec w → BitVec w) : Code w :=
  .loop do
    let previous ← mov
    let temp := combine previous
    let eax ← cmpxchg previous temp
    if eax = previous then return some eax else return none

def fetchAndAsm (operand : BitVec w) : Code w := retryAsm (· &&& operand)

def fetchOrAsm (operand : BitVec w) : Code w := retryAsm (· ||| operand)

/-- The operations of one width, as one backend provides them. -/
structure Backend (w : Nat) where
  load : Code w
  store : BitVec w → Code w
  compareExchange : BitVec w → BitVec w → Code w
  exchange : BitVec w → Code w
  fetchAdd : BitVec w → Code w
  fetchAnd : BitVec w → Code w
  fetchOr : BitVec w → Code w

/-! ## The operations a call can ask for -/

inductive Rmw (w : Nat) where
  | compareExchange (expected desired : BitVec w)
  | exchange (desired : BitVec w)
  | fetchAdd (operand : BitVec w)
  | fetchAnd (operand : BitVec w)
  | fetchOr (operand : BitVec w)
  deriving DecidableEq

/-- What the operation makes of the value it is applied to, modulo `2 ^ w`. -/
def Rmw.effect : Rmw w → BitVec w → BitVec w
  | compareExchange expected desired, v => if v = expected then desired else v
  | exchange desired, _ => desired
  | fetchAdd operand, v => v + operand
  | fetchAnd operand, v => v &&& operand
  | fetchOr operand, v => v ||| operand

def Backend.code (b : Backend w) : Rmw w → Code w
  | .compareExchange expected desired => b.compareExchange expected desired
  | .exchange desired => b.exchange desired
  | .fetchAdd operand => b.fetchAdd operand
  | .fetchAnd operand => b.fetchAnd operand
  | .fetchOr operand => b.fetchOr operand

/-- Each function is its operation at one of its instructions, under any interference. -/
def Backend.Atomic (b : Backend w) : Prop := ∀ op : Rmw w, (b.code op).Atomic op.effect

/-- Each function is its operation when it runs alone, after at most two rounds. -/
structure Backend.Sequential (b : Backend w) : Prop where
  load : ∀ v, b.load.alone 2 v = some (v, v)
  store : ∀ desired v, ∃ r, (b.store desired).alone 2 v = some (r, desired)
  rmw : ∀ (op : Rmw w) v, (b.code op).alone 2 v = some (v, op.effect v)

/-! ## One lemma for each shape of code -/

theorem straight_atomic {g f : BitVec w → BitVec w} (h : ∀ v, g v = f v) :
    (Routine.straight (.locked g .ret)).Atomic f where
  entry := trivial
  body _ v := Or.inr ⟨h v, rfl⟩

theorem straight_alone (f : BitVec w → BitVec w) (v : BitVec w) :
    (Routine.straight (.locked f .ret)).alone 2 v = some (v, f v) := rfl

theorem retryAsm_atomic (combine : BitVec w → BitVec w) : (retryAsm combine).Atomic combine where
  entry := trivial
  body _ previous v := by
    by_cases h : v = previous
    · subst h
      right
      simp
    · left
      simp [h]

theorem retryAsm_alone (combine : BitVec w → BitVec w) (v : BitVec w) :
    (retryAsm combine).alone 2 v = some (v, combine v) := by
  simp [Routine.alone, Routine.rounds, retryAsm, Routine.loop, mov, cmpxchg]

/-- A torn read may deliver any word at all. -/
theorem pending_nonatomic {C : Type} {f : BitVec 64 → BitVec 64} {order : WordOrder}
    {g : BitVec 64 → Prog (BitVec 64) (C ⊕ BitVec 64)} (h : ∀ v, Pending f (g v)) :
    Pending f ((nonatomic order).bind g) := by
  cases order
  · exact fun a b => h (b.extractLsb' 32 32 ++ a.extractLsb' 0 32)
  · exact fun a b => h (a.extractLsb' 32 32 ++ b.extractLsb' 0 32)

/-- A plain read of a word that nobody writes is not torn. -/
theorem nonatomic_eval (order : WordOrder) (v : BitVec 64) :
    (nonatomic order).eval v = (v, v) := by
  cases order <;> simp [nonatomic, readLow, readHigh, halves_append]

end Turf.Atomics.X86
