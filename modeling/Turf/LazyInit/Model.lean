import Mathlib.Logic.Function.Basic
import Turf.Lib.Schedule

/-!
# The lazily constructed mutex

Mutex_LazyInit.h. Any number of threads lock, unlock and run the destructor of one object
that starts as zeroed memory. Each access to `m_initFlag`, `m_spinLock` or the storage of
the inner mutex is a step; constructing and destroying it take two each. The log of what
has been constructed, destroyed and locked is not kept by the program.
-/
namespace Turf.LazyInit

open Turf.Lib.Schedule

/-- What `m_buffer` holds. A constructed mutex knows its owner and how often it is locked. -/
inductive Storage (n : Nat) where
  | raw
  | constructing
  | mutex (owner : Option (Fin n × Nat))
  | destroying
  deriving DecidableEq

/-- Where a thread stands: in `lock`, from `compareExchange` to `releaseSpin` within
`lazyInit`; in `unlock`; in the destructor, with `zeroInit` at the end of it. -/
inductive Pc where
  | idle
  | loadFlag
  | compareExchange
  | loadNonatomic
  | construct
  | endConstruct
  | storeFlag
  | releaseSpin
  | lockInner
  | assertFlag
  | unlockInner
  | destructor
  | destroy
  | endDestroy
  | zeroFlag
  | zeroSpin
  | zeroBuffer
  deriving DecidableEq

namespace Pc

def inLock : Pc → Bool
  | loadFlag | compareExchange | loadNonatomic | construct | endConstruct | storeFlag | releaseSpin
  | lockInner => true
  | _ => false

def inLazyInit : Pc → Bool
  | compareExchange | loadNonatomic | construct | endConstruct | storeFlag | releaseSpin => true
  | _ => false

def inDestructor : Pc → Bool
  | destructor | destroy | endDestroy | zeroFlag | zeroSpin | zeroBuffer => true
  | _ => false

/-- The next access is one to the inner mutex. -/
def reachesMutex : Pc → Bool
  | lockInner | unlockInner | destroy => true
  | _ => false

end Pc

inductive Event (n : Nat) where
  | constructed (t : Fin n)
  | destroyed (t : Fin n)
  | locked (t : Fin n)
  deriving DecidableEq

structure State (n : Nat) where
  initFlag : Bool
  spinLock : Bool
  storage : Storage n
  pc : Fin n → Pc
  log : List (Event n)

/-- Zeroed memory and no call under way. -/
def start (n : Nat) : State n := ⟨false, false, .raw, fun _ => .idle, []⟩

inductive Label (n : Nat) where
  | lock (t : Fin n)
  | unlock (t : Fin n)
  | destructor (t : Fin n)
  | step (t : Fin n)

variable {n : Nat}

namespace State

def goto (s : State n) (t : Fin n) (pc : Pc) : State n :=
  { s with pc := Function.update s.pc t pc }

@[simp] theorem goto_self (s : State n) (t : Fin n) (pc : Pc) : (s.goto t pc).pc t = pc :=
  Function.update_self ..

/-- The thread that holds the mutex, and how often. -/
def held (s : State n) : Option (Fin n × Nat) :=
  match s.storage with
  | .mutex owner => owner
  | _ => none

end State

/-- The owner after `lock` on the inner mutex, which waits while another thread owns it. A
recursive mutex may be locked again by its owner. -/
def lockOwner (recursive : Bool) (t : Fin n) : Option (Fin n × Nat) → Option (Fin n × Nat)
  | none => some (t, 1)
  | some (u, k) => if u = t ∧ recursive then some (t, k + 1) else none

def unlockOwner : Option (Fin n × Nat) → Option (Fin n × Nat)
  | some (u, k + 2) => some (u, k + 1)
  | _ => none

/-- The next access of thread `t`. There is none while it waits for the inner mutex, after a
failed assertion, or where the storage is not a mutex that it would use. -/
def stepAt (recursive : Bool) (s : State n) (t : Fin n) : Pc → Option (State n)
  | .idle => none
  -- lock
  | .loadFlag => some (s.goto t (if s.initFlag then .lockInner else .compareExchange))
  | .compareExchange =>
    if s.spinLock then some s
    else some ({ s with spinLock := true }.goto t .loadNonatomic)
  | .loadNonatomic => some (s.goto t (if s.initFlag then .releaseSpin else .construct))
  | .construct => some ({ s with storage := .constructing }.goto t .endConstruct)
  | .endConstruct =>
    some ({ s with storage := .mutex none, log := .constructed t :: s.log }.goto t .storeFlag)
  | .storeFlag => some ({ s with initFlag := true }.goto t .releaseSpin)
  | .releaseSpin => some ({ s with spinLock := false }.goto t .lockInner)
  | .lockInner =>
    match s.storage with
    | .mutex owner =>
      (lockOwner recursive t owner).map fun o =>
        { s with storage := .mutex (some o), log := .locked t :: s.log }.goto t .idle
    | _ => none
  -- unlock
  | .assertFlag => if s.initFlag then some (s.goto t .unlockInner) else none
  | .unlockInner =>
    match s.storage with
    | .mutex owner => some ({ s with storage := .mutex (unlockOwner owner) }.goto t .idle)
    | _ => none
  -- the destructor
  | .destructor =>
    if s.initFlag then some (s.goto t .destroy)
    else some ({ s with log := .destroyed t :: s.log }.goto t .idle)
  | .destroy =>
    match s.storage with
    | .mutex _ => some ({ s with storage := .destroying }.goto t .endDestroy)
    | _ => none
  | .endDestroy => some ({ s with storage := .raw }.goto t .zeroFlag)
  | .zeroFlag => some ({ s with initFlag := false }.goto t .zeroSpin)
  | .zeroSpin => some ({ s with spinLock := false }.goto t .zeroBuffer)
  | .zeroBuffer =>
    some ({ s with storage := .raw, log := .destroyed t :: s.log }.goto t .idle)

/-- A call of `lock` begins while no destructor runs, a call of `unlock` in a thread that holds
the mutex, and the destructor while no thread is inside `lock`, holds the mutex or is in
another destructor. -/
def next (recursive : Bool) (s : State n) : Label n → Option (State n)
  | .lock t =>
    if s.pc t = .idle ∧ ∀ u, (s.pc u).inDestructor = false then some (s.goto t .loadFlag) else none
  | .unlock t =>
    if s.pc t = .idle ∧ s.held.map Prod.fst = some t then some (s.goto t .assertFlag) else none
  | .destructor t =>
    if s.pc t = .idle ∧ s.held = none ∧
        ∀ u, (s.pc u).inLock = false ∧ (s.pc u).inDestructor = false then
      some (s.goto t .destructor)
    else none
  | .step t => stepAt recursive s t (s.pc t)

end Turf.LazyInit
