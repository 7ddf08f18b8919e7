import Turf.Lib.Schedule

/-!
# The job dispatcher

JobDispatcher.h over SpinKicker.h. The main thread makes calls and runs each statement by
statement; the workers run `threadRun`. Every read or write of a shared variable is one
step: the loads and stores of the gates' `m_kickVar`, and also the plain reads of
`mustExit`, `m_threadFilter`, `m_action` and `m_param`, so that an interleaving in which
these race with a write is a run of the model too. Thread affinities change no value and
are left out.
-/
namespace Turf.Dispatch

open Turf.Lib.Schedule

/-- `noAction`, or the thunk that the call of this number installed. -/
inductive Action where
  | noAction
  | thunk (call : Nat)
  deriving DecidableEq

/-- `NULL`, or the closure on the stack of the call of this number. -/
inductive Param where
  | null
  | closure (call : Nat)
  deriving DecidableEq

inductive Gate where
  | startGate
  | endGate
  deriving DecidableEq

/-- Where a thread stands in `threadRun`. The entry of the main thread runs nothing. -/
inductive Pc where
  | caller
  | startReady
  | startSpin
  | exitTest
  | filterNegative
  | filterEqual
  | loadAction
  | loadParam (action : Action)
  | acting (action : Action) (param : Param)
  | endReady
  | endSpin
  | exited
  deriving DecidableEq

structure WorkerThread where
  mustExit : Bool
  pc : Pc
  deriving DecidableEq

/-- The public member functions, the destructor being `setNumSpawnedThreads 1`. -/
inductive Call where
  | setNumSpawnedThreads (numThreads : Nat)
  | kick
  | kickOne (threadIndex : Nat)
  | kickMulti (numTargets : Nat)
  deriving DecidableEq

/-- The statements of the main thread. The first three run other statements, according to
the size of `m_threads` when they are reached. `join` also deletes the thread's record. -/
inductive Stmt where
  | setNumSpawnedThreads (numThreads : Nat)
  | growFor (threadIndex : Nat)
  | kick (gate : Gate)
  | await (gate : Gate) (count : Nat)
  | release (gate : Gate)
  | setThreadFilter (filter : Int)
  | setAction (action : Action)
  | setParam (param : Param)
  | setMustExit (t : Nat)
  | join (t : Nat)
  | resize (numThreads : Nat)
  | spawn
  | beginAction
  | endAction

/-! ## The member functions -/

def resetAction : List Stmt := [.setThreadFilter (-1), .setAction .noAction, .setParam .null]

/-- `SpinKicker::kick`. -/
def kickGate (gate : Gate) (count : Nat) : List Stmt := [.await gate count, .release gate]

def shrink (oldNumThreads numThreads : Nat) : List Stmt :=
  resetAction ++
  (List.range' numThreads (oldNumThreads - numThreads)).map .setMustExit ++
  kickGate .startGate (oldNumThreads - 1) ++
  (List.range' numThreads (oldNumThreads - numThreads)).map .join ++
  [.resize numThreads] ++
  kickGate .endGate (numThreads - 1)

def setNumSpawnedThreads (oldNumThreads numThreads : Nat) : List Stmt :=
  if numThreads < oldNumThreads then shrink oldNumThreads numThreads
  else List.replicate (numThreads - oldNumThreads) .spawn

def kickOne (call threadIndex : Nat) : List Stmt :=
  [.setThreadFilter threadIndex, .setAction (.thunk call), .setParam (.closure call),
    .growFor threadIndex, .kick .startGate] ++
  (if threadIndex = 0 then [.beginAction, .endAction] else []) ++
  [.kick .endGate] ++ resetAction

def kickMulti (call numTargets : Nat) : List Stmt :=
  [.setAction (.thunk call), .setParam (.closure call), .setNumSpawnedThreads numTargets,
    .kick .startGate, .beginAction, .endAction, .kick .endGate] ++ resetAction

/-- Both overloads, which differ in what the thunk calls. -/
def kick (call : Nat) : List Stmt :=
  [.setAction (.thunk call), .setParam (.closure call), .kick .startGate, .beginAction, .endAction,
    .kick .endGate] ++ resetAction

def Call.body (call : Nat) : Call → List Stmt
  | .setNumSpawnedThreads numThreads => [.setNumSpawnedThreads numThreads]
  | .kick => Dispatch.kick call
  | .kickOne threadIndex => Dispatch.kickOne call threadIndex
  | .kickMulti numTargets => Dispatch.kickMulti call numTargets

/-! ## States and steps -/

inductive Kind where
  | began
  | ended
  deriving DecidableEq

/-- A thread enters or leaves an action; `during` numbers the call the main thread is in. -/
structure Event where
  kind : Kind
  action : Action
  param : Param
  threadIndex : Nat
  during : Nat
  deriving DecidableEq

/-- `calls` are still to be made and `returned` counts those that have returned; `body` is
what is left of the call the main thread is in, if it is in one. -/
structure State where
  calls : List Call
  returned : Nat
  body : Option (List Stmt)
  threads : List WorkerThread
  threadFilter : Int
  action : Action
  param : Param
  startGate : Nat
  endGate : Nat
  log : List Event

namespace State

def counter (s : State) : Gate → Nat
  | .startGate => s.startGate
  | .endGate => s.endGate

def setCounter (s : State) (count : Nat) : Gate → State
  | .startGate => { s with startGate := count }
  | .endGate => { s with endGate := count }

def note (s : State) (kind : Kind) (action : Action) (param : Param) (threadIndex : Nat) : State :=
  { s with log := s.log ++ [⟨kind, action, param, threadIndex, s.returned⟩] }

def goto (s : State) (i : Nat) (pc : Pc) : State :=
  { s with threads := s.threads.modify i fun w => { w with pc } }

/-- One step of the main thread at the head of its statements. A test that keeps it
spinning changes nothing, and `join` blocks. -/
def exec (s : State) (rest : List Stmt) : Stmt → Option State
  | .setNumSpawnedThreads numThreads =>
    some { s with body := some (Dispatch.setNumSpawnedThreads s.threads.length numThreads ++ rest) }
  | .growFor threadIndex =>
    if threadIndex ≥ s.threads.length then
      some { s with body := some (.setNumSpawnedThreads (threadIndex + 1) :: rest) }
    else some { s with body := some rest }
  | .kick gate => some { s with body := some (kickGate gate (s.threads.length - 1) ++ rest) }
  | .await gate count =>
    if s.counter gate < count then some s else some { s with body := some rest }
  | .release gate => some { s.setCounter 0 gate with body := some rest }
  | .setThreadFilter filter => some { s with threadFilter := filter, body := some rest }
  | .setAction action => some { s with action, body := some rest }
  | .setParam param => some { s with param, body := some rest }
  | .setMustExit t =>
    some { s with threads := s.threads.modify t fun w => { w with mustExit := true }, body := some rest }
  | .join t =>
    if s.threads[t]?.map WorkerThread.pc = some .exited then some { s with body := some rest } else none
  | .resize numThreads => some { s with threads := s.threads.take numThreads, body := some rest }
  | .spawn => some { s with threads := s.threads ++ [⟨false, .startReady⟩], body := some rest }
  | .beginAction => some { s.note .began s.action s.param 0 with body := some rest }
  | .endAction => some { s.note .ended s.action s.param 0 with body := some rest }

def mainStep (s : State) : Option State :=
  match s.body, s.calls with
  | none, [] => none
  | none, call :: calls => some { s with calls, body := some (call.body s.returned) }
  | some [], _ => some { s with returned := s.returned + 1, body := none }
  | some (stmt :: rest), _ => s.exec rest stmt

/-- One step of `threadRun` in thread `i`, which stands at `pc`. -/
def threadRun (s : State) (i : Nat) (mustExit : Bool) : Pc → Option State
  | .caller => none
  -- m_startGate.waitForKick()
  | .startReady => some { s.goto i .startSpin with startGate := s.startGate + 1 }
  | .startSpin => if s.startGate > 0 then some s else some (s.goto i .exitTest)
  | .exitTest => some (s.goto i (if mustExit then .exited else .filterNegative))
  | .filterNegative => some (s.goto i (if s.threadFilter < 0 then .loadAction else .filterEqual))
  | .filterEqual => some (s.goto i (if s.threadFilter = i then .loadAction else .endReady))
  | .loadAction => some (s.goto i (.loadParam s.action))
  | .loadParam action => some ((s.goto i (.acting action s.param)).note .began action s.param i)
  | .acting action param => some ((s.goto i .endReady).note .ended action param i)
  -- m_endGate.waitForKick()
  | .endReady => some { s.goto i .endSpin with endGate := s.endGate + 1 }
  | .endSpin => if s.endGate > 0 then some s else some (s.goto i .startReady)
  | .exited => none

def workerStep (s : State) (i : Nat) : Option State :=
  match s.threads[i]? with
  | some w => s.threadRun i w.mustExit w.pc
  | none => none

end State

inductive Label where
  | main
  | worker (i : Nat)
  deriving DecidableEq

def next (s : State) : Label → Option State
  | .main => s.mainStep
  | .worker i => s.workerStep i

/-- A dispatcher that has just been constructed, and the calls that will be made. -/
def start (calls : List Call) : State where
  calls := calls
  returned := 0
  body := none
  threads := [⟨false, .caller⟩]
  threadFilter := -1
  action := .noAction
  param := .null
  startGate := 0
  endGate := 0
  log := []

end Turf.Dispatch
