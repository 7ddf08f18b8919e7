import Mathlib.Logic.Function.Basic
import Turf.Lib.Schedule

/-!
# The in-memory trace log

Trace_MemLog.h and Trace_MemLog.cpp. Any number of threads log, and every access to a
variable that two of them may touch is a step of its own. Pages are numbered by their
creation and the storage of a deleted page is not used again. Two things are recorded that
the program does not keep: the calls made and the slots given out, in order.
-/
namespace Turf.MemLog

open Turf.Lib.Schedule

/-- `EventsPerPage` and `MaxNumPages`. -/
structure Config where
  eventsPerPage : Nat
  maxNumPages : Nat
  events_pos : 0 < eventsPerPage
  pages_pos : 0 < maxNumPages

/-- The constants of the source. -/
def sourceConfig : Config := ⟨16384, 4, by decide, by decide⟩

/-- `msg` is the address of the text. -/
structure Event where
  tid : Nat
  msg : Nat
  param1 : Nat
  param2 : Nat
  deriving DecidableEq

inductive Field where
  | tid
  | msg
  | param1
  | param2
  deriving DecidableEq

namespace Field

def get (e : Event) : Field → Nat
  | tid => e.tid
  | msg => e.msg
  | param1 => e.param1
  | param2 => e.param2

def set (e : Event) (value : Nat) : Field → Event
  | tid => { e with tid := value }
  | msg => { e with msg := value }
  | param1 => { e with param1 := value }
  | param2 => { e with param2 := value }

/-- The assignment after the one to this field. -/
def after : Field → Option Field
  | tid => some msg
  | msg => some param1
  | param1 => some param2
  | param2 => none

end Field

/-- `index` can exceed the number of events of a page, as the source notes. -/
structure Page where
  next : Option Nat
  index : Nat
  events : Nat → Event

/-- `Page()`. The constructor of an event leaves `tid` as it is. -/
def newPage : Page := ⟨none, 0, fun _ => ⟨0, 0, 0, 0⟩⟩

/-- Where a thread stands in `log`, and from `loadOldTail` to `unlock` in
`allocateEventFromNewPage` with the mutex held. -/
inductive Pc where
  | loadTail
  | fetchAdd (page : Nat)
  | lock
  | loadOldTail
  | loadIndex (oldTail : Nat)
  | fetchAddLocked (oldTail : Nat)
  | newPage (oldTail : Nat)
  | linkNext (oldTail newTail : Nat)
  | storeTail (newTail : Nat)
  | countPage (newTail : Nat)
  | dropHead (newTail : Nat)
  | deletePage (newTail oldHead : Nat)
  | unlock (page index : Nat)
  | write (field : Field) (page index : Nat)
  deriving DecidableEq

/-- A call of `log` has a number, and the event that it will write. -/
inductive Thread where
  | idle
  | logging (call : Nat) (event : Event) (pc : Pc)
  deriving DecidableEq

/-- Slot `index` of page `page` was given to call `call`. -/
structure Given where
  page : Nat
  index : Nat
  call : Nat
  deriving DecidableEq

structure State where
  pages : Nat → Page
  created : Nat
  freed : List Nat
  head : Option Nat
  tail : Nat
  numPages : Nat
  mutex : Option Nat
  threads : Nat → Thread
  calls : List Event
  given : List Given

/-- `Trace_MemLog()`. -/
def start : State where
  pages := fun _ => newPage
  created := 1
  freed := []
  head := some 0
  tail := 0
  numPages := 1
  mutex := none
  threads := fun _ => .idle
  calls := []
  given := []

namespace State

def goto (s : State) (t : Nat) (thread : Thread) : State :=
  { s with threads := Function.update s.threads t thread }

def setPage (s : State) (page : Nat) (p : Page) : State :=
  { s with pages := Function.update s.pages page p }

def indexOf (s : State) (page : Nat) : Nat := (s.pages page).index

/-- `page->index.fetchAdd(1)`. What it returns is a slot if the page has as many. -/
def fetchAddIndex (c : Config) (s : State) (call page : Nat) : State :=
  { s.setPage page { s.pages page with index := s.indexOf page + 1 } with
    given := if s.indexOf page < c.eventsPerPage then s.given ++ [⟨page, s.indexOf page, call⟩]
      else s.given }

/-- An assignment of a field of `event` to that of a slot. -/
def writeField (s : State) (page index : Nat) (event : Event) (field : Field) : State :=
  let events := Function.update (s.pages page).events index
    (field.set ((s.pages page).events index) (field.get event))
  s.setPage page { s.pages page with events }

/-- `new Page`. It is nobody else's yet, so that its first slot is reserved in the same step. -/
def addPage (s : State) (call : Nat) : State :=
  { s.setPage s.created { newPage with index := 1 } with
    created := s.created + 1
    given := s.given ++ [⟨s.created, 0, call⟩] }

/-- One step of call `call` in thread `t`. -/
def logStep (c : Config) (s : State) (t call : Nat) (event : Event) : Pc → Option State
  | .loadTail => some (s.goto t (.logging call event (.fetchAdd s.tail)))
  | .fetchAdd page =>
    some ((s.fetchAddIndex c call page).goto t (.logging call event
      (if s.indexOf page < c.eventsPerPage then .write .tid page (s.indexOf page) else .lock)))
  | .lock =>
    if s.mutex = none then
      some ({ s with mutex := some t }.goto t (.logging call event .loadOldTail))
    else none
  | .loadOldTail => some (s.goto t (.logging call event (.loadIndex s.tail)))
  | .loadIndex oldTail =>
    some (s.goto t (.logging call event
      (if s.indexOf oldTail < c.eventsPerPage then .fetchAddLocked oldTail else .newPage oldTail)))
  | .fetchAddLocked oldTail =>
    some ((s.fetchAddIndex c call oldTail).goto t (.logging call event
      (if s.indexOf oldTail < c.eventsPerPage then .unlock oldTail (s.indexOf oldTail)
        else .newPage oldTail)))
  | .newPage oldTail =>
    some ((s.addPage call).goto t (.logging call event (.linkNext oldTail s.created)))
  | .linkNext oldTail newTail =>
    some ((s.setPage oldTail { s.pages oldTail with next := some newTail }).goto t
      (.logging call event (.storeTail newTail)))
  | .storeTail newTail =>
    some ({ s with tail := newTail }.goto t (.logging call event (.countPage newTail)))
  | .countPage newTail =>
    if s.numPages ≥ c.maxNumPages then some (s.goto t (.logging call event (.dropHead newTail)))
    else
      some ({ s with numPages := s.numPages + 1 }.goto t (.logging call event (.unlock newTail 0)))
  | .dropHead newTail =>
    match s.head with
    | some oldHead =>
      some ({ s with head := (s.pages oldHead).next }.goto t
        (.logging call event (.deletePage newTail oldHead)))
    | none => none
  | .deletePage newTail oldHead =>
    some ({ s with freed := oldHead :: s.freed }.goto t (.logging call event (.unlock newTail 0)))
  | .unlock page index =>
    some ({ s with mutex := none }.goto t (.logging call event (.write .tid page index)))
  | .write field page index =>
    some ((s.writeField page index event field).goto t
      (match field.after with
      | some field => .logging call event (.write field page index)
      | none => .idle))

def threadStep (c : Config) (s : State) (t : Nat) : Option State :=
  match s.threads t with
  | .idle => none
  | .logging call event pc => s.logStep c t call event pc

/-- An idle thread calls `log`. Its own number stands for what `getCurrentThreadID` returns. -/
def callLog (s : State) (t msg param1 param2 : Nat) : Option State :=
  match s.threads t with
  | .idle =>
    let event : Event := ⟨t, msg, param1, param2⟩
    some ({ s with calls := s.calls ++ [event] }.goto t (.logging s.calls.length event .loadTail))
  | .logging .. => none

end State

inductive Label where
  | log (t msg param1 param2 : Nat)
  | step (t : Nat)
  deriving DecidableEq

def Label.thread : Label → Nat
  | log t .. => t
  | step t => t

def next (c : Config) (s : State) : Label → Option State
  | .log t msg param1 param2 => s.callLog t msg param1 param2
  | .step t => s.threadStep c t

/-! ## Reading the log -/

/-- `Trace_MemLog::Iterator`. -/
structure Iterator where
  page : Nat
  index : Nat
  deriving DecidableEq

namespace State

/-- `operator++`. -/
def succ (c : Config) (s : State) (it : Iterator) : Iterator :=
  if it.index + 1 ≥ c.eventsPerPage then
    match (s.pages it.page).next with
    | some next => ⟨next, 0⟩
    | none => ⟨it.page, s.indexOf it.page⟩
  else ⟨it.page, it.index + 1⟩

/-- `operator*`. -/
def deref (s : State) (it : Iterator) : Event := (s.pages it.page).events it.index

/-- `begin`, which there is as long as `m_head` is not null. -/
def begin (s : State) : Option Iterator := s.head.map fun page => ⟨page, 0⟩

def end_ (s : State) : Iterator := ⟨s.tail, s.indexOf s.tail⟩

/-- The iterators that `for (it = begin; it != end; ++it)` stops at, if the loop ends
within the fuel. -/
def visit (c : Config) (s : State) : Nat → Iterator → Option (List Iterator)
  | 0, _ => none
  | fuel + 1, it => if it = s.end_ then some [] else (s.visit c fuel (s.succ c it)).map (it :: ·)

/-- The number that `dumpStats` prints. -/
def dumpStats (c : Config) (s : State) : Nat := (s.numPages - 1) * c.eventsPerPage + s.indexOf s.tail

/-- The events that `dumpEntireLog` prints, from page `page` on. -/
def dumpPages (c : Config) (s : State) : Nat → Option Nat → Nat → Option (List Event)
  | _, none, _ => some []
  | 0, some _, _ => none
  | fuel + 1, some page, startPage =>
    if startPage > 0 then s.dumpPages c fuel (s.pages page).next (startPage - 1)
    else
      let limit := min c.eventsPerPage (s.indexOf page)
      (s.dumpPages c fuel (s.pages page).next 0).map
        ((List.range limit).map (s.pages page).events ++ ·)

def dumpEntireLog (c : Config) (s : State) (fuel startPage : Nat) : Option (List Event) :=
  s.dumpPages c fuel s.head startPage

end State

end Turf.MemLog
