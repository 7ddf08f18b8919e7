import Mathlib.Data.List.Perm.Basic
import Mathlib.Logic.Function.Basic
import Turf.Lib.Cells
import Turf.Lib.Schedule

/-!
# Trace counters

Trace_Counters.h and Trace_Counters.cpp. Any number of threads push groups onto a list by
`compareExchangeWeak` while others count. A group is known by its address. Two things are
recorded that the program does not keep: the groups that `addGroup` has been called with
and those whose compare-exchange has succeeded, the latest first.
-/
namespace Turf.Trace

open Turf.Lib.Cells Turf.Lib.Schedule

structure Counter where
  count : BitVec 32
  str : String

structure TraceGroup where
  name : String
  counters : List Counter
  next : Option Nat

/-- Where a thread stands in `addGroup`, with its local `oldHead` once it has been read. -/
inductive Pc where
  | load
  | setNext (oldHead : Option Nat)
  | exchange (oldHead : Option Nat)

inductive Thread where
  | idle
  | adding (group : Nat) (pc : Pc)

structure State where
  firstGroup : Option Nat
  groups : Nat → TraceGroup
  threads : Nat → Thread
  called : List Nat
  added : List Nat

/-- `Instance` is zero-initialized. What the groups hold is arbitrary, `m_next` included. -/
def start (groups : Nat → TraceGroup) : State := ⟨none, groups, fun _ => .idle, [], []⟩

/-- A thread calls `addGroup`, makes its next access, or counts with `TURF_TRACE`. The
compare-exchange of the step may fail spuriously. -/
inductive Label where
  | call (t group : Nat)
  | step (t : Nat) (spurious : Bool)
  | trace (group index : Nat)

namespace State

def goto (s : State) (t : Nat) (thread : Thread) : State :=
  { s with threads := Function.update s.threads t thread }

def setGroup (s : State) (group : Nat) (g : TraceGroup) : State :=
  { s with groups := Function.update s.groups group g }

/-- `m_next` of each group. -/
def nextOf (s : State) (group : Nat) : Option Nat := (s.groups group).next

/-- `group->m_next = oldHead`. -/
def setNext (s : State) (group : Nat) (oldHead : Option Nat) : State :=
  s.setGroup group { s.groups group with next := oldHead }

/-- `m_firstGroup` becomes `group`. -/
def push (s : State) (group : Nat) : State :=
  { s with firstGroup := some group, added := group :: s.added }

/-- `count.fetchAdd(1)` on one counter. -/
def countUp (s : State) (group index : Nat) : State :=
  s.setGroup group { s.groups group with
    counters := (s.groups group).counters.modify index fun c => { c with count := c.count + 1 } }

end State

/-- The next access of a thread in `addGroup`. A `compareExchangeWeak` that fails, because the
head is another than expected or for no reason, writes the head it has seen to `oldHead`. -/
def stepAt (s : State) (t group : Nat) (spurious : Bool) : Pc → State
  | .load => s.goto t (.adding group (.setNext s.firstGroup))
  | .setNext oldHead => (s.setNext group oldHead).goto t (.adding group (.exchange oldHead))
  | .exchange oldHead =>
    if s.firstGroup = oldHead ∧ spurious = false then (s.push group).goto t .idle
    else s.goto t (.adding group (.setNext s.firstGroup))

/-- Calls are made with pairwise distinct groups. -/
def next (s : State) : Label → Option State
  | .call t group =>
    match s.threads t with
    | .idle =>
      if group ∈ s.called then none
      else some ({ s with called := group :: s.called }.goto t (.adding group .load))
    | .adding _ _ => none
  | .step t spurious =>
    match s.threads t with
    | .idle => none
    | .adding group pc => some (stepAt s t group spurious pc)
  | .trace group index => some (s.countUp group index)

/-! ## Printing -/

/-- A line of output: the name of a group, or a count with its description. -/
inductive Line where
  | group (name : String)
  | counter (count : BitVec 32) (str : String)

def dump (g : TraceGroup) : List Line :=
  .group g.name :: g.counters.map fun c => .counter c.count c.str

def dumpIfUsed (g : TraceGroup) : List Line :=
  if g.counters.any fun c => c.count ≠ 0 then dump g else []

/-- The groups that `dumpStats` visits and what it prints of each, in at most `fuel` rounds. -/
def dumpStats (s : State) (fuel : Nat) : Option (List (Nat × List Line)) :=
  traverse s.nextOf (fun group => (group, dumpIfUsed (s.groups group))) fuel s.firstGroup

/-! ## Who holds a group -/

/-- Every group that a call was made with is on the list or in the hands of exactly one
thread. -/
structure Owned (called added : List Nat) (held : Nat → Option Nat) : Prop where
  mem_called : ∀ g, g ∈ called ↔ g ∈ added ∨ ∃ t, held t = some g
  not_added : ∀ {t g}, held t = some g → g ∉ added
  alone : ∀ {t t' g}, held t = some g → held t' = some g → t = t'

section Owned

variable {called added : List Nat} {held : Nat → Option Nat} {t g : Nat}

theorem Owned.take (h : Owned called added held) (ht : held t = none) (hnew : g ∉ called) :
    Owned (g :: called) added (Function.update held t (some g)) := by
  have hfree : ∀ u, held u ≠ some g := by
    intro u hu
    exact hnew ((h.mem_called g).mpr (.inr ⟨u, hu⟩))
  constructor
  · intro g'
    rw [List.mem_cons, h.mem_called g']
    constructor
    · rintro (rfl | hadded | ⟨u, hu⟩)
      · exact .inr ⟨t, Function.update_self ..⟩
      · exact .inl hadded
      · have hne : u ≠ t := by
          rintro rfl
          rw [ht] at hu
          cases hu
        exact .inr ⟨u, by rw [Function.update_of_ne hne, hu]⟩
    · rintro (hadded | ⟨u, hu⟩)
      · exact .inr (.inl hadded)
      · by_cases hut : u = t
        · subst hut
          rw [Function.update_self] at hu
          exact .inl (Option.some.inj hu).symm
        · rw [Function.update_of_ne hut] at hu
          exact .inr (.inr ⟨u, hu⟩)
  · intro u g' hu hadded
    by_cases hut : u = t
    · subst hut
      rw [Function.update_self] at hu
      cases hu
      exact hnew ((h.mem_called g).mpr (.inl hadded))
    · rw [Function.update_of_ne hut] at hu
      exact h.not_added hu hadded
  · intro u v g' hu hv
    by_cases hut : u = t
    · subst hut
      by_cases hvu : v = u
      · exact hvu.symm
      · rw [Function.update_self] at hu
        rw [Function.update_of_ne hvu] at hv
        cases hu
        exact absurd hv (hfree v)
    · rw [Function.update_of_ne hut] at hu
      by_cases hvt : v = t
      · subst hvt
        rw [Function.update_self] at hv
        cases hv
        exact absurd hu (hfree u)
      · rw [Function.update_of_ne hvt] at hv
        exact h.alone hu hv

theorem Owned.give (h : Owned called added held) (ht : held t = some g) :
    Owned called (g :: added) (Function.update held t none) := by
  constructor
  · intro g'
    rw [h.mem_called g', List.mem_cons]
    constructor
    · rintro (hadded | ⟨u, hu⟩)
      · exact .inl (.inr hadded)
      · by_cases hut : u = t
        · subst hut
          rw [ht] at hu
          exact .inl (.inl (Option.some.inj hu).symm)
        · exact .inr ⟨u, by rw [Function.update_of_ne hut, hu]⟩
    · rintro ((rfl | hadded) | ⟨u, hu⟩)
      · exact .inr ⟨t, ht⟩
      · exact .inl hadded
      · by_cases hut : u = t
        · subst hut
          rw [Function.update_self] at hu
          cases hu
        · rw [Function.update_of_ne hut] at hu
          exact .inr ⟨u, hu⟩
  · intro u g' hu
    by_cases hut : u = t
    · subst hut
      rw [Function.update_self] at hu
      cases hu
    · rw [Function.update_of_ne hut] at hu
      have hne : g' ≠ g := by
        rintro rfl
        exact hut (h.alone hu ht)
      intro hmem
      rcases List.mem_cons.mp hmem with rfl | hadded
      · exact hne rfl
      · exact h.not_added hu hadded
  · intro u v g' hu hv
    by_cases hut : u = t
    · subst hut
      rw [Function.update_self] at hu
      cases hu
    · by_cases hvt : v = t
      · subst hvt
        rw [Function.update_self] at hv
        cases hv
      · rw [Function.update_of_ne hut] at hu
        rw [Function.update_of_ne hvt] at hv
        exact h.alone hu hv

end Owned

/-! ## The list under any interleaving -/

def Thread.group : Thread → Option Nat
  | idle => none
  | adding group _ => some group

/-- The group that a thread is adding. -/
def State.held (s : State) (t : Nat) : Option Nat := (s.threads t).group

/-- The head that a thread expects has been written to its group. -/
def Thread.Ready (nextOf : Nat → Option Nat) : Thread → Prop
  | adding group (.exchange oldHead) => nextOf group = oldHead
  | _ => True

structure Inv (s : State) : Prop where
  distinct : s.called.Nodup
  owned : Owned s.called s.added s.held
  linked : Linked s.nextOf s.firstGroup s.added
  ready : ∀ t, (s.threads t).Ready s.nextOf

variable {s s' : State} {t g : Nat} {thread : Thread} {oldHead : Option Nat} {spurious : Bool}

theorem held_goto : (s.goto t thread).held = Function.update s.held t thread.group := by
  funext u
  by_cases hu : u = t
  · subst hu
    simp [State.held, State.goto]
  · simp [State.held, State.goto, Function.update_of_ne hu]

theorem held_goto_same (ht : s.held t = thread.group) : (s.goto t thread).held = s.held := by
  rw [held_goto, ← ht, Function.update_eq_self]

theorem nextOf_setNext : (s.setNext g oldHead).nextOf = Function.update s.nextOf g oldHead := by
  funext g'
  by_cases hg : g' = g
  · subst hg
    simp [State.nextOf, State.setNext, State.setGroup]
  · simp [State.nextOf, State.setNext, State.setGroup, Function.update_of_ne hg]

theorem nextOf_countUp (index : Nat) : (s.countUp g index).nextOf = s.nextOf := by
  funext g'
  by_cases hg : g' = g
  · subst hg
    simp [State.nextOf, State.countUp, State.setGroup]
  · simp [State.nextOf, State.countUp, State.setGroup, Function.update_of_ne hg]

theorem ready_goto (h : ∀ t, (s.threads t).Ready s.nextOf) (hthread : thread.Ready s.nextOf)
    (u : Nat) : ((s.goto t thread).threads u).Ready s.nextOf := by
  by_cases hu : u = t
  · subst hu
    simpa [State.goto] using hthread
  · simpa [State.goto, Function.update_of_ne hu] using h u

theorem Inv.start (groups : Nat → TraceGroup) : Inv (start groups) where
  distinct := List.nodup_nil
  owned :=
    { mem_called := by simp [Trace.start, State.held, Thread.group]
      not_added := by simp [Trace.start, State.held, Thread.group]
      alone := by simp [Trace.start, State.held, Thread.group] }
  linked := Eq.refl none
  ready _ := trivial

theorem Inv.call (h : Inv s) (ht : s.threads t = .idle) (hnew : g ∉ s.called) :
    Inv ({ s with called := g :: s.called }.goto t (.adding g .load)) where
  distinct := List.nodup_cons.mpr ⟨hnew, h.distinct⟩
  owned := by
    have hidle : s.held t = none := by rw [State.held, ht, Thread.group]
    rw [held_goto]
    exact h.owned.take hidle hnew
  linked := h.linked
  ready := ready_goto h.ready trivial

/-- The thread goes on with its group and nothing else changes. -/
theorem Inv.advance (h : Inv s) (ht : s.held t = thread.group) (hready : thread.Ready s.nextOf) :
    Inv (s.goto t thread) where
  distinct := h.distinct
  owned := by
    rw [held_goto_same ht]
    exact h.owned
  linked := h.linked
  ready := ready_goto h.ready hready

/-- A group in the hands of a thread is not on the list, and no other thread has it. -/
theorem Inv.setNext (h : Inv s) (ht : s.held t = some g) :
    Inv ((s.setNext g oldHead).goto t (.adding g (.exchange oldHead))) where
  distinct := h.distinct
  owned := by
    rw [held_goto_same ht]
    exact h.owned
  linked := by
    have heq : ∀ a ∈ s.added, Function.update s.nextOf g oldHead a = s.nextOf a := by
      intro a ha
      have hne : a ≠ g := by
        rintro rfl
        exact h.owned.not_added ht ha
      exact Function.update_of_ne hne ..
    have hlinked := h.linked.congr heq
    rw [← nextOf_setNext] at hlinked
    exact hlinked
  ready u := by
    show ((Function.update s.threads t _) u).Ready (s.setNext g oldHead).nextOf
    rw [nextOf_setNext]
    by_cases hu : u = t
    · subst hu
      rw [Function.update_self]
      exact Function.update_self ..
    · rw [Function.update_of_ne hu]
      have hold := h.ready u
      cases hthread : s.threads u with
      | idle => trivial
      | adding g' pc =>
        have hne : g' ≠ g := by
          rintro rfl
          have hheld : s.held u = some g' := by rw [State.held, hthread, Thread.group]
          exact hu (h.owned.alone hheld ht)
        rw [hthread] at hold
        cases pc with
        | load => trivial
        | setNext head => trivial
        | exchange head => exact (Function.update_of_ne hne ..).trans hold

theorem Inv.push (h : Inv s) (ht : s.threads t = .adding g (.exchange s.firstGroup)) :
    Inv ((s.push g).goto t .idle) where
  distinct := h.distinct
  owned := by
    have hheld : s.held t = some g := by rw [State.held, ht, Thread.group]
    rw [held_goto]
    exact h.owned.give hheld
  linked := by
    have hready := h.ready t
    rw [ht] at hready
    exact h.linked.push hready
  ready := ready_goto (s := s.push g) h.ready trivial

theorem Inv.countUp (h : Inv s) (index : Nat) : Inv (s.countUp g index) where
  distinct := h.distinct
  owned := h.owned
  linked := by
    rw [nextOf_countUp]
    exact h.linked
  ready := by
    rw [nextOf_countUp]
    exact h.ready

theorem Inv.stepAt (h : Inv s) {pc : Pc} (ht : s.threads t = .adding g pc) :
    Inv (stepAt s t g spurious pc) := by
  have hheld : s.held t = some g := by rw [State.held, ht, Thread.group]
  cases pc with
  | load => exact h.advance hheld trivial
  | setNext oldHead => exact h.setNext hheld
  | exchange oldHead =>
    rw [Trace.stepAt]
    split
    next hsame =>
      obtain ⟨rfl, -⟩ := hsame
      exact h.push ht
    next => exact h.advance hheld trivial

theorem Inv.next (h : Inv s) {l : Label} (hs : next s l = some s') : Inv s' := by
  cases l with
  | call t g =>
    unfold Trace.next at hs
    cases ht : s.threads t with
    | adding g' pc => simp [ht] at hs
    | idle =>
      simp only [ht] at hs
      split at hs
      next => cases hs
      next hnew =>
        cases hs
        exact h.call ht hnew
  | step t spurious =>
    unfold Trace.next at hs
    cases ht : s.threads t with
    | idle => simp [ht] at hs
    | adding g' pc =>
      simp only [ht, Option.some.injEq] at hs
      rw [← hs]
      exact h.stepAt ht
  | trace g index =>
    cases hs
    exact h.countUp index

theorem inv_run {groups : Nat → TraceGroup} {ls : List Label}
    (hr : run next (start groups) ls = some s) : Inv s :=
  run_preserves (fun _ _ _ hs h => h.next hs) hr (Inv.start groups)

theorem Inv.added_perm_called (h : Inv s) (hidle : ∀ t, s.threads t = .idle) :
    s.added.Perm s.called := by
  apply (List.perm_ext_iff_of_nodup h.linked.nodup h.distinct).mpr
  intro g
  rw [h.owned.mem_called g]
  constructor
  · exact .inl
  · rintro (hadded | ⟨t, ht⟩)
    · exact hadded
    · rw [State.held, hidle t] at ht
      cases ht

/-- In every reachable state the list from `m_firstGroup` ends and holds the groups whose
compare-exchange has succeeded, each once, the latest first. When no call is under way
these are the groups of all calls, and `dumpStats` visits each of them once. -/
theorem list_of_added {groups : Nat → TraceGroup} {ls : List Label}
    (hr : run next (start groups) ls = some s) :
    Linked s.nextOf s.firstGroup s.added ∧ s.added.Nodup ∧
      ((∀ t, s.threads t = .idle) →
        s.added.Perm s.called ∧
          ∀ fuel, s.added.length ≤ fuel →
            dumpStats s fuel = some (s.added.map fun g => (g, dumpIfUsed (s.groups g)))) := by
  have h := inv_run hr
  refine ⟨h.linked, h.linked.nodup, fun hidle => ⟨h.added_perm_called hidle, ?_⟩⟩
  intro fuel hfuel
  exact h.linked.traverse _ hfuel

/-- Two threads; the exchange of the first fails spuriously, then because the second has
come in between, and succeeds at the third attempt. -/
def twoThreads : List Label :=
  [.call 0 5, .call 1 7, .step 0 false, .step 1 false, .step 0 false, .step 0 true, .step 1 false,
    .step 1 false, .step 0 false, .step 0 false, .step 0 false, .step 0 false]

theorem list_of_twoThreads : ∃ s, run next (start fun _ => ⟨"", [], none⟩) twoThreads = some s ∧
    Linked s.nextOf s.firstGroup s.added ∧ s.added = [5, 7] ∧
      dumpStats s 2 = some [(5, []), (7, [])] := by
  refine ⟨_, rfl, ?_⟩
  have h := @list_of_added _ (fun _ => ⟨"", [], none⟩) twoThreads rfl
  refine ⟨h.1, rfl, (h.2.2 ?_).2 2 (Nat.le_refl 2)⟩
  intro t
  match t with
  | 0 => rfl
  | 1 => rfl
  | t + 2 => rfl

end Turf.Trace
