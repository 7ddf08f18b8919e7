import Turf.Lib.Monitor
import Mathlib.Data.List.Induction

/-!
# The manual-reset event on a condition variable

ManualResetEvent_CondVar.h. Any number of threads call `signal`, `reset` and `wait` on one
event. `m_state` is the data of the monitor.
-/
namespace Turf.Primitives.ManualResetEvent

open Turf.Lib.Schedule Turf.Lib.Monitor

/-- Where a thread stands in `signal`, `reset` or `wait`. The guard's destructor is the last
step of each. -/
inductive Pc where
  | idle
  | signalLock
  | signalSet
  | signalWakeAll
  | signalUnlock
  | resetLock
  | resetClear
  | resetUnlock
  | waitLock
  | waitTest
  | waitSleep
  | waitUnlock
  deriving DecidableEq

def act : Pc → Action Bool Pc
  | .idle => .idle
  -- signal
  | .signalLock => .lock .signalSet
  | .signalSet => .access (fun _ => true) fun _ => .signalWakeAll
  | .signalWakeAll => .wakeAll .signalUnlock
  | .signalUnlock => .unlock .idle
  -- reset
  | .resetLock => .lock .resetClear
  | .resetClear => .access (fun _ => false) fun _ => .resetUnlock
  | .resetUnlock => .unlock .idle
  -- wait: back to the test after every wake-up
  | .waitLock => .lock .waitTest
  | .waitTest => .access id fun state => if state then .waitUnlock else .waitSleep
  | .waitSleep => .wait .waitTest
  | .waitUnlock => .unlock .idle

def entry : Pc → Bool
  | .signalLock | .resetLock | .waitLock => true
  | _ => false

def holds : Pc → Bool
  | .idle | .signalLock | .resetLock | .waitLock => false
  | _ => true

/-- What the owner of `m_mutex` knows about `m_state`. -/
def At : Pc → Bool → Prop
  | .waitSleep, state => state = false
  | .waitUnlock, state => state = true
  | _, _ => True

theorem disciplined : Disciplined act entry holds := by
  constructor
  · intro c
    cases c with
    | waitTest => exact ⟨rfl, fun d => by cases d <;> rfl⟩
    | _ => simp [act, holds, Action.Respects]
  · intro c
    cases c <;> simp [entry, holds]

/-- `signal` owes the broadcast from setting `m_state` on, and `wait` sleeps only where it has
seen `m_state` false. -/
theorem signals : Signals act (· = true) (· = .signalWakeAll) At := by
  intro c
  cases c with
  | waitTest =>
    intro state _
    cases state <;> simp [At]
  | _ => simp [act, At, Action.Tells]

/-- The thread is inside `wait`. -/
def inWait : Thread Pc → Bool
  | .running c => c = .waitLock ∨ c = .waitTest ∨ c = .waitSleep ∨ c = .waitUnlock
  | .asleep _ | .woken _ => true

variable {ι : Type}

/-- No call is under way on a new event. -/
def start (ι : Type) (initialState : Bool) : State ι Bool Pc :=
  ⟨none, initialState, fun _ => .running .idle⟩

theorem start_exclusive (initialState : Bool) : Exclusive holds (start ι initialState) := by
  intro t
  simp [start, Thread.Placed, holds]

theorem start_told (initialState : Bool) :
    Told (· = true) (· = .signalWakeAll) At (start ι initialState) := by
  constructor
  · intro t
    simp [start, Thread.Asserts]
  · intro _ _ u k
    simp [start]

variable [DecidableEq ι] {initialState : Bool} {s s' : State ι Bool Pc} {ms : List (Move ι Pc)}

theorem reached_exclusive (h : run (next act entry) (start ι initialState) ms = some s) :
    Exclusive holds s :=
  run_exclusive disciplined h (start_exclusive initialState)

theorem reached_told (h : run (next act entry) (start ι initialState) ms = some s) :
    Told (· = true) (· = .signalWakeAll) At s :=
  run_told disciplined signals h (start_exclusive initialState) (start_told initialState)

/-- Only a test that sees `m_state` true leads to the end of `wait`. -/
theorem step_to_waitUnlock (hx : Exclusive holds s)
    (hs : Told (· = true) (· = .signalWakeAll) At s) {m : Move ι Pc}
    (h : next act entry s m = some s') (ht : s'.thread m.thread = .running .waitUnlock) :
    m = .step m.thread ∧ s.thread m.thread = .running .waitTest ∧ s.owner = some m.thread ∧
      s.data = true := by
  rcases next_cases h with ⟨t, c, rfl, hu, he⟩ | ⟨t, k, rfl, hu, he⟩ |
    ⟨t, c, c', rfl, hu, _, hc, rfl⟩ | ⟨t, k, rfl, hu, rfl⟩
  · have hcont := exec_thread he
    rw [show s'.thread t = .running .waitUnlock from ht] at hcont
    have hstep : c = .waitTest ∧ s.data = true := by
      cases c <;> simp [act, Action.cont] at hcont ⊢
      exact hcont
    obtain ⟨rfl, hd⟩ := hstep
    exact ⟨rfl, hu, (hx.owner hu).mpr rfl, hd⟩
  · have hcont := exec_thread he
    rw [show s'.thread t = .running .waitUnlock from ht] at hcont
    cases hcont
    -- nobody sleeps in the middle of leaving
    have hk := hs.asserts t
    rw [hu] at hk
    cases hk false
  · have hcc : c = .waitUnlock := by simpa [State.set, Move.thread] using ht
    rw [hcc] at hc
    cases hc
  · simp [State.set, Move.thread] at ht

/-- The last step of `t` was a test of `m_state` that saw it true, made with `m_mutex` held. -/
def Observed (initialState : Bool) (ms : List (Move ι Pc)) (t : ι) : Prop :=
  ∃ xs ys u, ms = xs ++ .step t :: ys ∧ (∀ m ∈ ys, m.thread ≠ t) ∧
    run (next act entry) (start ι initialState) xs = some u ∧
    u.thread t = .running .waitTest ∧ u.owner = some t ∧ u.data = true

theorem observed_of_waitUnlock {t : ι}
    (h : run (next act entry) (start ι initialState) ms = some s)
    (ht : s.thread t = .running .waitUnlock) : Observed initialState ms t := by
  induction ms using List.reverseRecOn generalizing s with
  | nil =>
    cases h
    cases ht
  | append_singleton ms m ih =>
    obtain ⟨u, hu, hm⟩ := run_append.mp h
    obtain ⟨v, hv, hlast⟩ := run_cons.mp hm
    cases hlast
    by_cases hmt : t = m.thread
    · subst t
      obtain ⟨hstep, htest, hown, hdata⟩ :=
        step_to_waitUnlock (reached_exclusive hu) (reached_told hu) hv ht
      exact ⟨ms, [], u, by rw [← hstep], by simp, hu, htest, hown, hdata⟩
    · obtain ⟨xs, ys, w, rfl, hys, hw⟩ := ih hu ((next_other_running hv hmt).mp ht)
      refine ⟨xs, ys ++ [m], w, by simp, ?_, hw⟩
      intro m' hm'
      rcases List.mem_append.mp hm' with hin | hin
      · exact hys m' hin
      · rw [List.mem_singleton.mp hin]
        exact fun he => hmt he.symm

/-- A thread that leaves `wait` does so from its last step. -/
theorem leaves_wait {t : ι} (hx : Exclusive holds s) (hw : inWait (s.thread t))
    (h : next act entry s (.step t) = some s') (ht : s'.thread t = .running .idle) :
    s.thread t = .running .waitUnlock := by
  rcases next_cases h with ⟨u, c, hm, hu, he⟩ | ⟨u, k, hm, hu, he⟩ |
    ⟨u, c, c', hm, _⟩ | ⟨u, k, hm, _⟩
  · cases hm
    have hcont := exec_thread he
    rw [ht] at hcont
    rw [hu] at hw ⊢
    cases c <;> simp [inWait, act, Action.cont] at hw hcont ⊢
    split at hcont <;> cases hcont
  · cases hm
    have hcont := exec_thread he
    rw [ht] at hcont
    cases hcont
    have hk := hx t
    rw [hu] at hk
    cases hk.2
  · cases hm
  · cases hm

/-- `wait` returns only after its thread has seen `m_state` true while it held `m_mutex`, and
nobody sleeps, without having been woken, behind a set event whose mutex is free. -/
theorem waits_end_when_set (initialState : Bool) (ms : List (Move ι Pc)) (s : State ι Bool Pc)
    (h : run (next act entry) (start ι initialState) ms = some s) :
    (∀ t s', inWait (s.thread t) → next act entry s (.step t) = some s' →
      s'.thread t = .running .idle → Observed initialState ms t) ∧
    (s.owner = none → s.data = true → ∀ t k, s.thread t ≠ .asleep k) := by
  constructor
  · intro t s' hw hs ht
    exact observed_of_waitUnlock h (leaves_wait (reached_exclusive h) hw hs ht)
  · exact (reached_told h).no_sleeper

/-- A waiter falls asleep and the other thread signals. -/
def signalledWait : List (Move Bool Pc) :=
  [.call false .waitLock, .step false, .step false, .step false, .call true .signalLock,
    .step true, .step true, .step true, .step true]

theorem waits_end_when_set_small :
    ∃ s, run (next act entry) (start Bool false) signalledWait = some s ∧
      s.owner = none ∧ s.data = true ∧ ∀ t k, s.thread t ≠ .asleep k := by
  have hend : (run (next act entry) (start Bool false) signalledWait).map
      (fun s => (s.owner, s.data)) = some (none, true) := rfl
  obtain ⟨s, hs, hv⟩ := Option.map_eq_some_iff.mp hend
  obtain ⟨ho, hd⟩ := Prod.mk.inj hv
  exact ⟨s, hs, ho, hd, (waits_end_when_set false signalledWait s hs).2 ho hd⟩

end Turf.Primitives.ManualResetEvent
