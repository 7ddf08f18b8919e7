import Turf.MemLog.Model

/-!
# What a step does

`Moves` lists the steps of a log call, each with its guard: where the thread stands, what
becomes of the state besides, and where the thread goes. Whatever holds of all steps is
proved by cases on it.
-/
namespace Turf.MemLog

open Turf.Lib.Schedule

variable {c : Config} {s s' : State}

def Thread.pc : Thread → Option Pc
  | idle => none
  | logging _ _ pc => some pc

/-- A thread whose call is over is idle. -/
def resume (call : Nat) (event : Event) : Option Pc → Thread
  | none => .idle
  | some pc => .logging call event pc

theorem resume_pc (call : Nat) (event : Event) (pc : Option Pc) : (resume call event pc).pc = pc := by
  cases pc with
  | none => rfl
  | some pc => rfl

inductive Moves (c : Config) (s : State) (t call : Nat) (event : Event) :
    Pc → State → Option Pc → Prop
  | loadTail : Moves c s t call event .loadTail s (some (.fetchAdd s.tail))
  | slot {page : Nat} (h : s.indexOf page < c.eventsPerPage) :
    Moves c s t call event (.fetchAdd page) (s.fetchAddIndex c call page)
      (some (.write .tid page (s.indexOf page)))
  | noSlot {page : Nat} (h : ¬s.indexOf page < c.eventsPerPage) :
    Moves c s t call event (.fetchAdd page) (s.fetchAddIndex c call page) (some .lock)
  | lock (h : s.mutex = none) :
    Moves c s t call event .lock { s with mutex := some t } (some .loadOldTail)
  | loadOldTail : Moves c s t call event .loadOldTail s (some (.loadIndex s.tail))
  | room {oldTail : Nat} (h : s.indexOf oldTail < c.eventsPerPage) :
    Moves c s t call event (.loadIndex oldTail) s (some (.fetchAddLocked oldTail))
  | noRoom {oldTail : Nat} (h : ¬s.indexOf oldTail < c.eventsPerPage) :
    Moves c s t call event (.loadIndex oldTail) s (some (.newPage oldTail))
  | slotLocked {oldTail : Nat} (h : s.indexOf oldTail < c.eventsPerPage) :
    Moves c s t call event (.fetchAddLocked oldTail) (s.fetchAddIndex c call oldTail)
      (some (.unlock oldTail (s.indexOf oldTail)))
  | noSlotLocked {oldTail : Nat} (h : ¬s.indexOf oldTail < c.eventsPerPage) :
    Moves c s t call event (.fetchAddLocked oldTail) (s.fetchAddIndex c call oldTail)
      (some (.newPage oldTail))
  | newPage {oldTail : Nat} :
    Moves c s t call event (.newPage oldTail) (s.addPage call) (some (.linkNext oldTail s.created))
  | linkNext {oldTail newTail : Nat} :
    Moves c s t call event (.linkNext oldTail newTail)
      (s.setPage oldTail { s.pages oldTail with next := some newTail }) (some (.storeTail newTail))
  | storeTail {newTail : Nat} :
    Moves c s t call event (.storeTail newTail) { s with tail := newTail } (some (.countPage newTail))
  | tooMany {newTail : Nat} (h : s.numPages ≥ c.maxNumPages) :
    Moves c s t call event (.countPage newTail) s (some (.dropHead newTail))
  | countPage {newTail : Nat} (h : ¬s.numPages ≥ c.maxNumPages) :
    Moves c s t call event (.countPage newTail) { s with numPages := s.numPages + 1 }
      (some (.unlock newTail 0))
  | dropHead {newTail oldHead : Nat} (h : s.head = some oldHead) :
    Moves c s t call event (.dropHead newTail) { s with head := (s.pages oldHead).next }
      (some (.deletePage newTail oldHead))
  | deletePage {newTail oldHead : Nat} :
    Moves c s t call event (.deletePage newTail oldHead) { s with freed := oldHead :: s.freed }
      (some (.unlock newTail 0))
  | unlock {page index : Nat} :
    Moves c s t call event (.unlock page index) { s with mutex := none }
      (some (.write .tid page index))
  | write {field : Field} {page index : Nat} :
    Moves c s t call event (.write field page index) (s.writeField page index event field)
      (field.after.map (.write · page index))

theorem logStep_moves {t call : Nat} {event : Event} {pc : Pc}
    (hs : s.logStep c t call event pc = some s') :
    ∃ s₁ pc', Moves c s t call event pc s₁ pc' ∧ s' = s₁.goto t (resume call event pc') := by
  cases pc with
  | fetchAdd page =>
    cases hs
    by_cases h : s.indexOf page < c.eventsPerPage
    · rw [if_pos h]
      exact ⟨_, _, .slot h, rfl⟩
    · rw [if_neg h]
      exact ⟨_, _, .noSlot h, rfl⟩
  | lock =>
    simp only [State.logStep, Option.ite_none_right_eq_some, Option.some.injEq] at hs
    obtain ⟨hmutex, rfl⟩ := hs
    exact ⟨_, _, .lock hmutex, rfl⟩
  | loadIndex oldTail =>
    cases hs
    by_cases h : s.indexOf oldTail < c.eventsPerPage
    · rw [if_pos h]
      exact ⟨_, _, .room h, rfl⟩
    · rw [if_neg h]
      exact ⟨_, _, .noRoom h, rfl⟩
  | fetchAddLocked oldTail =>
    cases hs
    by_cases h : s.indexOf oldTail < c.eventsPerPage
    · rw [if_pos h]
      exact ⟨_, _, .slotLocked h, rfl⟩
    · rw [if_neg h]
      exact ⟨_, _, .noSlotLocked h, rfl⟩
  | countPage newTail =>
    simp only [State.logStep] at hs
    split at hs
    · rename_i h
      cases hs
      exact ⟨_, _, .tooMany h, rfl⟩
    · rename_i h
      cases hs
      exact ⟨_, _, .countPage h, rfl⟩
  | dropHead newTail =>
    simp only [State.logStep] at hs
    split at hs
    · rename_i h
      cases hs
      exact ⟨_, _, .dropHead h, rfl⟩
    · cases hs
  | write field page index =>
    cases hs
    refine ⟨_, _, .write, ?_⟩
    cases field.after with
    | none => rfl
    | some field' => rfl
  | loadTail =>
    cases hs
    exact ⟨_, _, .loadTail, rfl⟩
  | loadOldTail =>
    cases hs
    exact ⟨_, _, .loadOldTail, rfl⟩
  | newPage oldTail =>
    cases hs
    exact ⟨_, _, .newPage, rfl⟩
  | linkNext oldTail newTail =>
    cases hs
    exact ⟨_, _, .linkNext, rfl⟩
  | storeTail newTail =>
    cases hs
    exact ⟨_, _, .storeTail, rfl⟩
  | deletePage newTail oldHead =>
    cases hs
    exact ⟨_, _, .deletePage, rfl⟩
  | unlock page index =>
    cases hs
    exact ⟨_, _, .unlock, rfl⟩

/-- Taking a step is being idle and starting a call, or moving within one. -/
theorem next_cases {l : Label} (hs : next c s l = some s') :
    (∃ t msg param1 param2, l = .log t msg param1 param2 ∧ s.threads t = .idle ∧
      s' = ({ s with calls := s.calls ++ [Event.mk t msg param1 param2] }.goto t
        (.logging s.calls.length ⟨t, msg, param1, param2⟩ .loadTail))) ∨
    ∃ t call event pc s₁ pc', l = .step t ∧ s.threads t = .logging call event pc ∧
      Moves c s t call event pc s₁ pc' ∧ s' = s₁.goto t (resume call event pc') := by
  cases l with
  | log t msg param1 param2 =>
    simp only [next, State.callLog] at hs
    split at hs
    · rename_i hidle
      cases hs
      exact Or.inl ⟨t, msg, param1, param2, rfl, hidle, rfl⟩
    · cases hs
  | step t =>
    simp only [next, State.threadStep] at hs
    split at hs
    · cases hs
    · rename_i call event pc hpc
      obtain ⟨s₁, pc', hmoves, rfl⟩ := logStep_moves hs
      exact Or.inr ⟨t, call, event, pc, s₁, pc', rfl, hpc, hmoves, rfl⟩

theorem Moves.threads {t call : Nat} {event : Event} {pc : Pc} {pc' : Option Pc}
    (h : Moves c s t call event pc s' pc') : s'.threads = s.threads := by
  cases h with
  | _ => rfl

theorem goto_self {t : Nat} {thread : Thread} : (s.goto t thread).threads t = thread := by
  simp [State.goto]

theorem goto_other {t t' : Nat} {thread : Thread} (ht : t' ≠ t) :
    (s.goto t thread).threads t' = s.threads t' := by
  simp [State.goto, ht]

/-- A thread stands where it went if it moved, and where it stood if it did not. -/
theorem goto_cases {t t' : Nat} {thread thread' : Thread}
    (h : (s.goto t thread).threads t' = thread') :
    t' = t ∧ thread = thread' ∨ t' ≠ t ∧ s.threads t' = thread' := by
  by_cases ht : t' = t
  · subst ht
    rw [goto_self] at h
    exact Or.inl ⟨rfl, h⟩
  · rw [goto_other ht] at h
    exact Or.inr ⟨ht, h⟩

/-- A thread in a call is not the one that was idle. -/
theorem goto_logging {t t' call : Nat} {event : Event} {pc : Pc} {thread : Thread}
    (hidle : s.threads t = .idle) (hpc : s.threads t' = .logging call event pc) :
    (s.goto t thread).threads t' = .logging call event pc := by
  have ht : t' ≠ t := by
    intro heq
    rw [heq, hidle] at hpc
    cases hpc
  rw [goto_other ht]
  exact hpc

end Turf.MemLog
