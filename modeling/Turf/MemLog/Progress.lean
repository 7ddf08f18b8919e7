import Turf.MemLog.Invariant

/-!
# A log call comes to its end

Every step brings a call nearer to its end, and only the mutex can keep it from stepping.
So a thread that is left alone while the mutex is free completes its call.
-/
namespace Turf.MemLog

open Turf.Lib.Schedule

variable {c : Config} {s s' : State}

/-- A bound on the steps that are left of the call. -/
def Pc.left : Pc → Nat
  | .loadTail => 17
  | .fetchAdd _ => 16
  | .lock => 15
  | .loadOldTail => 14
  | .loadIndex _ => 13
  | .fetchAddLocked _ => 12
  | .newPage _ => 11
  | .linkNext .. => 10
  | .storeTail _ => 9
  | .countPage _ => 8
  | .dropHead _ => 7
  | .deletePage .. => 6
  | .unlock .. => 5
  | .write .tid .. => 4
  | .write .msg .. => 3
  | .write .param1 .. => 2
  | .write .param2 .. => 1

/-- The call has yet to be given a slot. -/
def Pc.slotless : Pc → Bool
  | .loadTail | .fetchAdd _ | .lock | .loadOldTail | .loadIndex _ | .fetchAddLocked _ => true
  | .newPage _ => true
  | _ => false

/-- The call that is still to be given a slot, if this one is. -/
def pending (call : Nat) (pc : Option Pc) : List Nat :=
  if (pc.map Pc.slotless).getD false then [call] else []

section Moves
variable {t call : Nat} {event : Event} {pc : Pc} {pc' : Option Pc}

theorem Moves.left_lt (h : Moves c s t call event pc s' pc') :
    (pc'.map Pc.left).getD 0 < pc.left := by
  cases h with
  | @write field page index =>
    cases field with
    | _ => simp [Pc.left, Field.after]
  | _ => simp [Pc.left]

/-- A call is given a slot once. -/
theorem Moves.given (h : Moves c s t call event pc s' pc') :
    s'.given.map Given.call ++ pending call pc' = s.given.map Given.call ++ pending call pc := by
  cases h with
  | slot hlt | slotLocked hlt =>
    rw [given_fetchAddIndex, if_pos hlt, List.map_append]
    exact List.append_nil _
  | noSlot hfull | noSlotLocked hfull =>
    rw [given_fetchAddIndex, if_neg hfull]
    rfl
  | newPage =>
    show (s.given ++ [_]).map Given.call ++ [] = _
    rw [List.map_append, List.append_nil]
    rfl
  | @write field page index =>
    cases field with
    | _ => rfl
  | _ => rfl

theorem Moves.calls (h : Moves c s t call event pc s' pc') : s'.calls = s.calls := by
  cases h with
  | _ => rfl

theorem Moves.logStep (h : Moves c s t call event pc s' pc') :
    s.logStep c t call event pc = some (s'.goto t (resume call event pc')) := by
  cases h with
  | slot h | noSlot h | room h | noRoom h | slotLocked h | noSlotLocked h | tooMany h
  | countPage h | lock h | dropHead h => simp [State.logStep, resume, h]
  | @write field page index =>
    cases field with
    | _ => rfl
  | _ => rfl

theorem Moves.next (hpc : s.threads t = .logging call event pc)
    (h : Moves c s t call event pc s' pc') :
    MemLog.next c s (.step t) = some (s'.goto t (resume call event pc')) := by
  rw [MemLog.next, State.threadStep, hpc]
  exact h.logStep

/-- Nobody but the thread itself takes the mutex for it. -/
theorem Moves.mutex (h : Moves c s t call event pc s' pc')
    (hmutex : s.mutex = none ∨ s.mutex = some t) : s'.mutex = none ∨ s'.mutex = some t := by
  cases h with
  | lock => exact Or.inr rfl
  | unlock => exact Or.inl rfl
  | _ => exact hmutex

/-- A call can take a step unless another thread holds the mutex. -/
theorem Inv.can_move (h : Inv c s) (hpc : s.threads t = .logging call event pc)
    (hmutex : s.mutex = none ∨ s.mutex = some t) :
    ∃ s' pc', Moves c s t call event pc s' pc' := by
  cases pc with
  | loadTail => exact ⟨_, _, .loadTail⟩
  | fetchAdd page =>
    by_cases hlt : s.indexOf page < c.eventsPerPage
    · exact ⟨_, _, .slot hlt⟩
    · exact ⟨_, _, .noSlot hlt⟩
  | lock =>
    refine ⟨_, _, .lock (hmutex.resolve_right fun hmine => ?_)⟩
    obtain ⟨call', event', pc', hpc', hlocked⟩ := (h.owner t).mp hmine
    rw [hpc] at hpc'
    cases hpc'
    cases hlocked
  | loadOldTail => exact ⟨_, _, .loadOldTail⟩
  | loadIndex oldTail =>
    by_cases hlt : s.indexOf oldTail < c.eventsPerPage
    · exact ⟨_, _, .room hlt⟩
    · exact ⟨_, _, .noRoom hlt⟩
  | fetchAddLocked oldTail =>
    by_cases hlt : s.indexOf oldTail < c.eventsPerPage
    · exact ⟨_, _, .slotLocked hlt⟩
    · exact ⟨_, _, .noSlotLocked hlt⟩
  | newPage oldTail => exact ⟨_, _, .newPage⟩
  | linkNext oldTail newTail => exact ⟨_, _, .linkNext⟩
  | storeTail newTail => exact ⟨_, _, .storeTail⟩
  | countPage newTail =>
    by_cases hmax : s.numPages ≥ c.maxNumPages
    · exact ⟨_, _, .tooMany hmax⟩
    · exact ⟨_, _, .countPage hmax⟩
  | dropHead newTail =>
    obtain ⟨hd, hshape⟩ := h.held t call event _ hpc rfl
    exact ⟨_, _, .dropHead hshape.head⟩
  | deletePage newTail oldHead => exact ⟨_, _, .deletePage⟩
  | unlock page index => exact ⟨_, _, .unlock⟩
  | write field page index => exact ⟨_, _, .write⟩

end Moves

/-! ## Alone -/

/-- From `s` to `s'` only thread `t` has moved, and it is done and holds nothing. -/
structure Alone (c : Config) (t : Nat) (s s' : State) : Prop where
  reached : ∃ ls, (∀ l ∈ ls, Label.thread l = t) ∧ run (next c) s ls = some s'
  idle : s'.threads t = .idle
  mutex : s'.mutex = none
  others : ∀ t', t' ≠ t → s'.threads t' = s.threads t'

/-- By induction on what is left of the call. -/
theorem Inv.completes (h : Inv c s) {t call : Nat} {event : Event} {pc : Pc}
    (hpc : s.threads t = .logging call event pc) (hmutex : s.mutex = none ∨ s.mutex = some t) :
    ∃ s', Alone c t s s' ∧ s'.given.map Given.call = s.given.map Given.call ++ pending call pc := by
  induction hleft : pc.left using Nat.strongRecOn generalizing s pc with
  | ind n ih =>
    subst hleft
    obtain ⟨s₁, pc', hmoves⟩ := h.can_move hpc hmutex
    have hnext := hmoves.next hpc
    have hothers : ∀ t', t' ≠ t → (s₁.goto t (resume call event pc')).threads t' = s.threads t' := by
      intro t' ht
      rw [goto_other ht, hmoves.threads]
    cases pc' with
    | none =>
      have h' := h.moves hpc hmoves
      refine ⟨_, ⟨⟨[.step t], ?_, run_cons.mpr ⟨_, hnext, rfl⟩⟩, goto_self, ?_, hothers⟩, ?_⟩
      · intro l hl
        rw [List.mem_singleton.mp hl]
        rfl
      · apply (hmoves.mutex hmutex).resolve_right
        intro hmine
        obtain ⟨call', event', pc', hpc', -⟩ := (h'.owner t).mp hmine
        rw [goto_self] at hpc'
        cases hpc'
      · rw [← hmoves.given, pending, Option.map_none, Option.getD_none]
        exact (List.append_nil _).symm
    | some pc' =>
      obtain ⟨s', ⟨⟨ls, hls, hrun⟩, hidle, hfree, hothers'⟩, hgiven⟩ :=
        ih _ hmoves.left_lt (h.moves hpc hmoves) goto_self (hmoves.mutex hmutex) rfl
      refine ⟨s', ⟨⟨.step t :: ls, ?_, run_cons.mpr ⟨_, hnext, hrun⟩⟩, hidle, hfree, ?_⟩, ?_⟩
      · intro l hl
        rcases List.mem_cons.mp hl with rfl | hl
        · rfl
        · exact hls l hl
      · intro t' ht
        rw [hothers' t' ht, hothers t' ht]
      · rw [hgiven]
        exact hmoves.given

/-- **A thread that is left alone logs as often as it likes.** -/
theorem Inv.logs (h : Inv c s) {t : Nat} (hidle : s.threads t = .idle) (hmutex : s.mutex = none)
    (k : Nat) : ∃ s', Alone c t s s' ∧ s'.given.length = s.given.length + k := by
  induction k generalizing s with
  | zero =>
    exact ⟨s, ⟨⟨[], fun l hl => absurd hl List.not_mem_nil, rfl⟩, hidle, hmutex, fun _ _ => rfl⟩, rfl⟩
  | succ k ih =>
    have hnext : next c s (.log t 0 0 0) =
        some ({ s with calls := s.calls ++ [Event.mk t 0 0 0] }.goto t
          (.logging s.calls.length ⟨t, 0, 0, 0⟩ .loadTail)) := by
      rw [next, State.callLog, hidle]
    have h₁ := step_inv s _ _ hnext h
    obtain ⟨s₂, ⟨⟨ls, hls, hrun⟩, hidle₂, hfree₂, hothers₂⟩, hgiven⟩ :=
      h₁.completes goto_self (Or.inl hmutex)
    have h₂ : Inv c s₂ := run_preserves step_inv hrun h₁
    obtain ⟨s', ⟨⟨ls', hls', hrun'⟩, hidle', hfree', hothers'⟩, hlength⟩ := ih h₂ hidle₂ hfree₂
    have hall := run_append.mpr ⟨s₂, run_cons.mpr ⟨_, hnext, hrun⟩, hrun'⟩
    refine ⟨s', ⟨⟨_, ?_, hall⟩, hidle', hfree', ?_⟩, ?_⟩
    · intro l hl
      rcases List.mem_append.mp hl with hl | hl
      · rcases List.mem_cons.mp hl with rfl | hl
        · rfl
        · exact hls l hl
      · exact hls' l hl
    · intro t' ht
      rw [hothers' t' ht, hothers₂ t' ht, goto_other ht]
    · have hone := congrArg List.length hgiven
      rw [List.length_map, List.length_append, List.length_map] at hone
      rw [hlength, hone]
      show s.given.length + 1 + k = _
      omega

end Turf.MemLog
