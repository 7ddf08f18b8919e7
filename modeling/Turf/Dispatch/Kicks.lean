import Turf.Dispatch.Calls

/-!
# How often the actions are executed

The calls of any sequence execute their actions as `Call.runs` says, in every
interleaving. For `kick` and `kickOne` this is what their names promise. A `kickMulti` on
a pool larger than the number of its targets shrinks the pool first, and shrinking resets
the action that `kickMulti` had installed: no target is invoked.
-/
namespace Turf.Dispatch

open Turf.Lib.Schedule

variable {calls : List Call} {s : State}

/-- No worker is inside an action. -/
def State.Quiet (s : State) : Prop := ∀ w ∈ s.threads, ∀ action param, w.pc ≠ .acting action param

/-- Between two calls the pool has the size that the calls asked for and is quiet. -/
theorem Inv.rests (h : Inv calls s) (hidle : s.body = none) :
    s.calls = calls.drop s.returned ∧ s.threads.length = sizes calls s.returned ∧ s.Quiet := by
  obtain ⟨v, hdoing⟩ := h.doing
  cases hdoing with
  | running _ hbody => exact absurd (hidle.symm.trans hbody) nofun
  | resting _ hcalls hagrees =>
    have hlength := hagrees.length
    rw [rested, List.length_replicate] at hlength
    refine ⟨hcalls, hlength, fun w hw action param hpc => ?_⟩
    obtain ⟨i, hi⟩ := List.getElem?_of_mem hw
    by_cases hzero : i = 0
    · subst hzero
      cases hi.symm.trans hagrees.caller
      cases hpc
    · obtain ⟨r, hr⟩ := hagrees.role hi
      have hstands := hagrees.stands i w r (by omega) hi hr
      rw [hpc] at hstands
      cases hstands with
      | acting hside => cases hside

/-- No call has executed its action more often than it will have in the end. -/
theorem Inv.times_le (h : Inv calls s) (kind : Kind) {k : Nat} (hk : k ≤ s.returned) (i : Nat) :
    s.times kind k i ≤ expected calls k i := by
  by_cases hlt : k < s.returned
  · exact Nat.le_of_eq (h.past k hlt kind i)
  · obtain rfl : k = s.returned := by omega
    obtain ⟨v, hdoing⟩ := h.doing
    cases hdoing with
    | resting _ _ hagrees =>
      rw [hagrees.times_rested]
      exact Nat.zero_le _
    | running _ _ _ hagrees hl =>
      have hcounts := hagrees.counts kind i
      have hmono : v.runs kind i ≤ expected calls s.returned i := hl.runs_le kind i
      omega

/-- What is executed is `noAction` or what the call under way is due, over its closure. -/
theorem Inv.event (h : Inv calls s) {e : Event} (he : e ∈ s.log) :
    (e.action = .noAction ∧ e.param = .null) ∨
      (e.action = .thunk e.during ∧ e.param = .closure e.during ∧
        0 < expected calls e.during e.threadIndex) := by
  obtain ⟨hown, hduring⟩ := h.own e he
  rcases hown with hno | ⟨haction, hparam⟩
  · exact Or.inl hno
  · have htimes : 0 < s.times e.kind e.during e.threadIndex := by
      refine List.countP_pos_iff.mpr ⟨e, he, ?_⟩
      exact decide_eq_true ⟨rfl, haction, rfl⟩
    have hle := h.times_le e.kind hduring e.threadIndex
    exact Or.inr ⟨haction, hparam, by omega⟩

/-- **Sequences of calls.** Calls that have returned executed their actions once with each
index of the pool, once with the one index asked for, or not at all. Between calls no
worker is inside an action, and whatever a thread executes at any time is `noAction` over
`NULL` or the action of the call under way, over its closure, at an index the call is due. -/
theorem calls_execute_their_actions (calls : List Call) (hvalid : ∀ c ∈ calls, c.Valid)
    {ls : List Label} {s : State} (hr : run next (start calls) ls = some s) :
    (∀ k < s.returned,
      (calls[k]? = some .kick →
        ∀ kind i, s.times kind k i = if i < sizes calls k then 1 else 0) ∧
      (∀ t, calls[k]? = some (.kickOne t) →
        t < sizes calls (k + 1) ∧ ∀ kind i, s.times kind k i = if i = t then 1 else 0) ∧
      (∀ n, calls[k]? = some (.setNumSpawnedThreads n) → ∀ kind i, s.times kind k i = 0)) ∧
    (s.body = none → s.threads.length = sizes calls s.returned ∧ s.Quiet) ∧
    ∀ e ∈ s.log, (e.action = .noAction ∧ e.param = .null) ∨
      (e.action = .thunk e.during ∧ e.param = .closure e.during ∧
        0 < expected calls e.during e.threadIndex) := by
  have h := run_inv hvalid hr
  refine ⟨fun k hk => ?_, fun hidle => (h.rests hidle).2, fun e he => h.event he⟩
  have hpast : ∀ c, calls[k]? = some c → ∀ kind i, s.times kind k i = c.runs (sizes calls k) i := by
    intro c hc kind i
    rw [h.past k hk, expected, hc]
  refine ⟨hpast .kick, fun t ht => ⟨?_, hpast (.kickOne t) ht⟩, fun n => hpast (.setNumSpawnedThreads n)⟩
  rw [sizes_succ ht]
  exact Nat.lt_of_succ_le (Nat.le_max_right _ _)

/-- The main thread and worker 1 in turns. -/
def turns (n : Nat) : List Label := (List.replicate n [Label.main, .worker 1]).flatten

/-- A second thread is spawned and then kicked along with the first. -/
theorem calls_execute_their_actions_kick :
    ∃ s : State, run next (start [.setNumSpawnedThreads 2, .kick])
        (List.replicate 4 .main ++ turns 18) = some s ∧
      s.returned = 2 ∧ s.Quiet ∧ ∀ kind, s.times kind 1 0 = 1 ∧ s.times kind 1 1 = 1 := by
  have hvalid : ∀ c ∈ [Call.setNumSpawnedThreads 2, .kick], c.Valid := by decide
  obtain ⟨s, hr⟩ : ∃ s, run next (start [.setNumSpawnedThreads 2, .kick])
      (List.replicate 4 .main ++ turns 18) = some s := ⟨_, rfl⟩
  obtain ⟨hpast, hidle, -⟩ := calls_execute_their_actions _ hvalid hr
  cases hr
  have hkick := (hpast 1 (by decide)).1 rfl
  exact ⟨_, rfl, rfl, (hidle rfl).2, fun kind => ⟨hkick kind 0, hkick kind 1⟩⟩

/-! ## kickMulti -/

/-- The targets, and nothing else, are each invoked once, by the thread of their index. -/
def State.Invokes (s : State) (call numTargets : Nat) : Prop :=
  (∀ kind i, s.times kind call i = if i < numTargets then 1 else 0) ∧
    ∀ e ∈ s.log, e.action = .thunk call → e.param = .closure call

/-- **When kickMulti invokes its targets.** Whenever the pool is not larger than their
number, and never otherwise. -/
theorem kickMulti_invokes (calls : List Call) (hvalid : ∀ c ∈ calls, c.Valid) {ls : List Label}
    {s : State} (hr : run next (start calls) ls = some s) (hidle : s.body = none) {n : Nat}
    {rest : List Call} (hnext : s.calls = .kickMulti n :: rest) {ls' : List Label} {s' : State}
    (hr' : run next s ls' = some s') (hreturned : s.returned < s'.returned) :
    s'.Invokes s.returned n ↔ s.threads.length ≤ n := by
  have h' : Inv calls s' := run_inv hvalid (run_append.mpr ⟨s, hr, hr'⟩)
  obtain ⟨hcalls, hlength, -⟩ := (run_inv hvalid hr).rests hidle
  have hc : calls[s.returned]? = some (.kickMulti n) := by
    rw [← List.head?_drop, ← hcalls, hnext]
    rfl
  have hpos : 0 < n := hvalid (.kickMulti n) (List.mem_of_getElem? hc)
  have htimes : ∀ kind i, s'.times kind s.returned i =
      if s.threads.length ≤ n ∧ i < n then 1 else 0 := by
    intro kind i
    rw [h'.past _ hreturned, expected, hc, hlength]
    rfl
  constructor
  · intro hinvokes
    by_contra hlarger
    have hzero := hinvokes.1 .began 0
    rw [htimes, if_neg fun hand => hlarger hand.1, if_pos hpos] at hzero
    cases hzero
  · intro hle
    refine ⟨fun kind i => ?_, fun e he haction => ?_⟩
    · rw [htimes]
      simp only [hle, true_and]
    · rcases h'.event he with ⟨hno, -⟩ | ⟨hown, hparam, -⟩
      · rw [hno] at haction
        cases haction
      · rw [hparam, Action.thunk.inj (hown.symm.trans haction)]

theorem kickMulti_invokes_both :
    ∃ s : State, run next (start [.kickMulti 2]) (List.replicate 5 .main ++ turns 15) = some s ∧
      s.Invokes 0 2 := by
  have hvalid : ∀ c ∈ [Call.kickMulti 2], c.Valid := by decide
  obtain ⟨s, hr⟩ : ∃ s, run next (start [.kickMulti 2]) (List.replicate 5 .main ++ turns 15) = some s :=
    ⟨_, rfl⟩
  have hreturned : (start [.kickMulti 2]).returned < s.returned := by
    cases hr
    decide
  have hnow : run next (start [.kickMulti 2]) [] = some (start [.kickMulti 2]) := rfl
  exact ⟨s, hr, (kickMulti_invokes _ hvalid hnow rfl rfl hr hreturned).mpr (by decide)⟩

/-- On a pool of two, one target is not invoked. -/
theorem kickMulti_invokes_no_target :
    ∃ s s' : State, run next (start [.setNumSpawnedThreads 2, .kickMulti 1])
        (List.replicate 4 .main) = some s ∧
      s.body = none ∧ s.calls = [.kickMulti 1] ∧ s.threads.length = 2 ∧
      run next s (turns 10 ++ .worker 1 :: List.replicate 16 .main) = some s' ∧
      s'.body = none ∧ s'.returned = s.returned + 1 ∧ ¬s'.Invokes s.returned 1 := by
  refine ⟨_, _, rfl, rfl, rfl, rfl, rfl, rfl, rfl, fun hinvokes => ?_⟩
  have hzero := hinvokes.1 .began 0
  exact absurd hzero (by decide)

end Turf.Dispatch
