import Turf.Dispatch.Statements

/-!
# Whole runs of a dispatcher

`Inv` holds in every state that the dispatcher reaches: the calls that have returned ran
their actions exactly as often as `Call.runs` says, and the call under way, if there is
one, leads to that too.
-/
namespace Turf.Dispatch

open Turf.Lib.Schedule

/-! ## One step of the main thread -/

section Main
variable {s : State} {v : View}

theorem Agrees.with_body (h : Agrees s v) (calls : List Call) (body : Option (List Stmt)) :
    Agrees { s with calls, body } v := { h with }

/-- **A statement that leads somewhere keeps leading there.** -/
theorem exec_agrees (h : Agrees s v) {stmt : Stmt} {rest : List Stmt} {u : View} {s' : State}
    (hbody : s.body = some (stmt :: rest)) (hl : Leads s.returned (stmt :: rest) v u)
    (hs : s.exec rest stmt = some s') :
    ∃ v' xs, Agrees s' v' ∧ s'.body = some xs ∧ Leads s.returned xs v' u ∧
      s'.returned = s.returned ∧ s'.calls = s.calls := by
  cases hl with
  | setNumSpawnedThreads hl =>
    cases hs
    rw [← h.length] at hl
    exact ⟨v, _, h.with_body _ _, rfl, hl, rfl, rfl⟩
  | grows ht hl =>
    rw [← h.length] at ht
    rw [State.exec, if_pos ht] at hs
    cases hs
    exact ⟨v, _, h.with_body _ _, rfl, hl, rfl, rfl⟩
  | fits ht hl =>
    rw [← h.length] at ht
    rw [State.exec, if_neg ht] at hs
    cases hs
    exact ⟨v, _, h.with_body _ _, rfl, hl, rfl, rfl⟩
  | kick hl =>
    cases hs
    rw [← h.length] at hl
    exact ⟨v, _, h.with_body _ _, rfl, hl, rfl, rfl⟩
  | @effect _ _ _ v' _ heff hl =>
    have hdone : ∀ {t : State}, Agrees t v' → t.returned = s.returned → t.calls = s.calls →
        s' = { t with body := some rest } →
        ∃ v' xs, Agrees s' v' ∧ s'.body = some xs ∧ Leads s.returned xs v' u ∧
          s'.returned = s.returned ∧ s'.calls = s.calls := by
      intro t ht hret hcalls heq
      subst heq
      exact ⟨v', rest, ht.with_body _ _, rfl, hl, hret, hcalls⟩
    cases stmt with
    | setNumSpawnedThreads | growFor | kick => cases heff
    | await gate count =>
      simp only [View.effect, Option.ite_none_right_eq_some, Option.some.injEq] at heff
      obtain ⟨⟨rfl, hcount, hstays⟩, rfl⟩ := heff
      by_cases hlt : s.counter v.side.gate < count
      · rw [State.exec, if_pos hlt] at hs
        cases hs
        refine ⟨v, _, h, hbody, .effect ?_ hl, rfl, rfl⟩
        exact if_pos ⟨rfl, hcount, hstays⟩
      · rw [State.exec, if_neg hlt] at hs
        cases hs
        exact hdone (await_agrees h hcount hstays hlt) rfl rfl rfl
    | release gate =>
      simp only [View.effect, Option.ite_none_right_eq_some] at heff
      obtain ⟨⟨rfl, hg, hinst, hstays⟩, heff⟩ := heff
      cases hs
      rcases v.side_cases with hside | hside
      · simp only [hside, Option.some.injEq] at heff
        subst heff
        exact hdone (release_startGate_agrees h hside hg hinst) rfl rfl (by rw [hside]; rfl)
      · simp only [hside, Option.some.injEq] at heff
        subst heff
        exact hdone (release_endGate_agrees h hside hg (hstays hside)) rfl rfl (by rw [hside]; rfl)
    | setThreadFilter filter =>
      simp only [View.effect, Option.ite_none_right_eq_some, Option.some.injEq] at heff
      obtain ⟨hside, rfl⟩ := heff
      cases hs
      exact hdone (install_agrees h hside rfl h.action h.param) rfl rfl rfl
    | setAction action =>
      simp only [View.effect, Option.ite_none_right_eq_some, Option.some.injEq] at heff
      obtain ⟨hside, rfl⟩ := heff
      cases hs
      exact hdone (install_agrees h hside h.threadFilter rfl h.param) rfl rfl rfl
    | setParam param =>
      simp only [View.effect, Option.ite_none_right_eq_some, Option.some.injEq] at heff
      obtain ⟨hside, rfl⟩ := heff
      cases hs
      exact hdone (install_agrees h hside h.threadFilter h.action rfl) rfl rfl rfl
    | setMustExit t =>
      simp only [View.effect, Option.ite_none_right_eq_some, Option.some.injEq] at heff
      obtain ⟨⟨hside, ht, hstays⟩, rfl⟩ := heff
      cases hs
      exact hdone (setMustExit_agrees h hside ht hstays) rfl rfl rfl
    | join t =>
      simp only [View.effect, Option.ite_none_right_eq_some, Option.some.injEq] at heff
      obtain ⟨⟨hside, -, -, hleaves⟩, rfl⟩ := heff
      simp only [State.exec, Option.ite_none_right_eq_some, Option.some.injEq,
        Option.map_eq_some_iff] at hs
      obtain ⟨⟨u, hu, hexited⟩, rfl⟩ := hs
      exact hdone (join_agrees h hside hleaves hu hexited) rfl rfl rfl
    | resize n =>
      simp only [View.effect, Option.ite_none_right_eq_some, Option.some.injEq] at heff
      obtain ⟨⟨hside, hn, hleft⟩, rfl⟩ := heff
      cases hs
      exact hdone (resize_agrees h hside hn hleft) rfl rfl rfl
    | spawn =>
      simp only [View.effect, Option.ite_none_right_eq_some, Option.some.injEq] at heff
      obtain ⟨⟨hside, hg⟩, rfl⟩ := heff
      cases hs
      exact hdone (spawn_agrees h hside hg) rfl rfl rfl
    | beginAction =>
      simp only [View.effect, Option.ite_none_right_eq_some, Option.some.injEq] at heff
      obtain ⟨-, rfl⟩ := heff
      cases hs
      exact hdone (own_agrees h .began) rfl rfl rfl
    | endAction =>
      simp only [View.effect, Option.ite_none_right_eq_some, Option.some.injEq] at heff
      obtain ⟨-, rfl⟩ := heff
      cases hs
      exact hdone (own_agrees h .ended) rfl rfl rfl

/-! ## What a step logs -/

/-- A thread is in the action of the call under way, over its closure, or in `noAction`. -/
def Event.Own (e : Event) : Prop :=
  (e.action = .noAction ∧ e.param = .null) ∨
    (e.action = .thunk e.during ∧ e.param = .closure e.during)

theorem Event.Own.during_eq {e : Event} (h : e.Own) {k : Nat} (hk : e.action = .thunk k) :
    e.during = k := by
  rcases h with ⟨hno, -⟩ | ⟨haction, -⟩
  · rw [hno] at hk
    cases hk
  · exact Action.thunk.inj (haction.symm.trans hk)

theorem event_own (hinst : v.Installed s.returned) (kind : Kind) (i : Nat) :
    (Event.mk kind v.action v.param i s.returned).Own := hinst

/-- A step adds to the log nothing or one event of the call under way. -/
def Logs (s s' : State) : Prop :=
  s'.log = s.log ∨ ∃ e : Event, s'.log = s.log ++ [e] ∧ e.Own ∧ e.during = s.returned

theorem worker_logs (h : Agrees s v) {i : Nat} {s' : State} (hs : s.workerStep i = some s') :
    Logs s s' ∧ s'.returned = s.returned ∧ s'.calls = s.calls ∧ s'.body = s.body := by
  obtain ⟨⟨mustExit, pc⟩, r, -, -, -, hst, hs⟩ := h.stepping hs
  cases hst with
  | loadParam hside hg hp =>
    cases hs
    refine ⟨Or.inr ⟨_, rfl, ?_, rfl⟩, rfl, rfl, rfl⟩
    rw [h.param]
    exact event_own (h.installed hside) .began i
  | acting hside hg hp =>
    cases hs
    exact ⟨Or.inr ⟨_, rfl, event_own (h.installed hside) .ended i, rfl⟩, rfl, rfl, rfl⟩
  | startSpin | released | endSpin | finished =>
    simp only [State.threadRun] at hs
    split at hs
    · cases hs
      exact ⟨Or.inl rfl, rfl, rfl, rfl⟩
    · cases hs
      exact ⟨Or.inl rfl, rfl, rfl, rfl⟩
  | exited => cases hs
  | _ =>
    cases hs
    exact ⟨Or.inl rfl, rfl, rfl, rfl⟩

theorem exec_logs (h : Agrees s v) {stmt : Stmt} {rest : List Stmt} {u : View} {s' : State}
    (hl : Leads s.returned (stmt :: rest) v u) (hs : s.exec rest stmt = some s') : Logs s s' := by
  cases stmt with
  | beginAction =>
    cases hs
    cases hl with
    | effect heff hl =>
      simp only [View.effect, Option.ite_none_right_eq_some, Option.some.injEq] at heff
      refine Or.inr ⟨_, rfl, ?_, rfl⟩
      rw [h.action, h.param]
      exact event_own heff.1 .began 0
  | endAction =>
    cases hs
    cases hl with
    | effect heff hl =>
      simp only [View.effect, Option.ite_none_right_eq_some, Option.some.injEq] at heff
      refine Or.inr ⟨_, rfl, ?_, rfl⟩
      rw [h.action, h.param]
      exact event_own heff.1 .ended 0
  | growFor | await =>
    simp only [State.exec] at hs
    split at hs
    · cases hs
      exact Or.inl rfl
    · cases hs
      exact Or.inl rfl
  | join t =>
    simp only [State.exec, Option.ite_none_right_eq_some, Option.some.injEq] at hs
    obtain ⟨-, rfl⟩ := hs
    exact Or.inl rfl
  | release gate =>
    cases hs
    cases gate with
    | startGate => exact Or.inl rfl
    | endGate => exact Or.inl rfl
  | _ =>
    cases hs
    exact Or.inl rfl

theorem Logs.times {s' : State} (h : Logs s s') {k : Nat} (hk : k ≠ s.returned) (kind : Kind)
    (i : Nat) : s'.times kind k i = s.times kind k i := by
  unfold State.times
  rcases h with hlog | ⟨e, hlog, hown, hduring⟩
  · rw [hlog]
  · rw [hlog, List.countP_append, List.countP_singleton, if_neg, Nat.add_zero]
    intro his
    have hof := of_decide_eq_true his
    have hk' := hown.during_eq hof.2.1
    omega

end Main

/-! ## Sequences of calls -/

/-- The size of the pool when call `k` is made. -/
def sizes (calls : List Call) (k : Nat) : Nat :=
  (calls.take k).foldl (fun size c => c.sizeAfter size) 1

/-- How often call `k` executes its action with thread index `i`. -/
def expected (calls : List Call) (k i : Nat) : Nat :=
  match calls[k]? with
  | some c => c.runs (sizes calls k) i
  | none => 0

theorem sizes_succ {calls : List Call} {k : Nat} {c : Call} (hc : calls[k]? = some c) :
    sizes calls (k + 1) = c.sizeAfter (sizes calls k) := by
  unfold sizes
  rw [List.take_add_one, hc, List.foldl_append]
  rfl

theorem sizeAfter_pos {c : Call} (hc : c.Valid) {size : Nat} (hsize : 0 < size) :
    0 < c.sizeAfter size := by
  cases c with
  | setNumSpawnedThreads | kickMulti => exact hc
  | kick => exact hsize
  | kickOne => exact Nat.lt_of_lt_of_le hsize (Nat.le_max_left _ _)

theorem sizes_pos {calls : List Call} (hvalid : ∀ c ∈ calls, c.Valid) (k : Nat) :
    0 < sizes calls k := by
  induction k with
  | zero => exact Nat.one_pos
  | succ k ih =>
    cases hc : calls[k]? with
    | none =>
      unfold sizes at ih ⊢
      rwa [List.take_add_one, hc, Option.toList_none, List.append_nil]
    | some c =>
      rw [sizes_succ hc]
      exact sizeAfter_pos (hvalid c (List.mem_of_getElem? hc)) ih

/-- The dispatcher is between two calls, or in one that leads to the end of that call. -/
inductive Doing (calls : List Call) (s : State) : View → Prop
  | resting (hbody : s.body = none) (hcalls : s.calls = calls.drop s.returned)
      (h : Agrees s (rested (sizes calls s.returned) fun _ => 0)) :
      Doing calls s (rested (sizes calls s.returned) fun _ => 0)
  | running {v : View} {stmts : List Stmt} {c : Call} (hc : calls[s.returned]? = some c)
      (hbody : s.body = some stmts) (hcalls : s.calls = calls.drop (s.returned + 1))
      (h : Agrees s v) (hl : Leads s.returned stmts v
        (rested (sizes calls (s.returned + 1)) (expected calls s.returned))) :
      Doing calls s v

theorem Doing.agrees {calls : List Call} {s : State} {v : View} (h : Doing calls s v) :
    Agrees s v := by
  cases h with
  | resting _ _ h => exact h
  | running _ _ _ h _ => exact h

structure Inv (calls : List Call) (s : State) : Prop where
  own : ∀ e ∈ s.log, e.Own ∧ e.during ≤ s.returned
  past : ∀ k < s.returned, ∀ kind i, s.times kind k i = expected calls k i
  doing : ∃ v, Doing calls s v

theorem Inv.start (calls : List Call) : Inv calls (start calls) where
  own e he := absurd he List.not_mem_nil
  past k hk := absurd hk (Nat.not_lt_zero k)
  doing := by
    refine ⟨_, .resting rfl rfl ?_⟩
    exact {
      threadFilter := rfl
      action := rfl
      param := rfl
      installed := nofun
      length := rfl
      caller := rfl
      mustExit := by
        intro i w r hw hr
        cases i with
        | zero =>
          cases hw
          cases hr
          decide
        | succ i => cases hw
      stands := by
        intro i w r hi hw hr
        cases i with
        | zero => exact absurd hi (Nat.lt_irrefl 0)
        | succ i => cases hw
      startGate := rfl
      endGate := rfl
      counts := by
        intro kind i
        rw [owed_between rfl]
        rfl }

/-- What a step logs leaves the account of the past as it is. -/
theorem Inv.of_logs {calls : List Call} {s s' : State} (h : Inv calls s) (hlogs : Logs s s')
    (hret : s'.returned = s.returned) {v : View} (hdoing : Doing calls s' v) : Inv calls s' where
  own := by
    intro e he
    rw [hret]
    rcases hlogs with hlog | ⟨e', hlog, hown, hduring⟩
    · rw [hlog] at he
      exact h.own e he
    · rw [hlog, List.mem_append, List.mem_singleton] at he
      cases he with
      | inl he => exact h.own e he
      | inr he =>
        subst he
        exact ⟨hown, Nat.le_of_eq hduring⟩
  past := by
    intro k hk kind i
    rw [hret] at hk
    rw [hlogs.times (by omega)]
    exact h.past k hk kind i
  doing := ⟨v, hdoing⟩

/-- An action of a call that has not been made has not been run. -/
theorem Inv.times_future {calls : List Call} {s : State} (h : Inv calls s) {k : Nat}
    (hk : s.returned < k) (kind : Kind) (i : Nat) : s.times kind k i = 0 := by
  apply List.countP_eq_zero.mpr
  intro e he his
  have hof := of_decide_eq_true his
  obtain ⟨hown, hduring⟩ := h.own e he
  have hk' := hown.during_eq hof.2.1
  omega

theorem Agrees.times_rested {s : State} {size : Nat} {runs : Nat → Nat}
    (h : Agrees s (rested size runs)) (kind : Kind) (i : Nat) :
    s.times kind s.returned i = runs i := by
  have hc := h.counts kind i
  rwa [owed_between rfl, Nat.add_zero] at hc

/-- The call under way returns. -/
theorem Inv.return {calls : List Call} {s : State} (h : Inv calls s)
    (hcalls : s.calls = calls.drop (s.returned + 1))
    (hrest : Agrees s (rested (sizes calls (s.returned + 1)) (expected calls s.returned))) :
    Inv calls { s with returned := s.returned + 1, body := none } where
  own e he := ⟨(h.own e he).1, Nat.le_succ_of_le (h.own e he).2⟩
  past := by
    intro k hk kind i
    by_cases heq : k = s.returned
    · subst heq
      exact hrest.times_rested kind i
    · have hlt : k < s.returned := by
        have hsucc : k < s.returned + 1 := hk
        omega
      exact h.past k hlt kind i
  doing := by
    refine ⟨_, .resting rfl hcalls { hrest with
      installed := nofun
      stands := fun i w r hi hw hr => (hrest.stands i w r hi hw hr).of_between rfl rfl rfl id
      counts := ?_ }⟩
    intro kind i
    rw [owed_between rfl]
    exact h.times_future (Nat.lt_succ_self s.returned) kind i

theorem main_step {calls : List Call} (hvalid : ∀ c ∈ calls, c.Valid) {s s' : State}
    (h : Inv calls s) (hs : s.mainStep = some s') : Inv calls s' := by
  obtain ⟨v, hdoing⟩ := h.doing
  cases hdoing with
  | resting hbody hcalls hagrees =>
    unfold State.mainStep at hs
    rw [hbody] at hs
    cases hdrop : s.calls with
    | nil =>
      rw [hdrop] at hs
      cases hs
    | cons c rest =>
      rw [hdrop] at hs
      cases hs
      have hc : calls[s.returned]? = some c := by
        rw [← List.head?_drop, ← hcalls, hdrop]
        rfl
      have hrest : rest = calls.drop (s.returned + 1) := by
        rw [← List.tail_drop, ← hcalls, hdrop]
        rfl
      have hl := body_leads s.returned (hvalid c (List.mem_of_getElem? hc))
        (sizes_pos hvalid s.returned)
      have hexpected : expected calls s.returned = fun i => c.runs (sizes calls s.returned) i := by
        funext i
        rw [expected, hc]
      rw [← sizes_succ hc, ← hexpected] at hl
      exact h.of_logs (Or.inl rfl) rfl (.running hc rfl hrest (hagrees.with_body _ _) hl)
  | @running v stmts c hc hbody hcalls hagrees hl =>
    unfold State.mainStep at hs
    rw [hbody] at hs
    cases stmts with
    | nil =>
      cases hl
      cases hs
      exact h.return hcalls hagrees
    | cons stmt rest =>
      obtain ⟨v', xs, hagrees', hbody', hl', hret, hcalls'⟩ := exec_agrees hagrees hbody hl hs
      apply h.of_logs (exec_logs hagrees hl hs) hret (v := v')
      rw [← hret] at hc hl'
      rw [← hcalls', ← hret] at hcalls
      exact .running hc hbody' hcalls hagrees' (by rwa [hret] at hl' ⊢)

theorem worker_step {calls : List Call} {s s' : State} (h : Inv calls s) {i : Nat}
    (hs : s.workerStep i = some s') : Inv calls s' := by
  obtain ⟨v, hdoing⟩ := h.doing
  have hagrees := worker_agrees hdoing.agrees hs
  obtain ⟨hlogs, hret, hcalls', hbody'⟩ := worker_logs hdoing.agrees hs
  apply h.of_logs hlogs hret (v := v)
  cases hdoing with
  | resting hbody hcalls _ =>
    rw [← hret] at hagrees ⊢
    exact .resting (hbody'.trans hbody) (by rw [hcalls', hcalls, hret]) hagrees
  | running hc hbody hcalls _ hl =>
    rw [← hret] at hc hl
    exact .running hc (hbody'.trans hbody) (by rw [hcalls', hcalls, hret]) hagrees hl

theorem step_inv {calls : List Call} (hvalid : ∀ c ∈ calls, c.Valid) (s : State) (l : Label)
    (s' : State) (hs : next s l = some s') (h : Inv calls s) : Inv calls s' := by
  cases l with
  | main => exact main_step hvalid h hs
  | worker i => exact worker_step h hs

/-- **The invariant holds throughout every run.** -/
theorem run_inv {calls : List Call} (hvalid : ∀ c ∈ calls, c.Valid) {ls : List Label} {s : State}
    (hr : run next (start calls) ls = some s) : Inv calls s :=
  run_preserves (step_inv hvalid) hr (Inv.start calls)

end Turf.Dispatch
