import Turf.Dispatch.Rounds

/-!
# The workers against the main thread's view

`Agrees s v` ties every worker's program point, both gate counters and the log to the
view of the main thread. A worker's step changes the state and not the view; a step of the
main thread changes both, as `View.effect` says.
-/
namespace Turf.Dispatch

open Turf.Lib.Schedule

/-- Where worker `i` may stand. Between rounds it is on its way from the end gate to the
start gate; within a round it is on its way back, and has read what is installed. -/
inductive Stands (v : View) (i : Nat) : Role → Pc → Prop
  | startReady {r : Role} (hside : v.side = .between) (hg : v.gathered = false) (hr : r ≠ .left) :
      Stands v i r .startReady
  | endSpin {r : Role} (hside : v.side = .between) (hg : v.gathered = false) (hr : r ≠ .left) :
      Stands v i r .endSpin
  | startSpin {r : Role} (hside : v.side = .between) (hr : r ≠ .left) : Stands v i r .startSpin
  | released {r : Role} (hside : v.side = .within) (hg : v.gathered = false) (hr : r ≠ .left) :
      Stands v i r .startSpin
  | exitTest {r : Role} (hside : v.side = .within) (hg : v.gathered = false) (hr : r ≠ .left) :
      Stands v i r .exitTest
  | exited {r : Role} (hside : v.side = .within) (hr : r ≠ .stays) : Stands v i r .exited
  | filterNegative (hside : v.side = .within) (hg : v.gathered = false) :
      Stands v i .stays .filterNegative
  | filterEqual (hside : v.side = .within) (hg : v.gathered = false) (hf : ¬v.threadFilter < 0) :
      Stands v i .stays .filterEqual
  | loadAction (hside : v.side = .within) (hg : v.gathered = false) (hp : v.Picks i) :
      Stands v i .stays .loadAction
  | loadParam (hside : v.side = .within) (hg : v.gathered = false) (hp : v.Picks i) :
      Stands v i .stays (.loadParam v.action)
  | acting (hside : v.side = .within) (hg : v.gathered = false) (hp : v.Picks i) :
      Stands v i .stays (.acting v.action v.param)
  | endReady (hside : v.side = .within) (hg : v.gathered = false) : Stands v i .stays .endReady
  | finished (hside : v.side = .within) : Stands v i .stays .endSpin

/-- Within a round, a worker at this point has an event of this kind still before it. -/
def Pc.owes : Kind → Pc → Bool
  | _, .startSpin | _, .exitTest | _, .filterNegative | _, .filterEqual => true
  | _, .loadAction | _, .loadParam _ => true
  | .ended, .acting _ _ => true
  | _, _ => false

/-- The events in which thread `i` begins or ends the action of call `call`. -/
def Event.isOf (kind : Kind) (call i : Nat) (e : Event) : Bool :=
  e.kind = kind ∧ e.action = .thunk call ∧ e.threadIndex = i

namespace State

def times (s : State) (kind : Kind) (call i : Nat) : Nat := s.log.countP (Event.isOf kind call i)

/-- How often thread `i` still has to begin, or to end, what it is due. -/
def owed (s : State) (v : View) (kind : Kind) (i : Nat) : Nat :=
  if v.side = .within ∧ (s.threads[i]?.map fun w => w.pc.owes kind) = some true then
    v.due s.returned i
  else 0

/-- The number of threads at a program point. -/
def countAt (s : State) (pc : Pc) : Nat := s.threads.countP fun w => w.pc = pc

end State

structure Agrees (s : State) (v : View) : Prop where
  threadFilter : s.threadFilter = v.threadFilter
  action : s.action = v.action
  param : s.param = v.param
  installed : v.side = .within → v.Installed s.returned
  length : s.threads.length = v.roles.length
  caller : s.threads[0]? = some ⟨false, .caller⟩
  mustExit : ∀ (i : Nat) (w : WorkerThread) (r : Role), s.threads[i]? = some w →
    v.roles[i]? = some r → (w.mustExit = true ↔ r ≠ .stays)
  stands : ∀ (i : Nat) (w : WorkerThread) (r : Role), 0 < i → s.threads[i]? = some w →
    v.roles[i]? = some r → Stands v i r w.pc
  startGate : s.startGate = if v.side = .between then s.countAt .startSpin else 0
  endGate : s.endGate = if v.side = .between then 0 else s.countAt .endSpin
  counts : ∀ kind i, s.times kind s.returned i + s.owed v kind i = v.runs kind i

/-! ## A worker moves -/

section Move
variable {s : State} {v : View} {i : Nat} {w : WorkerThread}

theorem Agrees.role (h : Agrees s v) (hw : s.threads[i]? = some w) : ∃ r, v.roles[i]? = some r := by
  have hlt := (List.getElem?_eq_some_iff.mp hw).1
  rw [h.length] at hlt
  exact ⟨_, List.getElem?_eq_getElem hlt⟩

theorem Agrees.thread (h : Agrees s v) {r : Role} (hr : v.roles[i]? = some r) :
    ∃ w, s.threads[i]? = some w := by
  have hlt := (List.getElem?_eq_some_iff.mp hr).1
  rw [← h.length] at hlt
  exact ⟨_, List.getElem?_eq_getElem hlt⟩

/-- What takes a step of `threadRun` is a worker, and stands where its role has it. -/
theorem Agrees.stepping (h : Agrees s v) {s' : State} (hs : s.workerStep i = some s') :
    ∃ w r, 0 < i ∧ s.threads[i]? = some w ∧ v.roles[i]? = some r ∧ Stands v i r w.pc ∧
      s.threadRun i w.mustExit w.pc = some s' := by
  unfold State.workerStep at hs
  split at hs
  · rename_i w hw
    obtain ⟨r, hr⟩ := h.role hw
    have hpos : 0 < i := by
      apply Nat.pos_of_ne_zero
      intro hzero
      subst hzero
      cases hw.symm.trans h.caller
      cases hs
    exact ⟨w, r, hpos, hw, hr, h.stands i w r hpos hw hr, hs⟩
  · cases hs

theorem modify_of_getElem? {α : Type} {l : List α} {i : Nat} {a : α} (h : l[i]? = some a) (f : α → α) :
    l.modify i f = l.set i (f a) := by
  rw [List.modify_eq_set_getElem?, h]
  rfl

theorem goto_threads (hw : s.threads[i]? = some w) (pc : Pc) :
    (s.goto i pc).threads = s.threads.set i { w with pc } := modify_of_getElem? hw _

theorem goto_getElem? (hw : s.threads[i]? = some w) (pc : Pc) (j : Nat) :
    (s.goto i pc).threads[j]? = if j = i then some { w with pc } else s.threads[j]? := by
  rw [goto_threads hw]
  by_cases hj : j = i
  · subst hj
    rw [if_pos rfl, List.getElem?_set_self (List.getElem?_eq_some_iff.mp hw).1]
  · rw [if_neg hj, List.getElem?_set_ne (Ne.symm hj)]

theorem countAt_goto (hw : s.threads[i]? = some w) (pc pc' : Pc) :
    (s.goto i pc').countAt pc + (if w.pc = pc then 1 else 0) =
      s.countAt pc + (if pc' = pc then 1 else 0) := by
  obtain ⟨hlt, hget⟩ := List.getElem?_eq_some_iff.mp hw
  have hmem : w ∈ s.threads := List.mem_of_getElem? hw
  have hpos : w.pc = pc → 0 < s.threads.countP fun w => decide (w.pc = pc) := by
    intro h
    exact List.countP_pos_iff.mpr ⟨w, hmem, by simpa using h⟩
  unfold State.countAt
  rw [goto_threads hw, List.countP_set hlt, hget]
  simp only [decide_eq_true_eq]
  by_cases h : w.pc = pc
  · have hone := hpos h
    rw [if_pos h]
    omega
  · rw [if_neg h]
    omega

/-- What thread `i` owes at its new program point, and that nobody else's debt changes. -/
theorem owed_goto (hw : s.threads[i]? = some w) (s' : State) {pc' : Pc}
    (hthreads : s'.threads = (s.goto i pc').threads) (hret : s'.returned = s.returned)
    (kind : Kind) (j : Nat) :
    s'.owed v kind j = if j = i then (if v.side = .within ∧ pc'.owes kind = true then
      v.due s.returned i else 0) else s.owed v kind j := by
  unfold State.owed
  rw [hthreads, goto_getElem? hw, hret]
  by_cases hj : j = i
  · subst hj
    simp
  · simp [hj]

theorem owed_self (hw : s.threads[i]? = some w) (kind : Kind) :
    s.owed v kind i = if v.side = .within ∧ w.pc.owes kind = true then v.due s.returned i else 0 := by
  unfold State.owed
  rw [hw]
  simp

/-- Worker `i` goes to `pc'`, where it may stand, changing gates and log on the way. What
is left to check is the gate of the side it is on and its own debt. -/
theorem Agrees.move (h : Agrees s v) (hw : s.threads[i]? = some w) (hi : 0 < i) {r : Role}
    (hr : v.roles[i]? = some r) {pc' : Pc} (hst : Stands v i r pc') (startGate endGate : Nat)
    (log : List Event)
    (hbetween : v.side = .between → endGate = s.endGate ∧
      startGate + (if w.pc = .startSpin then 1 else 0) =
        s.startGate + (if pc' = .startSpin then 1 else 0))
    (hwithin : v.side = .within → startGate = s.startGate ∧
      endGate + (if w.pc = .endSpin then 1 else 0) = s.endGate + (if pc' = .endSpin then 1 else 0))
    (hothers : ∀ kind j, j ≠ i →
      log.countP (Event.isOf kind s.returned j) = s.times kind s.returned j)
    (hself : ∀ kind, log.countP (Event.isOf kind s.returned i) +
        (if v.side = .within ∧ pc'.owes kind = true then v.due s.returned i else 0) =
      s.times kind s.returned i +
        (if v.side = .within ∧ w.pc.owes kind = true then v.due s.returned i else 0)) :
    Agrees { s.goto i pc' with startGate := startGate, endGate := endGate, log := log } v where
  threadFilter := h.threadFilter
  action := h.action
  param := h.param
  installed := h.installed
  length := by
    show (s.goto i pc').threads.length = _
    rw [goto_threads hw, List.length_set]
    exact h.length
  caller := by
    show (s.goto i pc').threads[0]? = _
    rw [goto_getElem? hw, if_neg (by omega)]
    exact h.caller
  mustExit := by
    intro j u q hu hq
    have hu' : (s.goto i pc').threads[j]? = some u := hu
    rw [goto_getElem? hw] at hu'
    split at hu'
    · rename_i hj
      cases hj
      cases hu'
      exact h.mustExit i w q hw hq
    · exact h.mustExit j u q hu' hq
  stands := by
    intro j u q hj hu hq
    have hu' : (s.goto i pc').threads[j]? = some u := hu
    rw [goto_getElem? hw] at hu'
    split at hu'
    · rename_i hji
      cases hji
      cases hu'
      cases hr.symm.trans hq
      exact hst
    · exact h.stands j u q hj hu' hq
  startGate := by
    have hcount := countAt_goto hw .startSpin pc'
    have hgate := h.startGate
    cases hside : v.side with
    | between =>
      rw [hside, if_pos rfl] at hgate
      obtain ⟨-, hmove⟩ := hbetween hside
      rw [if_pos rfl]
      show startGate = (s.goto i pc').countAt .startSpin
      omega
    | within =>
      rw [hside, if_neg (by decide)] at hgate
      obtain ⟨hsame, -⟩ := hwithin hside
      rw [if_neg (by decide)]
      exact hsame.trans hgate
  endGate := by
    have hcount := countAt_goto hw .endSpin pc'
    have hgate := h.endGate
    cases hside : v.side with
    | between =>
      rw [hside, if_pos rfl] at hgate
      obtain ⟨hsame, -⟩ := hbetween hside
      rw [if_pos rfl]
      exact hsame.trans hgate
    | within =>
      rw [hside, if_neg (by decide)] at hgate
      obtain ⟨-, hmove⟩ := hwithin hside
      rw [if_neg (by decide)]
      show endGate = (s.goto i pc').countAt .endSpin
      omega
  counts := by
    intro kind j
    rw [owed_goto hw { s.goto i pc' with startGate, endGate, log } rfl rfl, ← h.counts kind j]
    by_cases hj : j = i
    · subst hj
      rw [if_pos rfl, owed_self hw]
      exact hself kind
    · rw [if_neg hj]
      exact congrArg (· + _) (hothers kind j hj)

theorem due_of_ne_stays (call : Nat) {r : Role} (hr : v.roles[i]? = some r) (hne : r ≠ .stays) :
    v.due call i = 0 := by
  apply if_neg
  intro hdue
  rw [hr] at hdue
  exact hne (Option.some.inj hdue.2.1)

theorem due_of_not_picks (call : Nat) (hp : ¬v.Picks i) : v.due call i = 0 :=
  if_neg fun hdue => hp hdue.2.2.2

/-- Between rounds a worker owes nothing. -/
theorem Agrees.move_between (h : Agrees s v) (hw : s.threads[i]? = some w) (hi : 0 < i) {r : Role}
    (hr : v.roles[i]? = some r) {pc' : Pc} (hst : Stands v i r pc') (hside : v.side = .between)
    {startGate : Nat} (hmove : startGate + (if w.pc = .startSpin then 1 else 0) =
      s.startGate + (if pc' = .startSpin then 1 else 0)) :
    Agrees { s.goto i pc' with startGate := startGate } v := by
  have hnot : v.side ≠ .within := by
    rw [hside]
    decide
  refine h.move hw hi hr hst startGate s.endGate s.log (fun _ => ⟨rfl, hmove⟩)
    (fun hwithin => absurd hwithin hnot) (fun _ _ _ => rfl) fun kind => ?_
  rw [if_neg fun hand => hnot hand.1, if_neg fun hand => hnot hand.1]
  rfl

/-- Within a round a step that is no event leaves the debt as it is. -/
theorem Agrees.move_within (h : Agrees s v) (hw : s.threads[i]? = some w) (hi : 0 < i) {r : Role}
    (hr : v.roles[i]? = some r) {pc' : Pc} (hst : Stands v i r pc') (hside : v.side = .within)
    {endGate : Nat} (hmove : endGate + (if w.pc = .endSpin then 1 else 0) =
      s.endGate + (if pc' = .endSpin then 1 else 0))
    (hdebt : v.due s.returned i ≠ 0 → ∀ kind, pc'.owes kind = w.pc.owes kind) :
    Agrees { s.goto i pc' with endGate := endGate } v := by
  have hnot : v.side ≠ .between := by
    rw [hside]
    decide
  refine h.move hw hi hr hst s.startGate endGate s.log (fun hbetween => absurd hbetween hnot)
    (fun _ => ⟨rfl, hmove⟩) (fun _ _ _ => rfl) fun kind => ?_
  by_cases hzero : v.due s.returned i = 0
  · simp [hzero, State.times]
  · rw [hdebt hzero kind]
    rfl

/-- A worker enters or leaves what it took to be installed, which is the debt it had. -/
theorem Agrees.move_event (h : Agrees s v) (hw : s.threads[i]? = some w) (hi : 0 < i)
    (hr : v.roles[i]? = some .stays) {pc' : Pc} (hst : Stands v i .stays pc')
    (hside : v.side = .within) (hp : v.Picks i) {kind : Kind} {param : Param}
    (hgate : w.pc ≠ .endSpin ∧ pc' ≠ .endSpin)
    (hdebt : ∀ kind', if kind' = kind then w.pc.owes kind' = true ∧ pc'.owes kind' = false
      else pc'.owes kind' = w.pc.owes kind') :
    Agrees ((s.goto i pc').note kind v.action param i) v := by
  have hdue : v.due s.returned i = if v.action = .thunk s.returned then 1 else 0 := by
    unfold View.due
    simp only [hi, hr, hp, and_true, true_and]
  have hcount : ∀ kind' j, (s.log ++ [Event.mk kind v.action param i s.returned]).countP
      (Event.isOf kind' s.returned j) = s.times kind' s.returned j +
        if kind = kind' ∧ v.action = .thunk s.returned ∧ i = j then 1 else 0 := by
    intro kind' j
    rw [List.countP_append, List.countP_singleton, State.times]
    simp only [Event.isOf, decide_eq_true_eq]
  refine h.move hw hi hr hst s.startGate s.endGate _ (fun hbetween => ?_)
    (fun _ => ⟨rfl, by rw [if_neg hgate.1, if_neg hgate.2]⟩) (fun kind' j hj => ?_) fun kind' => ?_
  · rw [hside] at hbetween
    cases hbetween
  · show List.countP _ (s.log ++ [Event.mk kind v.action param i s.returned]) = _
    rw [hcount, if_neg fun hand => hj hand.2.2.symm, Nat.add_zero]
  · show List.countP _ (s.log ++ [Event.mk kind v.action param i s.returned]) + _ = _
    have hkind := hdebt kind'
    rw [hcount, hdue]
    by_cases hsame : kind' = kind
    · rw [if_pos hsame] at hkind
      simp [hsame, hside, hsame ▸ hkind.1, hsame ▸ hkind.2]
    · rw [if_neg hsame] at hkind
      simp [Ne.symm hsame, hkind]

/-- **A worker's step keeps the view.** -/
theorem worker_agrees (h : Agrees s v) {s' : State} (hs : s.workerStep i = some s') :
    Agrees s' v := by
  obtain ⟨w, r, hpos, hw, hr, hst, hs⟩ := h.stepping hs
  have hstart := h.startGate
  have hend := h.endGate
  have hexit := h.mustExit i w r hw hr
  obtain ⟨mustExit, pc⟩ := w
  cases hst with
  | startReady hside hg hne =>
    cases hs
    exact h.move_between hw hpos hr (.startSpin hside hne) hside rfl
  | endSpin hside hg hne =>
    rw [hside, if_pos rfl] at hend
    simp only [State.threadRun, hend, gt_iff_lt, Nat.lt_irrefl, if_false] at hs
    cases hs
    exact h.move_between hw hpos hr (.startReady hside hg hne) hside rfl
  | startSpin hside hne =>
    have hspin : 0 < s.startGate := by
      rw [hstart, hside, if_pos rfl]
      exact List.countP_pos_iff.mpr ⟨_, List.mem_of_getElem? hw, by simp⟩
    simp only [State.threadRun, gt_iff_lt, hspin, if_true] at hs
    cases hs
    exact h
  | released hside hg hne =>
    rw [hside, if_neg (by decide)] at hstart
    simp only [State.threadRun, hstart, gt_iff_lt, Nat.lt_irrefl, if_false] at hs
    cases hs
    exact h.move_within hw hpos hr (.exitTest hside hg hne) hside rfl fun _ _ => rfl
  | exitTest hside hg hne =>
    cases hs
    by_cases hstays : r = .stays
    · subst hstays
      have hfalse : mustExit = false := by simpa using hexit
      rw [hfalse]
      exact h.move_within hw hpos hr (.filterNegative hside hg) hside rfl fun _ _ => rfl
    · have htrue : mustExit = true := hexit.mpr hstays
      rw [htrue]
      exact h.move_within hw hpos hr (.exited hside hstays) hside rfl
        fun hdue => absurd (due_of_ne_stays s.returned hr hstays) hdue
  | exited hside hne => cases hs
  | filterNegative hside hg =>
    simp only [State.threadRun, h.threadFilter] at hs
    cases hs
    split
    · rename_i hneg
      exact h.move_within hw hpos hr (.loadAction hside hg (Or.inl hneg)) hside rfl
        fun _ _ => rfl
    · rename_i hnonneg
      exact h.move_within hw hpos hr (.filterEqual hside hg hnonneg) hside rfl
        fun _ _ => rfl
  | filterEqual hside hg hf =>
    simp only [State.threadRun, h.threadFilter] at hs
    cases hs
    split
    · rename_i heq
      exact h.move_within hw hpos hr (.loadAction hside hg (Or.inr heq)) hside rfl
        fun _ _ => rfl
    · rename_i hne
      have hpicks : ¬v.Picks i := fun hp => hp.elim hf hne
      exact h.move_within hw hpos hr (.endReady hside hg) hside rfl
        fun hdue => absurd (due_of_not_picks s.returned hpicks) hdue
  | loadAction hside hg hp =>
    cases hs
    rw [h.action]
    exact h.move_within hw hpos hr (.loadParam hside hg hp) hside rfl fun _ _ => rfl
  | loadParam hside hg hp =>
    cases hs
    rw [h.param]
    exact h.move_event hw hpos hr (.acting hside hg hp) hside hp ⟨nofun, nofun⟩
      fun kind => by cases kind <;> simp [Pc.owes]
  | acting hside hg hp =>
    cases hs
    exact h.move_event hw hpos hr (.endReady hside hg) hside hp ⟨nofun, nofun⟩
      fun kind => by cases kind <;> simp [Pc.owes]
  | endReady hside hg =>
    cases hs
    exact h.move_within hw hpos hr (.finished hside) hside rfl fun _ _ => rfl
  | finished hside =>
    have hspin : 0 < s.endGate := by
      rw [hend, hside, if_neg (by decide)]
      exact List.countP_pos_iff.mpr ⟨_, List.mem_of_getElem? hw, by simp⟩
    simp only [State.threadRun, gt_iff_lt, hspin, if_true] at hs
    cases hs
    exact h

end Move

end Turf.Dispatch
