import Turf.Dispatch.Calls

/-!
# The gates

No kick is missed: a gate that has been opened stays open while a worker it was opened for
has still to see it. And nothing is stuck: a main thread that waits at a gate is owed
exactly as many arrivals as it still lacks, each by a worker that needs nobody's help.
-/
namespace Turf.Dispatch

open Turf.Lib.Schedule

variable {calls : List Call} {s s' : State} {v : View}

def State.pcOf (s : State) (i : Nat) : Option Pc := s.threads[i]?.map WorkerThread.pc

/-! ## An open gate -/

/-- The main thread leaves a counter alone or clears it. -/
theorem exec_counter {rest : List Stmt} {stmt : Stmt} (hs : s.exec rest stmt = some s') (gate : Gate) :
    s'.counter gate = s.counter gate ∨ s'.counter gate = 0 := by
  cases stmt with
  | growFor | await =>
    simp only [State.exec] at hs
    split at hs
    · cases hs
      exact Or.inl rfl
    · cases hs
      exact Or.inl rfl
  | join t =>
    simp only [State.exec, Option.ite_none_right_eq_some, Option.some.injEq] at hs
    obtain ⟨-, rfl⟩ := hs
    exact Or.inl rfl
  | release gate' =>
    cases hs
    cases gate' with
    | startGate =>
      cases gate with
      | startGate => exact Or.inr rfl
      | endGate => exact Or.inl rfl
    | endGate =>
      cases gate with
      | startGate => exact Or.inl rfl
      | endGate => exact Or.inr rfl
  | _ =>
    cases hs
    exact Or.inl rfl

theorem mainStep_counter (hs : s.mainStep = some s') (gate : Gate) :
    s'.counter gate = s.counter gate ∨ s'.counter gate = 0 := by
  unfold State.mainStep at hs
  split at hs
  · cases hs
  · cases hs
    exact Or.inl rfl
  · cases hs
    exact Or.inl rfl
  · exact exec_counter hs gate

/-- The counter of the side's gate counts those spinning at it. -/
theorem Agrees.counter_side (h : Agrees s v) : s.counter v.side.gate = s.countAt v.side.gate.spin := by
  have hstart := h.startGate
  have hend := h.endGate
  rcases v.side_cases with hside | hside
  · rw [hside] at hstart ⊢
    exact hstart
  · rw [hside] at hend ⊢
    exact hend

/-- A gate that workers spin at while its counter is 0 is the other side's. -/
theorem Agrees.open_side (h : Agrees s v) {gate : Gate} (hopen : s.counter gate = 0) {i : Nat}
    (hspin : s.pcOf i = some gate.spin) : v.side.gate ≠ gate := by
  intro hgate
  subst hgate
  obtain ⟨w, hw, hpc⟩ := Option.map_eq_some_iff.mp hspin
  have hcount : 0 < s.countAt v.side.gate.spin :=
    List.countP_pos_iff.mpr ⟨w, List.mem_of_getElem? hw, by simpa using hpc⟩
  rw [← h.counter_side, hopen] at hcount
  exact absurd hcount (Nat.lt_irrefl 0)

/-- A worker arrives at the gate of the side it is on only. -/
theorem worker_counter (h : Agrees s v) {i : Nat} (hs : s.workerStep i = some s') {gate : Gate}
    (hother : v.side.gate ≠ gate) : s'.counter gate = s.counter gate := by
  obtain ⟨⟨mustExit, pc⟩, r, -, -, -, hst, hs⟩ := h.stepping hs
  cases hst with
  | startReady hside =>
    cases hs
    rw [hside] at hother
    cases gate with
    | startGate => exact absurd rfl hother
    | endGate => rfl
  | endReady hside =>
    cases hs
    rw [hside] at hother
    cases gate with
    | startGate => rfl
    | endGate => exact absurd rfl hother
  | startSpin | released | endSpin | finished =>
    simp only [State.threadRun] at hs
    split at hs
    · cases hs
      rfl
    · cases hs
      cases gate <;> rfl
  | exited => cases hs
  | _ =>
    cases hs
    cases gate <;> rfl

theorem open_stays (h : Inv calls s) {gate : Gate} (hopen : s.counter gate = 0) {i : Nat}
    (hspin : s.pcOf i = some gate.spin) {l : Label} (hs : next s l = some s') :
    s'.counter gate = 0 := by
  obtain ⟨v, hdoing⟩ := h.doing
  cases l with
  | main =>
    rcases mainStep_counter hs gate with hsame | hzero
    · rw [hsame]
      exact hopen
    · exact hzero
  | worker j =>
    rw [worker_counter hdoing.agrees hs (hdoing.agrees.open_side hopen hspin)]
    exact hopen

/-- **No kick is missed.** While a worker spins on a gate, the gate stays open for it. -/
theorem open_along (hvalid : ∀ c ∈ calls, c.Valid) (h : Inv calls s) {gate : Gate}
    (hopen : s.counter gate = 0) {i : Nat} {ls : List Label} {t : State}
    (hr : run next s ls = some t) (hspin : Along next (fun u => u.pcOf i = some gate.spin) s ls) :
    t.counter gate = 0 := by
  have hboth : Inv calls t ∧ t.counter gate = 0 := by
    refine run_preserves_along (P := fun t => Inv calls t ∧ t.counter gate = 0) ?_ hr hspin ⟨h, hopen⟩
    intro u l u' hu hq _ hp
    exact ⟨step_inv hvalid u l u' hu hp.1, open_stays hp.1 hp.2 hq hu⟩
  exact hboth.2

/-! ## Arrivals to come -/

/-- Worker `i` arrives at the gate when nobody but it takes another step. -/
def State.WillArrive (s : State) (gate : Gate) (i : Nat) : Prop :=
  ∃ n t, run next s (List.replicate n (.worker i)) = some t ∧ s.counter gate < t.counter gate

/-- The steps a worker takes at most from this point to its next arrival. -/
def Pc.rank : Pc → Nat
  | .startReady | .endReady => 1
  | .endSpin | .acting _ _ => 2
  | .loadParam _ => 3
  | .loadAction => 4
  | .filterEqual => 5
  | .filterNegative => 6
  | .exitTest => 7
  | .startSpin => 8
  | .caller | .exited => 0

theorem pcOf_goto {i : Nat} {w : WorkerThread} (hw : s.threads[i]? = some w) (pc : Pc) :
    (s.goto i pc).pcOf i = some pc := by
  unfold State.pcOf
  rw [goto_getElem? hw, if_pos rfl]
  rfl

/-- A worker that has still to arrive does, or comes nearer. -/
theorem Agrees.advance (h : Agrees s v) {i : Nat} {w : WorkerThread} {r : Role} (hi : 0 < i)
    (hw : s.threads[i]? = some w) (hr : v.roles[i]? = some r)
    (hstays : v.side = .within → r = .stays) (hpc : w.pc ≠ v.side.gate.spin) :
    ∃ s', s.workerStep i = some s' ∧
      (s'.counter v.side.gate = s.counter v.side.gate + 1 ∨
        s'.counter v.side.gate = s.counter v.side.gate ∧
          ∃ pc, s'.pcOf i = some pc ∧ pc ≠ v.side.gate.spin ∧ pc.rank < w.pc.rank) := by
  have hst := h.stands i w r hi hw hr
  have hstart := h.startGate
  have hend := h.endGate
  have hexit := h.mustExit i w r hw hr
  have hstep : s.workerStep i = s.threadRun i w.mustExit w.pc := by rw [State.workerStep, hw]
  have hgoto := pcOf_goto hw
  rw [hstep]
  obtain ⟨mustExit, pc⟩ := w
  cases hst with
  | startReady hside =>
    rw [hside]
    exact ⟨_, rfl, Or.inl rfl⟩
  | endSpin hside =>
    rw [hside, if_pos rfl] at hend
    rw [hside]
    exact ⟨_, if_neg (by omega), Or.inr ⟨rfl, .startReady, hgoto _, by decide, by simp [Pc.rank]⟩⟩
  | startSpin hside =>
    rw [hside] at hpc
    exact absurd rfl hpc
  | released hside =>
    rw [hside, if_neg (by decide)] at hstart
    rw [hside]
    exact ⟨_, if_neg (by omega), Or.inr ⟨rfl, .exitTest, hgoto _, by decide, by simp [Pc.rank]⟩⟩
  | exitTest hside =>
    have hfalse : mustExit = false := by simpa [hstays hside] using hexit
    rw [hside, hfalse]
    exact ⟨_, rfl, Or.inr ⟨rfl, .filterNegative, hgoto _, by decide, by simp [Pc.rank]⟩⟩
  | exited hside hne => exact absurd (hstays hside) hne
  | filterNegative hside =>
    rw [hside]
    refine ⟨_, rfl, Or.inr ⟨rfl, _, hgoto _, ?_, ?_⟩⟩
    · split
      · nofun
      · nofun
    · split
      · simp [Pc.rank]
      · simp [Pc.rank]
  | filterEqual hside =>
    rw [hside]
    refine ⟨_, rfl, Or.inr ⟨rfl, _, hgoto _, ?_, ?_⟩⟩
    · split
      · nofun
      · nofun
    · split
      · simp [Pc.rank]
      · simp [Pc.rank]
  | loadAction hside =>
    rw [hside]
    exact ⟨_, rfl, Or.inr ⟨rfl, _, hgoto _, nofun, by simp [Pc.rank]⟩⟩
  | loadParam hside =>
    rw [hside]
    exact ⟨_, rfl, Or.inr ⟨rfl, _, hgoto _, nofun, by simp [Pc.rank]⟩⟩
  | acting hside =>
    rw [hside]
    exact ⟨_, rfl, Or.inr ⟨rfl, _, hgoto _, nofun, by simp [Pc.rank]⟩⟩
  | endReady hside =>
    rw [hside]
    exact ⟨_, rfl, Or.inl rfl⟩
  | finished hside =>
    rw [hside] at hpc
    exact absurd rfl hpc

/-- By induction on what is left of its way, a worker that is not at the gate arrives. -/
theorem Agrees.will_arrive (h : Agrees s v) {i : Nat} {w : WorkerThread} {r : Role} (hi : 0 < i)
    (hw : s.threads[i]? = some w) (hr : v.roles[i]? = some r)
    (hstays : v.side = .within → r = .stays) (hpc : w.pc ≠ v.side.gate.spin) :
    s.WillArrive v.side.gate i := by
  induction hrank : w.pc.rank using Nat.strongRecOn generalizing s w with
  | ind rank ih =>
    subst hrank
    obtain ⟨s', hs, harrives | ⟨hsame, pc, hat, hne, hlt⟩⟩ := h.advance hi hw hr hstays hpc
    · exact ⟨1, s', run_cons.mpr ⟨s', hs, rfl⟩, by omega⟩
    · obtain ⟨w', hw', rfl⟩ := Option.map_eq_some_iff.mp hat
      obtain ⟨n, t, ht, hcount⟩ := ih _ hlt (worker_agrees h hs) hw' hne rfl
      exact ⟨n + 1, t, run_cons.mpr ⟨s', hs, ht⟩, by omega⟩

/-- A worker whose steps change nothing never arrives. -/
theorem not_willArrive {i : Nat} (gate : Gate)
    (hidle : ∀ s', s.workerStep i = some s' → s' = s) : ¬s.WillArrive gate i := by
  intro hwill
  obtain ⟨n, t, ht, hcount⟩ := hwill
  have hstill : ∀ n, run next s (List.replicate n (.worker i)) = some t → t = s := by
    intro n ht
    induction n with
    | zero =>
      cases ht
      rfl
    | succ n ih =>
      obtain ⟨u, hu, ht⟩ := run_cons.mp ht
      rw [hidle u hu] at ht
      exact ih ht
  rw [hstill n ht] at hcount
  exact absurd hcount (Nat.lt_irrefl _)

/-- A worker spinning at the gate of the side it is on has arrived. -/
theorem Agrees.arrived (h : Agrees s v) {i : Nat} (hspin : s.pcOf i = some v.side.gate.spin) :
    ¬s.WillArrive v.side.gate i := by
  apply not_willArrive _
  intro s' hs
  have hclosed : 0 < s.counter v.side.gate :=
    Nat.pos_of_ne_zero fun hzero => h.open_side hzero hspin rfl
  obtain ⟨w, hw, hpc⟩ := Option.map_eq_some_iff.mp hspin
  simp only [State.workerStep, hw, hpc] at hs
  rcases v.side_cases with hside | hside
  · rw [hside] at hs hclosed
    have hstays : s.threadRun i w.mustExit .startSpin = some s := if_pos hclosed
    exact (Option.some.inj (hstays.symm.trans hs)).symm
  · rw [hside] at hs hclosed
    have hstays : s.threadRun i w.mustExit .endSpin = some s := if_pos hclosed
    exact (Option.some.inj (hstays.symm.trans hs)).symm

/-- At a gate where the workers gather, those that have arrived and those that will are
all the workers. -/
theorem Agrees.arrivals (h : Agrees s v) (hstays : v.side = .within → ∀ r ∈ v.roles, r = .stays) :
    ∃ waiting : List Nat, waiting.Nodup ∧ (∀ i, i ∈ waiting ↔ s.WillArrive v.side.gate i) ∧
      s.counter v.side.gate + waiting.length + 1 = s.threads.length := by
  obtain ⟨workers, hthreads⟩ := h.threads_cons
  let away : WorkerThread × Nat → Bool := fun x => x.1.pc ≠ v.side.gate.spin
  have hgetElem : ∀ i w, (w, i) ∈ workers.zipIdx 1 ↔ 0 < i ∧ s.threads[i]? = some w := by
    intro i w
    rw [List.mk_mem_zipIdx_iff_le_and_getElem?_sub, hthreads]
    cases i with
    | zero => simp
    | succ i => simp
  refine ⟨((workers.zipIdx 1).filter away).map Prod.snd, ?_, fun i => ?_, ?_⟩
  · have hsub := (List.filter_sublist (p := away) (l := workers.zipIdx 1)).map Prod.snd
    rw [List.zipIdx_map_snd] at hsub
    exact hsub.nodup List.nodup_range'
  · simp only [List.mem_map, List.mem_filter, Prod.exists, exists_eq_right, hgetElem]
    constructor
    · intro haway
      obtain ⟨w, ⟨hi, hw⟩, hpc⟩ := haway
      obtain ⟨r, hr⟩ := h.role hw
      exact h.will_arrive hi hw hr (fun hside => hstays hside r (List.mem_of_getElem? hr))
        (of_decide_eq_true hpc)
    · intro hwill
      cases hw : s.threads[i]? with
      | none =>
        refine absurd hwill (not_willArrive _ fun s' hs => ?_)
        rw [State.workerStep, hw] at hs
        cases hs
      | some w =>
        by_cases hzero : i = 0
        · subst hzero
          refine absurd hwill (not_willArrive _ fun s' hs => ?_)
          cases hw.symm.trans h.caller
          rw [State.workerStep, h.caller] at hs
          cases hs
        · refine ⟨w, ⟨by omega, rfl⟩, decide_eq_true fun hpc => h.arrived ?_ hwill⟩
          rw [State.pcOf, hw, ← hpc]
          rfl
  · have haway : ((workers.zipIdx 1).filter away).length =
        workers.countP fun w => decide (w.pc ≠ v.side.gate.spin) := by
      rw [← List.countP_eq_length_filter, ← List.zipIdx_map_fst 1 workers, List.countP_map,
        List.zipIdx_map_fst]
      rfl
    have hat : s.counter v.side.gate = workers.countP fun w => decide (w.pc = v.side.gate.spin) := by
      rw [h.counter_side, State.countAt, hthreads]
      apply List.countP_cons_of_neg
      cases v.side <;> decide
    have hall := List.length_eq_countP_add_countP (l := workers)
      fun w => decide (w.pc = v.side.gate.spin)
    rw [List.length_map, haway, hat, hthreads, List.length_cons, hall]
    simp only [decide_eq_true_eq, ne_eq]

theorem Inv.leads (h : Inv calls s) {stmts : List Stmt} (hbody : s.body = some stmts) :
    ∃ v u, Agrees s v ∧ Leads s.returned stmts v u := by
  obtain ⟨v, hdoing⟩ := h.doing
  cases hdoing with
  | resting hnone => exact absurd (hnone.symm.trans hbody) nofun
  | running _ hbody' _ hagrees hl =>
    obtain rfl := Option.some.inj (hbody'.symm.trans hbody)
    exact ⟨v, _, hagrees, hl⟩

/-- While the main thread waits at a gate, the arrivals it lacks are those still to come. -/
theorem Inv.arrivals (h : Inv calls s) {gate : Gate} {count : Nat} {rest : List Stmt}
    (hbody : s.body = some (.await gate count :: rest)) :
    ∃ waiting : List Nat, waiting.Nodup ∧ (∀ i, i ∈ waiting ↔ s.WillArrive gate i) ∧
      s.counter gate + waiting.length = count := by
  obtain ⟨v, u, hagrees, hl⟩ := h.leads hbody
  cases hl with
  | effect heff hl =>
    simp only [View.effect, Option.ite_none_right_eq_some] at heff
    obtain ⟨⟨rfl, hcount, hstays⟩, -⟩ := heff
    obtain ⟨waiting, hnodup, hwaiting, hall⟩ := hagrees.arrivals hstays
    have hlength := hagrees.length
    exact ⟨waiting, hnodup, hwaiting, by omega⟩

/-! ## Nothing is stuck -/

def Stmt.waits : Stmt → Bool
  | .await _ _ => true
  | _ => false

/-- What the main thread can do next changes the state, unless it waits. -/
theorem exec_moves {rest : List Stmt} {stmt : Stmt} (hbody : s.body = some (stmt :: rest))
    (hwaits : stmt.waits = false) (hs : s.exec rest stmt = some s') : s' ≠ s := by
  intro hsame
  have hshorter : s.body ≠ some rest := by
    rw [hbody]
    intro heq
    exact List.cons_ne_self stmt rest (Option.some.inj heq)
  cases stmt with
  | await gate count => cases hwaits
  | setNumSpawnedThreads n =>
    cases hs
    have heq := (congrArg State.body hsame).trans hbody
    rw [Option.some_inj, setNumSpawnedThreads] at heq
    split at heq
    · cases heq
    · cases hk : n - s.threads.length with
      | zero =>
        rw [hk] at heq
        exact List.cons_ne_self _ _ heq.symm
      | succ k =>
        rw [hk] at heq
        cases heq
  | growFor t =>
    simp only [State.exec] at hs
    split at hs
    · cases hs
      have heq := (congrArg State.body hsame).trans hbody
      cases heq
    · cases hs
      exact hshorter (congrArg State.body hsame).symm
  | kick gate =>
    cases hs
    have heq := (congrArg State.body hsame).trans hbody
    cases heq
  | join t =>
    simp only [State.exec, Option.ite_none_right_eq_some, Option.some.injEq] at hs
    obtain ⟨-, rfl⟩ := hs
    exact hshorter (congrArg State.body hsame).symm
  | _ =>
    cases hs
    exact hshorter (congrArg State.body hsame).symm

/-- A worker told to exit has exited or can take a step towards it. -/
theorem Agrees.leaving_moves (h : Agrees s v) (hside : v.side = .within) {t : Nat} (ht : 0 < t)
    (hleaves : v.roles[t]? = some .leaves) :
    s.pcOf t = some .exited ∨ ∃ s', s.workerStep t = some s' ∧ s' ≠ s := by
  obtain ⟨w, hw⟩ := h.thread hleaves
  have hst := h.stands t w .leaves ht hw hleaves
  have hstart := h.startGate
  have hexit := (h.mustExit t w .leaves hw hleaves).mpr (by decide)
  have hstep : s.workerStep t = s.threadRun t w.mustExit w.pc := by rw [State.workerStep, hw]
  have hmoved : ∀ pc, pc ≠ w.pc → s.goto t pc ≠ s := by
    intro pc hne hsame
    have hat := pcOf_goto hw pc
    rw [hsame, State.pcOf, hw] at hat
    exact hne (Option.some.inj hat).symm
  rw [hstep, hexit]
  obtain ⟨mustExit, pc⟩ := w
  cases hst with
  | exited =>
    left
    rw [State.pcOf, hw]
    rfl
  | released =>
    rw [hside, if_neg (by decide)] at hstart
    exact Or.inr ⟨_, if_neg (by omega), hmoved .exitTest nofun⟩
  | exitTest => exact Or.inr ⟨_, rfl, hmoved .exited nofun⟩
  | startReady hbetween | endSpin hbetween | startSpin hbetween =>
    rw [hside] at hbetween
    cases hbetween

/-- **Nothing is stuck.** As long as there is something left to do, some thread can do it. -/
theorem Inv.moves (h : Inv calls s) (hleft : s.body ≠ none ∨ s.calls ≠ []) :
    ∃ l s', next s l = some s' ∧ s' ≠ s := by
  obtain ⟨v, hdoing⟩ := h.doing
  cases hdoing with
  | resting hbody hcalls hagrees =>
    cases hlist : s.calls with
    | nil =>
      rw [hbody, hlist] at hleft
      exact absurd rfl (hleft.resolve_left fun hne => hne rfl)
    | cons c rest =>
      refine ⟨.main, { s with calls := rest, body := some (c.body s.returned) }, ?_, fun hsame => ?_⟩
      · rw [next, State.mainStep, hbody, hlist]
      · exact Option.some_ne_none _ ((congrArg State.body hsame).trans hbody)
  | @running v stmts c hc hbody hcalls hagrees hl =>
    cases stmts with
    | nil =>
      refine ⟨.main, { s with returned := s.returned + 1, body := none }, ?_, fun hsame => ?_⟩
      · rw [next, State.mainStep, hbody]
      · exact Nat.succ_ne_self s.returned (congrArg State.returned hsame)
    | cons stmt rest =>
      have hmain : next s .main = s.exec rest stmt := by rw [next, State.mainStep, hbody]
      have hdoes : (∃ s', s.exec rest stmt = some s') → stmt.waits = false →
          ∃ l s', next s l = some s' ∧ s' ≠ s := by
        intro hsome hwaits
        obtain ⟨s', hs⟩ := hsome
        exact ⟨.main, s', hmain.trans hs, exec_moves hbody hwaits hs⟩
      cases stmt with
      | await gate count =>
        obtain ⟨waiting, -, hwaiting, hall⟩ := h.arrivals hbody
        by_cases hlt : s.counter gate < count
        · obtain ⟨i, hi⟩ := List.exists_mem_of_length_pos (l := waiting) (by omega)
          by_contra hnone
          refine not_willArrive gate (fun s' hs => ?_) ((hwaiting i).mp hi)
          by_contra hne
          exact hnone ⟨.worker i, s', hs, hne⟩
        · refine ⟨.main, { s with body := some rest }, hmain.trans (if_neg hlt), fun hsame => ?_⟩
          have heq := (congrArg State.body hsame).trans hbody
          exact List.cons_ne_self _ _ (Option.some.inj heq).symm
      | join t =>
        cases hl with
        | effect heff hl =>
          simp only [View.effect, Option.ite_none_right_eq_some] at heff
          obtain ⟨⟨hside, -, ht, hleaves⟩, -⟩ := heff
          rcases hagrees.leaving_moves hside ht hleaves with hexited | ⟨s', hs, hne⟩
          · exact hdoes ⟨_, if_pos hexited⟩ rfl
          · exact ⟨.worker t, s', hs, hne⟩
      | growFor t =>
        by_cases hgrows : t ≥ s.threads.length
        · exact hdoes ⟨_, if_pos hgrows⟩ rfl
        · exact hdoes ⟨_, if_neg hgrows⟩ rfl
      | _ => exact hdoes ⟨_, rfl⟩ rfl

/-! ## The gates of a run -/

/-- A kick is given when every worker spins at the gate. -/
theorem Inv.kick_counts (h : Inv calls s) {gate : Gate} {rest : List Stmt}
    (hbody : s.body = some (.release gate :: rest)) {i : Nat} {w : WorkerThread} (hi : 0 < i)
    (hw : s.threads[i]? = some w) : w.pc = gate.spin := by
  obtain ⟨v, u, hagrees, hl⟩ := h.leads hbody
  cases hl with
  | effect heff hl =>
    simp only [View.effect, Option.ite_none_right_eq_some] at heff
    obtain ⟨⟨rfl, hg, -, hstays⟩, -⟩ := heff
    exact hagrees.gathered_spin hg hstays hi hw

/-- **The gates.** A kick counts every worker, and the gate it opens stays open for each of
them until it has left. While the main thread waits at a gate, the counter and the workers
that will arrive without another kick add up to what it waits for; and there is always
something that can be done next. -/
theorem gates_miss_no_kick (calls : List Call) (hvalid : ∀ c ∈ calls, c.Valid) {ls : List Label}
    {s : State} (hr : run next (start calls) ls = some s) :
    (∀ gate rest, s.body = some (.release gate :: rest) →
      (∀ i w, 0 < i → s.threads[i]? = some w → w.pc = gate.spin) ∧
      ∀ s₁, next s .main = some s₁ → ∀ ls' t, run next s₁ ls' = some t →
        ∀ i, Along next (fun u => u.pcOf i = some gate.spin) s₁ ls' → t.counter gate = 0) ∧
    (∀ gate count rest, s.body = some (.await gate count :: rest) →
      ∃ waiting : List Nat, waiting.Nodup ∧ (∀ i, i ∈ waiting ↔ s.WillArrive gate i) ∧
        s.counter gate + waiting.length = count) ∧
    (s.body ≠ none ∨ s.calls ≠ [] → ∃ l s', next s l = some s' ∧ s' ≠ s) := by
  have h := run_inv hvalid hr
  refine ⟨fun gate rest hbody => ⟨fun i w => h.kick_counts hbody, ?_⟩, fun gate count rest => h.arrivals,
    h.moves⟩
  intro s₁ hs ls' t ht i hspin
  refine open_along hvalid (step_inv hvalid s .main s₁ hs h) ?_ ht hspin
  rw [next, State.mainStep, hbody] at hs
  cases hs
  cases gate with
  | startGate => rfl
  | endGate => rfl

/-- The main thread waits for worker 1, which has been spawned and has not moved yet. -/
theorem gates_miss_no_kick_late_worker :
    ∃ s : State, run next (start [.setNumSpawnedThreads 2, .kick]) (List.replicate 8 .main) = some s ∧
      s.startGate = 0 ∧ ∃ i, s.WillArrive .startGate i := by
  have hvalid : ∀ c ∈ [Call.setNumSpawnedThreads 2, .kick], c.Valid := by decide
  obtain ⟨s, hr, hcounter, rest, hbody⟩ : ∃ s : State,
      run next (start [.setNumSpawnedThreads 2, .kick]) (List.replicate 8 .main) = some s ∧
        s.startGate = 0 ∧ ∃ rest, s.body = some (.await .startGate 1 :: rest) :=
    ⟨_, rfl, rfl, _, rfl⟩
  obtain ⟨waiting, -, hwaiting, hall⟩ :=
    (gates_miss_no_kick _ hvalid hr).2.1 .startGate 1 rest hbody
  have hpos : 0 < waiting.length := by
    simp only [State.counter, hcounter] at hall
    omega
  obtain ⟨i, hi⟩ := List.exists_mem_of_length_pos hpos
  exact ⟨s, hr, hcounter, i, (hwaiting i).mp hi⟩

end Turf.Dispatch
