import Turf.Dispatch.Invariant

/-!
# The statements against the workers

One lemma for each kind of statement: when its effect on the view is defined, the step of
the main thread brings the dispatcher to the new view, whatever the workers are doing.
-/
namespace Turf.Dispatch

variable {s : State} {v : View}

/-! ## What the view says of the workers -/

theorem View.side_cases (v : View) : v.side = .between ∨ v.side = .within := by
  cases v.side with
  | between => exact Or.inl rfl
  | within => exact Or.inr rfl

theorem Agrees.threads_cons (h : Agrees s v) :
    ∃ workers, s.threads = ⟨false, .caller⟩ :: workers := by
  have hcaller := h.caller
  cases hthreads : s.threads with
  | nil =>
    rw [hthreads] at hcaller
    cases hcaller
  | cons c workers =>
    rw [hthreads] at hcaller
    cases hcaller
    exact ⟨workers, rfl⟩

/-- The counter of a gate reaches the number of workers when all of them spin at it. -/
theorem Agrees.all_at (h : Agrees s v) (pc : Pc) (hpc : pc ≠ .caller)
    (hcount : s.threads.length ≤ s.countAt pc + 1) {i : Nat} {w : WorkerThread} (hi : 0 < i)
    (hw : s.threads[i]? = some w) : w.pc = pc := by
  obtain ⟨workers, hthreads⟩ := h.threads_cons
  rw [State.countAt, hthreads, List.countP_cons_of_neg (by simpa using Ne.symm hpc),
    List.length_cons] at hcount
  have hle := List.countP_le_length (p := fun w : WorkerThread => decide (w.pc = pc)) (l := workers)
  have hall := List.countP_eq_length.mp (show workers.countP (fun w => decide (w.pc = pc)) =
    workers.length by omega)
  obtain ⟨j, rfl⟩ : ∃ j, i = j + 1 := ⟨i - 1, by omega⟩
  rw [hthreads, List.getElem?_cons_succ] at hw
  simpa using hall w (List.mem_of_getElem? hw)

/-- No thread is at a program point that neither the caller nor any worker is at. -/
theorem Agrees.none_at (h : Agrees s v) (pc : Pc) (hpc : pc ≠ .caller)
    (hworkers : ∀ (i : Nat) (w : WorkerThread), 0 < i → s.threads[i]? = some w → w.pc ≠ pc) :
    s.countAt pc = 0 := by
  apply List.countP_eq_zero.mpr
  intro w hw
  obtain ⟨i, hi⟩ := List.getElem?_of_mem hw
  by_cases hzero : i = 0
  · subst hzero
    cases hi.symm.trans h.caller
    simpa using Ne.symm hpc
  · simpa using hworkers i w (by omega) hi

theorem owed_between (hside : v.side = .between) (kind : Kind) (i : Nat) :
    s.owed v kind i = 0 := by
  apply if_neg
  intro hand
  rw [hside] at hand
  exact absurd hand.1 nofun

/-- Between rounds the program point of a worker says nothing of its role. -/
theorem Stands.of_between {i : Nat} {r r' : Role} {pc : Pc} (h : Stands v i r pc)
    (hside : v.side = .between) {v' : View} (hside' : v'.side = .between)
    (hg : v'.gathered = v.gathered) (hr' : r ≠ .left → r' ≠ .left) : Stands v' i r' pc := by
  cases h with
  | startReady _ hg' hr => exact .startReady hside' (hg.trans hg') (hr' hr)
  | endSpin _ hg' hr => exact .endSpin hside' (hg.trans hg') (hr' hr)
  | startSpin _ hr => exact .startSpin hside' (hr' hr)
  | released h | exitTest h | exited h | filterNegative h | filterEqual h | loadAction h
  | loadParam h | acting h | endReady h | finished h =>
    rw [hside] at h
    cases h

/-- Gathered between rounds, a worker spins at the start gate. -/
theorem Stands.gathered_between {i : Nat} {r : Role} {pc : Pc} (h : Stands v i r pc)
    (hside : v.side = .between) (hg : v.gathered = true) : pc = .startSpin ∧ r ≠ .left := by
  cases h with
  | startSpin _ hr => exact ⟨rfl, hr⟩
  | startReady _ hg' | endSpin _ hg' =>
    rw [hg] at hg'
    cases hg'
  | released h | exitTest h | exited h | filterNegative h | filterEqual h | loadAction h
  | loadParam h | acting h | endReady h | finished h =>
    rw [hside] at h
    cases h

/-- Gathered within a round, a worker that stays spins at the end gate. -/
theorem Stands.gathered_within {i : Nat} {pc : Pc} (h : Stands v i .stays pc)
    (hside : v.side = .within) (hg : v.gathered = true) : pc = .endSpin := by
  cases h with
  | finished _ | endSpin _ => rfl
  | exited _ hr => exact absurd rfl hr
  | startReady h | startSpin h =>
    rw [hside] at h
    cases h
  | released _ hg' | exitTest _ hg' | filterNegative _ hg' | filterEqual _ hg' | loadAction _ hg'
  | loadParam _ hg' | acting _ hg' | endReady _ hg' =>
    rw [hg] at hg'
    cases hg'

/-- Where a worker waits for the gate to open. -/
def Gate.spin : Gate → Pc
  | .startGate => .startSpin
  | .endGate => .endSpin

/-- Gathered, all workers spin at the gate of the side they are on. -/
theorem Agrees.gathered_spin (h : Agrees s v) (hg : v.gathered = true)
    (hstays : v.side = .within → ∀ r ∈ v.roles, r = .stays) {i : Nat} {w : WorkerThread}
    (hi : 0 < i) (hw : s.threads[i]? = some w) : w.pc = v.side.gate.spin := by
  obtain ⟨r, hr⟩ := h.role hw
  have hst := h.stands i w r hi hw hr
  rcases v.side_cases with hside | hside
  · rw [hside]
    exact (hst.gathered_between hside hg).1
  · rw [hstays hside r (List.mem_of_getElem? hr)] at hst
    rw [hside]
    exact hst.gathered_within hside hg

/-! ## Waiting at a gate and opening it -/

/-- Once the counter has reached the count, every worker spins at the gate. -/
theorem await_agrees (h : Agrees s v) {count : Nat} (hcount : count + 1 = v.roles.length)
    (hstays : v.side = .within → ∀ r ∈ v.roles, r = .stays)
    (hreached : ¬s.counter v.side.gate < count) : Agrees s { v with gathered := true } := by
  have hlen := h.length
  refine { h with stands := fun i w r hi hw hr => ?_ }
  have hst := h.stands i w r hi hw hr
  rcases v.side_cases with hside | hside
  · have hgate : s.startGate = s.countAt .startSpin := by rw [h.startGate, hside, if_pos rfl]
    rw [hside] at hreached
    have hpc : w.pc = .startSpin := h.all_at .startSpin (by decide) (by
      simp only [Side.gate, State.counter] at hreached
      omega) hi hw
    rw [hpc] at hst ⊢
    cases hst with
    | startSpin _ hr => exact .startSpin hside hr
    | released hwithin =>
      rw [hside] at hwithin
      cases hwithin
  · have hgate : s.endGate = s.countAt .endSpin := by rw [h.endGate, hside, if_neg (by decide)]
    rw [hside] at hreached
    have hpc : w.pc = .endSpin := h.all_at .endSpin (by decide) (by
      simp only [Side.gate, State.counter] at hreached
      omega) hi hw
    rw [hpc, hstays hside r (List.mem_of_getElem? hr)]
    exact .finished hside

/-- Opening the start gate hands every worker the action it is due. -/
theorem release_startGate_agrees (h : Agrees s v) (hside : v.side = .between)
    (hg : v.gathered = true) (hinst : v.Installed s.returned) :
    Agrees { s with startGate := 0 }
      { v with
        side := .within
        gathered := false
        runs := fun kind i => v.runs kind i + v.due s.returned i } := by
  have hspin : ∀ (i : Nat) (w : WorkerThread), 0 < i → s.threads[i]? = some w → w.pc = .startSpin := by
    intro i w hi hw
    rw [h.gathered_spin hg (fun hwithin => absurd (hside.symm.trans hwithin) nofun) hi hw, hside]
    rfl
  exact { h with
    installed := fun _ => hinst
    stands := by
      intro i w r hi hw hr
      have hst := (h.stands i w r hi hw hr).gathered_between hside hg
      rw [hst.1]
      exact .released rfl rfl hst.2
    startGate := rfl
    endGate := by
      have hzero := h.none_at .endSpin (by decide) fun i w hi hw => by rw [hspin i w hi hw]; decide
      have hgate := h.endGate
      rw [hside, if_pos rfl] at hgate
      exact hgate.trans hzero.symm
    counts := by
      intro kind i
      have hc := h.counts kind i
      rw [owed_between hside, Nat.add_zero] at hc
      refine (congrArg₂ (· + ·) hc ?_)
      unfold State.owed
      cases hw : s.threads[i]? with
      | none =>
        have hrole : v.roles[i]? = none := by
          rw [List.getElem?_eq_none_iff] at hw ⊢
          rw [← h.length]
          exact hw
        rw [if_neg fun hand => absurd hand.2 nofun]
        exact (if_neg fun hdue => by rw [hrole] at hdue; cases hdue.2.1).symm
      | some w =>
        by_cases hi : i = 0
        · subst hi
          cases hw.symm.trans h.caller
          rw [if_neg fun hand => by simp [Pc.owes] at hand]
          exact (if_neg fun hdue => absurd hdue.1 (Nat.lt_irrefl 0)).symm
        · have hpc := hspin i w (by omega) hw
          rw [if_pos ⟨rfl, by rw [Option.map_some, hpc, Pc.owes]⟩]
          rfl }

/-- Opening the end gate ends the round. -/
theorem release_endGate_agrees (h : Agrees s v) (hside : v.side = .within)
    (hg : v.gathered = true) (hstays : ∀ r ∈ v.roles, r = .stays) :
    Agrees { s with endGate := 0 } { v with side := .between, gathered := false } := by
  have hspin : ∀ (i : Nat) (w : WorkerThread), 0 < i → s.threads[i]? = some w → w.pc = .endSpin := by
    intro i w hi hw
    rw [h.gathered_spin hg (fun _ => hstays) hi hw, hside]
    rfl
  have howed : ∀ kind i, s.owed v kind i = 0 := by
    intro kind i
    apply if_neg
    intro hand
    cases hw : s.threads[i]? with
    | none =>
      rw [hw] at hand
      cases hand.2
    | some w =>
      rw [hw, Option.map_some, Option.some_inj] at hand
      by_cases hi : i = 0
      · subst hi
        cases hw.symm.trans h.caller
        simp [Pc.owes] at hand
      · rw [hspin i w (by omega) hw] at hand
        simp [Pc.owes] at hand
  exact { h with
    installed := by
      intro hwithin
      cases hwithin
    stands := by
      intro i w r hi hw hr
      rw [hspin i w hi hw]
      apply Stands.endSpin rfl rfl
      rw [hstays r (List.mem_of_getElem? hr)]
      decide
    startGate := by
      have hzero : s.countAt .startSpin = 0 := by
        apply h.none_at .startSpin (by decide)
        intro i w hi hw
        rw [hspin i w hi hw]
        decide
      have hgate := h.startGate
      rw [hside, if_neg (by decide)] at hgate
      exact hgate.trans hzero.symm
    endGate := rfl
    counts := by
      intro kind i
      have hc := h.counts kind i
      rw [howed] at hc
      rw [owed_between rfl]
      exact hc }

/-! ## Between rounds -/

/-- Between rounds nothing is owed, so what matters is the log. -/
theorem Agrees.counts_between (h : Agrees s v) (hside : v.side = .between) (s' : State) (v' : View)
    (hside' : v'.side = .between) (hlog : s'.log = s.log) (hret : s'.returned = s.returned)
    (hruns : v'.runs = v.runs) (kind : Kind) (i : Nat) :
    s'.times kind s'.returned i + s'.owed v' kind i = v'.runs kind i := by
  rw [State.times, hlog, hret, owed_between hside', hruns, ← h.counts kind i, owed_between hside]
  rfl

/-- Whatever the main thread installs between rounds, no worker looks at it. -/
theorem install_agrees (h : Agrees s v) (hside : v.side = .between) {filter filter' : Int}
    {action action' : Action} {param param' : Param} (hfilter : filter = filter')
    (haction : action = action') (hparam : param = param') :
    Agrees { s with threadFilter := filter, action := action, param := param }
      { v with threadFilter := filter', action := action', param := param' } where
  threadFilter := hfilter
  action := haction
  param := hparam
  installed hwithin := by
    rw [show v.side = .within from hwithin] at hside
    cases hside
  length := h.length
  caller := h.caller
  mustExit := h.mustExit
  stands i w r hi hw hr := (h.stands i w r hi hw hr).of_between hside hside rfl id
  startGate := h.startGate
  endGate := h.endGate
  counts := h.counts_between hside _
    { v with threadFilter := filter', action := action', param := param' } hside rfl rfl rfl

theorem countP_set_same {α : Type} {p : α → Bool} {l : List α} {i : Nat} {a b : α}
    (h : l[i]? = some a) (hp : p b = p a) : (l.set i b).countP p = l.countP p := by
  obtain ⟨hlt, hget⟩ := List.getElem?_eq_some_iff.mp h
  have hpos : p a = true → 0 < l.countP p := fun hpa =>
    List.countP_pos_iff.mpr ⟨a, List.mem_of_getElem? h, hpa⟩
  rw [List.countP_set hlt, hget, hp]
  by_cases hpa : p a = true
  · have hone := hpos hpa
    rw [if_pos hpa]
    omega
  · rw [if_neg hpa]
    omega

theorem setMustExit_agrees (h : Agrees s v) (hside : v.side = .between) {t : Nat} (ht : 0 < t)
    (hstays : v.roles[t]? = some .stays) :
    Agrees { s with threads := s.threads.modify t fun w => { w with mustExit := true } }
      { v with roles := v.roles.set t .leaves } := by
  have hlt := (List.getElem?_eq_some_iff.mp hstays).1
  obtain ⟨u, hu⟩ := h.thread hstays
  have hthread : ∀ i w r, (s.threads.set t { u with mustExit := true })[i]? = some w →
      (v.roles.set t .leaves)[i]? = some r →
      (i = t ∧ w = { u with mustExit := true } ∧ r = .leaves) ∨
        (s.threads[i]? = some w ∧ v.roles[i]? = some r) := by
    intro i w r hw hr
    by_cases hi : t = i
    · subst hi
      rw [List.getElem?_set_self hlt] at hr
      rw [List.getElem?_set_self (List.getElem?_eq_some_iff.mp hu).1] at hw
      cases hr
      cases hw
      exact Or.inl ⟨rfl, rfl, rfl⟩
    · rw [List.getElem?_set_ne hi] at hw hr
      exact Or.inr ⟨hw, hr⟩
  rw [modify_of_getElem? hu]
  exact { h with
    length := by
      rw [List.length_set, List.length_set]
      exact h.length
    caller := by
      rw [List.getElem?_set_ne (by omega)]
      exact h.caller
    mustExit := by
      intro i w r hw hr
      rcases hthread i w r hw hr with ⟨rfl, rfl, rfl⟩ | ⟨hw, hr⟩
      · simp
      · exact h.mustExit i w r hw hr
    stands := by
      intro i w r hi hw hr
      rcases hthread i w r hw hr with ⟨rfl, rfl, rfl⟩ | ⟨hw, hr⟩
      · exact (h.stands i u .stays hi hu hstays).of_between hside hside rfl nofun
      · exact (h.stands i w r hi hw hr).of_between hside hside rfl id
    startGate := by
      have hgate := h.startGate
      rw [hside, if_pos rfl] at hgate ⊢
      have hsame : (s.threads.set t { u with mustExit := true }).countP
          (fun w => decide (w.pc = .startSpin)) = s.countAt .startSpin := countP_set_same hu rfl
      exact hgate.trans hsame.symm
    endGate := by
      have hgate := h.endGate
      rw [hside, if_pos rfl] at hgate ⊢
      exact hgate
    counts := h.counts_between hside { s with threads := _ } { v with roles := _ } hside rfl rfl rfl }

theorem spawn_agrees (h : Agrees s v) (hside : v.side = .between) (hg : v.gathered = false) :
    Agrees { s with threads := s.threads ++ [⟨false, .startReady⟩] }
      { v with roles := v.roles ++ [.stays] } := by
  have hthread : ∀ (i : Nat) w r, (s.threads ++ [⟨false, .startReady⟩])[i]? = some w →
      (v.roles ++ [.stays])[i]? = some r →
      (w = ⟨false, .startReady⟩ ∧ r = .stays) ∨ (s.threads[i]? = some w ∧ v.roles[i]? = some r) := by
    intro i w r hw hr
    by_cases hi : i < s.threads.length
    · rw [List.getElem?_append_left hi] at hw
      rw [List.getElem?_append_left (by rw [← h.length]; exact hi)] at hr
      exact Or.inr ⟨hw, hr⟩
    · have hlt := (List.getElem?_eq_some_iff.mp hw).1
      rw [List.length_append, List.length_singleton] at hlt
      obtain rfl : i = s.threads.length := by omega
      rw [List.getElem?_concat_length] at hw
      rw [h.length, List.getElem?_concat_length] at hr
      cases hw
      cases hr
      exact Or.inl ⟨rfl, rfl⟩
  exact { h with
    length := by
      rw [List.length_append, List.length_append, List.length_singleton, List.length_singleton,
        h.length]
    caller := by
      obtain ⟨workers, hworkers⟩ := h.threads_cons
      rw [hworkers]
      rfl
    mustExit := by
      intro i w r hw hr
      rcases hthread i w r hw hr with ⟨rfl, rfl⟩ | ⟨hw, hr⟩
      · simp
      · exact h.mustExit i w r hw hr
    stands := by
      intro i w r hi hw hr
      rcases hthread i w r hw hr with ⟨rfl, rfl⟩ | ⟨hw, hr⟩
      · exact .startReady hside hg (by decide)
      · exact (h.stands i w r hi hw hr).of_between hside hside rfl id
    startGate := by
      have hgate := h.startGate
      rw [hside, if_pos rfl] at hgate ⊢
      rw [State.countAt, List.countP_append]
      exact hgate
    endGate := by
      have hgate := h.endGate
      rw [hside, if_pos rfl] at hgate ⊢
      exact hgate
    counts := h.counts_between hside { s with threads := _ } { v with roles := _ } hside rfl rfl rfl }

/-! ## Within a round -/

theorem Stands.of_same {i : Nat} {r : Role} {pc : Pc} (h : Stands v i r pc) (roles : List Role)
    (runs : Kind → Nat → Nat) : Stands { v with roles, runs } i r pc := by
  cases h with
  | startReady hside hg hr => exact .startReady hside hg hr
  | endSpin hside hg hr => exact .endSpin hside hg hr
  | startSpin hside hr => exact .startSpin hside hr
  | released hside hg hr => exact .released hside hg hr
  | exitTest hside hg hr => exact .exitTest hside hg hr
  | exited hside hr => exact .exited hside hr
  | filterNegative hside hg => exact .filterNegative hside hg
  | filterEqual hside hg hf => exact .filterEqual hside hg hf
  | loadAction hside hg hp => exact .loadAction hside hg hp
  | loadParam hside hg hp => exact .loadParam (v := { v with roles, runs }) hside hg hp
  | acting hside hg hp => exact .acting (v := { v with roles, runs }) hside hg hp
  | endReady hside hg => exact .endReady hside hg
  | finished hside => exact .finished hside

theorem due_of_same (call i : Nat) {roles : List Role}
    (hsame : roles[i]? = some .stays ↔ v.roles[i]? = some .stays) :
    View.due call { v with roles } i = v.due call i := by
  unfold View.due
  simp only [hsame]
  rfl

/-- A thread told to exit that has exited is joined. -/
theorem join_agrees (h : Agrees s v) (hside : v.side = .within) {t : Nat} {u : WorkerThread}
    (hleaves : v.roles[t]? = some .leaves) (hu : s.threads[t]? = some u) (hexited : u.pc = .exited) :
    Agrees s { v with roles := v.roles.set t .left } := by
  have hlt := (List.getElem?_eq_some_iff.mp hleaves).1
  have hrole : ∀ i r, (v.roles.set t .left)[i]? = some r →
      (i = t ∧ r = .left) ∨ (i ≠ t ∧ v.roles[i]? = some r) := by
    intro i r hr
    by_cases hi : t = i
    · subst hi
      rw [List.getElem?_set_self hlt] at hr
      cases hr
      exact Or.inl ⟨rfl, rfl⟩
    · rw [List.getElem?_set_ne hi] at hr
      exact Or.inr ⟨Ne.symm hi, hr⟩
  have hsame : ∀ i : Nat, (v.roles.set t .left)[i]? = some Role.stays ↔
      v.roles[i]? = some .stays := by
    intro i
    by_cases hi : t = i
    · subst hi
      rw [List.getElem?_set_self hlt, hleaves]
      exact iff_of_false (by decide) (by decide)
    · rw [List.getElem?_set_ne hi]
  exact { h with
    length := by
      rw [List.length_set]
      exact h.length
    mustExit := by
      intro i w r hw hr
      rcases hrole i r hr with ⟨rfl, rfl⟩ | ⟨-, hr⟩
      · exact (h.mustExit i w .leaves hw hleaves).trans (iff_of_true (by decide) (by decide))
      · exact h.mustExit i w r hw hr
    stands := by
      intro i w r hi hw hr
      rcases hrole i r hr with ⟨rfl, rfl⟩ | ⟨-, hr⟩
      · cases hw.symm.trans hu
        rw [hexited]
        exact .exited hside (by decide)
      · exact (h.stands i w r hi hw hr).of_same _ v.runs
    counts := by
      intro kind i
      rw [← h.counts kind i]
      unfold State.owed
      rw [due_of_same s.returned i (hsame i)] }

/-- The joined threads leave the pool. -/
theorem resize_agrees (h : Agrees s v) (hside : v.side = .within) {n : Nat} (hn : 0 < n)
    (hleft : ∀ r ∈ v.roles.drop n, r = .left) :
    Agrees { s with threads := s.threads.take n } { v with roles := v.roles.take n } := by
  have hgone : ∀ w ∈ s.threads.drop n, w.pc = .exited := by
    intro w hw
    obtain ⟨j, hj⟩ := List.getElem?_of_mem hw
    rw [List.getElem?_drop] at hj
    obtain ⟨r, hr⟩ := h.role hj
    have hst := h.stands (n + j) w r (by omega) hj hr
    rw [hleft r (List.mem_of_getElem? (by rw [List.getElem?_drop]; exact hr))] at hst
    obtain ⟨mustExit, pc⟩ := w
    cases hst with
    | exited => rfl
    | startReady _ _ hr | endSpin _ _ hr | startSpin _ hr | released _ _ hr | exitTest _ _ hr =>
      exact absurd rfl hr
  have hcount : ∀ pc, pc ≠ .exited →
      (s.threads.take n).countP (fun w => decide (w.pc = pc)) = s.countAt pc := by
    intro pc hpc
    have hzero : (s.threads.drop n).countP (fun w => decide (w.pc = pc)) = 0 := by
      apply List.countP_eq_zero.mpr
      intro w hw
      simpa [hgone w hw] using Ne.symm hpc
    rw [State.countAt, ← List.take_append_drop n s.threads, List.countP_append, hzero,
      List.take_append_drop, Nat.add_zero]
  have hthread : ∀ {i w}, (s.threads.take n)[i]? = some w → i < n ∧ s.threads[i]? = some w := by
    intro i w hw
    rw [List.getElem?_take] at hw
    split at hw
    · rename_i hi
      exact ⟨hi, hw⟩
    · cases hw
  have hrole : ∀ {i r}, i < n → (v.roles.take n)[i]? = some r → v.roles[i]? = some r := by
    intro i r hi hr
    rwa [List.getElem?_take, if_pos hi] at hr
  exact { h with
    length := by
      rw [List.length_take, List.length_take, h.length]
    caller := by
      rw [List.getElem?_take, if_pos hn]
      exact h.caller
    mustExit := by
      intro i w r hw hr
      obtain ⟨hi, hw⟩ := hthread hw
      exact h.mustExit i w r hw (hrole hi hr)
    stands := by
      intro i w r hi hw hr
      obtain ⟨hlt, hw⟩ := hthread hw
      exact (h.stands i w r hi hw (hrole hlt hr)).of_same _ v.runs
    startGate := by
      have hgate := h.startGate
      rw [hside, if_neg (by decide)] at hgate ⊢
      exact hgate
    endGate := by
      have hgate := h.endGate
      rw [hside, if_neg (by decide)] at hgate ⊢
      exact hgate.trans (hcount .endSpin (by decide)).symm
    counts := by
      intro kind i
      rw [← h.counts kind i]
      apply congrArg (s.times kind s.returned i + ·)
      unfold State.owed
      by_cases hi : i < n
      · rw [List.getElem?_take, if_pos hi]
        rw [due_of_same s.returned i (by rw [List.getElem?_take, if_pos hi])]
      · rw [List.getElem?_take, if_neg hi, if_neg fun hand => absurd hand.2 nofun]
        refine (if_neg fun hand => ?_).symm
        cases hw : s.threads[i]? with
        | none =>
          rw [hw] at hand
          cases hand.2
        | some w =>
          have hmem : w ∈ s.threads.drop n := by
            apply List.mem_of_getElem? (i := i - n)
            rw [List.getElem?_drop, Nat.add_sub_cancel' (by omega)]
            exact hw
          rw [hw, Option.map_some, hgone w hmem] at hand
          simp [Pc.owes] at hand }

/-! ## The main thread's own turn -/

theorem own_agrees (h : Agrees s v) (kind : Kind) :
    Agrees (s.note kind s.action s.param 0) { v with runs := v.plus kind (v.own s.returned) } where
  threadFilter := h.threadFilter
  action := h.action
  param := h.param
  installed := h.installed
  length := h.length
  caller := h.caller
  mustExit := h.mustExit
  stands i w r hi hw hr := (h.stands i w r hi hw hr).of_same v.roles _
  startGate := h.startGate
  endGate := h.endGate
  counts kind' i := by
    have hc := h.counts kind' i
    show (s.log ++ [Event.mk kind s.action s.param 0 s.returned]).countP _ + s.owed v kind' i = _
    rw [List.countP_append, List.countP_singleton]
    show s.times kind' s.returned i + _ + _ = v.runs kind' i + _
    simp only [Event.isOf, decide_eq_true_eq, View.own, h.action, @eq_comm _ kind kind',
      @eq_comm _ 0 i]
    by_cases hkind : kind' = kind
    · by_cases hown : i = 0 ∧ v.action = .thunk s.returned
      · rw [if_pos ⟨hkind, hown.2, hown.1⟩, if_pos hkind, if_pos hown]
        omega
      · rw [if_neg fun hand => hown ⟨hand.2.2, hand.2.1⟩, if_pos hkind, if_neg hown]
        omega
    · rw [if_neg fun hand => hkind hand.1, if_neg hkind]
      omega

end Turf.Dispatch
