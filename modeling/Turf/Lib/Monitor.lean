import Mathlib.Logic.Function.Basic
import Turf.Lib.Schedule

/-!
# Monitors: one mutex, one condition variable

Any number of threads run code over data that a mutex is meant to guard. Waiting on the
condition variable gives up the mutex and puts the caller to sleep in one step; a sleeper is
woken by a broadcast or for no reason, and takes the mutex again before it goes on.

`Disciplined` code accesses the data only while it holds the mutex (`run_exclusive`). If it also
owes a broadcast whenever it has made the awaited condition true, and never sleeps while that
condition is true, then nobody is left asleep behind it (`run_told`).
-/
namespace Turf.Lib.Monitor

open Turf.Lib.Schedule

variable {ι D σ : Type*}

/-- The next action of a piece of code, and the code after it. -/
inductive Action (D σ : Type*) where
  | idle
  | lock (k : σ)
  | access (f : D → D) (k : D → σ)
  | wait (k : σ)
  | wakeAll (k : σ)
  | unlock (k : σ)

/-- A thread runs its code, sleeps on the condition variable, or has been woken and is to take
the mutex before it goes on with `k`. -/
inductive Thread (σ : Type*) where
  | running (c : σ)
  | asleep (k : σ)
  | woken (k : σ)

def Thread.wake : Thread σ → Thread σ
  | .asleep k => .woken k
  | th => th

theorem Thread.wake_ne_asleep (th : Thread σ) (k : σ) : th.wake ≠ .asleep k := by
  cases th <;> simp [wake]

theorem Thread.wake_eq_running {th : Thread σ} {c : σ} :
    th.wake = .running c ↔ th = .running c := by
  cases th <;> simp [wake]

structure State (ι D σ : Type*) where
  owner : Option ι
  data : D
  thread : ι → Thread σ

/-- A thread makes the next step of its code, calls a routine, or wakes up for no reason. -/
inductive Move (ι σ : Type*) where
  | step (t : ι)
  | call (t : ι) (c : σ)
  | spurious (t : ι)

def Move.thread : Move ι σ → ι
  | .step t | .call t _ | .spurious t => t

/-- The action agrees with a division of the code into code that holds the mutex and code that
does not. -/
def Action.Respects (holds : σ → Bool) (held : Bool) : Action D σ → Prop
  | .idle => held = false
  | .lock k => held = false ∧ holds k = true
  | .access _ k => held = true ∧ ∀ d, holds (k d) = true
  | .wait k | .wakeAll k => held = true ∧ holds k = true
  | .unlock k => held = true ∧ holds k = false

structure Disciplined (act : σ → Action D σ) (entry holds : σ → Bool) : Prop where
  action : ∀ c, (act c).Respects holds (holds c)
  entry : ∀ c, entry c = true → holds c = false

/-- A thread owns the mutex exactly while it runs code that holds it. -/
def Thread.Placed (holds : σ → Bool) (owns : Prop) : Thread σ → Prop
  | .running c => owns ↔ holds c = true
  | .asleep k | .woken k => ¬ owns ∧ holds k = true

theorem Thread.Placed.wake {holds : σ → Bool} {owns : Prop} {th : Thread σ}
    (h : th.Placed holds owns) : th.wake.Placed holds owns := by
  cases th <;> exact h

def Exclusive (holds : σ → Bool) (s : State ι D σ) : Prop :=
  ∀ t, (s.thread t).Placed holds (s.owner = some t)

variable {holds : σ → Bool}

theorem Exclusive.owner {s : State ι D σ} {t : ι} {c : σ} (h : Exclusive holds s)
    (ht : s.thread t = .running c) : s.owner = some t ↔ holds c = true := by
  have hp := h t
  rwa [ht] at hp

/-- The mutex passes to `t`, which may be its owner already, or is given up by it. -/
theorem owner_other {o : Option ι} {t u : ι} (ho : o = none ∨ o = some t) (hu : u ≠ t) :
    o ≠ some u := by
  rcases ho with rfl | rfl
  · simp
  · simpa using hu.symm

/-- Where an owner of the mutex that stands at `c` knows `At c` about the data: what its action
must keep to. Code that `owes` a broadcast may not give the mutex up. -/
def Action.Tells (awaited : D → Prop) (owes : σ → Prop) (At : σ → D → Prop) (c : σ) :
    Action D σ → Prop
  | .idle => True
  | .lock k => ∀ d, At k d
  | .access f k => ∀ d, At c d →
    At (k d) (f d) ∧ (awaited (f d) → owes (k d) ∨ awaited d ∧ ¬ owes c)
  | .wait k => (∀ d, At c d → ¬ awaited d) ∧ ∀ d, At k d
  | .wakeAll k => ∀ d, At c d → At k d
  | .unlock _ => ¬ owes c

def Signals (act : σ → Action D σ) (awaited : D → Prop) (owes : σ → Prop)
    (At : σ → D → Prop) : Prop :=
  ∀ c, (act c).Tells awaited owes At c

def Thread.Asserts (At : σ → D → Prop) (owns : Prop) (d : D) : Thread σ → Prop
  | .running c => owns → At c d
  | .asleep k | .woken k => ∀ d, At k d

theorem Thread.Asserts.wake {At : σ → D → Prop} {owns : Prop} {d : D} {th : Thread σ}
    (h : th.Asserts At owns d) : th.wake.Asserts At owns d := by
  cases th <;> exact h

/-- The assertions hold where the threads stand. Nobody sleeps while the awaited condition is
true, unless the owner of the mutex owes a broadcast. -/
structure Told (awaited : D → Prop) (owes : σ → Prop) (At : σ → D → Prop) (s : State ι D σ) :
    Prop where
  asserts : ∀ t, (s.thread t).Asserts At (s.owner = some t) s.data
  awake : awaited s.data →
    (∀ t c, s.owner = some t → s.thread t = .running c → ¬ owes c) → ∀ u k, s.thread u ≠ .asleep k

variable {awaited : D → Prop} {owes : σ → Prop} {At : σ → D → Prop}

/-- While nobody has the mutex and the awaited condition holds, nobody sleeps. -/
theorem Told.no_sleeper {s : State ι D σ} (hs : Told awaited owes At s) (ho : s.owner = none)
    (ha : awaited s.data) (t : ι) (k : σ) : s.thread t ≠ .asleep k :=
  hs.awake ha (fun _ _ hu => nomatch ho.symm.trans hu) t k

variable [DecidableEq ι]

def State.set (s : State ι D σ) (t : ι) (th : Thread σ) : State ι D σ :=
  { s with thread := Function.update s.thread t th }

/-- What thread `t` does at the code `c`. It waits for the mutex while another thread has it. -/
def exec (s : State ι D σ) (t : ι) : Action D σ → Option (State ι D σ)
  | .idle => none
  | .lock k => if s.owner = none then some { s.set t (.running k) with owner := some t } else none
  | .access f k => some { s.set t (.running (k s.data)) with data := f s.data }
  | .wait k => some { s.set t (.asleep k) with owner := none }
  | .wakeAll k =>
    some { s with thread := Function.update (fun u => (s.thread u).wake) t (.running k) }
  | .unlock k => some { s.set t (.running k) with owner := none }

/-- Where a thread is after its action. -/
def Action.cont (d : D) : Action D σ → Option (Thread σ)
  | .idle => none
  | .lock k | .wakeAll k | .unlock k => some (.running k)
  | .access _ k => some (.running (k d))
  | .wait k => some (.asleep k)

theorem exec_thread {s s' : State ι D σ} {t : ι} {a : Action D σ} (h : exec s t a = some s') :
    a.cont s.data = some (s'.thread t) := by
  cases a with
  | idle => cases h
  | lock k =>
    simp only [exec] at h
    split at h
    · cases h; simp [Action.cont, State.set]
    · cases h
  | _ => cases h; simp [Action.cont, State.set]

variable (act : σ → Action D σ) (entry : σ → Bool)

def next (s : State ι D σ) : Move ι σ → Option (State ι D σ)
  | .step t =>
    match s.thread t with
    | .running c => exec s t (act c)
    | .asleep _ => none
    | .woken k => exec s t (.lock k)
  | .call t c =>
    match s.thread t with
    | .running c' =>
      match act c' with
      | .idle => if entry c then some (s.set t (.running c)) else none
      | _ => none
    | _ => none
  | .spurious t =>
    match s.thread t with
    | .asleep k => some (s.set t (.woken k))
    | _ => none

variable {act entry}

/-- Everything a move can be. -/
theorem next_cases {s s' : State ι D σ} {m : Move ι σ} (h : next act entry s m = some s') :
    (∃ t c, m = .step t ∧ s.thread t = .running c ∧ exec s t (act c) = some s') ∨
    (∃ t k, m = .step t ∧ s.thread t = .woken k ∧ exec s t (.lock k) = some s') ∨
    (∃ t c c', m = .call t c ∧ s.thread t = .running c' ∧ act c' = .idle ∧ entry c = true ∧
      s' = s.set t (.running c)) ∨
    (∃ t k, m = .spurious t ∧ s.thread t = .asleep k ∧ s' = s.set t (.woken k)) := by
  cases m with
  | step t =>
    cases ht : s.thread t with
    | running c => exact .inl ⟨t, c, rfl, ht, by simpa [next, ht] using h⟩
    | asleep k => simp [next, ht] at h
    | woken k => exact .inr (.inl ⟨t, k, rfl, ht, by simpa [next, ht] using h⟩)
  | call t c =>
    cases ht : s.thread t with
    | running c' =>
      cases ha : act c' with
      | idle =>
        simp only [next, ht, ha] at h
        split at h
        · exact .inr (.inr (.inl ⟨t, c, c', rfl, ht, ha, ‹_›, by simpa using h.symm⟩))
        · cases h
      | _ => simp [next, ht, ha] at h
    | _ => simp [next, ht] at h
  | spurious t =>
    cases ht : s.thread t with
    | asleep k => exact .inr (.inr (.inr ⟨t, k, rfl, ht, by simpa [next, ht] using h.symm⟩))
    | _ => simp [next, ht] at h

/-- A move of one thread leaves another where it is, or wakes it. -/
theorem next_other {s s' : State ι D σ} {m : Move ι σ} {t : ι}
    (h : next act entry s m = some s') (ht : t ≠ m.thread) :
    s'.thread t = s.thread t ∨ s'.thread t = (s.thread t).wake := by
  have hset (th : Thread σ) : (s.set m.thread th).thread t = s.thread t := by
    simp [State.set, ht]
  have hexec (a : Action D σ) (ha : exec s m.thread a = some s') :
      s'.thread t = s.thread t ∨ s'.thread t = (s.thread t).wake := by
    cases a with
    | idle => cases ha
    | lock k =>
      simp only [exec] at ha
      split at ha
      · cases ha; exact .inl (hset _)
      · cases ha
    | access f k => cases ha; exact .inl (hset _)
    | wait k => cases ha; exact .inl (hset _)
    | wakeAll k => cases ha; exact .inr (by simp [ht])
    | unlock k => cases ha; exact .inl (hset _)
  rcases next_cases h with ⟨u, c, rfl, _, he⟩ | ⟨u, k, rfl, _, he⟩ | ⟨u, c, c', rfl, _, _, _, rfl⟩ |
    ⟨u, k, rfl, _, rfl⟩
  · exact hexec _ he
  · exact hexec _ he
  · exact .inl (hset _)
  · exact .inl (hset _)

/-- Another thread's move brings nobody to a piece of code. -/
theorem next_other_running {s s' : State ι D σ} {m : Move ι σ} {t : ι} {c : σ}
    (h : next act entry s m = some s') (ht : t ≠ m.thread) :
    s'.thread t = .running c ↔ s.thread t = .running c := by
  rcases next_other h ht with he | he
  · rw [he]
  · rw [he, Thread.wake_eq_running]

/-! ## Mutual exclusion -/

/-- One thread's place and the owner change together, and no other thread notices. -/
theorem Exclusive.set {s r : State ι D σ} {t : ι} {th : Thread σ} (hs : Exclusive holds s)
    (hth : r.thread = Function.update s.thread t th) (ht : th.Placed holds (r.owner = some t))
    (ho : ∀ u, u ≠ t → (r.owner = some u ↔ s.owner = some u)) : Exclusive holds r := by
  intro u
  rw [hth]
  by_cases hu : u = t
  · subst u
    rwa [Function.update_self]
  · rw [Function.update_of_ne hu, ho u hu]
    exact hs u

theorem exec_exclusive {s s' : State ι D σ} {t : ι} {a : Action D σ} (hs : Exclusive holds s)
    (ha : a.Respects holds (decide (s.owner = some t))) (h : exec s t a = some s') :
    Exclusive holds s' := by
  cases a with
  | idle => cases h
  | lock k =>
    simp only [exec] at h
    split at h
    · cases h
      refine hs.set rfl (iff_of_true rfl ha.2) fun u hu => ?_
      exact iff_of_false (owner_other (.inr rfl) hu) (owner_other (.inl ‹_›) hu)
    · cases h
  | access f k =>
    cases h
    exact hs.set rfl (iff_of_true (of_decide_eq_true ha.1) (ha.2 _)) fun u _ => Iff.rfl
  | wait k =>
    cases h
    refine hs.set rfl ⟨by simp, ha.2⟩ fun u hu => ?_
    exact iff_of_false (owner_other (.inl rfl) hu) (owner_other (.inr (of_decide_eq_true ha.1)) hu)
  | wakeAll k =>
    cases h
    have hw : Exclusive holds { s with thread := fun u => (s.thread u).wake } :=
      fun u => (hs u).wake
    exact hw.set rfl (iff_of_true (of_decide_eq_true ha.1) ha.2) fun u _ => Iff.rfl
  | unlock k =>
    cases h
    refine hs.set rfl (iff_of_false (by simp) (by simp [ha.2])) fun u hu => ?_
    exact iff_of_false (owner_other (.inl rfl) hu) (owner_other (.inr (of_decide_eq_true ha.1)) hu)

theorem next_exclusive (hd : Disciplined act entry holds) {s s' : State ι D σ} {m : Move ι σ}
    (h : next act entry s m = some s') (hs : Exclusive holds s) : Exclusive holds s' := by
  rcases next_cases h with ⟨t, c, rfl, ht, he⟩ | ⟨t, k, rfl, ht, he⟩ |
    ⟨t, c, c', rfl, ht, ha, hc, rfl⟩ | ⟨t, k, rfl, ht, rfl⟩
  · apply exec_exclusive hs _ he
    rw [Bool.eq_iff_iff.mpr ((decide_eq_true_iff).trans (hs.owner ht))]
    exact hd.action c
  · have hp := hs t
    rw [ht] at hp
    exact exec_exclusive (a := .lock k) hs ⟨decide_eq_false hp.1, hp.2⟩ he
  · have hc' : holds c' = false := by
      have hr := hd.action c'
      rwa [ha] at hr
    refine hs.set (r := s.set t (.running c)) rfl ?_ fun u _ => Iff.rfl
    exact (hs.owner ht).trans (by rw [hc', hd.entry c hc])
  · have hp := hs t
    rw [ht] at hp
    exact hs.set rfl hp fun u _ => Iff.rfl

theorem run_exclusive (hd : Disciplined act entry holds) {s s' : State ι D σ}
    {ms : List (Move ι σ)} (h : run (next act entry) s ms = some s') (hs : Exclusive holds s) :
    Exclusive holds s' :=
  run_preserves (fun _ _ _ h => next_exclusive hd h) h hs

/-! ## The awaited condition -/

theorem asserts_set {s r : State ι D σ} {t : ι} {th : Thread σ}
    (hs : ∀ u, (s.thread u).Asserts At (s.owner = some u) s.data)
    (hth : r.thread = Function.update s.thread t th)
    (ht : th.Asserts At (r.owner = some t) r.data)
    (ho : ∀ u, u ≠ t → r.owner = some u → s.owner = some u ∧ r.data = s.data) (u : ι) :
    (r.thread u).Asserts At (r.owner = some u) r.data := by
  rw [hth]
  by_cases hu : u = t
  · subst u
    rwa [Function.update_self]
  · rw [Function.update_of_ne hu]
    have h := hs u
    cases hk : s.thread u with
    | running c =>
      rw [hk] at h
      intro hown
      obtain ⟨hold, hd⟩ := ho u hu hown
      rw [hd]
      exact h hold
    | asleep k => rwa [hk] at h
    | woken k => rwa [hk] at h

theorem awake_set {s r : State ι D σ} {t : ι} {th : Thread σ}
    (hs : ∀ u k, s.thread u ≠ .asleep k) (hth : r.thread = Function.update s.thread t th)
    (ht : ∀ k, th ≠ .asleep k) (u : ι) (k : σ) : r.thread u ≠ .asleep k := by
  rw [hth]
  by_cases hu : u = t
  · subst u
    rw [Function.update_self]
    exact ht k
  · rw [Function.update_of_ne hu]
    exact hs u k

/-- Taking the mutex, for the first time or after sleeping. -/
theorem lock_told {s s' : State ι D σ} {t : ι} {k : σ} (hs : Told awaited owes At s)
    (hk : ∀ d, At k d) (h : exec s t (.lock k) = some s') : Told awaited owes At s' := by
  simp only [exec] at h
  split at h
  · cases h
    constructor
    · refine asserts_set hs.asserts rfl (fun _ => hk _) fun u hu ho => ?_
      exact absurd ho (owner_other (.inr rfl) hu)
    · intro ha _
      refine awake_set (hs.awake ha ?_) rfl (by simp)
      intro u c ho
      cases ‹s.owner = none›.symm.trans ho
  · cases h

/-- What the owner of the mutex does next. -/
theorem exec_told {s s' : State ι D σ} {t : ι} {c : σ} {a : Action D σ}
    (hg : a.Tells awaited owes At c) (hs : Told awaited owes At s)
    (ht : s.thread t = .running c) (ho : s.owner = some t) (h : exec s t a = some s') :
    Told awaited owes At s' := by
  have hat : At c s.data := by
    have hp := hs.asserts t
    rw [ht] at hp
    exact hp ho
  have hawake (ha : awaited s.data) (hc : ¬ owes c) : ∀ u k, s.thread u ≠ .asleep k := by
    apply hs.awake ha
    intro u d hu hd
    obtain rfl : t = u := Option.some.inj (ho.symm.trans hu)
    obtain rfl : c = d := Thread.running.inj (ht.symm.trans hd)
    exact hc
  cases a with
  | idle => cases h
  | lock k => exact lock_told hs hg h
  | access f k =>
    cases h
    obtain ⟨hk, htell⟩ := hg s.data hat
    constructor
    · refine asserts_set hs.asserts rfl (fun _ => hk) fun u hu hown => ?_
      exact absurd hown (owner_other (.inr ho) hu)
    · intro ha howes
      have hn := howes t (k s.data) ho (by simp [State.set])
      rcases htell ha with hw | ⟨hw, hc⟩
      · exact absurd hw hn
      · exact awake_set (hawake hw hc) rfl (by simp)
  | wait k =>
    cases h
    constructor
    · exact asserts_set hs.asserts rfl hg.2 fun u _ hown => nomatch hown
    · intro ha
      exact absurd ha (hg.1 s.data hat)
  | wakeAll k =>
    cases h
    constructor
    · have hw (u : ι) : (s.thread u).wake.Asserts At (s.owner = some u) s.data :=
        (hs.asserts u).wake
      exact asserts_set (s := { s with thread := fun u => (s.thread u).wake }) hw rfl
        (fun _ => hg _ hat) fun u _ hown => ⟨hown, rfl⟩
    · intro _ _
      exact awake_set (s := { s with thread := fun u => (s.thread u).wake })
        (fun u => (s.thread u).wake_ne_asleep) rfl (by simp)
  | unlock k =>
    cases h
    constructor
    · exact asserts_set hs.asserts rfl (fun hown => nomatch hown) fun u _ hown => nomatch hown
    · intro ha _
      exact awake_set (hawake ha hg) rfl (by simp)

theorem next_told (hd : Disciplined act entry holds) (hg : Signals act awaited owes At)
    {s s' : State ι D σ} {m : Move ι σ} (h : next act entry s m = some s')
    (hx : Exclusive holds s) (hs : Told awaited owes At s) : Told awaited owes At s' := by
  rcases next_cases h with ⟨t, c, rfl, ht, he⟩ | ⟨t, k, rfl, ht, he⟩ |
    ⟨t, c, c', rfl, ht, ha, hc, rfl⟩ | ⟨t, k, rfl, ht, rfl⟩
  · by_cases ho : s.owner = some t
    · exact exec_told (hg c) hs ht ho he
    · have hc : holds c = false := Bool.eq_false_iff.mpr fun hc => ho ((hx.owner ht).mpr hc)
      have hr := hd.action c
      rw [hc] at hr
      have htell := hg c
      cases hact : act c with
      | idle => rw [hact] at he; cases he
      | lock k => rw [hact] at he htell; exact lock_told hs htell he
      | _ => rw [hact] at hr; exact absurd hr.1 (by decide)
  · have hp := hs.asserts t
    rw [ht] at hp
    exact lock_told hs hp he
  · have hidle : s.owner ≠ some t := by
      intro ho
      have hr := hd.action c'
      rw [ha, (hx.owner ht).mp ho] at hr
      cases hr
    constructor
    · refine asserts_set (r := s.set t (.running c)) hs.asserts rfl ?_ fun u _ ho => ⟨ho, rfl⟩
      exact fun ho => absurd ho hidle
    · intro haw howes
      refine awake_set (hs.awake haw ?_) (r := s.set t (.running c)) rfl (by simp)
      intro u d hu hd'
      apply howes u d hu
      have hut : u ≠ t := fun h => hidle (h ▸ hu)
      simpa [State.set, hut] using hd'
  · have hp := hs.asserts t
    rw [ht] at hp
    constructor
    · exact asserts_set (r := s.set t (.woken k)) hs.asserts rfl hp fun u _ ho => ⟨ho, rfl⟩
    · intro haw howes
      refine awake_set (hs.awake haw ?_) (r := s.set t (.woken k)) rfl (by simp)
      intro u d hu hd'
      apply howes u d hu
      have hut : u ≠ t := by
        intro h
        subst u
        rw [ht] at hd'
        cases hd'
      simpa [State.set, hut] using hd'

theorem run_told (hd : Disciplined act entry holds) (hg : Signals act awaited owes At)
    {s s' : State ι D σ} {ms : List (Move ι σ)} (h : run (next act entry) s ms = some s')
    (hx : Exclusive holds s) (hs : Told awaited owes At s) : Told awaited owes At s' :=
  (run_preserves (P := fun s => Exclusive holds s ∧ Told awaited owes At s)
    (fun _ _ _ h hs => ⟨next_exclusive hd h hs.1, next_told hd hg h hs.1 hs.2⟩) h ⟨hx, hs⟩).2

end Turf.Lib.Monitor
