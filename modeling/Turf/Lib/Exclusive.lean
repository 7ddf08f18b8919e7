import Turf.Lib.Schedule

/-!
# Code that updates a location with exclusive accesses

A thread runs code with a private state `σ`. Its shared accesses are loads that set
an exclusive monitor and stores that succeed only while the monitor is still set.
Any number of other writers store to the location at any time, which clears the
monitor, and a store may also fail for no reason.

Private steps commute with everything the others do, so code is specified at its
shared accesses only: `Settles` runs the private steps up to the next one, and
`Retry` states what holds there.
-/
namespace Turf.Lib.Exclusive

open Turf.Lib.Schedule

variable {V σ : Type}

/-- What the code does next. The continuation of a store receives its success; that
of a locked instruction, which applies `f` indivisibly, the value it replaced. -/
inductive Action (V σ : Type) where
  | stop
  | fault
  | tau (c : σ)
  | load (k : V → σ)
  | store (new : V) (k : Bool → σ)
  | locked (f : V → V) (k : V → σ)

/-- The shared accesses of the code, as they happened. -/
inductive Access (V : Type) where
  | load (v : V)
  | store (before after : V)
  | failed
  deriving DecidableEq

structure State (V σ : Type) where
  code : σ
  value : V
  monitor : Bool
  log : List (Access V)

/-- A move of the code, whose store is granted if the monitor allows it, or a store
of another writer. -/
inductive Move (V : Type) where
  | exec (grant : Bool)
  | write (v : V)

def next (act : σ → Action V σ) (s : State V σ) : Move V → Option (State V σ)
  | .write v => some { s with value := v, monitor := false }
  | .exec grant =>
    match act s.code with
    | .stop => none
    | .fault => none
    | .tau c => some { s with code := c }
    | .load k => some { s with code := k s.value, monitor := true, log := s.log ++ [.load s.value] }
    | .store new k =>
      if s.monitor && grant then
        some { code := k true, value := new, monitor := false, log := s.log ++ [.store s.value new] }
      else
        some { s with code := k false, monitor := false, log := s.log ++ [.failed] }
    | .locked f k =>
      some { code := k s.value, value := f s.value, monitor := false,
             log := s.log ++ [.load s.value, .store s.value (f s.value)] }

def start (code : σ) (value : V) (monitor : Bool) : State V σ := ⟨code, value, monitor, []⟩

/-- The stores of the code: the value each replaced and the value it left. -/
def stores : List (Access V) → List (V × V)
  | [] => []
  | .store before after :: log => (before, after) :: stores log
  | _ :: log => stores log

/-- The value the last exclusive load met. -/
def lastLoad : List (Access V) → Option V
  | [] => none
  | .load v :: log => some ((lastLoad log).getD v)
  | _ :: log => lastLoad log

@[simp] theorem stores_append (xs ys : List (Access V)) :
    stores (xs ++ ys) = stores xs ++ stores ys := by
  induction xs with
  | nil => rfl
  | cons x xs ih => cases x <;> simp [stores, ih]

@[simp] theorem lastLoad_append_load (xs : List (Access V)) (v : V) :
    lastLoad (xs ++ [.load v]) = some v := by
  induction xs with
  | nil => rfl
  | cons x xs ih => cases x <;> simp [lastLoad, ih]

theorem lastLoad_append_of_no_load {xs : List (Access V)} {a : Access V}
    (h : ∀ v, a ≠ .load v) : lastLoad (xs ++ [a]) = lastLoad xs := by
  induction xs with
  | nil => cases a <;> simp_all [lastLoad]
  | cons x xs ih => cases x <;> simp [lastLoad, ih]

/-- The private steps from `c` end at `d`. -/
inductive Settles (act : σ → Action V σ) : σ → σ → Prop
  | here {c : σ} (h : ∀ d, act c ≠ .tau d) : Settles act c c
  | step {c c' d : σ} (h : act c = .tau c') (hd : Settles act c' d) : Settles act c d

variable {act : σ → Action V σ}

theorem Settles.tail {c c' d : σ} (h : Settles act c d) (hc : act c = .tau c') :
    Settles act c' d := by
  cases h with
  | here hn => exact absurd hc (hn c')
  | step hs hd =>
    rw [hc] at hs
    cases hs
    exact hd

theorem Settles.eq {c d : σ} (h : Settles act c d) (hc : ∀ c', act c ≠ .tau c') : d = c := by
  cases h with
  | here => rfl
  | step hs => exact absurd hs (hc _)

/-- How the code ended: without a store, on a refused store or on a store. -/
inductive Outcome (V : Type) where
  | kept
  | refused
  | stored (new : V)

/-- The last access of code that loaded `v` and ended so. -/
def Outcome.access (v : V) : Outcome V → Access V
  | kept => .load v
  | refused => .failed
  | stored new => .store v new

def Outcome.stores (v : V) : Outcome V → List (V × V)
  | stored new => [(v, new)]
  | _ => []

/-- Code that loads, computes, tries to store and may start again, specified at its
shared accesses: `A` before a load, `B v` before a store when the load met `v`, and
`Z v out` when it ended with `out` after a load that met `v`. -/
structure Retry (act : σ → Action V σ) (A : σ → Prop) (B : V → σ → Prop)
    (Z : V → Outcome V → σ → Prop) : Prop where
  load : ∀ c, A c → ∃ k, act c = .load k ∧
    ∀ v, ∃ d, Settles act (k v) d ∧ (B v d ∨ Z v .kept d)
  store : ∀ v c, B v c → ∃ new k, act c = .store new k ∧
    (∃ d, Settles act (k true) d ∧ Z v (.stored new) d) ∧
    ∃ d, Settles act (k false) d ∧ (A d ∨ Z v .refused d)
  stop : ∀ v out c, Z v out c → act c = .stop

/-- Where the code stands, against the accesses it has made. -/
inductive Stands (A : σ → Prop) (B : V → σ → Prop) (Z : V → Outcome V → σ → Prop) (d : σ)
    (s : State V σ) : Prop
  | before (h : A d) (hlog : stores s.log = [])
  | loaded (v : V) (h : B v d) (hlog : stores s.log = []) (hlast : lastLoad s.log = some v)
      (hmon : s.monitor = true → s.value = v)
  | ended (v : V) (out : Outcome V) (h : Z v out d) (hlog : stores s.log = out.stores v)
      (hlast : lastLoad s.log = some v) (hend : s.log.getLast? = some (out.access v))

variable {A : σ → Prop} {B : V → σ → Prop} {Z : V → Outcome V → σ → Prop}

/-- About to load, the code stands before a load and has stored nothing. -/
theorem Stands.of_load (hp : Retry act A B Z) {s : State V σ} {k : V → σ}
    (h : Stands A B Z s.code s) (hk : act s.code = .load k) : A s.code ∧ stores s.log = [] := by
  cases h with
  | before h hlog => exact ⟨h, hlog⟩
  | loaded v h =>
    obtain ⟨new, k', hstore, -⟩ := hp.store v _ h
    rw [hk] at hstore
    cases hstore
  | ended v out h =>
    have hstop := hp.stop v out _ h
    rw [hk] at hstop
    cases hstop

/-- About to store, the code has loaded, and its monitor guards the value it met. -/
theorem Stands.of_store (hp : Retry act A B Z) {s : State V σ} {new : V} {k : Bool → σ}
    (h : Stands A B Z s.code s) (hk : act s.code = .store new k) :
    ∃ v, B v s.code ∧ stores s.log = [] ∧ lastLoad s.log = some v ∧
      (s.monitor = true → s.value = v) := by
  cases h with
  | before h =>
    obtain ⟨k', hload, -⟩ := hp.load _ h
    rw [hk] at hload
    cases hload
  | loaded v h hlog hlast hmon => exact ⟨v, h, hlog, hlast, hmon⟩
  | ended v out h =>
    have hstop := hp.stop v out _ h
    rw [hk] at hstop
    cases hstop

theorem Stands.of_stop (hp : Retry act A B Z) {s : State V σ} (h : Stands A B Z s.code s)
    (hstop : act s.code = .stop) :
    ∃ v out, Z v out s.code ∧ stores s.log = out.stores v ∧ lastLoad s.log = some v ∧
      s.log.getLast? = some (out.access v) := by
  cases h with
  | before h =>
    obtain ⟨k, hload, -⟩ := hp.load _ h
    rw [hstop] at hload
    cases hload
  | loaded v h =>
    obtain ⟨new, k, hstore, -⟩ := hp.store v _ h
    rw [hstop] at hstore
    cases hstore
  | ended v out h hlog hlast hend => exact ⟨v, out, h, hlog, hlast, hend⟩

theorem Stands.not_locked (hp : Retry act A B Z) {s : State V σ} (h : Stands A B Z s.code s)
    (f : V → V) (k : V → σ) : act s.code ≠ .locked f k := by
  intro hk
  cases h with
  | before h =>
    obtain ⟨k', hload, -⟩ := hp.load _ h
    rw [hk] at hload
    cases hload
  | loaded v h =>
    obtain ⟨new, k', hstore, -⟩ := hp.store v _ h
    rw [hk] at hstore
    cases hstore
  | ended v out h =>
    have hstop := hp.stop v out _ h
    rw [hk] at hstop
    cases hstop

theorem next_stands (hp : Retry act A B Z) (s : State V σ) (m : Move V) (s' : State V σ)
    (hs : next act s m = some s') (h : ∃ d, Settles act s.code d ∧ Stands A B Z d s) :
    ∃ d, Settles act s'.code d ∧ Stands A B Z d s' := by
  obtain ⟨d, hd, hst⟩ := h
  cases m with
  | write v =>
    cases hs
    refine ⟨d, hd, ?_⟩
    cases hst with
    | before h hlog => exact .before h hlog
    | loaded v h hlog hlast _ => exact .loaded v h hlog hlast nofun
    | ended v out h hlog hlast hend => exact .ended v out h hlog hlast hend
  | exec grant =>
    unfold next at hs
    dsimp only at hs
    split at hs
    · cases hs
    · cases hs
    · rename_i c hc
      cases hs
      refine ⟨d, hd.tail hc, ?_⟩
      cases hst with
      | before h hlog => exact .before h hlog
      | loaded v h hlog hlast hmon => exact .loaded v h hlog hlast hmon
      | ended v out h hlog hlast hend => exact .ended v out h hlog hlast hend
    · rename_i k hk
      cases hs
      obtain rfl := hd.eq (by rw [hk]; nofun)
      obtain ⟨h, hlog⟩ := hst.of_load hp hk
      obtain ⟨k', hk', hv⟩ := hp.load _ h
      obtain rfl : k' = k := by simpa [hk'] using hk
      obtain ⟨d, hd, hb | hz⟩ := hv s.value
      · exact ⟨d, hd, .loaded s.value hb (by simp [hlog, stores]) (by simp) fun _ => rfl⟩
      · exact ⟨d, hd, .ended s.value .kept hz (by simp [hlog, stores, Outcome.stores]) (by simp)
          (by simp [Outcome.access])⟩
    · rename_i new k hk
      obtain rfl := hd.eq (by rw [hk]; nofun)
      obtain ⟨v, h, hlog, hlast, hmon⟩ := hst.of_store hp hk
      obtain ⟨new', k', hk', ⟨dt, hdt, hz⟩, df, hdf, hor⟩ := hp.store v _ h
      rw [hk] at hk'
      cases hk'
      split at hs
      · rename_i hgrant
        cases hs
        have hv := hmon (Bool.and_eq_true _ _ ▸ hgrant).1
        refine ⟨dt, hdt, .ended v (.stored new) hz ?_ ?_ ?_⟩
        · simp [hlog, stores, hv, Outcome.stores]
        · rw [lastLoad_append_of_no_load nofun]
          exact hlast
        · simp [Outcome.access, hv]
      · cases hs
        rcases hor with ha | hz
        · exact ⟨df, hdf, .before ha (by simp [hlog, stores])⟩
        · refine ⟨df, hdf, .ended v .refused hz (by simp [hlog, stores, Outcome.stores]) ?_
            (by simp [Outcome.access])⟩
          rw [lastLoad_append_of_no_load nofun]
          exact hlast
    · rename_i f k hk
      obtain rfl := hd.eq (by rw [hk]; nofun)
      exact absurd hk (hst.not_locked hp f k)

/-- On every run the code stands at one of its specified points. -/
theorem run_stands (hp : Retry act A B Z) {entry c : σ} (hc : Settles act entry c) (ha : A c)
    {value : V} {monitor : Bool} {moves : List (Move V)} {s : State V σ}
    (hr : run (next act) (start entry value monitor) moves = some s) :
    ∃ d, Settles act s.code d ∧ Stands A B Z d s :=
  run_preserves (next_stands hp) hr ⟨c, hc, .before ha rfl⟩

/-- When the code has stopped, its accesses agree with the specification of its end. -/
theorem run_stopped (hp : Retry act A B Z) {entry c : σ} (hc : Settles act entry c) (ha : A c)
    {value : V} {monitor : Bool} {moves : List (Move V)} {s : State V σ}
    (hr : run (next act) (start entry value monitor) moves = some s) (hstop : act s.code = .stop) :
    ∃ v out, Z v out s.code ∧ stores s.log = out.stores v ∧ lastLoad s.log = some v ∧
      s.log.getLast? = some (out.access v) := by
  obtain ⟨d, hd, hst⟩ := run_stands hp hc ha hr
  obtain rfl := hd.eq (by rw [hstop]; nofun)
  exact hst.of_stop hp hstop

/-! ## Returning once the others pause -/

theorem Settles.reaches {c d : σ} (h : Settles act c d) (value : V) (monitor : Bool)
    (log : List (Access V)) : ∃ n, run (next act) ⟨c, value, monitor, log⟩
      (List.replicate n (.exec true)) = some ⟨d, value, monitor, log⟩ := by
  induction h with
  | here => exact ⟨0, rfl⟩
  | step h _ ih =>
    obtain ⟨n, hn⟩ := ih
    exact ⟨n + 1, run_cons.mpr ⟨_, by simp only [next, h], hn⟩⟩

private theorem replicate_trans {s t u : State V σ} {m n : Nat}
    (h : run (next act) s (List.replicate m (.exec true)) = some t)
    (k : run (next act) t (List.replicate n (.exec true)) = some u) :
    run (next act) s (List.replicate (m + n) (.exec true)) = some u := by
  rw [List.replicate_add]
  exact run_append.mpr ⟨t, h, k⟩

/-- Left alone before a load, the code loads, stores and stops. -/
theorem returns_from_load (hp : Retry act A B Z) {c : σ} (ha : A c) (value : V) (monitor : Bool)
    (log : List (Access V)) : ∃ n s, run (next act) ⟨c, value, monitor, log⟩
      (List.replicate n (.exec true)) = some s ∧ act s.code = .stop := by
  obtain ⟨k, hk, hv⟩ := hp.load c ha
  obtain ⟨d, hd, hb | hz⟩ := hv value
  all_goals
    have hload : run (next act) ⟨c, value, monitor, log⟩ (List.replicate 1 (.exec true)) =
        some ⟨k value, value, true, log ++ [.load value]⟩ := by simp [run, next, hk]
    obtain ⟨m, hm⟩ := hd.reaches value true (log ++ [.load value])
  · obtain ⟨new, k', hk', ⟨e, he, hz⟩, -⟩ := hp.store value d hb
    have hstore : run (next act) ⟨d, value, true, log ++ [.load value]⟩
        (List.replicate 1 (.exec true)) =
        some ⟨k' true, new, false, log ++ [.load value] ++ [.store value new]⟩ := by
      simp [run, next, hk']
    obtain ⟨n, hn⟩ := he.reaches new false (log ++ [.load value] ++ [.store value new])
    exact ⟨_, _, replicate_trans (replicate_trans (replicate_trans hload hm) hstore) hn,
      hp.stop _ _ _ hz⟩
  · exact ⟨_, _, replicate_trans hload hm, hp.stop _ _ _ hz⟩

/-- From any state of a run the code returns once the others pause. -/
theorem run_returns (hp : Retry act A B Z) {entry c : σ} (hc : Settles act entry c) (ha : A c)
    {value : V} {monitor : Bool} {moves : List (Move V)} {s : State V σ}
    (hr : run (next act) (start entry value monitor) moves = some s) :
    ∃ n s', run (next act) s (List.replicate n (.exec true)) = some s' ∧ act s'.code = .stop := by
  obtain ⟨d, hd, hst⟩ := run_stands hp hc ha hr
  obtain ⟨m, hm⟩ := hd.reaches s.value s.monitor s.log
  cases hst with
  | before h =>
    obtain ⟨n, s', hn, hstop⟩ := returns_from_load hp h s.value s.monitor s.log
    exact ⟨m + n, s', replicate_trans hm hn, hstop⟩
  | ended v out h => exact ⟨m, _, hm, hp.stop v out _ h⟩
  | loaded v h =>
    obtain ⟨new, k, hk, ⟨dt, hdt, hz⟩, df, hdf, hor⟩ := hp.store v d h
    cases hmon : s.monitor with
    | true =>
      have hstore : run (next act) ⟨d, s.value, s.monitor, s.log⟩ (List.replicate 1 (.exec true)) =
          some ⟨k true, new, false, s.log ++ [.store s.value new]⟩ := by simp [run, next, hk, hmon]
      obtain ⟨n, hn⟩ := hdt.reaches new false (s.log ++ [.store s.value new])
      exact ⟨_, _, replicate_trans (replicate_trans hm hstore) hn, hp.stop _ _ _ hz⟩
    | false =>
      have hstore : run (next act) ⟨d, s.value, s.monitor, s.log⟩ (List.replicate 1 (.exec true)) =
          some ⟨k false, s.value, false, s.log ++ [.failed]⟩ := by simp [run, next, hk, hmon]
      obtain ⟨n, hn⟩ := hdf.reaches s.value false (s.log ++ [.failed])
      have hback := replicate_trans (replicate_trans hm hstore) hn
      rcases hor with ha | hz
      · obtain ⟨n', s', hn', hstop⟩ := returns_from_load hp ha s.value false (s.log ++ [.failed])
        exact ⟨_, s', replicate_trans hback hn', hstop⟩
      · exact ⟨_, _, hback, hp.stop _ _ _ hz⟩

end Turf.Lib.Exclusive
