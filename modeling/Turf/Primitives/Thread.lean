import Turf.Lib.Schedule

/-!
# The life of a thread object

Thread_POSIX.h and Thread_Win32.h. One object is constructed, run, joined and destroyed in any
order that its own assertions allow, while each creation of a thread succeeds or fails. The
system numbers the threads it creates and keeps the handles of those that have been neither
joined nor detached.
-/
namespace Turf.Primitives.Thread

open Turf.Lib.Schedule

/-- What `pthread_create` or `CreateThread` does. After a failed `pthread_create` the contents of
the handle are undefined. -/
inductive Outcome (H : Type) where
  | success (h : H)
  | failure (left : H)

def Outcome.failed {H : Type} : Outcome H → Bool
  | .success _ => false
  | .failure _ => true

/-- How a class stores whether it has a thread. `create` is what the members hold after a
creation, and `returned` are the handles that a successful one can give. Neither class looks at
the result of a creation. -/
structure Encoding (H : Type) where
  Obj : Type
  unattached : Obj
  create : Outcome H → Obj
  attached : Obj → Bool
  handle : Obj → H
  returned : H → Bool
  not_attached : attached unattached = false
  attached_success : ∀ h, returned h = true → attached (create (.success h)) = true
  handle_success : ∀ h, handle (create (.success h)) = h
  attached_failure : ∀ left, attached (create (.failure left)) = true

variable {H : Type}

/-! ## The two classes -/

structure Thread_POSIX (H : Type) where
  handle : H
  attached : Bool

def Thread_POSIX.create : Outcome H → Thread_POSIX H
  | .success h => ⟨h, true⟩
  | .failure left => ⟨left, true⟩

/-- `zero` is what `memset` makes of a `pthread_t`. -/
def posix (zero : H) : Encoding H where
  Obj := Thread_POSIX H
  unattached := ⟨zero, false⟩
  create := Thread_POSIX.create
  attached := Thread_POSIX.attached
  handle := Thread_POSIX.handle
  returned := fun _ => true
  not_attached := rfl
  attached_success := fun _ _ => rfl
  handle_success := fun _ => rfl
  attached_failure := fun _ => rfl

/-- `NULL` and `INVALID_HANDLE_VALUE`. -/
structure Handles (H : Type) where
  null : H
  invalid : H
  null_ne_invalid : null ≠ invalid

structure Thread_Win32 (H : Type) where
  handle : H

def Thread_Win32.create (c : Handles H) : Outcome H → Thread_Win32 H
  | .success h => ⟨h⟩
  | .failure _ => ⟨c.null⟩

def Thread_Win32.attached [DecidableEq H] (c : Handles H) (o : Thread_Win32 H) : Bool :=
  o.handle ≠ c.invalid

def win32 [DecidableEq H] (c : Handles H) : Encoding H where
  Obj := Thread_Win32 H
  unattached := ⟨c.invalid⟩
  create := Thread_Win32.create c
  attached := Thread_Win32.attached c
  handle := Thread_Win32.handle
  returned := fun h => h ≠ c.null ∧ h ≠ c.invalid
  not_attached := by simp [Thread_Win32.attached]
  attached_success := fun _ hr => decide_eq_true (of_decide_eq_true hr).2
  handle_success := fun _ => rfl
  attached_failure := fun _ => decide_eq_true c.null_ne_invalid

/-! ## The object and the system -/

inductive Phase (O : Type) where
  | unborn
  | alive (o : O)
  | destroyed

/-- `live` has the created threads that are neither joined nor detached, with their handles,
`released` the others in the order in which they were, and `stray` each value that was joined,
detached or closed without being the handle of a live thread. -/
structure State (E : Encoding H) where
  phase : Phase E.Obj
  live : List (Nat × H)
  created : Nat
  released : List Nat
  stray : List H
  failed : Bool

variable {E : Encoding H}

def start (E : Encoding H) : State E := ⟨.unborn, [], 0, [], [], false⟩

inductive Label (H : Type) where
  | construct
  | constructRunning (r : Outcome H)
  | run (r : Outcome H)
  | join
  | destruct

def Label.failed : Label H → Bool
  | .constructRunning r | .run r => r.failed
  | _ => false

/-- The system creates a thread, or does not, and the object stores what it gets. -/
def launch (s : State E) (r : Outcome H) : Option (State E) :=
  match r with
  | .success h =>
    if E.returned h then
      some { s with
        phase := .alive (E.create r)
        live := (s.created, h) :: s.live
        created := s.created + 1
        failed := false }
    else none
  | .failure _ => some { s with phase := .alive (E.create r), failed := true }

/-- The object knows whether it has a thread to join or detach, also after a failed creation;
at the end of its life each thread it created has been joined or detached once; and nothing else
ever is. -/
structure Sound (E : Encoding H) (s : State E) : Prop where
  attached : ∀ o, s.phase = .alive o → (E.attached o = true ↔ ∃ n, (n, E.handle o) ∈ s.live)
  after_failure : s.failed = true → ∀ o, s.phase = .alive o → E.attached o = false
  once : s.phase = .destroyed → s.released = List.range s.created
  stray : s.stray = []

/-- The threads created so far are those released and the one that the object has, if any. -/
structure Accounted (E : Encoding H) (s : State E) : Prop where
  numbers : s.released ++ s.live.map Prod.fst = List.range s.created
  live : s.live = [] ∨
    ∃ o n, s.phase = .alive o ∧ E.attached o = true ∧ s.live = [(n, E.handle o)]

theorem Accounted.no_live {s : State E} (hs : Accounted E s)
    (h : ∀ o, s.phase = .alive o → E.attached o = false) : s.live = [] := by
  rcases hs.live with hl | ⟨o, n, ho, ha, _⟩
  · exact hl
  · rw [h o ho] at ha
    cases ha

theorem start_sound (E : Encoding H) : Sound E (start E) :=
  ⟨by simp [start], by simp [start], by simp [start], rfl⟩

theorem start_accounted (E : Encoding H) : Accounted E (start E) := ⟨rfl, .inl rfl⟩

theorem sound_unattached {s : State E} (hp : s.phase = .alive E.unattached) (hl : s.live = [])
    (hs : s.stray = []) : Sound E s := by
  constructor
  · intro o ho
    cases hp.symm.trans ho
    simp [E.not_attached, hl]
  · intro _ o ho
    cases hp.symm.trans ho
    exact E.not_attached
  · intro hd
    cases hp.symm.trans hd
  · exact hs

theorem launch_cases {s s' : State E} {r : Outcome H} (h : launch s r = some s') :
    (∃ x, r = .success x ∧ E.returned x = true ∧ s' = { s with
      phase := .alive (E.create r), live := (s.created, x) :: s.live, created := s.created + 1,
      failed := false }) ∨
    (∃ left, r = .failure left ∧ s' = { s with phase := .alive (E.create r), failed := true }) := by
  cases r with
  | success x =>
    simp only [launch] at h
    split at h
    · exact .inl ⟨x, rfl, ‹_›, by simpa using h.symm⟩
    · cases h
  | failure left => exact .inr ⟨left, rfl, by simpa [launch] using h.symm⟩

theorem launch_accounted {s s' : State E} {r : Outcome H} (h : launch s r = some s')
    (hs : Accounted E s) (hl : s.live = []) : Accounted E s' := by
  have hnum : s.released = List.range s.created := by
    have := hs.numbers
    simpa [hl] using this
  rcases launch_cases h with ⟨x, rfl, hx, rfl⟩ | ⟨left, rfl, rfl⟩
  · constructor
    · simp [hl, hnum, List.range_succ]
    · refine .inr ⟨_, s.created, rfl, E.attached_success x hx, ?_⟩
      simp [hl, E.handle_success]
  · exact ⟨by simp [hl, hnum], .inl hl⟩

variable [DecidableEq H]

/-- `pthread_join`, `pthread_detach` or `CloseHandle`. -/
def release (s : State E) (h : H) : State E :=
  match s.live.find? fun e => e.2 = h with
  | some e => { s with live := s.live.erase e, released := s.released ++ [e.1] }
  | none => { s with stray := h :: s.stray }

/-- The assertions of `run` and `join` are guards here. -/
def next (E : Encoding H) (s : State E) (l : Label H) : Option (State E) :=
  match l, s.phase with
  | .construct, .unborn => some { s with phase := .alive E.unattached, failed := false }
  | .constructRunning r, .unborn => launch s r
  | .run r, .alive o => if E.attached o then none else launch s r
  | .join, .alive o =>
    if E.attached o then
      some { release s (E.handle o) with phase := .alive E.unattached, failed := false }
    else none
  | .destruct, .alive o =>
    some { (if E.attached o then release s (E.handle o) else s) with
      phase := .destroyed, failed := false }
  | _, _ => none

theorem release_live {s : State E} {n : Nat} {h : H} (hl : s.live = [(n, h)]) :
    release s h = { s with live := [], released := s.released ++ [n] } := by
  simp [release, hl]

theorem release_stray {s : State E} (h : H) (hl : s.live = []) :
    release s h = { s with stray := h :: s.stray } := by
  simp [release, hl]

/-- Releasing the object's thread, or a value that is none. -/
theorem release_cases {s : State E} {o : E.Obj} (hs : Accounted E s) (ho : s.phase = .alive o) :
    (∃ n, s.live = [(n, E.handle o)] ∧
      release s (E.handle o) = { s with live := [], released := s.released ++ [n] } ∧
      s.released ++ [n] = List.range s.created) ∨
    (s.live = [] ∧ release s (E.handle o) = { s with stray := E.handle o :: s.stray } ∧
      s.released = List.range s.created) := by
  have hnum := hs.numbers
  rcases hs.live with hl | ⟨o', n, ho', _, hl⟩
  · exact .inr ⟨hl, release_stray _ hl, by simpa [hl] using hnum⟩
  · cases ho.symm.trans ho'
    exact .inl ⟨n, hl, release_live hl, by simpa [hl] using hnum⟩

theorem next_cases {s s' : State E} {l : Label H} (h : next E s l = some s') :
    (l = .construct ∧ s.phase = .unborn ∧
      s' = { s with phase := .alive E.unattached, failed := false }) ∨
    (∃ r, l.failed = r.failed ∧ (∀ o, s.phase = .alive o → E.attached o = false) ∧
      launch s r = some s') ∨
    (∃ o, l = .join ∧ s.phase = .alive o ∧ E.attached o = true ∧
      s' = { release s (E.handle o) with phase := .alive E.unattached, failed := false }) ∨
    (∃ o, l = .destruct ∧ s.phase = .alive o ∧
      s' = { (if E.attached o then release s (E.handle o) else s) with
        phase := .destroyed, failed := false }) := by
  cases l with
  | construct =>
    cases hp : s.phase with
    | unborn => exact .inl ⟨rfl, rfl, by simpa [next, hp] using h.symm⟩
    | _ => simp [next, hp] at h
  | constructRunning r =>
    cases hp : s.phase with
    | unborn => exact .inr (.inl ⟨r, rfl, by simp, by simpa [next, hp] using h⟩)
    | _ => simp [next, hp] at h
  | run r =>
    cases hp : s.phase with
    | alive o =>
      simp only [next, hp] at h
      split at h
      · cases h
      · rename_i ha
        refine .inr (.inl ⟨r, rfl, ?_, h⟩)
        intro o' ho
        cases ho
        simpa using ha
    | _ => simp [next, hp] at h
  | join =>
    cases hp : s.phase with
    | alive o =>
      simp only [next, hp] at h
      split at h
      · exact .inr (.inr (.inl ⟨o, rfl, rfl, ‹_›, by simpa using h.symm⟩))
      · cases h
    | _ => simp [next, hp] at h
  | destruct =>
    cases hp : s.phase with
    | alive o => exact .inr (.inr (.inr ⟨o, rfl, rfl, by simpa [next, hp] using h.symm⟩))
    | _ => simp [next, hp] at h

theorem release_accounted {s : State E} {o : E.Obj} (hs : Accounted E s)
    (ho : s.phase = .alive o) (p : Phase E.Obj) :
    Accounted E { release s (E.handle o) with phase := p, failed := false } := by
  rcases release_cases hs ho with ⟨n, _, hr, hnum⟩ | ⟨hl, hr, hnum⟩
  · rw [hr]
    exact ⟨by simpa using hnum, .inl rfl⟩
  · rw [hr]
    exact ⟨by simpa [hl] using hnum, .inl hl⟩

theorem next_accounted {s s' : State E} {l : Label H} (h : next E s l = some s')
    (hs : Accounted E s) : Accounted E s' := by
  rcases next_cases h with ⟨_, hp, rfl⟩ | ⟨r, _, hf, hl⟩ | ⟨o, _, ho, ha, rfl⟩ | ⟨o, _, ho, rfl⟩
  · exact ⟨hs.numbers, .inl (hs.no_live (by simp [hp]))⟩
  · exact launch_accounted hl hs (hs.no_live hf)
  · exact release_accounted hs ho _
  · split
    · exact release_accounted hs ho _
    · rename_i ha
      refine ⟨hs.numbers, .inl (hs.no_live ?_)⟩
      intro o' ho'
      cases ho.symm.trans ho'
      simpa using ha

/-- An object that is sound has its thread to release. -/
theorem release_sound {s : State E} {o : E.Obj} (hs : Accounted E s) (hg : Sound E s)
    (ho : s.phase = .alive o) (ha : E.attached o = true) :
    ∃ n, release s (E.handle o) = { s with live := [], released := s.released ++ [n] } ∧
      s.released ++ [n] = List.range s.created := by
  rcases release_cases hs ho with ⟨n, _, hr, hnum⟩ | ⟨hl, _⟩
  · exact ⟨n, hr, hnum⟩
  · obtain ⟨n, hn⟩ := (hg.attached o ho).mp ha
    rw [hl] at hn
    cases hn

/-- A step keeps the object sound unless it is a failed creation, and then it does not. -/
theorem next_sound {s s' : State E} {l : Label H} (h : next E s l = some s')
    (hs : Accounted E s) (hg : Sound E s) : l.failed = false ↔ Sound E s' := by
  rcases next_cases h with ⟨rfl, hp, rfl⟩ | ⟨r, hr, hf, hl⟩ | ⟨o, rfl, ho, ha, rfl⟩ |
    ⟨o, rfl, ho, rfl⟩
  · exact iff_of_true rfl (sound_unattached rfl (hs.no_live (by simp [hp])) hg.stray)
  · rw [hr]
    rcases launch_cases hl with ⟨x, rfl, hx, rfl⟩ | ⟨left, rfl, rfl⟩
    · apply iff_of_true rfl
      refine ⟨?_, by simp, by simp, hg.stray⟩
      intro o ho
      cases ho
      refine iff_of_true (E.attached_success x hx) ⟨s.created, ?_⟩
      simp [E.handle_success]
    · refine iff_of_false (by simp [Outcome.failed]) fun hbad => ?_
      have hno := hbad.after_failure rfl _ rfl
      rw [E.attached_failure] at hno
      cases hno
  · obtain ⟨n, hr, _⟩ := release_sound hs hg ho ha
    rw [hr]
    exact iff_of_true rfl (sound_unattached rfl rfl hg.stray)
  · apply iff_of_true rfl
    split
    · obtain ⟨n, hr, hnum⟩ := release_sound hs hg ho ‹_›
      rw [hr]
      exact ⟨by simp, by simp, fun _ => hnum, hg.stray⟩
    · rename_i ha
      have hl : s.live = [] := by
        apply hs.no_live
        intro o' ho'
        cases ho.symm.trans ho'
        simpa using ha
      refine ⟨by simp, by simp, fun _ => ?_, hg.stray⟩
      simpa [hl] using hs.numbers

/-- An object is sound throughout its life exactly when none of its creations fails. -/
theorem sound_iff {s : State E} {ls : List (Label H)} (h : run (next E) (start E) ls = some s) :
    (∀ l ∈ ls, l.failed = false) ↔ Along (next E) (Sound E) (start E) ls := by
  rw [← steps_labels h]
  exact steps_iff_along (C := fun _ l => l.failed = false) (fun _ _ _ => next_accounted)
    (fun _ _ _ => next_sound) h (start_accounted E) (start_sound E)

/-- `Thread_POSIX` and `Thread_Win32` alike. -/
theorem sound_iff_creations_succeed (ls : List (Label H)) :
    (∀ (zero : H) s, run (next (posix zero)) (start _) ls = some s →
      ((∀ l ∈ ls, l.failed = false) ↔ Along (next (posix zero)) (Sound _) (start _) ls)) ∧
    (∀ (c : Handles H) s, run (next (win32 c)) (start _) ls = some s →
      ((∀ l ∈ ls, l.failed = false) ↔ Along (next (win32 c)) (Sound _) (start _) ls)) :=
  ⟨fun _ _ => sound_iff, fun _ _ => sound_iff⟩

/-- Two threads in turn, the first joined and the second left to the destructor. -/
def twoThreads : List (Label Nat) :=
  [.construct, .run (.success 5), .join, .run (.success 6), .destruct]

theorem sound_iff_creations_succeed_small :
    Along (next (posix 0)) (Sound _) (start _) twoThreads ∧
      Along (next (win32 ⟨0, 1, by decide⟩)) (Sound _) (start _) twoThreads := by
  have hok : ∀ l ∈ twoThreads, l.failed = false := by decide
  obtain ⟨hp, hw⟩ := sound_iff_creations_succeed twoThreads
  exact ⟨(hp 0 _ rfl).mp hok, (hw ⟨0, 1, by decide⟩ _ rfl).mp hok⟩

/-- A default-constructed object whose `run` fails to create a thread. -/
def failedRun : List (Label Nat) := [.construct, .run (.failure 7), .destruct]

theorem failed_creation_released :
    (∃ s : State (posix 0), run (next (posix 0)) (start _) failedRun = some s ∧ s.created = 0 ∧
      s.stray = [7]) ∧
    (∃ s : State (win32 ⟨0, 1, by decide⟩), run (next (win32 ⟨0, 1, by decide⟩)) (start _)
      failedRun = some s ∧ s.created = 0 ∧ s.stray = [0]) ∧
    ¬ Along (next (posix 0)) (Sound _) (start _) failedRun ∧
    ¬ Along (next (win32 ⟨0, 1, by decide⟩)) (Sound _) (start _) failedRun := by
  refine ⟨⟨_, rfl, rfl, rfl⟩, ⟨_, rfl, rfl, rfl⟩, ?_, ?_⟩
  · intro h
    cases (h failedRun _ List.prefix_rfl rfl).stray
  · intro h
    cases (h failedRun _ List.prefix_rfl rfl).stray

end Turf.Primitives.Thread
