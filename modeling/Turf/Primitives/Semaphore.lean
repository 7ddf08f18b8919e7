import Mathlib.Algebra.BigOperators.Fin
import Mathlib.Algebra.Order.BigOperators.Group.Finset
import Turf.Lib.Schedule

/-!
# The three semaphores

Semaphore_POSIX.h, Semaphore_Mach.h and Semaphore_Win32.h. Any number of threads call `signal`
and `wait` on one semaphore. Each call of the platform is a step; a wait may be interrupted
without consuming a unit, and a release beyond the maximum fails without effect.
-/
namespace Turf.Primitives.Semaphore

open Turf.Lib.Schedule

inductive Kind where
  | posix
  | mach
  | win32
  deriving DecidableEq

/-- `INT32_MAX`. -/
def maxCount : Nat := 2147483647

/-- Where a thread stands. A `wait` about to return has consumed a unit or was interrupted; a
`signal` has `count` units still to release. -/
inductive Pc where
  | idle
  | waiting
  | returning (consumed : Bool)
  | signalling (count : Nat)

/-- `available` is the platform's count. The other numbers are not kept by the program: the
counts of all calls of `signal` so far, the calls of `wait` that have returned, and those of
them that returned without a unit. -/
structure State (ι : Type) where
  available : Nat
  pc : ι → Pc
  signalled : Nat
  returned : Nat
  spurious : Nat

def start (ι : Type) : State ι := ⟨0, fun _ => .idle, 0, 0, 0⟩

inductive Label (ι : Type) where
  | wait (t : ι)
  | signal (t : ι) (count : Nat)
  | step (t : ι)
  | interrupt (t : ι)

def Label.interrupts {ι : Type} : Label ι → Bool
  | .interrupt _ => true
  | _ => false

/-- Where an interrupted `wait` goes on. The POSIX loop tries again after `EINTR`, on Mach the
result is not looked at, and `WaitForSingleObject` is not interrupted. -/
def afterInterrupt : Kind → Option Pc
  | .posix => some .waiting
  | .mach => some (.returning false)
  | .win32 => none

/-- `sem_post` and `semaphore_signal`. -/
def post (available : Nat) : Nat := if available < maxCount then available + 1 else available

/-- The conversion of `count` to the `LONG` that `ReleaseSemaphore` takes. -/
def toLong (count : Nat) : Int := Int.bmod count (2 ^ 32)

def releaseSemaphore (available : Nat) (count : Int) : Nat :=
  if 0 < count ∧ available + count ≤ maxCount then (available + count).toNat else available

/-- A step of `signal`: all units at once on Win32, one unit of the loop elsewhere. -/
def signalStep (k : Kind) (available count : Nat) : Pc × Nat :=
  match k with
  | .win32 => (.idle, releaseSemaphore available (toLong count))
  | .posix | .mach =>
    match count with
    | 0 => (.idle, available)
    | count + 1 => (.signalling count, post available)

namespace Pc

/-- The units that a `signal` has still to release. -/
def unposted : Pc → Nat
  | .signalling count => count
  | _ => 0

/-- The units that a `wait` has consumed without having returned. -/
def consumed : Pc → Nat
  | .returning true => 1
  | _ => 0

/-- The returns without a unit that are about to happen. -/
def aborted : Pc → Nat
  | .returning false => 1
  | _ => 0

/-- A thread in no `signal` and with no unit on its way out of a `wait`. -/
def quiet : Pc → Bool
  | .signalling _ | .returning true => false
  | _ => true

end Pc

theorem quiet_none {pc : Pc} (h : pc.quiet = true) : pc.unposted = 0 ∧ pc.consumed = 0 := by
  cases pc with
  | signalling count => cases h
  | returning consumed =>
    cases consumed
    · exact ⟨rfl, rfl⟩
    · cases h
  | _ => exact ⟨rfl, rfl⟩

theorem aborted_none {pc : Pc} (h : ∀ b, pc ≠ .returning b) : pc.aborted = 0 := by
  cases pc with
  | returning consumed => exact absurd rfl (h consumed)
  | _ => rfl

variable {ι : Type}

/-- What the threads have between them. -/
def total [Fintype ι] (f : Pc → Nat) (pc : ι → Pc) : Nat := ∑ t, f (pc t)

theorem le_total [Fintype ι] (f : Pc → Nat) (pc : ι → Pc) (t : ι) : f (pc t) ≤ total f pc :=
  Finset.single_le_sum (f := fun u => f (pc u)) (fun _ _ => Nat.zero_le _) (Finset.mem_univ t)

theorem total_eq_zero [Fintype ι] {f : Pc → Nat} {pc : ι → Pc} :
    total f pc = 0 ↔ ∀ t, f (pc t) = 0 := by
  simp [total]

/-- The units available or still to be released by a `signal` in progress. -/
def outstanding [Fintype ι] (s : State ι) : Nat := s.available + total Pc.unposted s.pc

variable [DecidableEq ι]

def State.goto (s : State ι) (t : ι) (pc : Pc) : State ι :=
  { s with pc := Function.update s.pc t pc }

/-- What thread `t` does next. -/
def stepAt (k : Kind) (s : State ι) (t : ι) : Pc → Option (State ι)
  | .idle => none
  | .waiting =>
    if 0 < s.available then
      some { s.goto t (.returning true) with available := s.available - 1 }
    else none
  | .returning consumed =>
    some { s.goto t .idle with
      returned := s.returned + 1
      spurious := s.spurious + if consumed then 0 else 1 }
  | .signalling count =>
    let (pc, available) := signalStep k s.available count
    some { s.goto t pc with available := available }

def next (k : Kind) (s : State ι) (l : Label ι) : Option (State ι) :=
  match l with
  | .wait t =>
    match s.pc t with
    | .idle => some (s.goto t .waiting)
    | _ => none
  | .signal t count =>
    match s.pc t with
    | .idle => some { s.goto t (.signalling count) with signalled := s.signalled + count }
    | _ => none
  | .step t => stepAt k s t (s.pc t)
  | .interrupt t =>
    match s.pc t with
    | .waiting => (afterInterrupt k).map (s.goto t)
    | _ => none

theorem releaseSemaphore_toLong {available count : Nat} (h : available + count ≤ maxCount) :
    releaseSemaphore available (toLong count) = available + count := by
  have hlong : toLong count = count := by
    unfold maxCount at h
    apply Int.bmod_eq_of_le
    all_goals omega
  rw [hlong, releaseSemaphore]
  split
  · omega
  · omega

/-- What a `signal` releases is neither lost nor made up while the maximum is not exceeded. -/
theorem signalStep_keeps (k : Kind) {available count : Nat} (h : available + count ≤ maxCount) :
    (signalStep k available count).2 + (signalStep k available count).1.unposted =
      available + count := by
  have hloop : (∃ n, count = n + 1) → post available = available + 1 := by
    intro ⟨n, hn⟩
    exact if_pos (by omega)
  cases k with
  | win32 => simp [signalStep, Pc.unposted, releaseSemaphore_toLong h]
  | _ =>
    cases count with
    | zero => rfl
    | succ count =>
      simp only [signalStep, Pc.unposted, hloop ⟨count, rfl⟩]
      omega

/-- A `signal` has no unit consumed. -/
theorem signalStep_pc (k : Kind) (available count : Nat) :
    (signalStep k available count).1.consumed = 0 ∧
      (signalStep k available count).1.aborted = 0 := by
  cases k <;> cases count <;> exact ⟨rfl, rfl⟩

/-- Everything a step can be. -/
theorem next_cases {k : Kind} {s s' : State ι} {l : Label ι} (h : next k s l = some s') :
    (∃ t, l = .wait t ∧ s.pc t = .idle ∧ s' = s.goto t .waiting) ∨
    (∃ t count, l = .signal t count ∧ s.pc t = .idle ∧
      s' = { s.goto t (.signalling count) with signalled := s.signalled + count }) ∨
    (∃ t, l = .step t ∧ s.pc t = .waiting ∧ 0 < s.available ∧
      s' = { s.goto t (.returning true) with available := s.available - 1 }) ∨
    (∃ t consumed, l = .step t ∧ s.pc t = .returning consumed ∧
      s' = { s.goto t .idle with
        returned := s.returned + 1, spurious := s.spurious + if consumed then 0 else 1 }) ∨
    (∃ t count, l = .step t ∧ s.pc t = .signalling count ∧
      s' = { s.goto t (signalStep k s.available count).1 with
        available := (signalStep k s.available count).2 }) ∨
    (∃ t pc, l = .interrupt t ∧ s.pc t = .waiting ∧ afterInterrupt k = some pc ∧
      s' = s.goto t pc) := by
  cases l with
  | wait t =>
    left
    cases hp : s.pc t with
    | idle => exact ⟨t, rfl, hp, by simpa [next, hp] using h.symm⟩
    | _ => simp [next, hp] at h
  | signal t count =>
    right; left
    cases hp : s.pc t with
    | idle => exact ⟨t, count, rfl, hp, by simpa [next, hp] using h.symm⟩
    | _ => simp [next, hp] at h
  | step t =>
    right; right
    cases hp : s.pc t with
    | idle => simp [next, stepAt, hp] at h
    | waiting =>
      simp only [next, stepAt, hp] at h
      split at h
      · exact .inl ⟨t, rfl, hp, ‹_›, by simpa using h.symm⟩
      · cases h
    | returning consumed =>
      exact .inr (.inl ⟨t, consumed, rfl, hp, by simpa [next, stepAt, hp] using h.symm⟩)
    | signalling count =>
      exact .inr (.inr (.inl ⟨t, count, rfl, hp, by simpa [next, stepAt, hp] using h.symm⟩))
  | interrupt t =>
    right; right; right; right; right
    cases hp : s.pc t with
    | waiting =>
      obtain ⟨pc, hk, rfl⟩ := Option.map_eq_some_iff.mp (by simpa [next, hp] using h)
      exact ⟨t, pc, rfl, hp, hk, rfl⟩
    | _ => simp [next, hp] at h

/-! ## Conservation -/

variable [Fintype ι]

/-- A total before and after one thread has moved. -/
theorem total_goto (f : Pc → Nat) {s : State ι} {t : ι} {pc : Pc} (hp : s.pc t = pc) (pc' : Pc) :
    total f (Function.update s.pc t pc') + f pc = total f s.pc + f pc' := by
  have hother : ∑ u ∈ Finset.univ.erase t, f (Function.update s.pc t pc' u) =
      ∑ u ∈ Finset.univ.erase t, f (s.pc u) := by
    apply Finset.sum_congr rfl
    intro u hu
    rw [Function.update_of_ne (Finset.ne_of_mem_erase hu)]
  have hnew := Finset.add_sum_erase Finset.univ (fun u => f (Function.update s.pc t pc' u))
    (Finset.mem_univ t)
  have hold := Finset.add_sum_erase Finset.univ (fun u => f (s.pc u)) (Finset.mem_univ t)
  simp only [Function.update_self] at hnew
  rw [hp] at hold
  unfold total
  omega

/-- Each unit signalled is available, still to be released, consumed by a `wait` on its way out,
or gone with a `wait` that has returned. The returns without a unit come on top. -/
def Balanced (s : State ι) : Prop :=
  s.returned + outstanding s + total Pc.consumed s.pc = s.signalled + s.spurious

theorem next_balanced {k : Kind} {s s' : State ι} {l : Label ι} (h : next k s l = some s')
    (hb : outstanding s ≤ maxCount) (hs : Balanced s) : Balanced s' := by
  simp only [Balanced, outstanding] at hs hb ⊢
  rcases next_cases h with ⟨t, _, hp, rfl⟩ | ⟨t, count, _, hp, rfl⟩ | ⟨t, _, hp, ha, rfl⟩ |
    ⟨t, consumed, _, hp, rfl⟩ | ⟨t, count, _, hp, rfl⟩ | ⟨t, pc, _, hp, hk, rfl⟩
  all_goals simp only [State.goto]
  · have hu := total_goto Pc.unposted hp .waiting
    have hc := total_goto Pc.consumed hp .waiting
    simp only [Pc.unposted, Pc.consumed] at hu hc
    omega
  · have hu := total_goto Pc.unposted hp (.signalling count)
    have hc := total_goto Pc.consumed hp (.signalling count)
    simp only [Pc.unposted, Pc.consumed] at hu hc
    omega
  · have hu := total_goto Pc.unposted hp (.returning true)
    have hc := total_goto Pc.consumed hp (.returning true)
    simp only [Pc.unposted, Pc.consumed] at hu hc
    omega
  · have hu := total_goto Pc.unposted hp .idle
    have hc := total_goto Pc.consumed hp .idle
    cases consumed
    all_goals simp only [Pc.unposted, Pc.consumed] at hu hc ⊢
    all_goals simp
    all_goals omega
  · have hu := total_goto Pc.unposted hp (signalStep k s.available count).1
    have hc := total_goto Pc.consumed hp (signalStep k s.available count).1
    have hle := le_total Pc.unposted s.pc t
    rw [hp] at hle
    rw [(signalStep_pc k s.available count).1] at hc
    have hfits : s.available + count ≤ maxCount := le_trans (Nat.add_le_add_left hle _) hb
    have hkeeps := signalStep_keeps k hfits
    have hcount : (Pc.signalling count).unposted = count := rfl
    have hnone : (Pc.signalling count).consumed = 0 := rfl
    omega
  · have hu := total_goto Pc.unposted hp pc
    have hc := total_goto Pc.consumed hp pc
    cases k <;> cases hk
    all_goals simp only [Pc.unposted, Pc.consumed] at hu hc
    all_goals omega

/-- Only on Mach does an interruption lead to a return without a unit. -/
theorem next_spurious {k : Kind} {s s' : State ι} {l : Label ι} (h : next k s l = some s') :
    s'.spurious + total Pc.aborted s'.pc =
      s.spurious + total Pc.aborted s.pc + if k = .mach ∧ l.interrupts then 1 else 0 := by
  rcases next_cases h with ⟨t, rfl, hp, rfl⟩ | ⟨t, count, rfl, hp, rfl⟩ | ⟨t, rfl, hp, ha, rfl⟩ |
    ⟨t, consumed, rfl, hp, rfl⟩ | ⟨t, count, rfl, hp, rfl⟩ | ⟨t, pc, rfl, hp, hk, rfl⟩
  all_goals simp only [State.goto, Label.interrupts]
  · have ha := total_goto Pc.aborted hp .waiting
    simpa [Pc.aborted] using ha
  · have ha := total_goto Pc.aborted hp (.signalling count)
    simpa [Pc.aborted] using ha
  · have ha := total_goto Pc.aborted hp (.returning true)
    simpa [Pc.aborted] using ha
  · have ha := total_goto Pc.aborted hp .idle
    cases consumed
    all_goals simp only [Pc.aborted] at ha ⊢
    all_goals simp
    all_goals omega
  · have ha := total_goto Pc.aborted hp (signalStep k s.available count).1
    rw [(signalStep_pc k s.available count).2] at ha
    simpa [Pc.aborted] using ha
  · have ha := total_goto Pc.aborted hp pc
    cases k <;> cases hk
    all_goals simp only [Pc.aborted] at ha
    all_goals simp
    all_goals omega

theorem run_spurious {k : Kind} {s s' : State ι} {ls : List (Label ι)}
    (h : run (next k) s ls = some s') :
    s'.spurious + total Pc.aborted s'.pc = s.spurious + total Pc.aborted s.pc +
      if k = .mach then ls.countP Label.interrupts else 0 := by
  induction ls generalizing s with
  | nil =>
    cases h
    simp
  | cons l ls ih =>
    obtain ⟨u, hu, hrest⟩ := run_cons.mp h
    rw [ih hrest, next_spurious hu, List.countP_cons]
    by_cases hk : k = .mach <;> simp [hk]
    omega

/-- No `signal` is in progress and no `wait` has a unit without having returned. -/
def Quiescent (s : State ι) : Prop := ∀ t, (s.pc t).quiet = true

/-- The waits that have returned and the units available make up what has been signalled. -/
def Conserved (s : State ι) : Prop := s.returned + s.available = s.signalled

instance (s : State ι) : Decidable (Quiescent s) :=
  inferInstanceAs (Decidable (∀ t, (s.pc t).quiet = true))

instance (s : State ι) : Decidable (Conserved s) :=
  inferInstanceAs (Decidable (s.returned + s.available = s.signalled))

/-- While the units outstanding never exceed the maximum, what has been signalled is conserved
in every quiescent state, up to the returns without a unit. -/
theorem run_conserved {k : Kind} {s : State ι} {ls : List (Label ι)}
    (h : run (next k) (start ι) ls = some s)
    (hb : Along (next k) (fun s => outstanding s ≤ maxCount) (start ι) ls) (hq : Quiescent s) :
    s.returned + s.available = s.signalled + s.spurious := by
  have hbal : Balanced s := by
    refine run_preserves_along (fun _ _ _ hn hb _ => next_balanced hn hb) h hb ?_
    simp [Balanced, outstanding, start, total, Pc.unposted, Pc.consumed]
  have hu : total Pc.unposted s.pc = 0 := total_eq_zero.mpr fun t => (quiet_none (hq t)).1
  have hc : total Pc.consumed s.pc = 0 := total_eq_zero.mpr fun t => (quiet_none (hq t)).2
  unfold Balanced outstanding at hbal
  omega

/-- The returns without a unit, those about to happen included, are the interruptions on Mach. -/
theorem run_interruptions {k : Kind} {s : State ι} {ls : List (Label ι)}
    (h : run (next k) (start ι) ls = some s) :
    s.spurious + total Pc.aborted s.pc = if k = .mach then ls.countP Label.interrupts else 0 := by
  rw [run_spurious h]
  simp [start, total, Pc.aborted]

/-- Where no wait is interrupted on Mach, what has been signalled is conserved in every
quiescent state; and it is in none without a wait on its way out once one has been. -/
theorem conserved_iff_no_mach_interruption (k : Kind) (ls : List (Label ι)) (s : State ι)
    (h : run (next k) (start ι) ls = some s)
    (hb : Along (next k) (fun s => outstanding s ≤ maxCount) (start ι) ls) (hq : Quiescent s) :
    ((k = .mach → ∀ l ∈ ls, l.interrupts = false) → Conserved s) ∧
    ((∀ t b, s.pc t ≠ .returning b) →
      Conserved s → k = .mach → ∀ l ∈ ls, l.interrupts = false) := by
  have hcons := run_conserved h hb hq
  have hint := run_interruptions h
  unfold Conserved
  constructor
  · intro hno
    have hnone : (if k = .mach then ls.countP Label.interrupts else 0) = 0 := by
      split
      · apply List.countP_eq_zero.mpr
        intro l hl
        simpa using hno ‹_› l hl
      · rfl
    omega
  · intro hsettled hc hk l hl
    have hab : total Pc.aborted s.pc = 0 := total_eq_zero.mpr fun t => aborted_none (hsettled t)
    rw [if_pos hk] at hint
    have hzero : ls.countP Label.interrupts = 0 := by omega
    simpa using List.countP_eq_zero.mp hzero l hl

/-- An interrupted wait on the POSIX semaphore, and a signal. -/
def interruptedWait : List (Label Bool) :=
  [.wait true, .interrupt true, .signal false 1, .step false, .step false, .step true, .step true]

theorem conserved_iff_no_mach_interruption_small :
    ∃ s, run (next .posix) (start Bool) interruptedWait = some s ∧ s.returned = 1 ∧
      Conserved s := by
  have hb : Along (next .posix) (fun s => outstanding s ≤ maxCount) (start Bool)
      interruptedWait :=
    .cons (by decide) rfl <| .cons (by decide) rfl <| .cons (by decide) rfl <|
      .cons (by decide) rfl <| .cons (by decide) rfl <| .cons (by decide) rfl <|
      .cons (by decide) rfl <| .nil (by decide)
  have hq : ∃ s, run (next .posix) (start Bool) interruptedWait = some s ∧ s.returned = 1 ∧
      Quiescent s := ⟨_, rfl, rfl, by decide⟩
  obtain ⟨s, hs, hr, hq⟩ := hq
  refine ⟨s, hs, hr, ?_⟩
  exact (conserved_iff_no_mach_interruption .posix interruptedWait s hs hb hq).1 (by decide)

/-- On Mach a wait that is interrupted returns although nothing was ever signalled. -/
theorem mach_wait_returns_without_unit :
    ∃ s, run (next .mach) (start (Fin 1)) [.wait 0, .interrupt 0, .step 0] = some s ∧
      Along (next .mach) (fun s => outstanding s ≤ maxCount) (start (Fin 1))
        [.wait 0, .interrupt 0, .step 0] ∧
      Quiescent s ∧ s.returned = 1 ∧ s.signalled = 0 ∧ ¬ Conserved s := by
  refine ⟨_, rfl, ?_, by decide, rfl, rfl, by decide⟩
  exact .cons (by decide) rfl <| .cons (by decide) rfl <| .cons (by decide) rfl <|
    .nil (by decide)

end Turf.Primitives.Semaphore
