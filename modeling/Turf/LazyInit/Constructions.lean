import Turf.LazyInit.Invariant

/-!
# How often the mutex is constructed

`since` counts the constructions after the last run of the destructor. It is one while
the mutex stands and zero while the memory is as zeroed, so that no two constructions fall
between two runs and no lock is taken without one.
-/
namespace Turf.LazyInit

open Turf.Lib.Schedule

variable {n : Nat} {s s' : State n} {t : Fin n} {pc pc' : Pc} {recursive : Bool}

def Event.isConstructed : Event n → Bool
  | .constructed _ => true
  | _ => false

/-- The constructions in a log, the latest event first, up to the last run of the destructor. -/
def since : List (Event n) → Nat
  | [] => 0
  | .constructed _ :: log => since log + 1
  | .destroyed _ :: _ => 0
  | .locked _ :: log => since log

@[simp] theorem since_nil : since ([] : List (Event n)) = 0 := rfl

@[simp] theorem since_constructed (log : List (Event n)) :
    since (.constructed t :: log) = since log + 1 := rfl

@[simp] theorem since_destroyed (log : List (Event n)) : since (.destroyed t :: log) = 0 := rfl

@[simp] theorem since_locked (log : List (Event n)) : since (.locked t :: log) = since log := rfl

/-- The destructor has destroyed the mutex and is clearing the memory. -/
def Pc.zeroing : Pc → Bool
  | zeroFlag | zeroSpin | zeroBuffer => true
  | _ => false

structure Counted (s : State n) : Prop where
  built : IsMutex s.storage → since s.log = 1
  fresh : s.storage = .raw ∨ s.storage = .constructing → (∀ t, (s.pc t).zeroing = false) →
    since s.log = 0
  once : ∀ b, b <:+ s.log → since b ≤ 1
  locked : ∀ t b, .locked t :: b <:+ s.log → since b = 1

theorem counted_start : Counted (start n) where
  built := by
    rintro ⟨o, ho⟩
    cases ho
  fresh _ _ := since_nil
  once b hb := by
    rw [List.suffix_nil.mp hb, since_nil]
    decide
  locked t b hb := by cases List.suffix_nil.mp hb

/-- The log and the storage stay as they are, and a thread that is clearing goes on with it. -/
theorem Counted.move (h : Counted s) (t : Fin n) (pc' : Pc) (hstorage : s'.storage = s.storage)
    (hlog : s'.log = s.log) (hpc : s'.pc = Function.update s.pc t pc')
    (hzero : (s.pc t).zeroing = true → pc'.zeroing = true) : Counted s' where
  built := by
    rw [hstorage, hlog]
    exact h.built
  fresh hraw hall := by
    rw [hstorage] at hraw
    rw [hlog]
    apply h.fresh hraw
    intro u
    have hu := hall u
    rw [hpc] at hu
    by_cases hut : u = t
    · subst hut
      rw [Function.update_self] at hu
      cases hz : (s.pc u).zeroing with
      | false => exact Eq.refl _
      | true => exact absurd (hzero hz) (by rw [hu]; decide)
    · rwa [Function.update_of_ne hut] at hu
  once := by
    rw [hlog]
    exact h.once
  locked := by
    rw [hlog]
    exact h.locked

/-- The storage changes and the log does not. -/
theorem Counted.restore (h : Counted s) (hlog : s'.log = s.log)
    (hbuilt : IsMutex s'.storage → since s.log = 1)
    (hfresh : s'.storage = .raw ∨ s'.storage = .constructing → (∀ t, (s'.pc t).zeroing = false) →
      since s.log = 0) : Counted s' where
  built := by
    rw [hlog]
    exact hbuilt
  fresh := by
    rw [hlog]
    exact hfresh
  once := by
    rw [hlog]
    exact h.once
  locked := by
    rw [hlog]
    exact h.locked

/-- A new event on the log. -/
theorem Counted.record (h : Counted s) {e : Event n} (hlog : s'.log = e :: s.log)
    (hbuilt : IsMutex s'.storage → since (e :: s.log) = 1)
    (hfresh : s'.storage = .raw ∨ s'.storage = .constructing → since (e :: s.log) = 0)
    (honce : since (e :: s.log) ≤ 1) (hlocked : ∀ t, e = .locked t → since s.log = 1) :
    Counted s' where
  built := by
    rw [hlog]
    exact hbuilt
  fresh hraw _ := by
    rw [hlog]
    exact hfresh hraw
  once b hb := by
    rw [hlog] at hb
    rcases List.suffix_cons_iff.mp hb with rfl | hb
    · exact honce
    · exact h.once b hb
  locked u b hb := by
    rw [hlog] at hb
    rcases List.suffix_cons_iff.mp hb with heq | hb
    · obtain ⟨he, rfl⟩ := List.cons.inj heq
      exact hlocked u he.symm
    · exact h.locked u b hb

/-- A step of a thread at `pc` that leaves the storage and the log as they are. -/
theorem Counted.quietly (h : Counted s) (ht : s.pc t = pc) (hpc : pc.zeroing = false)
    (flag spin : Bool) (pc' : Pc) :
    Counted ({ s with initFlag := flag, spinLock := spin }.goto t pc') := by
  apply h.move t pc' (by rfl) (by rfl) (by rfl)
  rw [ht, hpc]
  intro hz
  cases hz

theorem not_isMutex {storage : Storage n} (h : ∀ o, storage ≠ .mutex o) : ¬ IsMutex storage := by
  intro hmutex
  obtain ⟨o, ho⟩ := hmutex
  exact h o ho

theorem zeroing_of_outside (h : pc.inDestructor = false) : pc.zeroing = false := by
  cases pc <;> first | rfl | cases h

/-- While a thread is in a call and not clearing, no thread is clearing. -/
theorem Inv.none_zeroing (hi : Inv s) (ht : s.pc t = pc) (hcall : pc ≠ .idle)
    (hpc : pc.zeroing = false) (u : Fin n) : (s.pc u).zeroing = false := by
  by_cases hu : u = t
  · rw [hu, ht, hpc]
  · exact zeroing_of_outside (hi.no_destructor (by rw [ht]; exact hcall) hu)

/-! ## The steps of a thread -/

theorem Counted.construct (h : Counted s) (hi : Inv s) (ht : s.pc t = .construct) :
    Counted ({ s with storage := .constructing }.goto t .endConstruct) := by
  have hself := hi.stands t
  rw [ht] at hself
  apply h.restore (by rfl)
  · intro hmutex
    exact absurd hmutex (not_isMutex (by simp [State.goto]))
  · intro _ _
    exact h.fresh (.inl hself.2) (hi.none_zeroing ht (by decide) (by decide))

theorem Counted.endConstruct (h : Counted s) (hi : Inv s) (ht : s.pc t = .endConstruct) :
    Counted ({ s with storage := .mutex none, log := .constructed t :: s.log }.goto t .storeFlag) := by
  have hself := hi.stands t
  rw [ht] at hself
  have hfresh : since s.log = 0 :=
    h.fresh (.inr hself.2) (hi.none_zeroing ht (by decide) (by decide))
  apply h.record (e := .constructed t) (Eq.refl _)
  · intro _
    rw [since_constructed, hfresh]
  · rintro (hraw | hraw) <;> cases hraw
  · exact Nat.le_of_eq (by rw [since_constructed, hfresh])
  · intro u hu
    cases hu

/-- The inner mutex is there, whoever owns it. -/
theorem Counted.lockInner (h : Counted s) (hmutex : IsMutex s.storage) (t : Fin n) (owner : Fin n × Nat) :
    Counted ({ s with storage := .mutex (some owner), log := .locked t :: s.log }.goto t .idle) := by
  have hone := h.built hmutex
  apply h.record (e := .locked t) (Eq.refl _)
  · intro _
    rw [since_locked, hone]
  · rintro (hraw | hraw) <;> cases hraw
  · exact Nat.le_of_eq (by rw [since_locked, hone])
  · intro _ _
    exact hone

theorem Counted.unlockInner (h : Counted s) (hmutex : IsMutex s.storage) (t : Fin n)
    (owner : Option (Fin n × Nat)) : Counted ({ s with storage := .mutex owner }.goto t .idle) := by
  apply h.restore (by rfl)
  · intro _
    exact h.built hmutex
  · rintro (hraw | hraw) <;> cases hraw

theorem Counted.destroy (h : Counted s) (t : Fin n) :
    Counted ({ s with storage := .destroying }.goto t .endDestroy) := by
  apply h.restore (by rfl)
  · intro hmutex
    exact absurd hmutex (not_isMutex (by simp [State.goto]))
  · rintro (hraw | hraw) <;> cases hraw

theorem Counted.endDestroy (h : Counted s) (t : Fin n) :
    Counted ({ s with storage := .raw }.goto t .zeroFlag) := by
  apply h.restore (by rfl)
  · intro hmutex
    exact absurd hmutex (not_isMutex (by simp [State.goto]))
  · intro _ hall
    have ht := hall t
    rw [State.goto_self] at ht
    cases ht

/-- The destructor ends, with the memory as zeroed. -/
theorem Counted.destroyed (h : Counted s) (t : Fin n) (hraw : s'.storage = .raw)
    (hlog : s'.log = .destroyed t :: s.log) : Counted s' := by
  apply h.record hlog
  · rintro ⟨o, ho⟩
    cases hraw.symm.trans ho
  · intro _
    exact since_destroyed _
  · rw [since_destroyed]
    decide
  · intro u hu
    cases hu

theorem Counted.stepAt (h : Counted s) (hi : Inv s) (ht : s.pc t = pc)
    (hs : stepAt recursive s t pc = some s') : Counted s' := by
  have hself := hi.stands t
  rw [ht] at hself
  cases pc with
  | idle => cases hs
  | loadFlag =>
    cases hs
    exact h.quietly ht (by decide) s.initFlag s.spinLock _
  | compareExchange =>
    rw [LazyInit.stepAt] at hs
    split at hs
    next =>
      cases hs
      exact h
    next =>
      cases hs
      exact h.quietly ht (by decide) s.initFlag true .loadNonatomic
  | loadNonatomic =>
    cases hs
    exact h.quietly ht (by decide) s.initFlag s.spinLock _
  | construct =>
    cases hs
    exact h.construct hi ht
  | endConstruct =>
    cases hs
    exact h.endConstruct hi ht
  | storeFlag =>
    cases hs
    exact h.quietly ht (by decide) true s.spinLock .releaseSpin
  | releaseSpin =>
    cases hs
    exact h.quietly ht (by decide) s.initFlag false .lockInner
  | lockInner =>
    obtain ⟨-, owner, hstorage⟩ := hself
    rw [LazyInit.stepAt, hstorage] at hs
    obtain ⟨o, -, rfl⟩ := Option.map_eq_some_iff.mp hs
    exact h.lockInner ⟨owner, hstorage⟩ t o
  | assertFlag =>
    rw [LazyInit.stepAt, if_pos hself.1] at hs
    cases hs
    exact h.quietly ht (by decide) s.initFlag s.spinLock .unlockInner
  | unlockInner =>
    obtain ⟨-, k, hstorage⟩ := hself
    rw [LazyInit.stepAt, hstorage] at hs
    cases hs
    exact h.unlockInner ⟨_, hstorage⟩ t _
  | destructor =>
    rw [LazyInit.stepAt] at hs
    split at hs
    next =>
      cases hs
      exact h.quietly ht (by decide) s.initFlag s.spinLock .destroy
    next hflag =>
      cases hs
      have hraw : s.storage = .raw := by
        rcases hi.destructor_settled ht with ⟨htrue, -⟩ | ⟨-, hraw⟩
        · exact absurd htrue hflag
        · exact hraw
      exact h.destroyed t hraw (by rfl)
  | destroy =>
    rw [LazyInit.stepAt, hself.2] at hs
    cases hs
    exact h.destroy t
  | endDestroy =>
    cases hs
    exact h.endDestroy t
  | zeroFlag =>
    cases hs
    exact h.move t .zeroSpin (by rfl) (by rfl) (by rfl)
      (fun _ => Eq.refl true)
  | zeroSpin =>
    cases hs
    exact h.move t .zeroBuffer (by rfl) (by rfl) (by rfl)
      (fun _ => Eq.refl true)
  | zeroBuffer =>
    cases hs
    exact h.destroyed t (by rfl) (by rfl)

/-! ## Runs -/

theorem Counted.next (h : Counted s) (hi : Inv s) {l : Label n}
    (hs : next recursive s l = some s') : Counted s' := by
  have hidle : ∀ {t : Fin n} {pc' : Pc}, s.pc t = .idle → Counted (s.goto t pc') :=
    fun ht => h.quietly ht (Eq.refl false) s.initFlag s.spinLock _
  cases l with
  | lock t =>
    rw [LazyInit.next] at hs
    split at hs
    next hguard =>
      cases hs
      exact hidle hguard.1
    next => cases hs
  | unlock t =>
    rw [LazyInit.next] at hs
    split at hs
    next hguard =>
      cases hs
      exact hidle hguard.1
    next => cases hs
  | destructor t =>
    rw [LazyInit.next] at hs
    split at hs
    next hguard =>
      cases hs
      exact hidle hguard.1
    next => cases hs
  | step t => exact h.stepAt hi (Eq.refl _) hs

theorem counted_run {ls : List (Label n)} (hr : run (next recursive) (start n) ls = some s) :
    Counted s := by
  have hboth : Inv s ∧ Counted s :=
    run_preserves (P := fun s => Inv s ∧ Counted s)
      (fun _ _ _ hs h => ⟨h.1.next hs, h.2.next h.1 hs⟩) hr ⟨inv_start, counted_start⟩
  exact hboth.2

/-! ## Windows of the log -/

theorem since_append_le (w b : List (Event n)) (hw : ∀ u, .destroyed u ∉ w) :
    w.countP Event.isConstructed ≤ since (w ++ b) := by
  induction w with
  | nil => exact Nat.zero_le _
  | cons e w ih =>
    have htail := ih fun u hu => hw u (List.mem_cons_of_mem e hu)
    cases e with
    | constructed u =>
      rw [List.countP_cons_of_pos (by rfl), List.cons_append, since_constructed]
      exact Nat.succ_le_succ htail
    | destroyed u => exact absurd List.mem_cons_self (hw u)
    | locked u =>
      rw [List.countP_cons_of_neg Bool.false_ne_true, List.cons_append, since_locked]
      exact htail

theorem since_append (w b : List (Event n)) (hw : ∀ u, .destroyed u ∉ w) (hb : since b = 0) :
    since (w ++ b) = w.countP Event.isConstructed := by
  induction w with
  | nil => exact hb
  | cons e w ih =>
    have htail := ih fun u hu => hw u (List.mem_cons_of_mem e hu)
    cases e with
    | constructed u =>
      rw [List.countP_cons_of_pos (by rfl), List.cons_append, since_constructed, htail]
    | destroyed u => exact absurd List.mem_cons_self (hw u)
    | locked u =>
      rw [List.countP_cons_of_neg Bool.false_ne_true, List.cons_append, since_locked, htail]

/-- The log begins here, or a destructor has just run. -/
def AtStart (b : List (Event n)) : Prop := b = [] ∨ ∃ u b', b = .destroyed u :: b'

theorem since_of_atStart {b : List (Event n)} (h : AtStart b) : since b = 0 := by
  rcases h with rfl | ⟨u, b', rfl⟩
  · exact since_nil
  · exact since_destroyed b'

/-- With nobody in a call after a run of the destructor, the memory is as at the start. -/
theorem zeroed_of_destroyed (hi : Inv s) (h : Counted s) (hidle : ∀ t, s.pc t = .idle)
    (hlog : AtStart s.log) : s.initFlag = false ∧ s.spinLock = false ∧ s.storage = .raw := by
  have hsettled : Settled s.initFlag s.storage := by
    apply hi.settled
    intro t
    rw [hidle t]
    decide
  have hspin : s.spinLock = false := by
    cases hspin : s.spinLock with
    | false => rfl
    | true =>
      obtain ⟨t, ht⟩ := hi.spin.mp hspin
      rw [hidle t] at ht
      cases ht
  rcases hsettled with ⟨-, hmutex⟩ | ⟨hflag, hraw⟩
  · have hone := h.built hmutex
    rw [since_of_atStart hlog] at hone
    cases hone
  · exact ⟨hflag, hspin, hraw⟩

/-- `lock` without interference, on zeroed memory. -/
theorem run_lock (s : State n) (t : Fin n) (hidle : ∀ u, s.pc u = .idle)
    (hflag : s.initFlag = false) (hspin : s.spinLock = false) :
    ∃ s', run (next recursive) s (.lock t :: List.replicate 8 (.step t)) = some s' ∧
      s'.log = .locked t :: .constructed t :: s.log ∧ s'.held = some (t, 1) := by
  obtain ⟨flag, spin, storage, pc, log⟩ := s
  subst hflag hspin
  have hguard : pc t = .idle ∧ ∀ u, (pc u).inDestructor = false := by
    refine ⟨hidle t, fun u => ?_⟩
    rw [show pc u = .idle from hidle u]
    decide
  simp [run, next, hguard, stepAt, State.goto, List.replicate, lockOwner, State.held]

/-- In every run: between two runs of the destructor at most one construction; a thread about
to reach the inner mutex finds it constructed, and the assertion of `unlock` holds; outside
`lazyInit` and the destructor the flag says whether it is constructed; a lock is preceded by
exactly one construction since the destructor ran, and the first lock after it constructs. -/
theorem constructed_once (n : Nat) (recursive : Bool) (s : State n) (ls : List (Label n))
    (hr : run (next recursive) (start n) ls = some s) :
    (∀ w, w <:+: s.log → (∀ u, .destroyed u ∉ w) → w.countP Event.isConstructed ≤ 1) ∧
      (∀ t, (s.pc t).reachesMutex = true → IsMutex s.storage) ∧
      (∀ t, s.pc t = .assertFlag → s.initFlag = true) ∧
      ((∀ t, (s.pc t).inLazyInit = false ∧ (s.pc t).inDestructor = false) →
        (s.initFlag = true ↔ IsMutex s.storage)) ∧
      (∀ t w b, .locked t :: (w ++ b) <:+ s.log → (∀ u, .destroyed u ∉ w) → AtStart b →
        w.countP Event.isConstructed = 1) ∧
      ((∀ t, s.pc t = .idle) → AtStart s.log → ∀ t, ∃ s',
        run (next recursive) s (.lock t :: List.replicate 8 (.step t)) = some s' ∧
          s'.log = .locked t :: .constructed t :: s.log ∧ s'.held = some (t, 1)) := by
  have hi := inv_run hr
  have hc := counted_run hr
  refine ⟨?_, ?_, ?_, ?_, ?_, ?_⟩
  · rintro w ⟨a, b, hlog⟩ hw
    have hsuffix : w ++ b <:+ s.log := ⟨a, by rw [← List.append_assoc, hlog]⟩
    exact Nat.le_trans (since_append_le w b hw) (hc.once _ hsuffix)
  · intro t ht
    have hself := hi.stands t
    cases hp : s.pc t <;> rw [hp] at ht hself
    case lockInner => exact hself.2
    case unlockInner =>
      obtain ⟨-, k, hk⟩ := hself
      exact ⟨_, hk⟩
    case destroy => exact ⟨none, hself.2⟩
    all_goals cases ht
  · intro t ht
    have hself := hi.stands t
    rw [ht] at hself
    exact hself.1
  · intro hout
    have hsettled : Settled s.initFlag s.storage := by
      apply hi.settled
      intro u
      obtain ⟨hlazy, hdtor⟩ := hout u
      cases hp : s.pc u <;> rw [hp] at hlazy hdtor <;>
        first | decide | exact absurd hlazy (by decide) | exact absurd hdtor (by decide)
    rcases hsettled with ⟨hflag, hmutex⟩ | ⟨hflag, hraw⟩
    · exact iff_of_true hflag hmutex
    · rw [hflag, hraw]
      constructor
      · intro htrue
        cases htrue
      · rintro ⟨o, ho⟩
        cases ho
  · intro t w b hsuffix hw hb
    rw [← since_append w b hw (since_of_atStart hb)]
    exact hc.locked t _ hsuffix
  · intro hidle hlog t
    obtain ⟨hflag, hspin, -⟩ := zeroed_of_destroyed hi hc hidle hlog
    exact run_lock s t hidle hflag hspin

/-- A thread locks and unlocks, the destructor runs, and another thread locks. -/
def twoLives : List (Label 2) :=
  (.lock 0 :: List.replicate 8 (.step 0)) ++ [.unlock 0, .step 0, .step 0] ++
    (.destructor 1 :: List.replicate 6 (.step 1)) ++ (.lock 1 :: List.replicate 8 (.step 1))

theorem constructed_once_twoLives :
    ∃ s, run (next false) (start 2) twoLives = some s ∧
      s.log = [.locked 1, .constructed 1, .destroyed 1, .locked 0, .constructed 0] ∧
      List.countP Event.isConstructed [.constructed (1 : Fin 2)] = 1 :=
  ⟨_, Eq.refl _, Eq.refl _, (constructed_once 2 false _ twoLives (Eq.refl _)).2.2.2.2.1 1
    [.constructed 1] [.destroyed 1, .locked 0, .constructed 0] (List.suffix_refl _)
    (by simp) (.inr ⟨1, _, Eq.refl _⟩)⟩

end Turf.LazyInit
