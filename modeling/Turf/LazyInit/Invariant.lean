import Turf.LazyInit.Model

/-!
# The invariant of the lazily constructed mutex

`m_initFlag` and the storage agree except while one thread is between constructing the
mutex and setting the flag, or between destroying it and clearing the flag. The thread in
the first stretch holds the spin lock, so there is only one; during the second no other
thread is in a call.
-/
namespace Turf.LazyInit

open Turf.Lib.Schedule

variable {n : Nat}

/-- The thread holds the spin lock. -/
def Pc.spinner : Pc → Bool
  | loadNonatomic | construct | endConstruct | storeFlag | releaseSpin => true
  | _ => false

/-- The flag and the storage may disagree. -/
def Pc.unsettled : Pc → Bool
  | endConstruct | storeFlag | endDestroy | zeroFlag => true
  | _ => false

def IsMutex (storage : Storage n) : Prop := ∃ owner, storage = .mutex owner

def Settled (flag : Bool) (storage : Storage n) : Prop :=
  (flag = true ∧ IsMutex storage) ∨ (flag = false ∧ storage = .raw)

/-- What the flag and the storage are while a thread stands at each point. -/
def Stands (flag : Bool) (storage : Storage n) (t : Fin n) : Pc → Prop
  | .construct => flag = false ∧ storage = .raw
  | .endConstruct => flag = false ∧ storage = .constructing
  | .storeFlag => flag = false ∧ storage = .mutex none
  | .releaseSpin | .lockInner => flag = true ∧ IsMutex storage
  | .assertFlag | .unlockInner => flag = true ∧ ∃ k, storage = .mutex (some (t, k))
  | .destructor => ∀ o, storage ≠ .mutex (some o)
  | .destroy => flag = true ∧ storage = .mutex none
  | .endDestroy => flag = true ∧ storage = .destroying
  | .zeroFlag => flag = true ∧ storage = .raw
  | .zeroSpin | .zeroBuffer => flag = false ∧ storage = .raw
  | .idle | .loadFlag | .compareExchange | .loadNonatomic => True

structure Inv (s : State n) : Prop where
  stands : ∀ t, Stands s.initFlag s.storage t (s.pc t)
  settled : (∀ t, (s.pc t).unsettled = false) → Settled s.initFlag s.storage
  alone : ∀ t u, (s.pc t).spinner = true → (s.pc u).spinner = true → t = u
  spin : s.spinLock = true ↔ ∃ t, (s.pc t).spinner = true
  quiet : ∀ t u, (s.pc t).inDestructor = true → u ≠ t → s.pc u = .idle

theorem inv_start : Inv (start n) where
  stands _ := trivial
  settled _ := .inr ⟨Eq.refl false, Eq.refl Storage.raw⟩
  alone _ _ h := by cases h
  spin := by simp [start, Pc.spinner]
  quiet _ _ h := by cases h

variable {s s' : State n} {t u : Fin n} {pc pc' : Pc} {flag flag' : Bool}
  {storage storage' : Storage n} {recursive : Bool}

/-- The log is not part of it. -/
theorem Inv.relog (h : Inv s) (log : List (Event n)) : Inv { s with log := log } :=
  ⟨h.stands, h.settled, h.alone, h.spin, h.quiet⟩

/-- No destructor runs while another call is under way. -/
theorem Inv.no_destructor (h : Inv s) (ht : s.pc t ≠ .idle) (hu : u ≠ t) :
    (s.pc u).inDestructor = false := by
  cases hd : (s.pc u).inDestructor with
  | false => rfl
  | true => exact absurd (h.quiet u t hd hu.symm) ht

/-- What a step has to establish: the rest follows for the threads that did not move. -/
theorem Inv.of_step (h : Inv s) (s' : State n) (t : Fin n) (pc' : Pc)
    (hpc : s'.pc = Function.update s.pc t pc')
    (hself : Stands s'.initFlag s'.storage t pc')
    (hframe : ∀ u, u ≠ t → Stands s'.initFlag s'.storage u (s.pc u))
    (hsettled : pc'.unsettled = false → (∀ u, u ≠ t → (s.pc u).unsettled = false) →
      Settled s'.initFlag s'.storage)
    (halone : pc'.spinner = true → ∀ u, u ≠ t → (s.pc u).spinner = false)
    (hspin : s'.spinLock = true ↔ pc'.spinner = true ∨ ∃ u, u ≠ t ∧ (s.pc u).spinner = true)
    (hquiet : pc'.inDestructor = true → ∀ u, u ≠ t → s.pc u = .idle)
    (hidle : pc' ≠ .idle → ∀ u, u ≠ t → (s.pc u).inDestructor = false) : Inv s' := by
  have hother : ∀ u, u ≠ t → s'.pc u = s.pc u := by
    intro u hu
    rw [hpc, Function.update_of_ne hu]
  have hmoved : s'.pc t = pc' := by rw [hpc, Function.update_self]
  constructor
  · intro u
    by_cases hu : u = t
    · subst hu
      rwa [hmoved]
    · rw [hother u hu]
      exact hframe u hu
  · intro hall
    apply hsettled
    · rw [← hmoved]
      exact hall t
    · intro u hu
      rw [← hother u hu]
      exact hall u
  · intro u v hu hv
    by_cases hut : u = t
    · subst hut
      by_cases hvu : v = u
      · exact hvu.symm
      · rw [hmoved] at hu
        rw [hother v hvu, halone hu v hvu] at hv
        cases hv
    · rw [hother u hut] at hu
      by_cases hvt : v = t
      · subst hvt
        rw [hmoved] at hv
        rw [halone hv u hut] at hu
        cases hu
      · rw [hother v hvt] at hv
        exact h.alone u v hu hv
  · rw [hspin]
    constructor
    · rintro (hp | ⟨u, hu, hs⟩)
      · exact ⟨t, by rw [hmoved, hp]⟩
      · exact ⟨u, by rw [hother u hu, hs]⟩
    · rintro ⟨u, hu⟩
      by_cases hut : u = t
      · subst hut
        rw [hmoved] at hu
        exact .inl hu
      · rw [hother u hut] at hu
        exact .inr ⟨u, hut, hu⟩
  · intro u v hu hv
    by_cases hut : u = t
    · subst hut
      rw [hmoved] at hu
      rw [hother v hv]
      exact hquiet hu v hv
    · rw [hother u hut] at hu
      by_cases hvt : v = t
      · subst hvt
        rw [hmoved]
        by_contra hne
        rw [hidle hne u hut] at hu
        cases hu
      · rw [hother v hvt]
        exact h.quiet u v hu hv

/-- A step that leaves the spin lock, the flag and the storage alone, and whose thread
neither takes nor gives up the spin lock. -/
theorem Inv.move (h : Inv s) (hself : Stands s.initFlag s.storage t pc')
    (hunsettled : (s.pc t).unsettled = false)
    (hspinner : pc'.spinner = (s.pc t).spinner)
    (hquiet : pc'.inDestructor = true → ∀ u, u ≠ t → s.pc u = .idle)
    (hidle : pc' ≠ .idle → ∀ u, u ≠ t → (s.pc u).inDestructor = false) :
    Inv (s.goto t pc') := by
  apply h.of_step (s.goto t pc') t pc' (Eq.refl _) hself (fun u _ => h.stands u)
  · intro _ hothers
    apply h.settled
    intro u
    by_cases hu : u = t
    · rw [hu, hunsettled]
    · exact hothers u hu
  · intro hp u hu
    cases hsu : (s.pc u).spinner with
    | false => rfl
    | true =>
      rw [hspinner] at hp
      exact absurd (h.alone u t hsu hp) hu
  · rw [hspinner]
    constructor
    · intro hspin
      obtain ⟨u, hu⟩ := h.spin.mp hspin
      by_cases hut : u = t
      · exact .inl (hut ▸ hu)
      · exact .inr ⟨u, hut, hu⟩
    · rintro (ht | ⟨u, -, hu⟩)
      · exact h.spin.mpr ⟨t, ht⟩
      · exact h.spin.mpr ⟨u, hu⟩
  · exact hquiet
  · exact hidle

/-! ## Steps that change the object -/

/-- With the flag clear, a thread outside `lazyInit`'s critical part and the destructor minds
nothing about the object. -/
theorem stands_of_flag_false (h : Stands false storage u pc) (hs : pc.spinner = false)
    (hd : pc.inDestructor = false) : Stands flag' storage' u pc := by
  cases pc <;> simp_all [Stands, Pc.spinner, Pc.inDestructor]

theorem settled_elim (h : Settled flag storage) (hflag : flag = true) : IsMutex storage := by
  rcases h with ⟨-, hmutex⟩ | ⟨hfalse, -⟩
  · exact hmutex
  · rw [hfalse] at hflag
    cases hflag

/-- The thread that holds the spin lock changes the flag or the storage, the flag being clear. -/
theorem Inv.build (h : Inv s) (flag' : Bool) (storage' : Storage n) (pc' : Pc)
    (hspinner : (s.pc t).spinner = true) (hflag : s.initFlag = false)
    (hpc' : pc'.spinner = true) (hself : Stands flag' storage' t pc')
    (hsettled : pc'.unsettled = false → Settled flag' storage') :
    Inv ({ s with initFlag := flag', storage := storage' }.goto t pc') := by
  have hne : s.pc t ≠ .idle := by
    intro hidle
    rw [hidle] at hspinner
    cases hspinner
  have hothers : ∀ u, u ≠ t → (s.pc u).spinner = false := by
    intro u hu
    cases hsu : (s.pc u).spinner with
    | false => rfl
    | true => exact absurd (h.alone u t hsu hspinner) hu
  apply h.of_step _ t pc' (Eq.refl _) hself
  · intro u hu
    have hold := h.stands u
    rw [hflag] at hold
    exact stands_of_flag_false hold (hothers u hu) (h.no_destructor hne hu)
  · intro hp _
    exact hsettled hp
  · intro _
    exact hothers
  · exact iff_of_true (h.spin.mpr ⟨t, hspinner⟩) (.inl hpc')
  · intro hd
    cases pc' <;> cases hd <;> cases hpc'
  · intro _ u hu
    exact h.no_destructor hne hu

theorem Inv.takeSpin (h : Inv s) (ht : s.pc t = .compareExchange) (hspin : s.spinLock = false) :
    Inv ({ s with spinLock := true }.goto t .loadNonatomic) := by
  have hnone : ∀ u, (s.pc u).spinner = false := by
    intro u
    cases hu : (s.pc u).spinner with
    | false => rfl
    | true =>
      rw [h.spin.mpr ⟨u, hu⟩] at hspin
      cases hspin
  have hne : s.pc t ≠ .idle := by
    rw [ht]
    decide
  apply h.of_step (State.goto { s with spinLock := true } t .loadNonatomic) t .loadNonatomic (Eq.refl _) trivial (fun u _ => h.stands u)
  · intro _ hothers
    apply h.settled
    intro u
    by_cases hu : u = t
    · rw [hu, ht]
      decide
    · exact hothers u hu
  · intro _ u _
    exact hnone u
  · exact iff_of_true (Eq.refl _) (.inl (Eq.refl _))
  · intro hd
    cases hd
  · intro _ u hu
    exact h.no_destructor hne hu

theorem Inv.freeSpin (h : Inv s) (ht : s.pc t = .releaseSpin) :
    Inv ({ s with spinLock := false }.goto t .lockInner) := by
  have hself := h.stands t
  rw [ht] at hself
  have hne : s.pc t ≠ .idle := by
    rw [ht]
    decide
  have hothers : ∀ u, u ≠ t → (s.pc u).spinner = false := by
    intro u hu
    cases hsu : (s.pc u).spinner with
    | false => rfl
    | true => exact absurd (h.alone u t hsu (by rw [ht]; decide)) hu
  apply h.of_step (State.goto { s with spinLock := false } t .lockInner) t .lockInner (Eq.refl _) hself (fun u _ => h.stands u)
  · intro _ _
    exact .inl hself
  · intro hp
    cases hp
  · constructor
    · intro hfalse
      cases hfalse
    · rintro (hp | ⟨u, hu, hs⟩)
      · cases hp
      · rw [hothers u hu] at hs
        cases hs
  · intro hd
    cases hd
  · intro _ u hu
    exact h.no_destructor hne hu

/-- What a thread in a call minds about a constructed mutex: that it is one, and that the
thread itself holds it if it is about to unlock it. -/
theorem stands_of_mutex {owner owner' : Option (Fin n × Nat)}
    (h : Stands true (.mutex owner) u pc) (hd : pc.inDestructor = false)
    (howner : ∀ k, owner ≠ some (u, k)) : Stands true (.mutex owner') u pc := by
  cases pc <;> simp_all [Stands, Pc.inDestructor, IsMutex]

/-- The owner of the inner mutex changes, and no thread but the one that moves was the owner
or becomes it. -/
theorem Inv.changeOwner {owner owner' : Option (Fin n × Nat)} (h : Inv s) (hflag : s.initFlag = true)
    (hstorage : s.storage = .mutex owner) (ht : (s.pc t).spinner = false) (hne : s.pc t ≠ .idle)
    (howner : ∀ u, u ≠ t → ∀ k, owner ≠ some (u, k)) :
    Inv ({ s with storage := .mutex owner' }.goto t .idle) := by
  apply h.of_step _ t .idle (Eq.refl _) trivial
  · intro u hu
    have hold := h.stands u
    rw [hflag, hstorage] at hold
    show Stands s.initFlag (.mutex owner') u (s.pc u)
    rw [hflag]
    exact stands_of_mutex hold (h.no_destructor hne hu) (howner u hu)
  · intro _ _
    exact .inl ⟨hflag, owner', Eq.refl _⟩
  · intro hp
    cases hp
  · show s.spinLock = true ↔ _
    rw [h.spin]
    constructor
    · rintro ⟨u, hu⟩
      have hut : u ≠ t := by
        rintro rfl
        rw [ht] at hu
        cases hu
      exact .inr ⟨u, hut, hu⟩
    · rintro (hp | ⟨u, -, hu⟩)
      · cases hp
      · exact ⟨u, hu⟩
  · intro hd
    cases hd
  · intro hidle
    exact absurd (Eq.refl _) hidle

/-- A step of a destructor: no other thread is in a call, and the spin lock is free. -/
theorem Inv.destructorStep (h : Inv s) (flag' spin : Bool) (storage' : Storage n) (pc' : Pc)
    (hd : (s.pc t).inDestructor = true) (hspin : spin = false) (hpc' : pc'.spinner = false)
    (hself : Stands flag' storage' t pc')
    (hsettled : pc'.unsettled = false → Settled flag' storage') :
    Inv ({ s with initFlag := flag', spinLock := spin, storage := storage' }.goto t pc') := by
  have hquiet : ∀ u, u ≠ t → s.pc u = .idle := fun u hu => h.quiet t u hd hu
  apply h.of_step _ t pc' (Eq.refl _) hself
  · intro u hu
    rw [hquiet u hu]
    trivial
  · intro hp _
    exact hsettled hp
  · intro _ u hu
    rw [hquiet u hu]
    decide
  · constructor
    · intro htrue
      exact absurd (hspin.symm.trans htrue) (by decide)
    · rintro (hp | ⟨u, hu, hs⟩)
      · rw [hpc'] at hp
        cases hp
      · rw [hquiet u hu] at hs
        cases hs
  · intro _
    exact hquiet
  · intro _ u hu
    rw [hquiet u hu]
    decide

theorem Inv.destructor_spin (h : Inv s) (hd : (s.pc t).inDestructor = true) :
    s.spinLock = false := by
  cases hspin : s.spinLock with
  | false => rfl
  | true =>
    obtain ⟨u, hu⟩ := h.spin.mp hspin
    by_cases hut : u = t
    · subst hut
      cases hp : s.pc u <;> rw [hp] at hd hu <;> cases hd <;> cases hu
    · rw [h.quiet t u hd hut] at hu
      cases hu

theorem lockOwner_some {owner : Option (Fin n × Nat)} {o : Fin n × Nat}
    (h : lockOwner recursive t owner = some o) (hu : u ≠ t) (k : Nat) : owner ≠ some (u, k) := by
  rintro rfl
  simp [lockOwner, hu] at h

/-- With the flag set and no destructor running, the mutex is constructed. -/
theorem Inv.isMutex (h : Inv s) (hflag : s.initFlag = true)
    (hd : ∀ u, (s.pc u).inDestructor = false) : IsMutex s.storage := by
  apply settled_elim (h.settled _) hflag
  intro u
  have hu := h.stands u
  have hdu := hd u
  cases hp : s.pc u <;> rw [hp] at hu hdu
  case endConstruct => exact absurd hflag (by rw [hu.1]; decide)
  case storeFlag => exact absurd hflag (by rw [hu.1]; decide)
  case endDestroy => cases hdu
  case zeroFlag => cases hdu
  all_goals decide

/-- The thread that holds the spin lock sees the flag and the storage agree unless it has made
them differ itself. -/
theorem Inv.settled_of_spinner (h : Inv s) (hspinner : (s.pc t).spinner = true)
    (ht : (s.pc t).unsettled = false) (hd : ∀ u, (s.pc u).inDestructor = false) :
    Settled s.initFlag s.storage := by
  apply h.settled
  intro u
  by_cases hu : u = t
  · rw [hu, ht]
  · have hdu := hd u
    have hsu : (s.pc u).spinner = false := by
      cases hs : (s.pc u).spinner with
      | false => rfl
      | true => exact absurd (h.alone u t hs hspinner) hu
    cases hp : s.pc u <;> rw [hp] at hdu hsu <;>
      first | decide | exact absurd hsu (by decide) | exact absurd hdu (by decide)

/-- The steps of `lock`. -/
theorem Inv.stepAt_lock (h : Inv s) (ht : s.pc t = pc) (hpc : pc.inLock = true)
    (hs : stepAt recursive s t pc = some s') : Inv s' := by
  have hself := h.stands t
  rw [ht] at hself
  have hne : s.pc t ≠ .idle := by
    rw [ht]
    rintro rfl
    cases hpc
  have hlive : ∀ u, u ≠ t → (s.pc u).inDestructor = false := fun u hu => h.no_destructor hne hu
  have hnone : ∀ u, (s.pc u).inDestructor = false := by
    intro u
    by_cases hu : u = t
    · rw [hu, ht]
      cases pc <;> cases hpc <;> decide
    · exact hlive u hu
  cases pc with
  | loadFlag =>
    by_cases hflag : s.initFlag = true
    · rw [LazyInit.stepAt, if_pos hflag] at hs
      cases hs
      exact h.move ⟨hflag, h.isMutex hflag hnone⟩ (by rw [ht]; decide) (by rw [ht]; decide)
        (fun hd => by cases hd) (fun _ => hlive)
    · rw [LazyInit.stepAt, if_neg hflag] at hs
      cases hs
      exact h.move trivial (by rw [ht]; decide) (by rw [ht]; decide) (fun hd => by cases hd)
        (fun _ => hlive)
  | compareExchange =>
    by_cases hspin : s.spinLock = true
    · rw [LazyInit.stepAt, if_pos hspin] at hs
      cases hs
      exact h
    · rw [LazyInit.stepAt, if_neg hspin] at hs
      cases hs
      exact h.takeSpin ht (Bool.eq_false_iff.mpr hspin)
  | loadNonatomic =>
    have hsettled := h.settled_of_spinner (t := t) (by rw [ht]; decide) (by rw [ht]; decide) hnone
    by_cases hflag : s.initFlag = true
    · rw [LazyInit.stepAt, if_pos hflag] at hs
      cases hs
      exact h.move ⟨hflag, h.isMutex hflag hnone⟩ (by rw [ht]; decide) (by rw [ht]; decide)
        (fun hd => by cases hd) (fun _ => hlive)
    · rw [LazyInit.stepAt, if_neg hflag] at hs
      cases hs
      rcases hsettled with ⟨htrue, -⟩ | hraw
      · exact absurd htrue hflag
      · exact h.move hraw (by rw [ht]; decide) (by rw [ht]; decide) (fun hd => by cases hd)
          (fun _ => hlive)
  | construct =>
    cases hs
    exact h.build s.initFlag .constructing .endConstruct (by rw [ht]; decide) hself.1 (by decide)
      ⟨hself.1, Eq.refl _⟩ (fun hp => by cases hp)
  | endConstruct =>
    cases hs
    exact (h.build s.initFlag (.mutex none) .storeFlag (by rw [ht]; decide) hself.1 (by decide)
      ⟨hself.1, Eq.refl _⟩ (fun hp => by cases hp)).relog _
  | storeFlag =>
    cases hs
    exact h.build true s.storage .releaseSpin (by rw [ht]; decide) hself.1 (by decide)
      ⟨Eq.refl _, none, hself.2⟩ (fun _ => .inl ⟨Eq.refl _, none, hself.2⟩)
  | releaseSpin =>
    cases hs
    exact h.freeSpin ht
  | lockInner =>
    obtain ⟨hflag, owner, hstorage⟩ := hself
    rw [LazyInit.stepAt, hstorage] at hs
    obtain ⟨o, ho, rfl⟩ := Option.map_eq_some_iff.mp hs
    exact (h.changeOwner hflag hstorage (by rw [ht]; decide) hne
      (fun u hu k => lockOwner_some ho hu k)).relog _
  | _ => cases hpc

/-- The steps of `unlock`. -/
theorem Inv.stepAt_unlock (h : Inv s) (ht : s.pc t = pc) (hpc : pc = .assertFlag ∨ pc = .unlockInner)
    (hs : stepAt recursive s t pc = some s') : Inv s' := by
  have hself := h.stands t
  rw [ht] at hself
  have hne : s.pc t ≠ .idle := by
    rw [ht]
    rcases hpc with rfl | rfl <;> decide
  rcases hpc with rfl | rfl
  · rw [LazyInit.stepAt, if_pos hself.1] at hs
    cases hs
    exact h.move hself (by rw [ht]; decide) (by rw [ht]; decide) (fun hd => by cases hd)
      (fun _ u hu => h.no_destructor hne hu)
  · obtain ⟨hflag, k, hstorage⟩ := hself
    rw [LazyInit.stepAt, hstorage] at hs
    cases hs
    apply h.changeOwner hflag hstorage (by rw [ht]; decide) hne
    intro u hu k' heq
    cases heq
    exact hu (Eq.refl _)

/-- A destructor that has not begun to destroy finds the flag and the storage in agreement. -/
theorem Inv.destructor_settled (h : Inv s) (ht : s.pc t = .destructor) :
    Settled s.initFlag s.storage := by
  apply h.settled
  intro u
  by_cases hu : u = t
  · rw [hu, ht]
    decide
  · rw [h.quiet t u (by rw [ht]; decide) hu]
    decide

/-- The steps of the destructor. Its thread alone is in a call, and nobody holds the mutex. -/
theorem Inv.stepAt_destructor (h : Inv s) (ht : s.pc t = pc) (hpc : pc.inDestructor = true)
    (hs : stepAt recursive s t pc = some s') : Inv s' := by
  have hself := h.stands t
  rw [ht] at hself
  have hd : (s.pc t).inDestructor = true := by rw [ht, hpc]
  have hquiet : ∀ u, u ≠ t → s.pc u = .idle := fun u hu => h.quiet t u hd hu
  have hlive : ∀ u, u ≠ t → (s.pc u).inDestructor = false := by
    intro u hu
    rw [hquiet u hu]
    decide
  have hspin := h.destructor_spin hd
  cases pc with
  | destructor =>
    have hsettled := h.destructor_settled ht
    by_cases hflag : s.initFlag = true
    · rw [LazyInit.stepAt, if_pos hflag] at hs
      cases hs
      obtain ⟨owner, howner⟩ := settled_elim hsettled hflag
      have hnone : owner = none := by
        cases owner with
        | none => rfl
        | some o => exact absurd howner (hself o)
      rw [hnone] at howner
      exact h.move ⟨hflag, howner⟩ (by rw [ht]; decide) (by rw [ht]; decide) (fun _ => hquiet)
        (fun _ => hlive)
    · rw [LazyInit.stepAt, if_neg hflag] at hs
      cases hs
      have hstep : Inv (s.goto t .idle) := h.move trivial (by rw [ht]; decide) (by rw [ht]; decide)
        (fun _ => hquiet) (fun _ => hlive)
      exact hstep.relog _
  | destroy =>
    rw [LazyInit.stepAt, hself.2] at hs
    cases hs
    exact h.destructorStep s.initFlag s.spinLock .destroying .endDestroy hd hspin (by decide)
      ⟨hself.1, Eq.refl _⟩ (fun hp => by cases hp)
  | endDestroy =>
    cases hs
    exact h.destructorStep s.initFlag s.spinLock .raw .zeroFlag hd hspin (by decide)
      ⟨hself.1, Eq.refl _⟩ (fun hp => by cases hp)
  | zeroFlag =>
    cases hs
    exact h.destructorStep false s.spinLock s.storage .zeroSpin hd hspin (by decide)
      ⟨Eq.refl _, hself.2⟩ (fun _ => .inr ⟨Eq.refl _, hself.2⟩)
  | zeroSpin =>
    cases hs
    exact h.destructorStep s.initFlag false s.storage .zeroBuffer hd (Eq.refl _) (by decide) hself
      (fun _ => .inr hself)
  | zeroBuffer =>
    cases hs
    exact (h.destructorStep s.initFlag s.spinLock .raw .idle hd hspin (by decide) trivial
      (fun _ => .inr ⟨hself.1, Eq.refl _⟩)).relog _
  | _ => cases hpc

/-- The mutex is held only while it is constructed and the flag is set. -/
theorem Inv.flag_of_held (h : Inv s) {owner : Fin n × Nat} (hheld : s.held = some owner) :
    s.initFlag = true ∧ s.storage = .mutex (some owner) := by
  have hstorage : s.storage = .mutex (some owner) := by
    unfold State.held at hheld
    split at hheld
    next o ho => rw [ho, hheld]
    next => cases hheld
  refine ⟨?_, hstorage⟩
  have hsettled : Settled s.initFlag s.storage := by
    apply h.settled
    intro u
    have hu := h.stands u
    rw [hstorage] at hu
    cases hp : s.pc u <;> rw [hp] at hu <;>
      first | decide | exact absurd hu.2 (by simp)
  rcases hsettled with ⟨hflag, -⟩ | ⟨-, hraw⟩
  · exact hflag
  · rw [hraw] at hstorage
    cases hstorage

theorem Inv.next (h : Inv s) {l : Label n} (hs : next recursive s l = some s') : Inv s' := by
  cases l with
  | lock t =>
    rw [LazyInit.next] at hs
    split at hs
    next hguard =>
      cases hs
      exact h.move trivial (by rw [hguard.1]; decide) (by rw [hguard.1]; decide)
        (fun hd => by cases hd) (fun _ u _ => hguard.2 u)
    next => cases hs
  | unlock t =>
    rw [LazyInit.next] at hs
    split at hs
    next hguard =>
      cases hs
      obtain ⟨⟨u, k⟩, hheld, rfl⟩ := Option.map_eq_some_iff.mp hguard.2
      obtain ⟨hflag, hstorage⟩ := h.flag_of_held hheld
      have hno : ∀ v, (s.pc v).inDestructor = false := by
        intro v
        have hv := h.stands v
        rw [hflag, hstorage] at hv
        cases hp : s.pc v <;> rw [hp] at hv <;>
          first | decide | exact absurd hv (by simp [Stands])
      exact h.move ⟨hflag, k, hstorage⟩ (by rw [hguard.1]; decide) (by rw [hguard.1]; decide)
        (fun hd => by cases hd) (fun _ v _ => hno v)
    next => cases hs
  | destructor t =>
    rw [LazyInit.next] at hs
    split at hs
    next hguard =>
      cases hs
      obtain ⟨hidle, hheld, hnone⟩ := hguard
      have hfree : ∀ o, s.storage ≠ .mutex (some o) := by
        intro o ho
        rw [State.held, ho] at hheld
        cases hheld
      have hothers : ∀ u, s.pc u = .idle := by
        intro u
        have hu := h.stands u
        obtain ⟨hlock, hdtor⟩ := hnone u
        cases hp : s.pc u <;> rw [hp] at hu hlock hdtor
        case assertFlag =>
          obtain ⟨-, k, hk⟩ := hu
          exact absurd hk (hfree (u, k))
        case unlockInner =>
          obtain ⟨-, k, hk⟩ := hu
          exact absurd hk (hfree (u, k))
        all_goals first | exact absurd hlock (by decide) | exact absurd hdtor (by decide)
      exact h.move hfree (by rw [hidle]; decide) (by rw [hidle]; decide)
        (fun _ u _ => hothers u) (fun _ u _ => (hnone u).2)
    next => cases hs
  | step t =>
    rw [LazyInit.next] at hs
    cases hin : (s.pc t).inLock with
    | true => exact h.stepAt_lock (Eq.refl _) hin hs
    | false =>
      cases hd : (s.pc t).inDestructor with
      | true => exact h.stepAt_destructor (Eq.refl _) hd hs
      | false =>
        apply h.stepAt_unlock (Eq.refl _) _ hs
        cases hp : s.pc t <;> rw [hp] at hin hd hs
        case assertFlag => exact .inl (Eq.refl _)
        case unlockInner => exact .inr (Eq.refl _)
        case idle => cases hs
        all_goals first | exact absurd hin (by decide) | exact absurd hd (by decide)

theorem inv_run {ls : List (Label n)} (hr : run (next recursive) (start n) ls = some s) : Inv s :=
  run_preserves (fun _ _ _ hs h => h.next hs) hr inv_start

end Turf.LazyInit
