import Turf.Lib.Custody
import Turf.Lib.Schedule

/-!
# The thread-local pointers

TLSPtr_POSIX.h, TLSPtr_Win32.h and TLSPtr_Boost.h. Any number of threads set, read and leave one
`TLSPtr`, which one thread destroys after the others that used it have exited. A slot is private
to its thread, so a call is one step. The objects are numbered in the order in which they are
passed to `setData`.
-/
namespace Turf.Primitives.TLSPtr

open Turf.Lib.Schedule Turf.Lib.Custody

inductive Kind where
  | posix
  | win32
  | boost
  deriving DecidableEq

/-- `slot` is the platform's value for each thread and `deleted` lists the objects in the order
in which they are deleted. Not kept by the program: the object each thread set last, the threads
that used the pointer or have exited, and the objects whose slot vanished without a `delete`. -/
structure State (ι : Type) where
  slot : ι → Option Nat
  allocated : Nat
  deleted : List Nat
  destroyed : Bool
  last : ι → Option Nat
  used : List ι
  exited : List ι
  lost : List Nat

def start (ι : Type) : State ι := ⟨fun _ => none, 0, [], false, fun _ => none, [], [], []⟩

inductive Label (ι : Type) where
  | setData (t : ι) (fresh : Bool)
  | getData (t : ι)
  | exit (t : ι)
  | destroy (t : ι)

variable {ι : Type}

/-- `pthread_getspecific`, `TlsGetValue` of a valid index, or `thread_specific_ptr::get`. -/
def getData (s : State ι) (t : ι) : Option Nat := s.slot t

/-- Each object is in the slot of one thread, deleted once or lost. -/
def Owned (s : State ι) : Prop := InCustody s.slot s.allocated (s.deleted ++ s.lost)

/-- A slot is empty unless its thread used the pointer and has not exited, and it holds the
object that the thread set last. -/
structure Users (s : State ι) : Prop where
  last : ∀ t, t ∉ s.exited → s.destroyed = false → s.slot t = s.last t
  used : ∀ t x, s.slot t = some x → t ∈ s.used
  exited : ∀ t, t ∈ s.exited → s.slot t = none
  destroyed : s.destroyed = true → ∀ t, s.slot t = none

variable [DecidableEq ι]

/-- `delete` on the value of thread `t`, which does nothing for `NULL`. -/
def State.delete (s : State ι) (t : ι) : State ι :=
  { s with slot := Function.update s.slot t none, deleted := s.deleted ++ (s.slot t).toList }

/-- The platform drops the value of thread `t`. -/
def State.forget (s : State ι) (t : ι) : State ι :=
  { s with slot := Function.update s.slot t none, lost := s.lost ++ (s.slot t).toList }

/-- `setData` deletes the old value and stores a new object or `NULL`. -/
def setData (s : State ι) (t : ι) (fresh : Bool) : State ι :=
  let value := if fresh then some s.allocated else none
  { s.delete t with
    slot := Function.update s.slot t value
    allocated := if fresh then s.allocated + 1 else s.allocated
    last := Function.update s.last t value
    used := t :: s.used }

/-- The key has no destructor on POSIX, an index on Windows has none, and
`thread_specific_ptr` deletes. -/
def exit (k : Kind) (s : State ι) (t : ι) : State ι :=
  match k with
  | .posix | .win32 => { s.forget t with exited := t :: s.exited }
  | .boost => { s.delete t with exited := t :: s.exited }

def next (k : Kind) (s : State ι) : Label ι → Option (State ι)
  | .setData t fresh =>
    if t ∉ s.exited ∧ s.destroyed = false then some (setData s t fresh) else none
  | .getData t =>
    if t ∉ s.exited ∧ s.destroyed = false then some { s with used := t :: s.used } else none
  | .exit t => if t ∉ s.exited ∧ s.destroyed = false then some (exit k s t) else none
  | .destroy t =>
    if t ∉ s.exited ∧ s.destroyed = false ∧ ∀ u ∈ s.used, u ≠ t → u ∈ s.exited then
      some { s.delete t with destroyed := true }
    else none

theorem delete_owned {s : State ι} (hs : Owned s) (t : ι) : Owned (s.delete t) := by
  apply hs.release t
  change (s.deleted ++ (s.slot t).toList ++ s.lost).Perm (s.deleted ++ s.lost ++ (s.slot t).toList)
  rw [List.append_assoc, List.append_assoc]
  exact List.perm_append_comm.append_left s.deleted

theorem forget_owned {s : State ι} (hs : Owned s) (t : ι) : Owned (s.forget t) :=
  hs.release t (List.Perm.of_eq (List.append_assoc ..).symm)

theorem setData_owned {s : State ι} (hs : Owned s) (t : ι) (fresh : Bool) :
    Owned (setData s t fresh) := by
  have hd : Owned (s.delete t) := delete_owned hs t
  cases fresh with
  | false => exact hd
  | true =>
    have hstore := InCustody.store hd (t := t) (by simp [State.delete])
    simpa [Owned, setData, State.delete] using hstore

/-- Everything a step can be. The thread that moves has not exited. -/
theorem next_cases {k : Kind} {s s' : State ι} {l : Label ι} (h : next k s l = some s') :
    s.destroyed = false ∧
    ((∃ t fresh, l = .setData t fresh ∧ t ∉ s.exited ∧ s' = setData s t fresh) ∨
    (∃ t, l = .getData t ∧ t ∉ s.exited ∧ s' = { s with used := t :: s.used }) ∨
    (∃ t, l = .exit t ∧ t ∉ s.exited ∧ s' = exit k s t) ∨
    (∃ t, l = .destroy t ∧ t ∉ s.exited ∧ (∀ u ∈ s.used, u ≠ t → u ∈ s.exited) ∧
      s' = { s.delete t with destroyed := true })) := by
  cases l with
  | setData t fresh =>
    obtain ⟨hg, hs⟩ := Option.ite_none_right_eq_some.mp h
    exact ⟨hg.2, .inl ⟨t, fresh, rfl, hg.1, (Option.some.inj hs).symm⟩⟩
  | getData t =>
    obtain ⟨hg, hs⟩ := Option.ite_none_right_eq_some.mp h
    exact ⟨hg.2, .inr (.inl ⟨t, rfl, hg.1, (Option.some.inj hs).symm⟩)⟩
  | exit t =>
    obtain ⟨hg, hs⟩ := Option.ite_none_right_eq_some.mp h
    exact ⟨hg.2, .inr (.inr (.inl ⟨t, rfl, hg.1, (Option.some.inj hs).symm⟩))⟩
  | destroy t =>
    obtain ⟨hg, hs⟩ := Option.ite_none_right_eq_some.mp h
    exact ⟨hg.2.1, .inr (.inr (.inr ⟨t, rfl, hg.1, hg.2.2, (Option.some.inj hs).symm⟩))⟩

theorem next_owned {k : Kind} {s s' : State ι} {l : Label ι} (h : next k s l = some s')
    (hs : Owned s) : Owned s' := by
  rcases (next_cases h).2 with ⟨t, fresh, _, _, rfl⟩ | ⟨t, _, _, rfl⟩ | ⟨t, _, _, rfl⟩ |
    ⟨t, _, _, _, rfl⟩
  · exact setData_owned hs t fresh
  · exact hs
  · cases k
    · exact forget_owned hs t
    · exact forget_owned hs t
    · exact delete_owned hs t
  · exact delete_owned hs t

/-- An exit empties the slot, whatever becomes of the value. -/
theorem exit_slot (k : Kind) (s : State ι) (t : ι) :
    (exit k s t).slot = Function.update s.slot t none ∧ (exit k s t).last = s.last ∧
      (exit k s t).used = s.used ∧ (exit k s t).exited = t :: s.exited ∧
      (exit k s t).destroyed = s.destroyed := by
  cases k <;> exact ⟨rfl, rfl, rfl, rfl, rfl⟩

theorem next_users {k : Kind} {s s' : State ι} {l : Label ι} (h : next k s l = some s')
    (hs : Users s) : Users s' := by
  obtain ⟨hd, hcases⟩ := next_cases h
  rcases hcases with ⟨t, fresh, _, ht, rfl⟩ | ⟨t, _, _, rfl⟩ | ⟨t, _, ht, rfl⟩ |
    ⟨t, _, ht, hgone, rfl⟩
  · constructor
    · intro u hu _
      by_cases hut : u = t
      · subst u
        simp [setData]
      · simpa [setData, hut] using hs.last u hu hd
    · intro u x hu
      by_cases hut : u = t
      · simp [setData, hut]
      · have hold : s.slot u = some x := by simpa [setData, hut] using hu
        exact List.mem_cons_of_mem t (hs.used u x hold)
    · intro u hu
      have hut : u ≠ t := fun he => ht (he ▸ hu)
      simpa [setData, hut] using hs.exited u hu
    · intro hdes
      cases hd.symm.trans hdes
  · exact ⟨hs.last, fun u x hu => List.mem_cons_of_mem t (hs.used u x hu), hs.exited, hs.destroyed⟩
  · obtain ⟨hslot, hlast, hused, hexited, hdes⟩ := exit_slot k s t
    constructor
    · intro u hu _
      rw [hexited, List.mem_cons, not_or] at hu
      rw [hslot, hlast, Function.update_of_ne hu.1]
      exact hs.last u hu.2 hd
    · intro u x hu
      rw [hslot] at hu
      rw [hused]
      exact hs.used u x (update_none_eq_some.mp hu).2
    · intro u hu
      rw [hslot]
      by_cases hut : u = t
      · simp [hut]
      · rw [Function.update_of_ne hut]
        rw [hexited, List.mem_cons] at hu
        exact hs.exited u (hu.resolve_left hut)
    · intro hbad
      rw [hdes, hd] at hbad
      cases hbad
  · have hempty (u : ι) : Function.update s.slot t none u = none := by
      by_cases hut : u = t
      · simp [hut]
      · rw [Function.update_of_ne hut]
        cases hu : s.slot u with
        | none => rfl
        | some x => exact (hu.symm.trans (hs.exited u (hgone u (hs.used u x hu) hut)))
    constructor
    · intro u _ hdes
      cases hdes
    · intro u x hu
      exact hs.used u x (update_none_eq_some.mp hu).2
    · intro u _
      exact hempty u
    · intro _ u
      exact hempty u

/-- The step is not the exit of a thread whose slot holds an object, except with Boost. -/
def Kept (k : Kind) (s : State ι) (l : Label ι) : Prop :=
  k = .boost ∨ ∀ t, l = .exit t → s.slot t = none

theorem next_lost {k : Kind} {s s' : State ι} {l : Label ι} (h : next k s l = some s') :
    s'.lost = [] ↔ s.lost = [] ∧ Kept k s l := by
  have hforget (t : ι) (hk : k ≠ .boost) :
      (s.forget t).lost = [] ↔ s.lost = [] ∧ Kept k s (.exit t) := by
    simp [State.forget, Kept, hk]
  rcases (next_cases h).2 with ⟨t, fresh, rfl, _, rfl⟩ | ⟨t, rfl, _, rfl⟩ | ⟨t, rfl, _, rfl⟩ |
    ⟨t, rfl, _, _, rfl⟩
  · simp [setData, State.delete, Kept]
  · simp [Kept]
  · cases k with
    | boost => simp [exit, State.delete, Kept]
    | _ => exact hforget t (by decide)
  · simp [State.delete, Kept]

theorem run_lost {k : Kind} {s s' : State ι} {ls : List (Label ι)}
    (h : run (next k) s ls = some s') :
    s'.lost = [] ↔ s.lost = [] ∧ Steps (next k) (Kept k) s ls := by
  induction ls generalizing s with
  | nil =>
    cases h
    simp [Steps]
  | cons l ls ih =>
    obtain ⟨t, ht, hrest⟩ := run_cons.mp h
    rw [ih hrest, next_lost ht]
    simp [Steps, ht, and_assoc]

/-- Each thread reads back the object it set last, which has not been deleted. No object is
deleted twice; and once the pointer is destroyed each object has been deleted if and only if no
thread exited with an object in its slot, or the slots are Boost's. -/
theorem objects_deleted_once_iff (k : Kind) (ls : List (Label ι)) (s : State ι)
    (h : run (next k) (start ι) ls = some s) :
    (∀ t, t ∉ s.exited → s.destroyed = false →
      getData s t = s.last t ∧ ∀ x, s.last t = some x → x ∉ s.deleted) ∧
    s.deleted.Nodup ∧
    (s.destroyed = true → (s.deleted.Perm (List.range s.allocated) ↔
      Steps (next k) (Kept k) (start ι) ls)) := by
  have howned : Owned s := run_preserves (fun _ _ _ => next_owned) h InCustody.empty
  have husers : Users s := by
    refine run_preserves (fun _ _ _ => next_users) h ?_
    constructor <;> simp [start]
  refine ⟨?_, List.Nodup.of_append_left howned.once, ?_⟩
  · intro t ht hd
    have hlast : s.slot t = s.last t := husers.last t ht hd
    refine ⟨hlast, ?_⟩
    intro x hx hmem
    exact (howned.held t x (hlast.trans hx)).2 (List.mem_append_left _ hmem)
  · intro hd
    have hall : (s.deleted ++ s.lost).Perm (List.range s.allocated) :=
      howned.all_ended (husers.destroyed hd)
    have hlost : s.lost = [] ↔ Steps (next k) (Kept k) (start ι) ls := by
      rw [run_lost h]
      simp [start]
    rw [← hlost]
    constructor
    · intro hp
      have hlen := (hp.trans hall.symm).length_eq
      rw [List.length_append] at hlen
      exact List.length_eq_zero_iff.mp (by omega)
    · intro hnil
      rwa [hnil, List.append_nil] at hall

/-- Two threads set an object each; the second clears its slot before it exits. -/
def clearedExit : List (Label Bool) :=
  [.setData false true, .setData true true, .setData true false, .exit true, .destroy false]

theorem objects_deleted_once_iff_small :
    ∃ s, run (next .posix) (start Bool) clearedExit = some s ∧ s.deleted = [1, 0] ∧
      Steps (next .posix) (Kept .posix) (start Bool) clearedExit := by
  refine ⟨_, rfl, rfl, ?_⟩
  exact ((objects_deleted_once_iff .posix clearedExit _ rfl).2.2 rfl).mp (by decide)

/-- A thread exits with its object in the slot, and the other destroys the pointer. -/
def fullExit : List (Label Bool) := [.setData true true, .exit true, .destroy false]

theorem exited_object_leaks :
    (∃ s, run (next .posix) (start Bool) fullExit = some s ∧ s.destroyed = true ∧
      s.allocated = 1 ∧ s.deleted = []) ∧
    (∃ s, run (next .win32) (start Bool) fullExit = some s ∧ s.destroyed = true ∧
      s.allocated = 1 ∧ s.deleted = []) ∧
    ∃ s, run (next .boost) (start Bool) fullExit = some s ∧ s.destroyed = true ∧
      s.allocated = 1 ∧ s.deleted = [0] :=
  ⟨⟨_, rfl, rfl, rfl, rfl⟩, ⟨_, rfl, rfl, rfl, rfl⟩, _, rfl, rfl, rfl, rfl⟩

end Turf.Primitives.TLSPtr
