import Turf.Lib.Interleave
import Turf.Atomics.Gcc
import Turf.Atomics.Msvc

/-!
# Contended read-modify-write calls

Any number of threads run the retry loops of one backend on one location. A locked
instruction is one step and the two halves of a plain 64-bit read are two, so that
other threads write between them. No call loses or duplicates an update, and none
stores a value computed from a torn read.
-/
namespace Turf.Atomics.Contention

open Turf.Lib.Schedule Turf.Lib.SharedWord Turf.Lib.Interleave Turf.Atomics.X86

/-- The retry loops: 64 bits on a 32-bit CPU in both compilers' backends, and the 32-bit assembly
blocks. -/
inductive Family where
  | gcc64
  | msvc64
  | gcc32

/-- What one copy of a loop, inlined at its call, is compiled to: the order in which its read takes the
two words, and what the scratch registers hold there. -/
structure Site where
  order : WordOrder
  scratch : BitVec 64

namespace Family

def width : Family → Nat
  | gcc64 => 64
  | msvc64 => 64
  | gcc32 => 32

def backend (site : Site) : (family : Family) → Backend family.width
  | gcc64 => Gcc.X86.backend64 site.order site.scratch
  | msvc64 => Msvc.X86.backend64 site.order site.scratch
  | gcc32 => Gcc.backend32

/-- The code of each call of each thread. -/
def code (family : Family) {Tid : Type} (sites : Tid → Nat → Site) (t : Tid) (n : Nat) :
    Rmw family.width → Code family.width := (family.backend (sites t n)).code

theorem atomic (family : Family) (site : Site) : (family.backend site).Atomic := by
  cases family with
  | gcc64 => exact Gcc.X86.backend64_atomic site.scratch
  | msvc64 => exact Msvc.X86.backend64_atomic site.scratch
  | gcc32 => exact Gcc.asmBackend_atomic 32

end Family

/-- Every locked instruction met the value the one before it left. Those of a completed
call are failed attempts, which changed nothing, and then one that met the value the
call returned and left the operation's result. When no call is in progress, the
location holds the initial value with each completed call applied exactly once. -/
theorem contended_calls (family : Family) {Tid : Type} [DecidableEq Tid] (sites : Tid → Nat → Site)
    (init : BitVec family.width) (programs : Tid → List (Rmw family.width)) (schedule : List Tid)
    (s : State Tid (Rmw family.width) (BitVec family.width) (BitVec family.width))
    (hr : run (next (family.code sites)) (start init programs) schedule = some s) :
    Chain init s.trace s.value ∧
    (∀ t n op r, (s.threads t).done[n]? = some (op, r) →
      (programs t)[n]? = some op ∧
      ∃ failed e, instrs s.trace t n = failed ++ [e] ∧ (∀ x ∈ failed, x.after = x.before) ∧
        e.op = op ∧ e.before = r ∧ e.after = op.effect r) ∧
    ((∀ t, (s.threads t).cur = none) →
      s.value = (commits s.trace).foldl (fun v e => e.op.effect v) init ∧
      ((commits s.trace).map Event.key).Nodup ∧
      ∀ t n, (t, n) ∈ (commits s.trace).map Event.key ↔ n < (s.threads t).done.length) := by
  have hinv : Inv Rmw.effect init programs s := run_inv (fun t n => family.atomic (sites t n)) hr
  refine ⟨hinv.chain, fun t n op r hdone => ⟨?_, (hinv.threads t).done n op r hdone⟩, fun hidle =>
    ⟨hinv.value_eq hidle, nodup_commits s.trace, hinv.mem_commits hidle⟩⟩
  have hlt := (List.getElem?_eq_some_iff.mp hdone).1
  rw [← (hinv.threads t).program, List.append_assoc, List.getElem?_append_left (by simpa using hlt),
    List.getElem?_map, hdone]
  rfl

def tornPrograms (second : Bool) : List (Rmw 64) :=
  if second then [.exchange 0x500000000#64] else [.fetchAdd 1#64]

/-- The first thread reads the low word first, the second one the high word. -/
def tornSites (second : Bool) (_ : Nat) : Site := ⟨if second then .highFirst else .lowFirst, 0⟩

/-- The second thread replaces the word between the two halves that the first reads. -/
def tornSchedule : List Bool :=
  [false, false, false] ++ List.replicate 6 true ++ List.replicate 7 false

/-- The attempt with the torn value fails, and the next one adds to the stored value. -/
theorem contended_calls_torn :
    ∃ s : State Bool (Rmw 64) (BitVec 64) (BitVec 64),
      run (next (Family.gcc64.code tornSites)) (start 0xffffffff#64 tornPrograms) tornSchedule = some s ∧
      s.trace.map (fun e => (e.thread, e.before, e.after)) =
        [(true, 0xffffffff#64, 0x500000000#64), (false, 0x500000000#64, 0x500000000#64),
          (false, 0x500000000#64, 0x500000001#64)] ∧
      Chain 0xffffffff#64 s.trace s.value := by
  have hrun : (run (next (Family.gcc64.code tornSites))
      (start 0xffffffff#64 tornPrograms) tornSchedule).map
        (fun s => s.trace.map fun e => (e.thread, e.before, e.after)) =
      some [(true, 0xffffffff#64, 0x500000000#64), (false, 0x500000000#64, 0x500000000#64),
        (false, 0x500000000#64, 0x500000001#64)] := rfl
  obtain ⟨s, hs, htrace⟩ := Option.map_eq_some_iff.mp hrun
  exact ⟨s, hs, htrace, (contended_calls .gcc64 tornSites _ _ _ s hs).1⟩

end Turf.Atomics.Contention
