import Turf.Util.Avalanche

/-!
# The generator of `Random.h` and its seeds

`Random` is an xorshift128+ generator. Its transition sends only the zero pair to the zero
pair, and neither seed can be zero: each is mixed from a value with its low bit set, and
`avalanche` maps only zero to zero.
-/
namespace Turf.Extra

open Turf.Util Turf.Lib.Mixing

/-- `u64 s[2]`. -/
structure Random where
  s0 : BitVec 64
  s1 : BitVec 64
  deriving DecidableEq

namespace Random

def zero : Random := ⟨0, 0⟩

def next64 (r : Random) : BitVec 64 × Random :=
  let s1 := r.s0
  let s0 := r.s1
  let s1 := s1 ^^^ s1 <<< 23
  let s1' := s1 ^^^ s0 ^^^ s1 >>> 17 ^^^ s0 >>> 26
  (s1' + s0, ⟨s0, s1'⟩)

def next32 (r : Random) : BitVec 32 × Random := ((next64 r).1.setWidth 32, (next64 r).2)
def next16 (r : Random) : BitVec 16 × Random := ((next64 r).1.setWidth 16, (next64 r).2)
def next8 (r : Random) : BitVec 8 × Random := ((next64 r).1.setWidth 8, (next64 r).2)

/-- The state `next64` leaves. -/
def step (r : Random) : Random := (next64 r).2

/-- `TID::TID`, the unsigned type of the size of the platform's thread id. -/
inductive Tid where
  | u32 (id : BitVec 32)
  | u64 (id : BitVec 64)

/-- `util::avalanche(id) << 1` with the overload for the type of `id`, converted to `u64`. -/
def Tid.mixed : Tid → BitVec 64
  | .u32 id => (avalanche32 id <<< 1).setWidth 64
  | .u64 id => avalanche64 id <<< 1

/-- The two words before the warm-up, from the clock, the CPU timer and the thread id. -/
def seed (time timer : BitVec 64) (tid : Tid) : Random :=
  let t := avalanche64 time
  let s0 := avalanche64 (t ||| 1)
  let t := avalanche64 timer + tid.mixed
  let s1 := avalanche64 (t ||| 1)
  ⟨s0, s1⟩

/-- `for (i = 0; i < n; i++) next64();` -/
def warmUp : Nat → Random → Random
  | 0, r => r
  | n + 1, r => warmUp n (next64 r).2

/-- The constructor. -/
def new (time timer : BitVec 64) (tid : Tid) : Random := warmUp 10 (seed time timer tid)

/-- A call on the generator. -/
inductive Call where
  | next64
  | next32
  | next16
  | next8

def call (r : Random) : Call → Random
  | .next64 => (next64 r).2
  | .next32 => (next32 r).2
  | .next16 => (next16 r).2
  | .next8 => (next8 r).2

/-- The state after some calls. -/
def calls (r : Random) (cs : List Call) : Random := cs.foldl call r

@[simp] theorem call_eq (r : Random) (c : Call) : r.call c = r.step := by
  cases c <;> exact Eq.refl r.step

/-- The second word of the transition, as folds. -/
theorem step_s1 (r : Random) :
    (step r).s1 = foldRight 17 (foldLeft 23 r.s0) ^^^ foldRight 26 r.s1 := by
  rw [foldRight, foldRight, ← xor_xor_xor_comm, ← BitVec.xor_assoc]
  exact Eq.refl (step r).s1

@[simp] theorem step_s0 (r : Random) : (step r).s0 = r.s1 := by simp [step, next64]

theorem step_injective : Function.Injective step := by
  intro r t h
  have hs1 : r.s1 = t.s1 := by
    rw [← step_s0 r, ← step_s0 t, h]
  have hfold : foldRight 17 (foldLeft 23 r.s0) ^^^ foldRight 26 r.s1 =
      foldRight 17 (foldLeft 23 t.s0) ^^^ foldRight 26 r.s1 := by
    rw [← step_s1 r, h, step_s1 t, hs1]
  have hleft : foldLeft 23 r.s0 = foldLeft 23 t.s0 :=
    foldRight_injective (k := 17) (by decide) ((BitVec.xor_left_inj _).mp hfold)
  have hs0 : r.s0 = t.s0 := foldLeft_injective (k := 23) (by decide) hleft
  obtain ⟨a, b⟩ := r
  obtain ⟨c, d⟩ := t
  cases hs0
  cases hs1
  rfl

theorem step_ne_zero {r : Random} (h : r ≠ zero) : step r ≠ zero := by
  intro hz
  have hzero : step zero = zero := by decide
  exact h (step_injective (hz.trans hzero.symm))

theorem warmUp_ne_zero {r : Random} (n : Nat) (h : r ≠ zero) : warmUp n r ≠ zero := by
  induction n generalizing r with
  | zero => exact h
  | succ n ih => exact ih (step_ne_zero h)

theorem calls_ne_zero {r : Random} (cs : List Call) (h : r ≠ zero) : r.calls cs ≠ zero := by
  induction cs generalizing r with
  | nil => exact h
  | cons c cs ih =>
    apply ih
    rw [call_eq]
    exact step_ne_zero h

theorem avalanche64_or_one_ne_zero (t : BitVec 64) : avalanche64 (t ||| 1) ≠ 0 := by
  intro h
  have hbit := congrArg (fun v : BitVec 64 => v.getLsbD 0) (avalanche64_eq_zero_iff.mp h)
  simp at hbit

/-- Whatever the clock, the timer and the thread id read, both seeds are nonzero, and no
state of the warm-up or after any calls is the zero pair. -/
theorem never_zero (time timer : BitVec 64) (tid : Tid) :
    (seed time timer tid).s0 ≠ 0 ∧ (seed time timer tid).s1 ≠ 0 ∧
      (∀ n, warmUp n (seed time timer tid) ≠ zero) ∧
      ∀ cs, (new time timer tid).calls cs ≠ zero := by
  have hs0 : (seed time timer tid).s0 ≠ 0 := avalanche64_or_one_ne_zero (avalanche64 time)
  have hs1 : (seed time timer tid).s1 ≠ 0 :=
    avalanche64_or_one_ne_zero (avalanche64 timer + tid.mixed)
  have hseed : seed time timer tid ≠ zero := by
    intro h
    exact hs0 (congrArg Random.s0 h)
  refine ⟨hs0, hs1, fun n => warmUp_ne_zero n hseed, fun cs => ?_⟩
  exact calls_ne_zero cs (warmUp_ne_zero 10 hseed)

end Random
end Turf.Extra
