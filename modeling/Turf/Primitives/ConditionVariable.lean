import Turf.Lib.FixedInt

/-!
# Waiting with a timeout

ConditionVariable_POSIX.h. `timedWait` turns milliseconds into a `timespec`: a point in time made
from a reading of the clock, or on Apple platforms a duration. The Apple variant adds to members
of a variable that it has not initialised, so what the stack held is a parameter.
-/
namespace Turf.Primitives.ConditionVariable

open Turf.Lib.FixedInt

/-- The widths of `time_t`, `long` and `ureg`. -/
structure Widths where
  time : Nat
  long : Nat
  ureg : Nat
  time_pos : 0 < time
  long_ge : 32 ≤ long
  ureg_ge : 32 ≤ ureg

variable {W : Widths}

abbrev Widths.timeT (W : Widths) : IntType := ⟨W.time, true⟩
abbrev Widths.longT (W : Widths) : IntType := ⟨W.long, true⟩
abbrev Widths.uregT (W : Widths) : IntType := ⟨W.ureg, false⟩

/-- `struct timespec` -/
structure Timespec (W : Widths) where
  sec : Val W.timeT
  nsec : Val W.longT

def Timespec.Normalised (ts : Timespec W) : Prop := 0 ≤ ts.nsec.int ∧ ts.nsec.int < 1000000000

instance (ts : Timespec W) : Decidable ts.Normalised := inferInstanceAs (Decidable (_ ∧ _))

def Timespec.nanos (ts : Timespec W) : Int := ts.sec.int * 1000000000 + ts.nsec.int

/-! ## The code -/

inductive Variant where
  | apple | posix
  deriving DecidableEq

/-- `(waitMillis % 1000) * 1000000` -/
def fraction (waitMillis : Val W.uregT) : Val W.uregT :=
  W.uregT.cast ((W.uregT.cast (waitMillis.int % 1000)).int * 1000000)

/-- The two additions that both variants make. -/
def addMillis (ts : Timespec W) (waitMillis : Val W.uregT) : Option (Timespec W) := do
  let sec ← addAssign ts.sec (W.uregT.cast (waitMillis.int / 1000))
  let nsec ← addAssign ts.nsec (fraction waitMillis)
  return ⟨sec, nsec⟩

/-- `if (ts.tv_nsec >= 1000000000)` -/
def carry (ts : Timespec W) : Option (Timespec W) :=
  if ts.nsec.int ≥ 1000000000 then do
    let nsec ← W.longT.checked (ts.nsec.int - 1000000000)
    let sec ← W.timeT.checked (ts.sec.int + 1)
    return ⟨sec, nsec⟩
  else some ts

/-- What the call to the platform is given. A signed overflow leaves nothing to say. -/
inductive Call (W : Widths) where
  | notMade
  | undefined
  | made (ts : Timespec W)

/-- The timespec before the additions: what the stack held, or the reading of the clock. -/
def start (v : Variant) (stack now : Timespec W) : Timespec W :=
  match v with
  | .apple => stack
  | .posix => now

def timeout (v : Variant) (stack now : Timespec W) (waitMillis : Val W.uregT) : Option (Timespec W) :=
  match v with
  | .apple => addMillis stack waitMillis
  | .posix => (addMillis now waitMillis).bind carry

def timedWait (v : Variant) (stack now : Timespec W) (waitMillis : Val W.uregT) : Call W :=
  if waitMillis.int > 0 then
    match timeout v stack now waitMillis with
    | none => .undefined
    | some ts => .made ts
  else .notMade

/-! ## The requested time -/

/-- The time that the platform measures the timeout from. -/
def origin (v : Variant) (now : Timespec W) : Int :=
  match v with
  | .apple => 0
  | .posix => now.nanos

/-- The call is given the requested time, and no sum of nanoseconds needed more than 32 bits. -/
def Exact (v : Variant) (stack now : Timespec W) (waitMillis : Val W.uregT) : Prop :=
  (∃ ts, timedWait v stack now waitMillis = .made ts ∧ ts.Normalised ∧
    ts.nanos = origin v now + waitMillis.int * 1000000) ∧
  IntType.wrap ⟨32, true⟩ ((start v stack now).nsec.int + (fraction waitMillis).int) =
    (start v stack now).nsec.int + (fraction waitMillis).int

/-- The seconds of the requested time. -/
def seconds (v : Variant) (now : Timespec W) (waitMillis : Val W.uregT) : Int :=
  (origin v now + waitMillis.int * 1000000) / 1000000000

/-- They are a `time_t`, and on Apple platforms the stack held zeros. -/
def Meets (v : Variant) (stack now : Timespec W) (waitMillis : Val W.uregT) : Prop :=
  W.timeT.wrap (seconds v now waitMillis) = seconds v now waitMillis ∧
    (v = .apple → stack.sec.int = 0 ∧ stack.nsec.int = 0)

section

variable {v : Variant} {stack now ts r : Timespec W} {waitMillis : Val W.uregT}

theorem waitMillis_range (waitMillis : Val W.uregT) : 0 ≤ waitMillis.int ∧ waitMillis.int < (2 ^ W.ureg : Nat) :=
  (IntType.unsigned_wrap_iff W.ureg waitMillis.int).mp waitMillis.range

theorem two_pow_ge {b c : Nat} (h : b ≤ c) : 2 ^ b ≤ 2 ^ c := Nat.pow_le_pow_right (by decide) h

theorem ureg_cast (waitMillis : Val W.uregT) {x : Int} (hlow : 0 ≤ x) (hhigh : x < 4294967296 ∨ x ≤ waitMillis.int) :
    (W.uregT.cast x).int = x := by
  have hpow := two_pow_ge W.ureg_ge
  have hrange := (waitMillis_range waitMillis).2
  exact (IntType.unsigned_wrap_iff W.ureg x).mpr ⟨hlow, by omega⟩

theorem quotient_int (waitMillis : Val W.uregT) :
    (W.uregT.cast (waitMillis.int / 1000)).int = waitMillis.int / 1000 := by
  have hlow := (waitMillis_range waitMillis).1
  exact ureg_cast waitMillis (by omega) (.inr (by omega))

/-- The product fits, whatever the width. -/
theorem fraction_int (waitMillis : Val W.uregT) :
    (fraction waitMillis).int = waitMillis.int % 1000 * 1000000 := by
  have hlow := (waitMillis_range waitMillis).1
  have hmod : (W.uregT.cast (waitMillis.int % 1000)).int = waitMillis.int % 1000 :=
    ureg_cast waitMillis (by omega) (.inl (by omega))
  rw [fraction, hmod]
  exact ureg_cast waitMillis (by omega) (.inl (by omega))

theorem nsec_fits {b : Nat} (hb : 32 ≤ b) {x : Int} (hlow : 0 ≤ x) (hhigh : x < 2000000000) :
    IntType.wrap ⟨b, true⟩ x = x := by
  have hpow : 2 ^ 31 ≤ 2 ^ (b - 1) := two_pow_ge (by omega)
  exact (IntType.signed_wrap_iff (by omega) x).mpr ⟨by omega, by omega⟩

/-! ## The additions -/

theorem addMillis_some (h : addMillis ts waitMillis = some r) :
    addAssign ts.sec (W.uregT.cast (waitMillis.int / 1000)) = some r.sec ∧
      addAssign ts.nsec (fraction waitMillis) = some r.nsec := by
  unfold addMillis at h
  obtain ⟨sec, hsec, hrest⟩ := Option.bind_eq_some_iff.mp h
  obtain ⟨nsec, hnsec, hr⟩ := Option.bind_eq_some_iff.mp hrest
  cases hr
  exact ⟨hsec, hnsec⟩

/-- Without a carry the sums are exact if the seconds fit. -/
theorem addMillis_exact (hn : ts.Normalised)
    (hs : W.timeT.wrap (ts.sec.int + waitMillis.int / 1000) = ts.sec.int + waitMillis.int / 1000) :
    ∃ r, addMillis ts waitMillis = some r ∧ r.sec.int = ts.sec.int + waitMillis.int / 1000 ∧
      r.nsec.int = ts.nsec.int + waitMillis.int % 1000 * 1000000 := by
  obtain ⟨hlow, hhigh⟩ := hn
  have hquot := quotient_int waitMillis
  have hfrac := fraction_int waitMillis
  have hsec : W.timeT.wrap (ts.sec.int + (W.uregT.cast (waitMillis.int / 1000)).int) =
      ts.sec.int + (W.uregT.cast (waitMillis.int / 1000)).int := by rw [hquot, hs]
  have hnsec : W.longT.wrap (ts.nsec.int + (fraction waitMillis).int) =
      ts.nsec.int + (fraction waitMillis).int := nsec_fits W.long_ge (by omega) (by omega)
  refine ⟨⟨⟨_, hsec⟩, ⟨_, hnsec⟩⟩, ?_, ?_, ?_⟩
  · rw [addMillis, addAssign_exact hsec, addAssign_exact hnsec]
    rfl
  · show ts.sec.int + _ = _
    rw [hquot]
  · show ts.nsec.int + _ = _
    rw [hfrac]

/-- One carry normalises the sum of two fractions of a second. -/
theorem carry_exact (hlow : 0 ≤ r.nsec.int) (hhigh : r.nsec.int < 2000000000)
    (hs : W.timeT.wrap (r.nanos / 1000000000) = r.nanos / 1000000000) :
    ∃ ts, carry r = some ts ∧ ts.Normalised ∧ ts.nanos = r.nanos := by
  unfold Timespec.nanos at hs
  by_cases hge : r.nsec.int ≥ 1000000000
  · have hsec : W.timeT.wrap (r.sec.int + 1) = r.sec.int + 1 := by
      have heq : (r.sec.int * 1000000000 + r.nsec.int) / 1000000000 = r.sec.int + 1 := by omega
      rw [heq] at hs
      exact hs
    have hnsec : W.longT.wrap (r.nsec.int - 1000000000) = r.nsec.int - 1000000000 :=
      nsec_fits W.long_ge (by omega) (by omega)
    refine ⟨⟨⟨_, hsec⟩, ⟨_, hnsec⟩⟩, ?_, ⟨?_, ?_⟩, ?_⟩
    · rw [carry, if_pos hge, IntType.checked_some hsec, IntType.checked_some hnsec]
      rfl
    · show 0 ≤ r.nsec.int - 1000000000
      omega
    · show r.nsec.int - 1000000000 < 1000000000
      omega
    · show (r.sec.int + 1) * 1000000000 + (r.nsec.int - 1000000000) = r.sec.int * 1000000000 + r.nsec.int
      omega
  · exact ⟨r, by rw [carry, if_neg hge], ⟨hlow, by omega⟩, rfl⟩

/-! ## Both variants -/

/-- A normalised timespec has its seconds in a `time_t`. -/
theorem seconds_fit (hn : ts.Normalised) :
    W.timeT.wrap (ts.nanos / 1000000000) = ts.nanos / 1000000000 := by
  obtain ⟨hlow, hhigh⟩ := hn
  have heq : ts.nanos / 1000000000 = ts.sec.int := by
    unfold Timespec.nanos
    omega
  rw [heq]
  exact ts.sec.range

/-- Sums that are the requested duration were added to zeros. -/
theorem zero_of_duration (h : addMillis stack waitMillis = some ts) (hn : ts.Normalised)
    (hd : ts.nanos = waitMillis.int * 1000000) : stack.sec.int = 0 ∧ stack.nsec.int = 0 := by
  obtain ⟨hsec, hnsec⟩ := addMillis_some h
  obtain ⟨hlow, hhigh⟩ := hn
  have hquot := quotient_int waitMillis
  have hfrac := fraction_int waitMillis
  unfold Timespec.nanos at hd
  exact ⟨eq_zero_of_addAssign hsec (by omega), eq_zero_of_addAssign hnsec (by omega)⟩

theorem timedWait_made (hw : 0 < waitMillis.int) :
    timedWait v stack now waitMillis = .made ts ↔ timeout v stack now waitMillis = some ts := by
  rw [timedWait, if_pos hw]
  cases timeout v stack now waitMillis with
  | none => simp
  | some t => simp

/-- Seconds that fit after the carry fit before it. -/
theorem posix_sum_fits (hnow : now.Normalised)
    (h : W.timeT.wrap (seconds .posix now waitMillis) = seconds .posix now waitMillis) :
    W.timeT.wrap (now.sec.int + waitMillis.int / 1000) = now.sec.int + waitMillis.int / 1000 := by
  obtain ⟨hlow, hhigh⟩ := hnow
  have hw := (waitMillis_range waitMillis).1
  rw [IntType.signed_wrap_iff W.time_pos] at h ⊢
  obtain ⟨hmin, -⟩ := (IntType.signed_wrap_iff W.time_pos _).mp now.sec.range
  have hbetween : now.sec.int + waitMillis.int / 1000 ≤ seconds .posix now waitMillis := by
    show _ ≤ (now.sec.int * 1000000000 + now.nsec.int + waitMillis.int * 1000000) / 1000000000
    omega
  omega

theorem posix_exact (stack : Timespec W) (hnow : now.Normalised)
    (h : W.timeT.wrap (seconds .posix now waitMillis) = seconds .posix now waitMillis) :
    ∃ ts, timeout .posix stack now waitMillis = some ts ∧ ts.Normalised ∧
      ts.nanos = now.nanos + waitMillis.int * 1000000 := by
  obtain ⟨r, hadd, hsec, hnsec⟩ := addMillis_exact hnow (posix_sum_fits hnow h)
  obtain ⟨hlow, hhigh⟩ := hnow
  have hw := (waitMillis_range waitMillis).1
  have hnanos : r.nanos = now.nanos + waitMillis.int * 1000000 := by
    unfold Timespec.nanos
    omega
  obtain ⟨ts, hcarry, hn, heq⟩ := carry_exact (r := r) (by omega) (by omega) (by rw [hnanos]; exact h)
  refine ⟨ts, ?_, hn, heq.trans hnanos⟩
  rw [timeout, hadd]
  exact hcarry

theorem apple_exact (hsec : stack.sec.int = 0) (hnsec : stack.nsec.int = 0)
    (h : W.timeT.wrap (seconds .apple now waitMillis) = seconds .apple now waitMillis) :
    ∃ ts, timeout .apple stack now waitMillis = some ts ∧ ts.Normalised ∧
      ts.nanos = waitMillis.int * 1000000 := by
  have hseconds : seconds .apple now waitMillis = stack.sec.int + waitMillis.int / 1000 := by
    show (0 + waitMillis.int * 1000000) / 1000000000 = _
    omega
  have hn : stack.Normalised := ⟨by omega, by omega⟩
  obtain ⟨r, hadd, hrsec, hrnsec⟩ := addMillis_exact hn (hseconds ▸ h)
  refine ⟨r, hadd, ⟨by omega, by omega⟩, ?_⟩
  unfold Timespec.nanos
  omega

/-- The timeout is right exactly where its seconds fit and an Apple stack held zeros. -/
theorem timedWait_exact_iff (v : Variant) (stack now : Timespec W) (hnow : now.Normalised)
    (waitMillis : Val W.uregT) (hw : 0 < waitMillis.int) :
    Exact v stack now waitMillis ↔ Meets v stack now waitMillis := by
  have hfrac := fraction_int waitMillis
  constructor
  · intro ⟨⟨ts, hmade, hn, hnanos⟩, _⟩
    have htimeout := (timedWait_made hw).mp hmade
    constructor
    · have hfit := seconds_fit hn
      rw [hnanos] at hfit
      exact hfit
    · intro happle
      subst happle
      have hd : ts.nanos = waitMillis.int * 1000000 := by
        rw [hnanos]
        exact Int.zero_add _
      exact zero_of_duration htimeout hn hd
  · intro ⟨hfit, hzero⟩
    have hsum : (start v stack now).Normalised := by
      cases v with
      | apple =>
        obtain ⟨-, hnsec⟩ := hzero rfl
        show 0 ≤ stack.nsec.int ∧ stack.nsec.int < 1000000000
        omega
      | posix => exact hnow
    refine ⟨?_, nsec_fits (Nat.le_refl 32) ?_ ?_⟩
    · cases v with
      | apple =>
        obtain ⟨hsec, hnsec⟩ := hzero rfl
        obtain ⟨ts, htimeout, hn, hd⟩ := apple_exact hsec hnsec hfit
        exact ⟨ts, (timedWait_made hw).mpr htimeout, hn, by rw [hd]; exact (Int.zero_add _).symm⟩
      | posix =>
        obtain ⟨ts, htimeout, hn, hd⟩ := posix_exact stack hnow hfit
        exact ⟨ts, (timedWait_made hw).mpr htimeout, hn, hd⟩
    · obtain ⟨hlow, -⟩ := hsum
      omega
    · obtain ⟨-, hhigh⟩ := hsum
      omega

end

def Timespec.ofInts (W : Widths) (sec nsec : Int) : Timespec W := ⟨W.timeT.cast sec, W.longT.cast nsec⟩

def widths32 : Widths := ⟨32, 32, 32, by decide, by decide, by decide⟩

/-- The largest fraction of a second on both sides, with 32 bits everywhere. -/
theorem timedWait_carries :
    Exact .posix (.ofInts widths32 (-1) (-1)) (.ofInts widths32 1460000000 999999999)
      (widths32.uregT.cast 999) :=
  (timedWait_exact_iff .posix _ _ (by decide) _ (by decide)).mpr ⟨by decide, by decide⟩

/-- A second on the stack of an Apple platform is added to the millisecond asked for. -/
theorem timedWait_uninitialised :
    (Timespec.ofInts widths32 0 0).Normalised ∧ 0 < (widths32.uregT.cast 1).int ∧
      ¬ Exact .apple (.ofInts widths32 1 0) (.ofInts widths32 0 0) (widths32.uregT.cast 1) := by
  have hw : 0 < (widths32.uregT.cast 1).int := by decide
  refine ⟨by decide, hw, ?_⟩
  intro ⟨⟨ts, hmade, hn, hd⟩, _⟩
  have hnanos : ts.nanos = (widths32.uregT.cast 1).int * 1000000 := hd.trans (Int.zero_add _)
  obtain ⟨hsec, -⟩ := zero_of_duration ((timedWait_made hw).mp hmade) hn hnanos
  exact absurd hsec (by decide)

end Turf.Primitives.ConditionVariable
