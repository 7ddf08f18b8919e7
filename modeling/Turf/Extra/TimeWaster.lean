import Mathlib.Tactic.NormNum.Prime
import Turf.Extra.Random
import Turf.Lib.FullPeriod

/-!
# `TimeWaster`

`wasteRandomCycles` reads random values from a table until one is divisible by 8. It has no
counter: the size of the table is prime, so the steps lead to all of its entries.
-/
namespace Turf.Extra

open Turf.Lib.FullPeriod

structure TimeWaster where
  pos : BitVec 32
  step : BitVec 32
  deriving DecidableEq

namespace TimeWaster

def arraySize : Nat := 65521

/-- `s_randomValues` -/
abbrev Table := Vector (BitVec 32) arraySize

/-- The constructor, with the generator it makes for itself. -/
def new (random : Random) : TimeWaster :=
  let (value, random) := random.next32
  let pos := value % BitVec.ofNat 32 arraySize
  let (value, _) := random.next32
  ⟨pos, value % BitVec.ofNat 32 (arraySize - 1) + 1⟩

/-- The position that the loop goes on to. -/
def advance (tw : TimeWaster) : TimeWaster :=
  let pos := tw.pos + tw.step
  { tw with pos := if pos ≥ BitVec.ofNat 32 arraySize then pos - BitVec.ofNat 32 arraySize else pos }

/-- How a call stands after a number of iterations. -/
inductive Call where
  | running
  | outOfBounds
  | returned (tw : TimeWaster)
  deriving DecidableEq

/-- `wasteRandomCycles`, with a bound on the iterations. -/
def wasteRandomCycles (table : Table) : Nat → TimeWaster → Call
  | 0, _ => .running
  | fuel + 1, tw =>
    match table[tw.pos.toNat]? with
    | none => .outOfBounds
    | some i => if i &&& 7 ≠ 0 then wasteRandomCycles table fuel tw.advance else .returned tw.advance

/-- Calls one after the other, each within `arraySize` iterations. The table may be filled anew in
between. -/
def calls : List Table → TimeWaster → Option TimeWaster
  | [], tw => some tw
  | table :: tables, tw =>
    match wasteRandomCycles table arraySize tw with
    | .returned tw => calls tables tw
    | _ => none

/-! ## Steps -/

/-- What the constructor leaves and every call keeps. -/
structure Valid (tw : TimeWaster) : Prop where
  pos_lt : tw.pos.toNat < arraySize
  step_pos : 0 < tw.step.toNat
  step_lt : tw.step.toNat < arraySize

theorem new_valid (random : Random) : (new random).Valid := by
  have hpos : ∀ v : BitVec 32, (v % BitVec.ofNat 32 arraySize).toNat < arraySize := by
    intro v
    rw [BitVec.toNat_umod]
    exact Nat.mod_lt _ (by decide)
  have hstep : ∀ v : BitVec 32, (v % BitVec.ofNat 32 (arraySize - 1) + 1).toNat =
      v.toNat % (arraySize - 1) + 1 := by
    intro v
    have hlt : v.toNat % (arraySize - 1) < arraySize - 1 := Nat.mod_lt _ (by decide)
    have hsmall : arraySize - 1 < 2 ^ 32 - 1 := by decide
    rw [BitVec.toNat_add, BitVec.toNat_umod]
    show (v.toNat % (arraySize - 1) + 1) % 2 ^ 32 = _
    rw [Nat.mod_eq_of_lt (by omega)]
  constructor
  · exact hpos _
  · show 0 < BitVec.toNat (_ % BitVec.ofNat 32 (arraySize - 1) + 1)
    rw [hstep]
    exact Nat.succ_pos _
  · show BitVec.toNat (_ % BitVec.ofNat 32 (arraySize - 1) + 1) < arraySize
    rw [hstep]
    have hlt : ∀ x, x % (arraySize - 1) + 1 < arraySize := fun x =>
      Nat.add_lt_of_lt_sub (Nat.mod_lt x (by decide))
    exact hlt _

variable {tw : TimeWaster} {table : Table}

theorem advance_step (tw : TimeWaster) : tw.advance.step = tw.step := rfl

/-- The subtraction makes up for a sum that is past the end. -/
theorem advance_pos (h : tw.Valid) :
    tw.advance.pos.toNat = rotate arraySize tw.step.toNat tw.pos.toNat := by
  obtain ⟨hpos, -, hstep⟩ := h
  have hsmall : 2 * arraySize < 2 ^ 32 := by decide
  have hsum : (tw.pos + tw.step).toNat = tw.pos.toNat + tw.step.toNat := by
    rw [BitVec.toNat_add, Nat.mod_eq_of_lt (by omega)]
  have hsize : (BitVec.ofNat 32 arraySize).toNat = arraySize := rfl
  show BitVec.toNat (if tw.pos + tw.step ≥ BitVec.ofNat 32 arraySize then _ else _) = _
  rw [rotate]
  split
  · next hge =>
    rw [ge_iff_le, BitVec.le_def, hsize, hsum] at hge
    rw [BitVec.toNat_sub_of_le (by rw [BitVec.le_def, hsize, hsum]; exact hge), hsum, hsize,
      Nat.mod_eq_sub_mod hge, Nat.mod_eq_of_lt (by omega)]
  · next hlt =>
    rw [ge_iff_le, BitVec.le_def, hsize, hsum] at hlt
    rw [hsum, Nat.mod_eq_of_lt (by omega)]

theorem advance_valid (h : tw.Valid) : tw.advance.Valid := by
  refine ⟨?_, h.step_pos, h.step_lt⟩
  rw [advance_pos h]
  exact Nat.mod_lt _ (Nat.zero_lt_of_lt h.pos_lt)

theorem advance_iterate (h : tw.Valid) (k : Nat) :
    (advance^[k] tw).pos.toNat = (rotate arraySize tw.step.toNat)^[k] tw.pos.toNat := by
  induction k generalizing tw with
  | zero => rfl
  | succ k ih =>
    rw [Function.iterate_succ_apply, Function.iterate_succ_apply, ih (advance_valid h), advance_step,
      advance_pos h]

theorem arraySize_prime : arraySize.Prime := by
  unfold arraySize
  norm_num

/-- Every entry is read within `arraySize` iterations unless the loop has ended. -/
theorem advance_visits (h : tw.Valid) {j : Nat} (hj : j < arraySize) :
    ∃ k < arraySize, (advance^[k] tw).pos.toNat = j := by
  have hcop : tw.step.toNat.Coprime arraySize :=
    (Nat.coprime_of_lt_prime h.step_pos.ne' h.step_lt arraySize_prime).symm
  obtain ⟨k, hk, hvisit⟩ := rotate_visits hcop h.pos_lt hj
  exact ⟨k, hk, by rw [advance_iterate h, hvisit]⟩

/-! ## The loop -/

/-- The loop ends at the latest when it comes to an entry that is divisible by 8. -/
theorem returned_of_iterate (h : tw.Valid) {k : Nat} {i : BitVec 32}
    (hentry : table[(advance^[k] tw).pos.toNat]? = some i) (hi : i &&& 7 = 0) {fuel : Nat}
    (hfuel : k < fuel) :
    ∃ tw', wasteRandomCycles table fuel tw = .returned tw' ∧ tw'.step = tw.step ∧ tw'.Valid := by
  induction k generalizing tw fuel with
  | zero =>
    obtain ⟨f, rfl⟩ := Nat.exists_eq_succ_of_ne_zero hfuel.ne'
    refine ⟨tw.advance, ?_, advance_step tw, advance_valid h⟩
    rw [wasteRandomCycles, show table[tw.pos.toNat]? = some i from hentry]
    exact if_neg (not_not_intro hi)
  | succ k ih =>
    obtain ⟨f, rfl⟩ := Nat.exists_eq_succ_of_ne_zero (Nat.ne_of_gt (Nat.zero_lt_of_lt hfuel))
    have hlt := h.pos_lt
    rw [wasteRandomCycles, Vector.getElem?_eq_getElem hlt]
    by_cases hread : table[tw.pos.toNat] &&& 7 = 0
    · refine ⟨tw.advance, ?_, advance_step tw, advance_valid h⟩
      exact if_neg (not_not_intro hread)
    · obtain ⟨tw', hcall, hstep, hvalid⟩ := ih (advance_valid h) hentry (Nat.lt_of_succ_lt_succ hfuel)
      refine ⟨tw', ?_, hstep, hvalid⟩
      rw [← hcall]
      exact if_pos hread

/-- Some entry is divisible by 8. -/
def Table.Stops (table : Table) : Prop := ∃ i ∈ table, i &&& 7 = 0

theorem wasteRandomCycles_spec (htable : Table.Stops table) (h : tw.Valid) :
    ∃ tw', wasteRandomCycles table arraySize tw = .returned tw' ∧ tw'.step = tw.step ∧ tw'.Valid := by
  obtain ⟨i, hin, hi⟩ := htable
  obtain ⟨j, hj, rfl⟩ := Vector.mem_iff_getElem.mp hin
  obtain ⟨k, hk, hvisit⟩ := advance_visits h hj
  exact returned_of_iterate h (by rw [hvisit, Vector.getElem?_eq_getElem hj]) hi hk

theorem calls_spec (h : tw.Valid) {tables : List Table} (htables : ∀ table ∈ tables, table.Stops) :
    ∃ tw', calls tables tw = some tw' ∧ tw'.step = tw.step ∧ tw'.Valid := by
  induction tables generalizing tw with
  | nil => exact ⟨tw, rfl, rfl, h⟩
  | cons table tables ih =>
    obtain ⟨hfirst, hrest⟩ := List.forall_mem_cons.mp htables
    obtain ⟨tw₁, hcall, hstep, hvalid⟩ := wasteRandomCycles_spec hfirst h
    obtain ⟨tw', hcalls, hstep', hvalid'⟩ := ih hvalid hrest
    refine ⟨tw', ?_, hstep'.trans hstep, hvalid'⟩
    rw [calls, hcall]
    exact hcalls

/-- A call ends within `arraySize` iterations, reads inside the table and keeps the step and a
position in the table, and so does every call after it. -/
theorem wasteRandomCycles_returns (table : Table) (htable : table.Stops) (tw : TimeWaster)
    (h : tw.Valid) :
    ∃ tw', wasteRandomCycles table arraySize tw = .returned tw' ∧ tw'.step = tw.step ∧
      tw'.pos.toNat < arraySize ∧
      ∀ tables : List Table, (∀ table ∈ tables, table.Stops) →
        ∃ tw'', calls tables tw' = some tw'' ∧ tw''.step = tw.step ∧ tw''.pos.toNat < arraySize := by
  obtain ⟨tw', hcall, hstep, hvalid⟩ := wasteRandomCycles_spec htable h
  refine ⟨tw', hcall, hstep, hvalid.pos_lt, ?_⟩
  intro tables htables
  obtain ⟨tw'', hcalls, hstep', hvalid'⟩ := calls_spec hvalid htables
  exact ⟨tw'', hcalls, hstep'.trans hstep, hvalid'.pos_lt⟩

/-- One entry that ends the loop, away from where it begins. -/
def oneZero : Table := (Vector.replicate arraySize 1).set 100 0 (by decide)

/-- The entry that the loop reads first sends it on. -/
theorem wasteRandomCycles_oneZero : oneZero[(new ⟨1, 2⟩).pos.toNat]? = some 1 ∧
    ∃ tw', wasteRandomCycles oneZero arraySize (new ⟨1, 2⟩) = .returned tw' ∧ tw'.pos.toNat < arraySize := by
  have hstops : oneZero.Stops := ⟨0, Vector.mem_of_getElem (Vector.getElem_set_self (by decide)), rfl⟩
  obtain ⟨tw', hcall, -, hpos, -⟩ := wasteRandomCycles_returns _ hstops _ (new_valid ⟨1, 2⟩)
  have hstart : (new ⟨1, 2⟩).pos.toNat ≠ 100 ∧ (new ⟨1, 2⟩).pos.toNat < arraySize := by decide
  refine ⟨?_, tw', hcall, hpos⟩
  rw [Vector.getElem?_eq_getElem hstart.2, oneZero, Vector.getElem_set_ne _ _ hstart.1.symm,
    Vector.getElem_replicate]

end TimeWaster

end Turf.Extra
