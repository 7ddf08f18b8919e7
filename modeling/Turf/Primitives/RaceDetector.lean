import Mathlib.Logic.Function.Basic
import Turf.Lib.Schedule

/-!
# The race detector

RaceDetector.h with `TURF_WITH_ASSERTS`. Any number of threads open and close
`RaceDetectGuard` scopes on one detector. A constructor takes two steps, the exchange and the
comparison that may break into the debugger; a destructor is one store. A scope is open from
its exchange to its store.
-/
namespace Turf.Primitives.RaceDetector

open Turf.Lib.Schedule

/-- The scopes are numbered in the order of their exchanges. `scopes` lists the threads of those
open, `entering` has the scope whose constructor a thread is in with what the exchange returned,
and `breaks` the scopes that raised a debug break. The program keeps `entered` only. -/
structure State (ι : Type) where
  entered : Bool
  scopes : List ι
  entering : ι → Option (Nat × Bool)
  entries : Nat
  breaks : List Nat

def start (ι : Type) : State ι := ⟨false, [], fun _ => none, 0, []⟩

inductive Label (ι : Type) where
  | exchange (t : ι)
  | compare (t : ι)
  | store (t : ι)

variable {ι : Type}

/-- No two scopes are open at a time. -/
def Apart (s : State ι) : Prop := s.scopes.length ≤ 1

/-- What holds until two scopes overlap. -/
structure Calm (s : State ι) : Prop where
  entered : s.entered = true ↔ s.scopes ≠ []
  quiet : s.breaks = []
  fresh : ∀ t id old, s.entering t = some (id, old) → old = false

theorem start_calm : Calm (start ι) := ⟨by simp [start], rfl, by simp [start]⟩

variable [DecidableEq ι]

/-- A thread in a constructor compares next. It closes only scopes that it has open. -/
def next (s : State ι) : Label ι → Option (State ι)
  | .exchange t =>
    if s.entering t = none then
      some { s with
        entered := true
        scopes := t :: s.scopes
        entering := Function.update s.entering t (some (s.entries, s.entered))
        entries := s.entries + 1 }
    else none
  | .compare t =>
    (s.entering t).map fun e =>
      { s with
        entering := Function.update s.entering t none
        breaks := if e.2 then e.1 :: s.breaks else s.breaks }
  | .store t =>
    if s.entering t = none ∧ t ∈ s.scopes then
      some { s with entered := false, scopes := s.scopes.erase t }
    else none

theorem fresh_update {f : ι → Option (Nat × Bool)} {t : ι} {e : Option (Nat × Bool)}
    (hf : ∀ u id old, f u = some (id, old) → old = false)
    (he : ∀ id old, e = some (id, old) → old = false) (u : ι) (id : Nat) (old : Bool)
    (h : Function.update f t e u = some (id, old)) : old = false := by
  by_cases hut : u = t
  · subst u
    rw [Function.update_self] at h
    exact he id old h
  · rw [Function.update_of_ne hut] at h
    exact hf u id old h

theorem next_calm {s s' : State ι} {l : Label ι} (h : next s l = some s') (ha : Apart s)
    (ha' : Apart s') (hs : Calm s) : Calm s' := by
  cases l with
  | exchange t =>
    simp only [next] at h
    split at h
    · cases h
      -- a second open scope would be an overlap
      have hnil : s.scopes = [] := by
        have hlen : (t :: s.scopes).length ≤ 1 := ha'
        simpa using hlen
      have hold : s.entered = false :=
        Bool.eq_false_iff.mpr fun he => hs.entered.mp he hnil
      exact ⟨by simp, hs.quiet, fresh_update hs.fresh (by simp [hold])⟩
    · cases h
  | compare t =>
    obtain ⟨⟨id, old⟩, he, rfl⟩ := Option.map_eq_some_iff.mp h
    have hold : old = false := hs.fresh t id old he
    exact ⟨hs.entered, by simp [hold, hs.quiet], fresh_update hs.fresh (by simp)⟩
  | store t =>
    simp only [next] at h
    split at h
    · cases h
      rename_i hopen
      have hlen : (s.scopes.erase t).length = 0 := by
        rw [List.length_erase_of_mem hopen.2]
        exact Nat.sub_eq_zero_of_le ha
      exact ⟨by simp [List.length_eq_zero_iff.mp hlen], hs.quiet, hs.fresh⟩
    · cases h

/-- The scope has raised its break, or its constructor is about to. -/
def Alarmed (id : Nat) (s : State ι) : Prop :=
  id ∈ s.breaks ∨ ∃ t, s.entering t = some (id, true)

theorem next_alarmed {id : Nat} {s s' : State ι} {l : Label ι} (h : next s l = some s')
    (hs : Alarmed id s) : Alarmed id s' := by
  cases l with
  | exchange t =>
    simp only [next] at h
    split at h
    · cases h
      rename_i hidle
      apply hs.imp_right
      intro ⟨u, hu⟩
      have hut : u ≠ t := by
        intro he
        rw [he, hidle] at hu
        cases hu
      exact ⟨u, by simp [hut, hu]⟩
    · cases h
  | compare t =>
    obtain ⟨⟨id', old⟩, he, rfl⟩ := Option.map_eq_some_iff.mp h
    rcases hs with hb | ⟨u, hu⟩
    · left
      cases old <;> simp [hb]
    · by_cases hut : u = t
      · subst u
        cases hu.symm.trans he
        left
        simp
      · exact .inr ⟨u, by simp [hut, hu]⟩
  | store t =>
    simp only [next] at h
    split at h
    · cases h
      exact hs
    · cases h

theorem reached_calm {s : State ι} {ls : List (Label ι)} (h : run next (start ι) ls = some s)
    (ha : Along next Apart (start ι) ls) : Calm s :=
  run_preserves_along (fun _ _ _ hn hq hq' => next_calm hn hq hq') h ha start_calm

/-- An entry while another scope is open, the first such entry of the run. -/
theorem overlap_alarmed {u s : State ι} {xs ys : List (Label ι)} {t : ι}
    (hu : run next (start ι) xs = some u) (ha : Along next Apart (start ι) xs)
    (hopen : u.scopes ≠ []) (h : run next (start ι) (xs ++ .exchange t :: ys) = some s) :
    Alarmed u.entries s := by
  obtain ⟨u', hu', hrest⟩ := run_append.mp h
  cases hu.symm.trans hu'
  obtain ⟨v, hv, hys⟩ := run_cons.mp hrest
  refine run_preserves (fun _ _ _ hn => next_alarmed hn) hys ?_
  have hset : u.entered = true := (reached_calm hu ha).entered.mpr hopen
  simp only [next] at hv
  split at hv
  · cases hv
    exact .inr ⟨t, by simp [hset]⟩
  · cases hv

/-- A run that has overlapping scopes has a first entry that overlaps an open one. -/
theorem exists_first_overlap {s : State ι} {ls : List (Label ι)}
    (h : run next (start ι) ls = some s) (ha : ¬ Along next Apart (start ι) ls) :
    ∃ xs t ys u, ls = xs ++ .exchange t :: ys ∧ run next (start ι) xs = some u ∧
      Along next Apart (start ι) xs ∧ u.scopes ≠ [] := by
  obtain ⟨xs, l, ys, u, v, rfl, hu, hxs, hv, hover⟩ :=
    exists_first_loss h (Nat.zero_le 1 : Apart (start ι)) ha
  have hapart : Apart u := hxs xs u List.prefix_rfl hu
  cases l with
  | exchange t =>
    refine ⟨xs, t, ys, u, rfl, hu, hxs, ?_⟩
    intro hnil
    simp only [next] at hv
    split at hv
    · cases hv
      exact hover (by simp [Apart, hnil])
    · cases hv
  | compare t =>
    obtain ⟨e, _, rfl⟩ := Option.map_eq_some_iff.mp hv
    exact absurd hapart hover
  | store t =>
    simp only [next] at hv
    split at hv
    · cases hv
      exact absurd (Nat.le_trans List.erase_sublist.length_le hapart) hover
    · cases hv

/-- Until two scopes overlap, `entered` tells whether one is open and there is no break. The
first entry that overlaps an open scope raises one when it compares. So once no constructor is
under way, there has been a break if and only if there has been an overlap. -/
theorem break_iff_overlap (ls : List (Label ι)) (s : State ι)
    (h : run next (start ι) ls = some s) :
    (Along next Apart (start ι) ls → (s.entered = true ↔ s.scopes.length = 1) ∧ s.breaks = []) ∧
    (∀ xs t ys u, ls = xs ++ .exchange t :: ys → run next (start ι) xs = some u →
      Along next Apart (start ι) xs → u.scopes ≠ [] → Alarmed u.entries s) ∧
    ((∀ t, s.entering t = none) →
      (s.breaks ≠ [] ↔ ¬ Along next Apart (start ι) ls)) := by
  have hcalm (ha : Along next Apart (start ι) ls) : Calm s := reached_calm h ha
  refine ⟨?_, ?_, ?_⟩
  · intro ha
    have hlen : s.scopes.length ≤ 1 := ha ls s List.prefix_rfl h
    have hpos : s.scopes ≠ [] ↔ 0 < s.scopes.length := List.length_pos_iff.symm
    refine ⟨?_, (hcalm ha).quiet⟩
    rw [(hcalm ha).entered, hpos]
    omega
  · intro xs t ys u hls hu ha hopen
    subst ls
    exact overlap_alarmed hu ha hopen h
  · intro hidle
    constructor
    · intro hb ha
      exact hb (hcalm ha).quiet
    · intro ha
      obtain ⟨xs, t, ys, u, rfl, hu, hxs, hopen⟩ := exists_first_overlap h ha
      rcases overlap_alarmed hu hxs hopen h with hb | ⟨v, hv⟩
      · exact List.ne_nil_of_mem hb
      · rw [hidle v] at hv
        cases hv

/-- A thread enters while the other has a scope open. -/
def overlapping : List (Label Bool) :=
  [.exchange false, .compare false, .exchange true, .compare true]

theorem break_iff_overlap_small :
    ∃ s, run next (start Bool) overlapping = some s ∧ s.breaks = [1] ∧
      ¬ Along next Apart (start Bool) overlapping := by
  have hend : (run next (start Bool) overlapping).map
      (fun s => (s.breaks, s.entering false, s.entering true)) = some ([1], none, none) := rfl
  obtain ⟨s, hs, hv⟩ := Option.map_eq_some_iff.mp hend
  simp only [Prod.mk.injEq] at hv
  obtain ⟨hb, hfalse, htrue⟩ := hv
  have hidle (t : Bool) : s.entering t = none := by
    cases t
    · exact hfalse
    · exact htrue
  refine ⟨s, hs, hb, ?_⟩
  exact ((break_iff_overlap overlapping s hs).2.2 hidle).mp (by simp [hb])

end Turf.Primitives.RaceDetector
