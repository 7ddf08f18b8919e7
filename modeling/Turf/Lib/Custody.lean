import Mathlib.Data.List.Nodup
import Mathlib.Data.List.Range
import Mathlib.Logic.Function.Basic

/-!
# Objects that are in one place each

Numbered objects are put into slots, one slot holding at most one of them, and end when they
leave their slot. While every object is in one slot or has ended once, empty slots mean that
the ended objects are all of them.
-/
namespace Turf.Lib.Custody

variable {ι : Type*}

/-- Of the objects below `count`, those in `ended` have ended and the others are each in one
slot. -/
structure InCustody (slot : ι → Option Nat) (count : Nat) (ended : List Nat) : Prop where
  held : ∀ t x, slot t = some x → x < count ∧ x ∉ ended
  one : ∀ t u x, slot t = some x → slot u = some x → t = u
  covered : ∀ x, x < count → x ∈ ended ∨ ∃ t, slot t = some x
  once : ended.Nodup
  bound : ∀ x ∈ ended, x < count

variable {slot : ι → Option Nat} {count : Nat} {ended ended' : List Nat}

theorem InCustody.empty : InCustody (fun _ : ι => none) 0 [] := by
  constructor <;> simp

/-- With all slots empty every object has ended, exactly once. -/
theorem InCustody.all_ended (h : InCustody slot count ended) (he : ∀ t, slot t = none) :
    ended.Perm (List.range count) := by
  apply (List.perm_ext_iff_of_nodup h.once List.nodup_range).mpr
  intro x
  rw [List.mem_range]
  constructor
  · exact h.bound x
  · intro hx
    rcases h.covered x hx with hd | ⟨t, ht⟩
    · exact hd
    · rw [he t] at ht
      cases ht

variable [DecidableEq ι]

theorem update_none_eq_some {t u : ι} {x : Nat} :
    Function.update slot t none u = some x ↔ u ≠ t ∧ slot u = some x := by
  by_cases hu : u = t
  · subst u
    simp
  · simp [hu]

/-- The object in a slot, if any, ends. -/
theorem InCustody.release (h : InCustody slot count ended) (t : ι)
    (hp : ended'.Perm (ended ++ (slot t).toList)) :
    InCustody (Function.update slot t none) count ended' := by
  have hmem (x : Nat) : x ∈ ended' ↔ x ∈ ended ∨ slot t = some x := by
    rw [hp.mem_iff, List.mem_append, Option.mem_toList]
  constructor
  · intro u x hu
    obtain ⟨hut, hx⟩ := update_none_eq_some.mp hu
    obtain ⟨hlt, hnot⟩ := h.held u x hx
    refine ⟨hlt, fun he => ?_⟩
    rcases (hmem x).mp he with hold | hnew
    · exact hnot hold
    · exact hut (h.one u t x hx hnew)
  · intro u v x hu hv
    exact h.one u v x (update_none_eq_some.mp hu).2 (update_none_eq_some.mp hv).2
  · intro x hx
    rcases h.covered x hx with hold | ⟨u, hu⟩
    · exact .inl ((hmem x).mpr (.inl hold))
    · by_cases hut : u = t
      · subst u
        exact .inl ((hmem x).mpr (.inr hu))
      · exact .inr ⟨u, update_none_eq_some.mpr ⟨hut, hu⟩⟩
  · apply hp.nodup_iff.mpr
    apply List.nodup_append.mpr
    refine ⟨h.once, by cases slot t <;> simp, ?_⟩
    intro x hx y hy hxy
    subst y
    exact (h.held t x (Option.mem_toList.mp hy)).2 hx
  · intro x hx
    rcases (hmem x).mp hx with hold | hnew
    · exact h.bound x hold
    · exact (h.held t x hnew).1

/-- A new object is put into an empty slot. -/
theorem InCustody.store (h : InCustody slot count ended) {t : ι} (ht : slot t = none) :
    InCustody (Function.update slot t (some count)) (count + 1) ended := by
  have hold {u : ι} {x : Nat} (hu : Function.update slot t (some count) u = some x) :
      u = t ∧ x = count ∨ u ≠ t ∧ slot u = some x := by
    by_cases hut : u = t
    · subst u
      rw [Function.update_self] at hu
      exact .inl ⟨rfl, (Option.some.inj hu).symm⟩
    · rw [Function.update_of_ne hut] at hu
      exact .inr ⟨hut, hu⟩
  constructor
  · intro u x hu
    rcases hold hu with ⟨_, rfl⟩ | ⟨_, hx⟩
    · exact ⟨Nat.lt_succ_self _, fun he => (Nat.lt_irrefl _ (h.bound _ he))⟩
    · obtain ⟨hlt, hnot⟩ := h.held u x hx
      exact ⟨Nat.lt_succ_of_lt hlt, hnot⟩
  · intro u v x hu hv
    rcases hold hu with ⟨rfl, rfl⟩ | ⟨_, hx⟩
    · rcases hold hv with ⟨rfl, _⟩ | ⟨_, hy⟩
      · rfl
      · exact absurd (h.held v _ hy).1 (Nat.lt_irrefl _)
    · rcases hold hv with ⟨rfl, rfl⟩ | ⟨_, hy⟩
      · exact absurd (h.held u _ hx).1 (Nat.lt_irrefl _)
      · exact h.one u v x hx hy
  · intro x hx
    by_cases hxc : x = count
    · subst x
      exact .inr ⟨t, Function.update_self ..⟩
    · rcases h.covered x (by omega) with he | ⟨u, hu⟩
      · exact .inl he
      · have hut : u ≠ t := by
          intro he
          rw [he, ht] at hu
          cases hu
        exact .inr ⟨u, by rw [Function.update_of_ne hut]; exact hu⟩
  · exact h.once
  · intro x hx
    exact Nat.lt_succ_of_lt (h.bound x hx)

end Turf.Lib.Custody
