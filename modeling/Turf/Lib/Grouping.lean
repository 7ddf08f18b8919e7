import Mathlib.Algebra.BigOperators.Group.List.Basic
import Mathlib.Data.Finset.Card
import Mathlib.Data.List.Dedup
import Mathlib.Data.List.Nodup

/-!
# Grouping by key in order of first appearance

Entries arrive one after another; each joins the group of its key, and a key that has not
appeared opens a group at the end. The groups are then the entries of each key, and their
sizes the counts of the keys.
-/
namespace Turf.Lib.Grouping

variable {κ ν : Type*} [DecidableEq κ] {es : List (κ × ν)} {keys : List κ}
  {groups : List (List ν)} {k : κ} {v : ν}

/-- The values of a key. -/
def valuesOf (es : List (κ × ν)) (k : κ) : List ν := (es.filter fun e => e.1 = k).map Prod.snd

theorem valuesOf_append_self (es : List (κ × ν)) (k : κ) (v : ν) :
    valuesOf (es ++ [(k, v)]) k = valuesOf es k ++ [v] := by
  simp [valuesOf]

theorem valuesOf_append_of_ne {k' : κ} (h : k' ≠ k) (es : List (κ × ν)) (v : ν) :
    valuesOf (es ++ [(k, v)]) k' = valuesOf es k' := by
  simp [valuesOf, Ne.symm h]

theorem length_valuesOf (es : List (κ × ν)) (k : κ) :
    (valuesOf es k).length = (es.map Prod.fst).count k := by
  induction es with
  | nil => rfl
  | cons e es ih =>
    by_cases h : e.1 = k
    · rw [List.map_cons, h, List.count_cons_self, ← ih]
      simp [valuesOf, h]
    · rw [List.map_cons, List.count_cons_of_ne h, ← ih]
      simp [valuesOf, h]

theorem valuesOf_eq_nil (h : k ∉ es.map Prod.fst) : valuesOf es k = [] := by
  apply List.eq_nil_of_length_eq_zero
  rw [length_valuesOf, List.count_eq_zero_of_not_mem h]

/-- The keys in order of first appearance. -/
def keysOf (es : List (κ × ν)) : List κ := (es.map Prod.fst).eraseDups

theorem mem_keysOf : k ∈ keysOf es ↔ k ∈ es.map Prod.fst := List.mem_eraseDups

theorem keysOf_append_old (h : k ∈ keysOf es) (v : ν) : keysOf (es ++ [(k, v)]) = keysOf es := by
  unfold keysOf
  rw [List.map_append, List.eraseDups_append, List.map_singleton]
  have hgone : [k].removeAll (es.map Prod.fst) = [] := by
    simp [List.removeAll, mem_keysOf.mp h]
  rw [hgone, List.eraseDups_nil, List.append_nil]

theorem keysOf_append_new (h : k ∉ keysOf es) (v : ν) :
    keysOf (es ++ [(k, v)]) = keysOf es ++ [k] := by
  unfold keysOf
  rw [List.map_append, List.eraseDups_append, List.map_singleton]
  have hstays : [k].removeAll (es.map Prod.fst) = [k] := by
    have hk : k ∉ es.map Prod.fst := fun hmem => h (mem_keysOf.mpr hmem)
    simp [List.removeAll, hk]
  rw [hstays, List.eraseDups_cons]
  rfl

/-- The keys in order of first appearance and the group of each. -/
structure Grouped (es : List (κ × ν)) (keys : List κ) (groups : List (List ν)) : Prop where
  nodup : keys.Nodup
  mem : ∀ k, k ∈ keys ↔ k ∈ es.map Prod.fst
  head : keys.head? = (es.map Prod.fst).head?
  groups : groups = keys.map (valuesOf es)

theorem grouped_nil : Grouped ([] : List (κ × ν)) [] [] :=
  ⟨List.nodup_nil, fun _ => Iff.rfl, rfl, rfl⟩

namespace Grouped

theorem length_eq (h : Grouped es keys groups) : groups.length = keys.length := by
  rw [h.groups, List.length_map]

/-- An entry with a new key opens a group. -/
theorem new (h : Grouped es keys groups) (hk : k ∉ keys) (v : ν) :
    Grouped (es ++ [(k, v)]) (keys ++ [k]) (groups ++ [[v]]) where
  nodup := by
    apply List.Nodup.append h.nodup (List.nodup_singleton k)
    intro k' hmem hk'
    rw [List.mem_singleton.mp hk'] at hmem
    exact hk hmem
  mem k' := by
    rw [List.map_append, List.mem_append, List.mem_append, h.mem]
    rfl
  head := by
    rw [List.map_append, List.head?_append, List.head?_append, h.head]
    rfl
  groups := by
    rw [List.map_append, h.groups]
    congr 1
    · apply List.map_congr_left
      intro k' hmem
      have hne : k' ≠ k := fun heq => hk (heq ▸ hmem)
      rw [valuesOf_append_of_ne hne]
    · rw [List.map_singleton, valuesOf_append_self, valuesOf_eq_nil (fun hmem => hk ((h.mem k).mpr hmem)),
        List.nil_append]

/-- An entry with a known key joins the group at the key's place. -/
theorem old (h : Grouped es keys groups) {i : Nat} (hi : keys[i]? = some k) (v : ν) :
    Grouped (es ++ [(k, v)]) keys (groups.modify i (· ++ [v])) where
  nodup := h.nodup
  mem k' := by
    have hk : k ∈ keys := List.mem_of_getElem? hi
    rw [List.map_append, List.mem_append, ← h.mem]
    constructor
    · exact .inl
    · rintro (hmem | hk')
      · exact hmem
      · rw [List.mem_singleton.mp hk']
        exact hk
  head := by
    have hne : es.map Prod.fst ≠ [] := by
      intro hnil
      have hmem := (h.mem k).mp (List.mem_of_getElem? hi)
      rw [hnil] at hmem
      cases hmem
    rw [List.map_append, List.head?_append_of_ne_nil _ hne, h.head]
  groups := by
    rw [h.groups]
    apply List.ext_getElem?
    intro j
    rw [List.getElem?_modify, List.getElem?_map, List.getElem?_map]
    cases hj : keys[j]? with
    | none => rfl
    | some k' =>
      by_cases heq : i = j
      · rw [heq] at hi
        obtain rfl := Option.some.inj (hi.symm.trans hj)
        simp [heq, valuesOf_append_self]
      · have hne : k' ≠ k := by
          rintro rfl
          have hlt : i < keys.length := (List.getElem?_eq_some_iff.mp hi).1
          exact heq ((List.getElem?_inj hlt h.nodup).mp (hi.trans hj.symm))
        simp [heq, valuesOf_append_of_ne hne]

/-- The keys are those of the entries, in another order. -/
theorem keys_perm (h : Grouped es keys groups) : keys.Perm (es.map Prod.fst).dedup := by
  apply (List.perm_ext_iff_of_nodup h.nodup (List.nodup_dedup _)).mpr
  intro k'
  rw [h.mem, List.mem_dedup]

theorem length_keys (h : Grouped es keys groups) : keys.length = (es.map Prod.fst).toFinset.card := by
  rw [h.keys_perm.length_eq, List.card_toFinset]

/-- The size of a group is the count of its key. -/
theorem getElem?_length (h : Grouped es keys groups) (i : Nat) :
    groups[i]?.map List.length = keys[i]?.map fun k => (es.map Prod.fst).count k := by
  rw [h.groups, List.getElem?_map]
  cases keys[i]? with
  | none => rfl
  | some k' => exact congrArg some (length_valuesOf es k')

theorem sizes_perm (h : Grouped es keys groups) :
    (groups.map List.length).Perm
      ((es.map Prod.fst).dedup.map fun k => (es.map Prod.fst).count k) := by
  have hsizes : groups.map List.length = keys.map fun k => (es.map Prod.fst).count k := by
    rw [h.groups, List.map_map]
    apply List.map_congr_left
    intro k' _
    exact length_valuesOf es k'
  rw [hsizes]
  exact h.keys_perm.map _

end Grouped

end Turf.Lib.Grouping
