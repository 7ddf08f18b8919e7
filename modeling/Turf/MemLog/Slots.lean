import Mathlib.Data.List.Nodup
import Turf.Lib.Paged
import Turf.MemLog.Steps

/-!
# Which slots are given out

Slots are given out page by page and, within a page, in the order of their indices: the
`k`-th slot is the place of position `k`. Uniqueness and the bound on the index are
consequences of this one fact.
-/
namespace Turf.MemLog

open Turf.Lib.Paged

variable {c : Config} {s s' : State}

structure Slots (c : Config) (s : State) : Prop where
  full : ∀ p, p + 1 < s.created → c.eventsPerPage ≤ s.indexOf p
  placed : ∀ k g, s.given[k]? = some g → (g.page, g.index) = place c.eventsPerPage k
  filled : s.given.length =
    (s.created - 1) * c.eventsPerPage + min c.eventsPerPage (s.indexOf (s.created - 1))

theorem Slots.start (c : Config) : Slots c start where
  full p hp := absurd hp (by simp [MemLog.start])
  placed k g hg := nomatch hg
  filled := by simp [MemLog.start, State.indexOf, newPage]

/-- Nothing else of a state matters. -/
theorem Slots.congr (h : Slots c s) (hcreated : s'.created = s.created)
    (hindex : ∀ p, s'.indexOf p = s.indexOf p) (hgiven : s'.given = s.given) : Slots c s' where
  full p hp := by
    rw [hindex]
    rw [hcreated] at hp
    exact h.full p hp
  placed := by
    rw [hgiven]
    exact h.placed
  filled := by
    rw [hgiven, hcreated, hindex]
    exact h.filled

/-! ## Given slots -/

theorem Slots.page_lt (h : Slots c s) (hcreated : 0 < s.created) {g : Given} (hg : g ∈ s.given) :
    g.page < s.created := by
  obtain ⟨k, hk⟩ := List.getElem?_of_mem hg
  have hlt := (List.getElem?_eq_some_iff.mp hk).1
  have hplace : g.page = k / c.eventsPerPage := congrArg Prod.fst (h.placed k g hk)
  have hfilled := h.filled
  have hmin : min c.eventsPerPage (s.indexOf (s.created - 1)) ≤ c.eventsPerPage := Nat.min_le_left _ _
  have hall : (s.created - 1) * c.eventsPerPage + c.eventsPerPage = s.created * c.eventsPerPage := by
    rw [← Nat.succ_mul, Nat.succ_eq_add_one, Nat.sub_add_cancel hcreated]
  rw [hplace]
  exact Nat.div_lt_of_lt_mul (by rw [Nat.mul_comm]; omega)

theorem Slots.index_lt (h : Slots c s) {g : Given} (hg : g ∈ s.given) :
    g.index < c.eventsPerPage := by
  obtain ⟨k, hk⟩ := List.getElem?_of_mem hg
  have hplace : g.index = k % c.eventsPerPage := congrArg Prod.snd (h.placed k g hk)
  rw [hplace]
  exact Nat.mod_lt k c.events_pos

theorem Slots.map_given (h : Slots c s) :
    s.given.map (fun g => (g.page, g.index)) =
      (List.range s.given.length).map (place c.eventsPerPage) := by
  apply List.ext_getElem?
  intro k
  rw [List.getElem?_map, List.getElem?_map]
  cases hg : s.given[k]? with
  | none =>
    rw [List.getElem?_eq_none_iff] at hg
    rw [List.getElem?_eq_none (by rw [List.length_range]; exact hg)]
    rfl
  | some g =>
    have hlt := (List.getElem?_eq_some_iff.mp hg).1
    rw [List.getElem?_range hlt, Option.map_some, Option.map_some, h.placed k g hg]

/-- No slot is given out twice. -/
theorem Slots.nodup (h : Slots c s) : (s.given.map fun g => (g.page, g.index)).Nodup := by
  rw [h.map_given]
  exact List.Nodup.map place_injective List.nodup_range

theorem Slots.unique (h : Slots c s) {g g' : Given} (hg : g ∈ s.given) (hg' : g' ∈ s.given)
    (hpage : g.page = g'.page) (hindex : g.index = g'.index) : g = g' :=
  List.inj_on_of_nodup_map h.nodup hg hg' (by rw [hpage, hindex])

/-- The slots given out on a page are those below its index. -/
theorem Slots.given_iff (h : Slots c s) {p i : Nat} (hp : p < s.created) :
    (∃ call, ⟨p, i, call⟩ ∈ s.given) ↔ i < min c.eventsPerPage (s.indexOf p) := by
  have hfilled := h.filled
  constructor
  · intro hgiven
    obtain ⟨call, hg⟩ := hgiven
    have hi : i < c.eventsPerPage := h.index_lt hg
    obtain ⟨k, hk⟩ := List.getElem?_of_mem hg
    have hlt := (List.getElem?_eq_some_iff.mp hk).1
    have hposition : k = p * c.eventsPerPage + i := by
      rw [← position_place c.eventsPerPage k, ← h.placed k _ hk]
    by_cases hlast : p + 1 < s.created
    · have hfull := h.full p hlast
      omega
    · obtain rfl : p = s.created - 1 := by omega
      omega
  · intro hi
    have hlt : p * c.eventsPerPage + i < s.given.length := by
      by_cases hlast : p + 1 < s.created
      · have hpages : (p + 1) * c.eventsPerPage ≤ (s.created - 1) * c.eventsPerPage :=
          Nat.mul_le_mul_right _ (by omega)
        rw [Nat.succ_mul] at hpages
        omega
      · obtain rfl : p = s.created - 1 := by omega
        omega
    have hg := h.placed _ _ (List.getElem?_eq_getElem hlt)
    rw [place_mul_add (by omega)] at hg
    have hmem := List.getElem_mem hlt
    cases hget : s.given[p * c.eventsPerPage + i] with
    | mk page index call =>
      rw [hget] at hg hmem
      cases hg
      exact ⟨call, hmem⟩

/-! ## Giving out another slot -/

/-- The next slot is the place of the next position. -/
theorem placed_append (h : Slots c s) {g : Given}
    (hg : (g.page, g.index) = place c.eventsPerPage s.given.length) (k : Nat) (g' : Given)
    (hg' : (s.given ++ [g])[k]? = some g') : (g'.page, g'.index) = place c.eventsPerPage k := by
  rw [List.getElem?_append] at hg'
  split at hg'
  · exact h.placed k g' hg'
  · rename_i hge
    cases hzero : k - s.given.length with
    | zero =>
      rw [hzero] at hg'
      cases hg'
      obtain rfl : k = s.given.length := by omega
      exact hg
    | succ n =>
      rw [hzero] at hg'
      cases hg'

theorem indexOf_setPage (p q : Nat) (page : Page) :
    (s.setPage p page).indexOf q = if q = p then page.index else s.indexOf q := by
  unfold State.indexOf State.setPage
  by_cases hq : q = p
  · subst hq
    simp
  · simp [hq]

theorem indexOf_fetchAddIndex (call p q : Nat) :
    (s.fetchAddIndex c call p).indexOf q = if q = p then s.indexOf p + 1 else s.indexOf q :=
  indexOf_setPage p q _

theorem given_fetchAddIndex (call p : Nat) :
    (s.fetchAddIndex c call p).given = if s.indexOf p < c.eventsPerPage then
      s.given ++ [⟨p, s.indexOf p, call⟩] else s.given := rfl

/-- A page that has slots left is the last one, and `fetchAdd` gives out its next. -/
theorem Slots.fetchAddIndex (h : Slots c s) (call : Nat) {p : Nat} (hp : p < s.created) :
    Slots c (s.fetchAddIndex c call p) := by
  have hfilled := h.filled
  refine ⟨fun q hq => ?_, fun k g hg => ?_, ?_⟩
  · have hfull := h.full q hq
    rw [indexOf_fetchAddIndex]
    split
    · rename_i hqp
      rw [← hqp]
      omega
    · exact hfull
  · rw [given_fetchAddIndex] at hg
    split at hg
    · rename_i hlt
      have hlast : p = s.created - 1 := by
        by_contra hne
        have hfull := h.full p (by omega)
        omega
      subst hlast
      refine placed_append h ?_ k g hg
      have hlength : s.given.length =
          (s.created - 1) * c.eventsPerPage + s.indexOf (s.created - 1) := by omega
      rw [hlength, place_mul_add hlt]
    · exact h.placed k g hg
  · show _ = (s.created - 1) * _ + min _ ((s.fetchAddIndex c call p).indexOf (s.created - 1))
    rw [given_fetchAddIndex, indexOf_fetchAddIndex]
    by_cases hlast : s.created - 1 = p
    · subst hlast
      rw [if_pos rfl]
      split
      · rw [List.length_append, List.length_singleton]
        omega
      · omega
    · have hfull := h.full p (by omega)
      rw [if_neg hlast, if_neg (by omega)]
      exact hfilled

/-- A new page comes when the last one is full, and its first slot is given out at once. -/
theorem Slots.addPage (h : Slots c s) (hcreated : 0 < s.created) (call : Nat)
    (hfull : c.eventsPerPage ≤ s.indexOf (s.created - 1)) : Slots c (s.addPage call) := by
  have hpos := c.events_pos
  have hfilled := h.filled
  have hall : (s.created - 1) * c.eventsPerPage + c.eventsPerPage = s.created * c.eventsPerPage := by
    rw [← Nat.succ_mul, Nat.succ_eq_add_one, Nat.sub_add_cancel hcreated]
  have hlength : s.given.length = s.created * c.eventsPerPage + 0 := by omega
  refine ⟨fun q hq => ?_, fun k g hg => placed_append h ?_ k g hg, ?_⟩
  · have hq' : q < s.created := by
      have hlt : q + 1 < s.created + 1 := hq
      omega
    refine Nat.le_trans ?_ (Nat.le_of_eq (indexOf_setPage s.created q _).symm)
    rw [if_neg (by omega)]
    by_cases hlast : q + 1 < s.created
    · exact h.full q hlast
    · obtain rfl : q = s.created - 1 := by omega
      exact hfull
  · rw [hlength, place_mul_add hpos]
  · show (s.given ++ [_]).length = (s.created + 1 - 1) * _ + min _ ((s.setPage s.created _).indexOf _)
    rw [indexOf_setPage, if_pos (show (s.addPage call).created - 1 = s.created from rfl),
      List.length_append, List.length_singleton]
    show s.given.length + 1 = s.created * c.eventsPerPage + min c.eventsPerPage 1
    omega

end Turf.MemLog
