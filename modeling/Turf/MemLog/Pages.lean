import Turf.MemLog.Invariant

/-!
# The list of pages

Following `next` from `m_head` one comes past the retained pages, in the order in which
they were created, and ends at the tail.
-/
namespace Turf.MemLog

open Turf.Lib.Schedule

variable {c : Config} {s : State}

/-- The pages that lie ahead of a pointer, up to the null that ends the list. -/
inductive Linked (s : State) : Option Nat → List Nat → Prop
  | nil : Linked s none []
  | cons {page : Nat} {pages : List Nat} (h : Linked s (s.pages page).next pages) :
      Linked s (some page) (page :: pages)

theorem linked_range' {p k : Nat} (hnext : ∀ q, p ≤ q → q < p + k → (s.pages q).next = some (q + 1))
    (hlast : (s.pages (p + k)).next = none) : Linked s (some p) (List.range' p (k + 1)) := by
  induction k generalizing p with
  | zero =>
    refine .cons ?_
    rw [show (s.pages p).next = none from hlast]
    exact .nil
  | succ k ih =>
    refine .cons ?_
    rw [hnext p (Nat.le_refl p) (by omega)]
    apply ih (fun q hle hlt => hnext q (by omega) (by omega))
    rw [show p + 1 + k = p + (k + 1) by omega]
    exact hlast

theorem unlinked_le_ahead (at_ : Option Pc) : unlinked at_ ≤ ahead at_ := by
  unfold unlinked ahead
  split
  · exact Nat.le_refl 1
  · exact Nat.zero_le _

/-- Whatever is under way, the pages from the head to the last one linked are in the list. -/
theorem Shape.linked {at_ : Option Pc} {hd : Nat} (h : Shape c s at_ hd) :
    Linked s s.head (List.range' hd (s.created - unlinked at_ - hd)) := by
  have hcreated := h.created
  have hcount := h.count
  have hpos := h.numPages_pos
  have hle := unlinked_le_ahead at_
  obtain ⟨k, hk⟩ : ∃ k, s.created - unlinked at_ - hd = k + 1 :=
    ⟨s.created - unlinked at_ - hd - 1, by omega⟩
  rw [h.head, hk]
  refine linked_range' (fun q hle hlt => ?_) ?_
  · rw [h.next q (by omega), if_pos (by omega)]
  · rw [h.next (hd + k) (by omega), if_neg (by omega)]

/-- With nothing under way the list is as long as `m_numPages` says. -/
theorem Shape.linked_free {hd : Nat} (h : Shape c s none hd) :
    Linked s s.head (List.range' hd s.numPages) ∧ s.tail + 1 = hd + s.numPages := by
  have hcreated : s.created = s.tail + 1 := h.created
  have hcount : s.tail + 1 = hd + s.numPages := h.count
  have hlinked := h.linked
  rw [show s.created - unlinked none - hd = s.numPages by
    show s.created - 0 - hd = s.numPages
    omega] at hlinked
  exact ⟨hlinked, hcount⟩

/-- **Pages and slots.** No slot is given out twice and none beyond the end of its page, and
a log call writes to a slot it was given. A page is linked to a tail that has no slot left.
While the mutex is free the list is acyclic, ends at the tail and is counted correctly. -/
theorem pages_and_slots (c : Config) {ls : List Label} {s : State}
    (hr : run (next c) start ls = some s) :
    (s.given.map fun g => (g.page, g.index)).Nodup ∧
    (∀ g ∈ s.given, g.index < c.eventsPerPage) ∧
    (∀ t call event field page index,
      s.threads t = .logging call event (.write field page index) → ⟨page, index, call⟩ ∈ s.given) ∧
    (∀ t call event oldTail newTail,
      s.threads t = .logging call event (.linkNext oldTail newTail) →
        oldTail = s.tail ∧ ∀ i < c.eventsPerPage, ∃ call, ⟨oldTail, i, call⟩ ∈ s.given) ∧
    (s.mutex = none → ∃ pages, Linked s s.head pages ∧ pages.Nodup ∧
      pages.getLast? = some s.tail ∧ pages.length = s.numPages ∧ s.numPages ≤ c.maxNumPages) := by
  have h := run_inv hr
  refine ⟨h.slots.nodup, fun g hg => h.slots.index_lt hg, fun t call event field page index hpc =>
    (h.stands t call event _ hpc).2, fun t call event oldTail newTail hpc => ?_, fun hfree => ?_⟩
  · obtain ⟨rfl, -, -⟩ := h.stands t call event _ hpc
    obtain ⟨hd, hshape⟩ := h.held t call event _ hpc rfl
    have hcreated : s.created = s.tail + 1 + 1 := hshape.created
    have hfull := h.slots.full s.tail (by omega)
    exact ⟨rfl, fun i hi => (h.slots.given_iff h.tail_lt).mpr (by omega)⟩
  · obtain ⟨hd, hshape⟩ := h.free hfree
    obtain ⟨hlinked, hcount⟩ := hshape.linked_free
    have hpos := hshape.numPages_pos
    refine ⟨_, hlinked, List.nodup_range', ?_, List.length_range', hshape.numPages_le⟩
    rw [List.getLast?_range', if_neg (by omega)]
    exact congrArg some (by omega)

/-- A small log, two pages of one event each. -/
def twoPages : Config := ⟨1, 2, by decide, by decide⟩

/-- Two calls, the second of which takes a new page. -/
theorem pages_and_slots_two :
    ∃ s : State, run (next twoPages) start
        (.log 0 0 0 0 :: List.replicate 6 (.step 0) ++ .log 1 0 0 0 :: List.replicate 14 (.step 1)) =
        some s ∧
      ∃ pages, Linked s s.head pages ∧ pages.getLast? = some 1 ∧ pages.length = 2 := by
  obtain ⟨s, hr, hfree, htail, hnum⟩ : ∃ s : State, run (next twoPages) start
      (.log 0 0 0 0 :: List.replicate 6 (.step 0) ++ .log 1 0 0 0 :: List.replicate 14 (.step 1)) =
        some s ∧ s.mutex = none ∧ s.tail = 1 ∧ s.numPages = 2 := ⟨_, rfl, rfl, rfl, rfl⟩
  obtain ⟨pages, hlinked, -, hlast, hlength, -⟩ := (pages_and_slots twoPages hr).2.2.2.2 hfree
  exact ⟨s, hr, pages, hlinked, hlast.trans (congrArg some htail), hlength.trans hnum⟩

end Turf.MemLog
