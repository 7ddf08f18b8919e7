import Turf.MemLog.Contents
import Turf.MemLog.Pages

/-!
# Three views of the log

With no log call in progress, an iteration from `begin` to `end`, `dumpEntireLog` and
`dumpStats` go by different conditions over the same pages and come to the same events.
-/
namespace Turf.MemLog

open Turf.Lib.Paged Turf.Lib.Schedule

variable {c : Config} {s : State}

/-- The slots that have been given out on a page, in the order of their indices. -/
def State.givenSlots (c : Config) (s : State) (page : Nat) : List Iterator :=
  ((List.range c.eventsPerPage).filter fun index =>
    s.given.any fun g => g.page = page ∧ g.index = index).map fun index => ⟨page, index⟩

theorem filter_range_lt {m n : Nat} (hm : m ≤ n) :
    (List.range n).filter (fun i => decide (i < m)) = List.range m := by
  induction n with
  | zero =>
    obtain rfl : m = 0 := by omega
    rfl
  | succ n ih =>
    rw [List.range_succ, List.filter_append]
    by_cases hlast : m = n + 1
    · subst hlast
      have hall : (List.range n).filter (fun i => decide (i < n + 1)) = List.range n := by
        apply List.filter_eq_self.mpr
        intro i hi
        have hlt := List.mem_range.mp hi
        exact decide_eq_true (by omega)
      rw [hall, List.range_succ]
      simp
    · rw [ih (by omega)]
      simp [show ¬n < m by omega]

/-- They are the slots below the page's index. -/
theorem Slots.givenSlots (h : Slots c s) {page : Nat} (hpage : page < s.created) :
    s.givenSlots c page =
      (List.range (min c.eventsPerPage (s.indexOf page))).map fun index => ⟨page, index⟩ := by
  unfold State.givenSlots
  have hfilter : ∀ index, (s.given.any fun g => g.page = page ∧ g.index = index) =
      decide (index < min c.eventsPerPage (s.indexOf page)) := by
    intro index
    rw [Bool.eq_iff_iff, List.any_eq_true, decide_eq_true_eq, ← h.given_iff hpage]
    constructor
    · intro hany
      obtain ⟨g, hg, hslot⟩ := hany
      obtain ⟨rfl, rfl⟩ := of_decide_eq_true hslot
      exact ⟨g.call, hg⟩
    · intro hgiven
      obtain ⟨call, hg⟩ := hgiven
      exact ⟨_, hg, decide_eq_true ⟨rfl, rfl⟩⟩
  rw [funext hfilter, filter_range_lt (Nat.min_le_left _ _)]

/-! ## Iterating -/

/-- The loop over the log visits these iterators and then stops. -/
inductive Visits (c : Config) (s : State) : Iterator → List Iterator → Prop
  | done : Visits c s s.end_ []
  | visit {it : Iterator} {its : List Iterator} (hne : it ≠ s.end_)
      (h : Visits c s (s.succ c it) its) : Visits c s it (it :: its)

theorem Visits.visit_eq {it : Iterator} {its : List Iterator} (h : Visits c s it its) {fuel : Nat}
    (hfuel : its.length < fuel) : s.visit c fuel it = some its := by
  induction h generalizing fuel with
  | done =>
    obtain ⟨n, rfl⟩ : ∃ n, fuel = n + 1 := ⟨fuel - 1, by omega⟩
    exact if_pos rfl
  | visit hne h ih =>
    rw [List.length_cons] at hfuel
    obtain ⟨n, rfl⟩ : ∃ n, fuel = n + 1 := ⟨fuel - 1, by omega⟩
    rw [State.visit, if_neg hne, ih (by omega)]
    rfl

/-- On the tail the loop ends at the tail's index, whether or not the tail is full. -/
theorem visits_tail (hnext : (s.pages s.tail).next = none)
    (hindex : s.indexOf s.tail ≤ c.eventsPerPage) {i k : Nat} (hk : i + k = s.indexOf s.tail) :
    Visits c s ⟨s.tail, i⟩ ((List.range' i k).map fun index => ⟨s.tail, index⟩) := by
  induction k generalizing i with
  | zero =>
    have hend : (⟨s.tail, i⟩ : Iterator) = s.end_ := by
      rw [State.end_, ← hk]
      rfl
    rw [hend]
    exact .done
  | succ k ih =>
    have hne : (⟨s.tail, i⟩ : Iterator) ≠ s.end_ := by
      intro heq
      have hi : i = s.indexOf s.tail := congrArg Iterator.index heq
      omega
    have hsucc : s.succ c ⟨s.tail, i⟩ = ⟨s.tail, i + 1⟩ := by
      unfold State.succ
      split
      · rename_i hfull
        have hi : i + 1 ≥ c.eventsPerPage := hfull
        simp only [hnext]
        rw [show s.indexOf s.tail = i + 1 by omega]
      · rfl
    rw [List.range'_succ, List.map_cons]
    refine .visit hne ?_
    rw [hsucc]
    exact ih (by omega)

/-- On any other page the loop goes on to the end of the page and then to the next. -/
theorem visits_page {page next : Nat} (hnext : (s.pages page).next = some next)
    (hpage : page ≠ s.tail) {its : List Iterator} (h : Visits c s ⟨next, 0⟩ its) {i k : Nat}
    (hk : i + k + 1 = c.eventsPerPage) :
    Visits c s ⟨page, i⟩ (((List.range' i (k + 1)).map fun index => ⟨page, index⟩) ++ its) := by
  have hne : ∀ i, (⟨page, i⟩ : Iterator) ≠ s.end_ := fun i heq => hpage (congrArg Iterator.page heq)
  induction k generalizing i with
  | zero =>
    refine .visit (hne i) ?_
    have hfull : i + 1 ≥ c.eventsPerPage := by omega
    rw [State.succ, if_pos hfull]
    simp only [hnext]
    exact h
  | succ k ih =>
    rw [List.range'_succ, List.map_cons]
    refine .visit (hne i) ?_
    have hroom : ¬i + 1 ≥ c.eventsPerPage := by omega
    rw [State.succ, if_neg hroom]
    exact ih (i := i + 1) (by omega)

/-- By induction on the pages that lie ahead. -/
theorem visits_pages (hindex : s.indexOf s.tail ≤ c.eventsPerPage)
    (hlast : (s.pages s.tail).next = none) {p k : Nat} (hk : p + k = s.tail)
    (hnext : ∀ q, p ≤ q → q < s.tail → (s.pages q).next = some (q + 1))
    (hfull : ∀ q, p ≤ q → q < s.tail → c.eventsPerPage ≤ s.indexOf q) :
    Visits c s ⟨p, 0⟩ ((List.range' p (k + 1)).flatMap fun page =>
      (List.range (min c.eventsPerPage (s.indexOf page))).map fun index => ⟨page, index⟩) := by
  induction k generalizing p with
  | zero =>
    obtain rfl : p = s.tail := hk
    have h := visits_tail (c := c) hlast hindex (Nat.zero_add _)
    rw [← List.range_eq_range'] at h
    rw [Nat.zero_add, List.range'_one, List.flatMap_singleton, Nat.min_eq_right hindex]
    exact h
  | succ k ih =>
    have hrest := ih (p := p + 1) (by omega) (fun q hle hlt => hnext q (by omega) hlt)
      fun q hle hlt => hfull q (by omega) hlt
    have hpos := c.events_pos
    have h := visits_page (hnext p (Nat.le_refl _) (by omega)) (by omega) hrest (i := 0)
      (k := c.eventsPerPage - 1) (by omega)
    rw [Nat.sub_add_cancel hpos, ← List.range_eq_range'] at h
    rw [List.range'_succ, List.flatMap_cons, Nat.min_eq_left (hfull p (Nat.le_refl _) (by omega))]
    exact h

/-! ## Dumping -/

/-- With fuel for the pages ahead, they are all printed. -/
theorem Linked.dumpPages {at_ : Option Nat} {pages : List Nat} (h : Linked s at_ pages) {fuel : Nat}
    (hfuel : pages.length ≤ fuel) :
    s.dumpPages c fuel at_ 0 = some ((pages.flatMap fun page =>
      (List.range (min c.eventsPerPage (s.indexOf page))).map fun index => (⟨page, index⟩ : Iterator)).map
        s.deref) := by
  induction h generalizing fuel with
  | nil =>
    cases fuel with
    | zero => rfl
    | succ fuel => rfl
  | cons h ih =>
    rw [List.length_cons] at hfuel
    obtain ⟨n, rfl⟩ : ∃ n, fuel = n + 1 := ⟨fuel - 1, by omega⟩
    rw [State.dumpPages, if_neg (Nat.lt_irrefl 0), ih (by omega), List.flatMap_cons, List.map_append,
      List.map_map]
    rfl

/-! ## At rest -/

/-- The pages of a log in which no call is in progress. -/
structure AtRest (c : Config) (s : State) (hd : Nat) : Prop where
  head : s.head = some hd
  created : s.created = s.tail + 1
  count : s.tail + 1 = hd + s.numPages
  numPages_pos : 0 < s.numPages
  linked : Linked s s.head (List.range' hd s.numPages)
  next : ∀ q, q < s.tail → (s.pages q).next = some (q + 1)
  last : (s.pages s.tail).next = none
  full : ∀ q, q < s.tail → c.eventsPerPage ≤ s.indexOf q
  index : s.indexOf s.tail ≤ c.eventsPerPage

theorem Inv.at_rest (h : Inv c s) (htail : Tail c s) (hquiet : Quiescent s) : ∃ hd, AtRest c s hd := by
  have hmutex : s.mutex = none := by
    cases hmutex : s.mutex with
    | none => rfl
    | some t =>
      obtain ⟨call, event, pc, hpc, -⟩ := (h.owner t).mp hmutex
      rw [hquiet t] at hpc
      cases hpc
  obtain ⟨hd, hshape⟩ := h.free hmutex
  obtain ⟨hlinked, hcount⟩ := hshape.linked_free
  have hcreated : s.created = s.tail + 1 := hshape.created
  have hnext : ∀ q < s.created, (s.pages q).next = if q + 1 < s.created then some (q + 1) else none :=
    hshape.next
  exact ⟨hd, {
    head := hshape.head
    created := hcreated
    count := hcount
    numPages_pos := hshape.numPages_pos
    linked := hlinked
    next := fun q hq => (hnext q (by omega)).trans (if_pos (by omega))
    last := (hnext s.tail (by omega)).trans (if_neg (by omega))
    full := fun q hq => h.slots.full q (by omega)
    index := htail.quiescent hquiet }⟩

/-- The slots given out on the retained pages, in page order and index order. -/
def State.retained (c : Config) (s : State) (pages : List Nat) : List Iterator :=
  pages.flatMap (s.givenSlots c)

section AtRest
variable {hd : Nat}

theorem AtRest.retained_eq (h : AtRest c s hd) (hslots : Slots c s) :
    s.retained c (List.range' hd s.numPages) = (List.range' hd s.numPages).flatMap fun page =>
      (List.range (min c.eventsPerPage (s.indexOf page))).map fun index => ⟨page, index⟩ := by
  have hcount := h.count
  have hcreated := h.created
  apply List.flatMap_congr
  intro page hpage
  have hmem := List.mem_range'_1.mp hpage
  exact hslots.givenSlots (by omega)

/-- As many slots are not retained as the dropped pages had. -/
theorem AtRest.length_given (h : AtRest c s hd) (hslots : Slots c s) :
    s.given.length =
      hd * c.eventsPerPage + ((s.numPages - 1) * c.eventsPerPage + s.indexOf s.tail) := by
  have hfilled := hslots.filled
  have hindex := h.index
  have hcount := h.count
  have hpos := h.numPages_pos
  rw [h.created, Nat.add_sub_cancel, Nat.min_eq_right hindex] at hfilled
  rw [hfilled, show s.tail = hd + (s.numPages - 1) by omega, Nat.add_mul, Nat.add_assoc]

/-- The retained slots are the last ones given out. -/
theorem AtRest.retained_drop (h : AtRest c s hd) (hslots : Slots c s) :
    s.retained c (List.range' hd s.numPages) =
      (s.given.drop (hd * c.eventsPerPage)).map fun g => ⟨g.page, g.index⟩ := by
  have hcount := h.count
  have hpos := h.numPages_pos
  have hlength := h.length_given hslots
  obtain ⟨k, hk⟩ : ∃ k, s.numPages = k + 1 := ⟨s.numPages - 1, by omega⟩
  have hpages := flatMap_range h.index hd k (f := fun page => min c.eventsPerPage (s.indexOf page))
    (fun q hle hlt => Nat.min_eq_left (h.full q (by omega)))
    (by rw [show hd + k = s.tail by omega]; exact Nat.min_eq_right h.index)
  have hgiven : (s.given.drop (hd * c.eventsPerPage)).map (fun g => (g.page, g.index)) =
      (List.range' (hd * c.eventsPerPage) (k * c.eventsPerPage + s.indexOf s.tail)).map
        (place c.eventsPerPage) := by
    rw [List.map_drop, hslots.map_given, ← List.map_drop, List.range_eq_range', List.drop_range',
      hlength, hk, Nat.add_sub_cancel]
    simp
  have hiterators := congrArg (List.map fun x : Nat × Nat => Iterator.mk x.1 x.2)
    (hpages.trans hgiven.symm)
  simp only [List.map_flatMap, List.map_map] at hiterators
  rw [h.retained_eq hslots, hk]
  exact hiterators

theorem AtRest.visits (h : AtRest c s hd) (hslots : Slots c s) :
    Visits c s ⟨hd, 0⟩ (s.retained c (List.range' hd s.numPages)) := by
  have hcount := h.count
  have hpos := h.numPages_pos
  obtain ⟨k, hk⟩ : ∃ k, s.numPages = k + 1 := ⟨s.numPages - 1, by omega⟩
  have hvisits := visits_pages (c := c) (p := hd) (k := k) h.index h.last (by omega)
    (fun q _ => h.next q) fun q _ => h.full q
  rw [h.retained_eq hslots, hk]
  exact hvisits

theorem AtRest.dumpStats (h : AtRest c s hd) (hslots : Slots c s) :
    s.dumpStats c = (s.retained c (List.range' hd s.numPages)).length := by
  have hlength := h.length_given hslots
  rw [h.retained_drop hslots, List.length_map, List.length_drop, State.dumpStats]
  omega

end AtRest

/-! ## One logger -/

def Thread.pending : Thread → List Nat
  | idle => []
  | logging call _ pc => MemLog.pending call (some pc)

/-- Only thread `t` logs, and its calls have been given their slots in order. -/
structure Sequential (t : Nat) (s : State) : Prop where
  others : ∀ t', t' ≠ t → s.threads t' = .idle
  order : s.given.map Given.call ++ (s.threads t).pending = List.range s.calls.length

theorem sequential_step {t : Nat} (s : State) (l : Label) (s' : State) (hs : next c s l = some s')
    (hl : l.thread = t) (h : Sequential t s) : Sequential t s' := by
  have hothers : ∀ t', t' ≠ t → s'.threads t' = .idle := by
    intro t' ht
    rcases next_cases hs with ⟨t₁, msg, param1, param2, rfl, -, rfl⟩ |
        ⟨t₁, call, event, pc, s₁, pc', rfl, -, hmoves, rfl⟩
    · rw [goto_other (by rw [← hl] at ht; exact ht)]
      exact h.others t' ht
    · rw [goto_other (by rw [← hl] at ht; exact ht), hmoves.threads]
      exact h.others t' ht
  refine ⟨hothers, ?_⟩
  have horder := h.order
  rcases next_cases hs with ⟨t₁, msg, param1, param2, rfl, hidle, rfl⟩ |
      ⟨t₁, call, event, pc, s₁, pc', rfl, hpc, hmoves, rfl⟩
  · obtain rfl : t₁ = t := hl
    rw [hidle, Thread.pending, List.append_nil] at horder
    rw [goto_self]
    show s.given.map Given.call ++ [s.calls.length] = List.range (s.calls ++ [_]).length
    rw [horder, List.length_append, List.length_singleton, List.range_succ]
  · obtain rfl : t₁ = t := hl
    rw [hpc] at horder
    rw [goto_self]
    show s₁.given.map Given.call ++ _ = List.range s₁.calls.length
    rw [hmoves.calls, ← horder]
    cases pc' with
    | none => exact hmoves.given
    | some pc' => exact hmoves.given

theorem run_sequential {t : Nat} {ls : List Label} (hr : run (next c) start ls = some s)
    (hl : ∀ l ∈ ls, Label.thread l = t) : Sequential t s :=
  run_preserves_labels sequential_step hr hl ⟨fun _ _ => rfl, rfl⟩

/-- The slots then hold the events in the order in which they were logged. -/
theorem Sequential.events {t : Nat} (h : Sequential t s) (hcontents : Contents s)
    (hquiet : Quiescent s) : s.given.map (fun g => s.deref ⟨g.page, g.index⟩) = s.calls := by
  have horder := h.order
  rw [hquiet t, Thread.pending, List.append_nil] at horder
  have hlength : s.given.length = s.calls.length := by
    have hlen := congrArg List.length horder
    rwa [List.length_map, List.length_range] at hlen
  apply List.ext_getElem?
  intro k
  rw [List.getElem?_map]
  cases hg : s.given[k]? with
  | none =>
    rw [List.getElem?_eq_none_iff, hlength] at hg
    rw [List.getElem?_eq_none hg]
    rfl
  | some g =>
    have hlt := (List.getElem?_eq_some_iff.mp hg).1
    have hk : g.call = k := by
      have hget := congrArg (·[k]?) horder
      simp only [List.getElem?_map, hg, Option.map_some] at hget
      rw [List.getElem?_range (by omega)] at hget
      exact Option.some.inj hget
    have hevent := hcontents.quiescent hquiet (List.mem_of_getElem? hg)
    rw [hk] at hevent
    exact hevent.symm

/-- **The three views agree.** With no log call in progress, iterating from `begin` to `end`
visits the given slots of the retained pages, once each and in order; `dumpEntireLog` prints
their events, `dumpStats` their number, and they hold what the calls logged. When only one
thread has logged, they are the calls from the first of the oldest retained page on. -/
theorem views_agree (c : Config) {ls : List Label} {s : State}
    (hr : run (next c) start ls = some s) (hquiet : Quiescent s) :
    ∃ hd pages, s.head = some hd ∧ Linked s s.head pages ∧ (s.retained c pages).Nodup ∧
      (s.begin = some ⟨hd, 0⟩ ∧ ∀ fuel, (s.retained c pages).length < fuel →
        s.visit c fuel ⟨hd, 0⟩ = some (s.retained c pages)) ∧
      (∀ fuel, pages.length ≤ fuel →
        s.dumpEntireLog c fuel 0 = some ((s.retained c pages).map s.deref)) ∧
      s.dumpStats c = (s.retained c pages).length ∧
      (∀ g ∈ s.given, s.calls[g.call]? = some (s.deref ⟨g.page, g.index⟩)) ∧
      ∀ t, (∀ l ∈ ls, Label.thread l = t) →
        (s.retained c pages).map s.deref = s.calls.drop (hd * c.eventsPerPage) := by
  have h := run_inv hr
  have hcontents := run_contents hr
  obtain ⟨hd, hrest⟩ := h.at_rest (run_tail hr) hquiet
  have hdrop := hrest.retained_drop h.slots
  refine ⟨hd, List.range' hd s.numPages, hrest.head, hrest.linked, ?_,
    ⟨?_, fun fuel => (hrest.visits h.slots).visit_eq⟩, fun fuel hfuel => ?_, hrest.dumpStats h.slots,
    fun g hg => hcontents.quiescent hquiet hg, fun t hl => ?_⟩
  · have hsub := (List.drop_sublist (hd * c.eventsPerPage) s.given).map fun g => (g.page, g.index)
    have hinjective : Function.Injective fun x : Nat × Nat => Iterator.mk x.1 x.2 := by
      intro x y hxy
      exact Prod.ext (congrArg Iterator.page hxy) (congrArg Iterator.index hxy)
    have hnodup := (hsub.nodup h.slots.nodup).map hinjective
    rw [List.map_map] at hnodup
    rw [hdrop]
    exact hnodup
  · rw [State.begin, hrest.head]
    rfl
  · rw [State.dumpEntireLog, hrest.linked.dumpPages hfuel, ← hrest.retained_eq h.slots]
  · rw [hdrop, List.map_map, ← (run_sequential hr hl).events hcontents hquiet, ← List.map_drop]
    rfl

/-- Three calls on two pages of one event each: the first event is gone. -/
theorem views_agree_three :
    ∃ s : State, run (next twoPages) start (.log 0 7 0 0 :: List.replicate 6 (.step 0) ++
        .log 0 8 0 0 :: List.replicate 14 (.step 0) ++ .log 0 9 0 0 :: List.replicate 16 (.step 0)) =
        some s ∧
      ∃ pages, s.dumpStats twoPages = (s.retained twoPages pages).length ∧
        (s.retained twoPages pages).map s.deref = [⟨0, 8, 0, 0⟩, ⟨0, 9, 0, 0⟩] := by
  obtain ⟨s, hr, hidle, hhead, hcalls⟩ : ∃ s : State, run (next twoPages) start
      (.log 0 7 0 0 :: List.replicate 6 (.step 0) ++ .log 0 8 0 0 :: List.replicate 14 (.step 0) ++
        .log 0 9 0 0 :: List.replicate 16 (.step 0)) = some s ∧ s.threads 0 = .idle ∧
      s.head = some 1 ∧ s.calls = [⟨0, 7, 0, 0⟩, ⟨0, 8, 0, 0⟩, ⟨0, 9, 0, 0⟩] :=
    ⟨_, rfl, rfl, rfl, rfl⟩
  have honly : ∀ l ∈ Label.log 0 7 0 0 :: List.replicate 6 (.step 0) ++
      .log 0 8 0 0 :: List.replicate 14 (.step 0) ++ .log 0 9 0 0 :: List.replicate 16 (.step 0),
      Label.thread l = 0 := by decide
  have hquiet : Quiescent s := by
    intro t
    by_cases ht : t = 0
    · rw [ht]
      exact hidle
    · exact (run_sequential hr honly).others t ht
  obtain ⟨hd, pages, hhead', -, -, -, -, hstats, -, hsingle⟩ := views_agree twoPages hr hquiet
  obtain rfl : 1 = hd := Option.some.inj (hhead.symm.trans hhead')
  refine ⟨s, hr, pages, hstats, ?_⟩
  rw [hsingle 0 honly, hcalls]
  rfl

end Turf.MemLog
