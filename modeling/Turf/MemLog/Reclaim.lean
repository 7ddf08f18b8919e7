import Turf.MemLog.Pages
import Turf.MemLog.Progress

/-!
# Deleted pages

A thread loads `m_tail` and fills its slot without the mutex, and nothing stops other
threads from dropping the page meanwhile. What goes wrong can be said exactly: a page must
not be taken off the list while a log call under way has still to touch it.
-/
namespace Turf.MemLog

open Turf.Lib.Schedule

variable {c : Config} {s s' : State}

/-- The page whose index is incremented next, or one of whose slots is written next. -/
def Pc.touches : Pc → Option Nat
  | .fetchAdd page | .fetchAddLocked page | .write _ page _ => some page
  | _ => none

/-- Thread `t` is about to touch a page. -/
def State.Touches (s : State) (t page : Nat) : Prop :=
  (s.threads t).pc.bind Pc.touches = some page

/-- The page is in the list and has not been deleted. -/
def State.Intact (s : State) (page : Nat) : Prop :=
  (∃ pages, Linked s s.head pages ∧ page ∈ pages) ∧ page ∉ s.freed

/-- Whatever page a thread is about to touch is intact. -/
def Safe (s : State) : Prop := ∀ t page, s.Touches t page → s.Intact page

/-- If this step takes a page off the list, no log call has still to touch that page. -/
def Waits (s : State) (l : Label) : Prop :=
  ∀ t call event newTail oldHead, l = .step t →
    s.threads t = .logging call event (.dropHead newTail) → s.head = some oldHead →
    ∀ t', ¬s.Touches t' oldHead

theorem linked_unique {at_ : Option Nat} {pages pages' : List Nat} (h : Linked s at_ pages)
    (h' : Linked s at_ pages') : pages = pages' := by
  induction h generalizing pages' with
  | nil =>
    cases h'
    rfl
  | cons _ ih =>
    cases h' with
    | cons h' => rw [ih h']

/-- Up to the tail, the intact pages are those from the head on. -/
theorem Shape.intact_iff {at_ : Option Pc} {hd : Nat} (h : Shape c s at_ hd) {page : Nat}
    (hpage : page ≤ s.tail) : s.Intact page ↔ hd ≤ page := by
  have hcreated := h.created
  have hle := unlinked_le_ahead at_
  constructor
  · intro hintact
    obtain ⟨⟨pages, hlinked, hmem⟩, -⟩ := hintact
    rw [linked_unique hlinked h.linked, List.mem_range'_1] at hmem
    exact hmem.1
  · intro hhd
    refine ⟨⟨_, h.linked, List.mem_range'_1.mpr ⟨hhd, by omega⟩⟩, fun hfreed => ?_⟩
    have hlt := (h.freed page).mp hfreed
    omega

theorem Inv.touched_le (h : Inv c s) {t page : Nat} (ht : s.Touches t page) : page ≤ s.tail := by
  unfold State.Touches at ht
  cases hthread : s.threads t with
  | idle =>
    rw [hthread] at ht
    cases ht
  | logging call event pc =>
    have hstands := h.stands t call event pc hthread
    rw [hthread] at ht
    cases pc with
    | fetchAdd =>
      cases ht
      exact hstands
    | fetchAddLocked =>
      cases ht
      exact Nat.le_of_eq hstands
    | write =>
      cases ht
      exact hstands.1
    | _ => cases ht

/-- Safety in terms of the first page of the list. -/
theorem Inv.safe_iff (h : Inv c s) {hd : Nat} (hhead : s.head = some hd) :
    Safe s ↔ ∀ t page, s.Touches t page → hd ≤ page := by
  obtain ⟨at_, hd', hshape⟩ := h.shape
  obtain rfl : hd' = hd := Option.some.inj (hshape.head.symm.trans hhead)
  constructor
  · intro hsafe t page ht
    exact (hshape.intact_iff (h.touched_le ht)).mp (hsafe t page ht)
  · intro hall t page ht
    exact (hshape.intact_iff (h.touched_le ht)).mpr (hall t page ht)

/-! ## One step -/

/-- Who is about to touch a page after a thread has moved. -/
theorem touches_goto {t t' page : Nat} {thread : Thread} (h : (s.goto t thread).Touches t' page) :
    t' = t ∧ thread.pc.bind Pc.touches = some page ∨ t' ≠ t ∧ s.Touches t' page := by
  unfold State.Touches at h ⊢
  rcases goto_cases rfl with ⟨ht, hthread⟩ | ⟨ht, hthread⟩
  · rw [← hthread] at h
    exact Or.inl ⟨ht, h⟩
  · rw [← hthread] at h
    exact Or.inr ⟨ht, h⟩

/-- A thread goes on to touch the page it touched before, or the tail. -/
theorem Moves.touches {t call : Nat} {event : Event} {pc : Pc} {pc' : Option Pc}
    (h : Moves c s t call event pc s' pc') (hstands : Stands c s call pc) {page : Nat}
    (ht : pc'.bind Pc.touches = some page) : pc.touches = some page ∨ page = s.tail := by
  cases h with
  | loadTail =>
    cases ht
    exact Or.inr rfl
  | slot =>
    cases ht
    exact Or.inl rfl
  | room =>
    cases ht
    exact Or.inr hstands
  | unlock =>
    cases ht
    exact Or.inr hstands.1
  | @write field page' index =>
    cases hfield : field.after with
    | none =>
      rw [hfield] at ht
      cases ht
    | some field' =>
      rw [hfield] at ht
      cases ht
      exact Or.inl rfl
  | _ => cases ht

theorem Moves.head {t call : Nat} {event : Event} {pc : Pc} {pc' : Option Pc}
    (h : Moves c s t call event pc s' pc') (hdrop : ∀ newTail, pc ≠ .dropHead newTail) :
    s'.head = s.head := by
  cases h with
  | dropHead => exact absurd rfl (hdrop _)
  | _ => rfl

/-- Taking a page off the list keeps the log safe exactly when nobody has still to touch it. -/
theorem drop_safe_iff (h : Inv c s) (hsafe : Safe s) {t call newTail oldHead : Nat} {event : Event}
    (hpc : s.threads t = .logging call event (.dropHead newTail)) (hhead : s.head = some oldHead) :
    Waits s (.step t) ↔ Safe ({ s with head := (s.pages oldHead).next }.goto t
      (.logging call event (.deletePage newTail oldHead))) := by
  have h' := h.moves hpc (.dropHead hhead)
  have hstands := h'.stands t call event _ goto_self
  have htouched := (h.safe_iff hhead).mp hsafe
  have hnot : ∀ page, ¬s.Touches t page := by
    intro page ht
    unfold State.Touches at ht
    rw [hpc] at ht
    cases ht
  refine Iff.trans ?_ (h'.safe_iff hstands.2.2).symm
  constructor
  · intro hwaits t' page ht'
    rcases touches_goto ht' with ⟨-, hnew⟩ | ⟨-, hold⟩
    · cases hnew
    · have hle := htouched t' page hold
      have hne : page ≠ oldHead := by
        intro heq
        subst heq
        exact hwaits t call event newTail page rfl hpc hhead t' hold
      omega
  · intro hall t₁ call₁ event₁ newTail₁ oldHead₁ hl hpc₁ hhead₁ t' ht'
    cases hl
    obtain rfl : oldHead₁ = oldHead := Option.some.inj (hhead₁.symm.trans hhead)
    have ht : t' ≠ t := by
      intro heq
      subst heq
      exact hnot oldHead₁ ht'
    have hle := hall t' oldHead₁ (by
      unfold State.Touches
      rw [goto_other ht]
      exact ht')
    omega

/-- **A step keeps the log safe exactly when it waits for those it could hurt.** -/
theorem safe_step (s : State) (l : Label) (s' : State) (hs : next c s l = some s') (h : Inv c s)
    (hsafe : Safe s) : Waits s l ↔ Safe s' := by
  have h' := step_inv s l s' hs h
  obtain ⟨at_, hd, hshape⟩ := h.shape
  have htouched := (h.safe_iff hshape.head).mp hsafe
  have htail : hd ≤ s.tail := by
    have hcount := hshape.count
    have hpos := hshape.numPages_pos
    omega
  rcases next_cases hs with ⟨t, msg, param1, param2, rfl, hidle, rfl⟩ |
      ⟨t, call, event, pc, s₁, pc', rfl, hpc, hmoves, rfl⟩
  · refine iff_of_true nofun ((h'.safe_iff hshape.head).mpr fun t' page ht' => ?_)
    rcases touches_goto ht' with ⟨-, hnew⟩ | ⟨-, hold⟩
    · cases hnew
    · exact htouched t' page hold
  · by_cases hdrop : ∃ newTail, pc = .dropHead newTail
    · obtain ⟨newTail, rfl⟩ := hdrop
      cases hmoves with
      | dropHead hhead => exact drop_safe_iff h hsafe hpc hhead
    · have hwaits : Waits s (.step t) := by
        intro t' call' event' newTail oldHead hl hpc'
        cases hl
        rw [hpc] at hpc'
        cases hpc'
        exact absurd ⟨newTail, rfl⟩ hdrop
      have hhead : s₁.head = some hd := by
        rw [hmoves.head fun newTail heq => hdrop ⟨newTail, heq⟩]
        exact hshape.head
      refine iff_of_true hwaits ((h'.safe_iff hhead).mpr fun t' page ht' => ?_)
      rcases touches_goto ht' with ⟨rfl, hnew⟩ | ⟨-, hold⟩
      · rw [resume_pc] at hnew
        rcases hmoves.touches (h.stands t' call event pc hpc) hnew with hsame | htail'
        · apply htouched t' page
          unfold State.Touches
          rw [hpc]
          exact hsame
        · omega
      · apply htouched t' page
        unfold State.Touches at hold ⊢
        rw [← hmoves.threads]
        exact hold

/-- **When pages outlive their loggers.** A run is safe throughout exactly when each of its
steps that takes a page off the list waits for the log calls that have still to touch it. -/
theorem safe_along_iff (c : Config) {ls : List Label} {s : State}
    (hr : run (next c) start ls = some s) :
    Steps (next c) Waits start ls ↔ Along (next c) Safe start ls := by
  apply steps_iff_along (P := Inv c) step_inv safe_step hr (Inv.start c)
  intro t page ht
  cases ht

/-! ## A log of one thread -/

/-- All other threads are idle. -/
def State.Alone (s : State) (t : Nat) : Prop := ∀ t', t' ≠ t → s.threads t' = .idle

theorem State.Alone.waits {t : Nat} {l : Label} (h : s.Alone t) (hl : l.thread = t) : Waits s l := by
  intro t₁ call event newTail oldHead hstep hpc hhead t' ht'
  subst hstep
  obtain rfl : t₁ = t := hl
  unfold State.Touches at ht'
  by_cases hsame : t' = t₁
  · rw [hsame, hpc] at ht'
    cases ht'
  · rw [h t' hsame] at ht'
    cases ht'

theorem State.Alone.next {t : Nat} {l : Label} (h : s.Alone t) (hl : l.thread = t)
    (hs : next c s l = some s') : s'.Alone t := by
  intro t' ht'
  rcases next_cases hs with ⟨t₁, msg, param1, param2, rfl, -, rfl⟩ |
      ⟨t₁, call, event, pc, s₁, pc', rfl, -, hmoves, rfl⟩
  · obtain rfl : t₁ = t := hl
    rw [goto_other ht']
    exact h t' ht'
  · obtain rfl : t₁ = t := hl
    rw [goto_other ht', hmoves.threads]
    exact h t' ht'

/-- A thread that logs alone waits for nobody, whatever pages it drops. -/
theorem State.Alone.steps {t : Nat} {ls : List Label} (h : s.Alone t) (hls : ∀ l ∈ ls, l.thread = t) :
    Steps (MemLog.next c) Waits s ls := by
  induction ls generalizing s with
  | nil => trivial
  | cons l ls ih =>
    obtain ⟨hl, hls⟩ := List.forall_mem_cons.mp hls
    exact ⟨h.waits hl, fun s' hs => ih (h.next hl hs) hls⟩

/-- Pages of one event, of which one is retained. -/
def onePage : Config := ⟨1, 1, Nat.one_pos, Nat.one_pos⟩

/-- Two calls of one thread, of which the second one drops the page of the first. -/
def twoCalls : List Label :=
  .log 0 0 0 0 :: List.replicate 6 (.step 0) ++ .log 0 1 0 0 :: List.replicate 16 (.step 0)

/-- The page that is dropped is one that nobody touches any more. -/
theorem safe_along_iff_dropped : ∃ u, run (next onePage) start twoCalls = some u ∧ u.freed = [0] ∧
    u.threads 0 = .idle ∧ Along (next onePage) Safe start twoCalls := by
  obtain ⟨u, hr, hfreed, hidle⟩ : ∃ u, run (next onePage) start twoCalls = some u ∧ u.freed = [0] ∧
      u.threads 0 = .idle := ⟨_, rfl, rfl, rfl⟩
  have halone : start.Alone 0 := fun _ _ => rfl
  exact ⟨u, hr, hfreed, hidle, (safe_along_iff onePage hr).mp (halone.steps (by decide))⟩

/-! ## A page that does not -/

/-- More slots than the retained pages have means that the first page is gone. -/
theorem Inv.first_page_gone (h : Inv c s) (hmutex : s.mutex = none)
    (hmany : c.maxNumPages * c.eventsPerPage < s.given.length) : 0 ∈ s.freed ∧ ¬s.Intact 0 := by
  obtain ⟨hd, hshape⟩ := h.free hmutex
  have hcreated : s.created = s.tail + 1 := hshape.created
  have hcount : s.tail + 1 = hd + s.numPages := hshape.count
  have hle := hshape.numPages_le
  have hfilled := h.slots.filled
  have hpages : c.maxNumPages ≤ s.created - 1 := by
    by_contra hlt
    have hmul : (s.created - 1 + 1) * c.eventsPerPage ≤ c.maxNumPages * c.eventsPerPage :=
      Nat.mul_le_mul_right _ (by omega)
    rw [Nat.succ_mul] at hmul
    omega
  refine ⟨(hshape.freed 0).mpr (show 0 + 0 < hd by omega), fun hintact => ?_⟩
  have hzero := (hshape.intact_iff (Nat.zero_le _)).mp hintact
  omega

/-- With the constants of the source: thread 0 loads `m_tail` and stalls, and thread 1 logs
65537 events. Page 0, which thread 0 increments next, has been deleted. -/
theorem stalled_logger_touches_deleted_page :
    ∃ ls s s', (∀ l ∈ ls, Label.thread l = 1) ∧
      run (next sourceConfig) start ([.log 0 0 0 0, .step 0] ++ ls) = some s ∧
      s.Touches 0 0 ∧ 0 ∈ s.freed ∧ ¬s.Intact 0 ∧
      next sourceConfig s (.step 0) = some s' ∧ s'.indexOf 0 = s.indexOf 0 + 1 := by
  obtain ⟨u, hu, hstalled, hidle, hmutex⟩ : ∃ u,
      run (next sourceConfig) start [.log 0 0 0 0, .step 0] = some u ∧
        u.threads 0 = .logging 0 ⟨0, 0, 0, 0⟩ (.fetchAdd 0) ∧ u.threads 1 = .idle ∧
        u.mutex = none := ⟨_, rfl, rfl, rfl, rfl⟩
  obtain ⟨s, ⟨⟨ls, hls, hrun⟩, -, hfree, hothers⟩, hlength⟩ := (run_inv hu).logs hidle hmutex 65537
  have hr := run_append.mpr ⟨u, hu, hrun⟩
  have hpc : s.threads 0 = .logging 0 ⟨0, 0, 0, 0⟩ (.fetchAdd 0) := by
    rw [hothers 0 nofun, hstalled]
  have htouches : s.Touches 0 0 := by
    unfold State.Touches
    rw [hpc]
    rfl
  have hmany : sourceConfig.maxNumPages * sourceConfig.eventsPerPage < s.given.length := by
    show 4 * 16384 < s.given.length
    omega
  obtain ⟨hfreed, hintact⟩ := (run_inv hr).first_page_gone hfree hmany
  obtain ⟨s₁, pc', hmoves⟩ := (run_inv hr).can_move hpc (Or.inl hfree)
  have hindex : (s.fetchAddIndex sourceConfig 0 0).indexOf 0 = s.indexOf 0 + 1 := by
    rw [indexOf_fetchAddIndex, if_pos rfl]
  refine ⟨ls, s, _, hls, hr, htouches, hfreed, hintact, hmoves.next hpc, ?_⟩
  cases hmoves with
  | slot => exact hindex
  | noSlot => exact hindex

end Turf.MemLog
