import Turf.MemLog.Slots

/-!
# The page list under any interleaving

`Shape` is the list of pages and its accounting, up to what the thread that holds the mutex
has begun and not finished; `Stands` is what each thread relies on where it stands. A
thread without the mutex leaves the shape alone, so that a step concerns one thread only.
-/
namespace Turf.MemLog

open Turf.Lib.Schedule

variable {c : Config} {s s₁ : State}

/-- From `loadOldTail` to `unlock` a thread holds the mutex. -/
def Pc.locked : Pc → Bool
  | .loadTail | .fetchAdd _ | .lock | .write .. => false
  | _ => true

/-- A page has been created that is not the tail yet. -/
def ahead : Option Pc → Nat
  | some (.linkNext ..) | some (.storeTail _) => 1
  | _ => 0

/-- It is not linked yet either. -/
def unlinked : Option Pc → Nat
  | some (.linkNext ..) => 1
  | _ => 0

/-- A page has been added that is not counted yet. -/
def uncounted : Option Pc → Nat
  | some (.countPage _) | some (.dropHead _) => 1
  | _ => 0

/-- A page has been taken off that is not deleted yet. -/
def undeleted : Option Pc → Nat
  | some (.deletePage ..) => 1
  | _ => 0

/-- The pages from `h` to the tail are in the list; `at_` is where the mutex is held. -/
structure Shape (c : Config) (s : State) (at_ : Option Pc) (h : Nat) : Prop where
  head : s.head = some h
  created : s.created = s.tail + 1 + ahead at_
  next : ∀ p < s.created,
    (s.pages p).next = if p + 1 + unlinked at_ < s.created then some (p + 1) else none
  count : s.tail + 1 = h + s.numPages + uncounted at_
  numPages_pos : 0 < s.numPages
  numPages_le : s.numPages ≤ c.maxNumPages
  freed : ∀ p, p ∈ s.freed ↔ p + undeleted at_ < h

/-- What a thread in call `call` relies on. -/
def Stands (c : Config) (s : State) (call : Nat) : Pc → Prop
  | .loadTail | .lock | .loadOldTail => True
  | .fetchAdd page => page ≤ s.tail
  | .loadIndex oldTail | .fetchAddLocked oldTail => oldTail = s.tail
  | .newPage oldTail => oldTail = s.tail ∧ c.eventsPerPage ≤ s.indexOf oldTail
  | .linkNext oldTail newTail =>
    oldTail = s.tail ∧ newTail = s.tail + 1 ∧ ⟨newTail, 0, call⟩ ∈ s.given
  | .storeTail newTail => newTail = s.tail + 1 ∧ ⟨newTail, 0, call⟩ ∈ s.given
  | .countPage newTail => newTail = s.tail ∧ ⟨newTail, 0, call⟩ ∈ s.given
  | .dropHead newTail =>
    newTail = s.tail ∧ ⟨newTail, 0, call⟩ ∈ s.given ∧ s.numPages = c.maxNumPages
  | .deletePage newTail oldHead =>
    newTail = s.tail ∧ ⟨newTail, 0, call⟩ ∈ s.given ∧ s.head = some (oldHead + 1)
  | .unlock page index => page = s.tail ∧ ⟨page, index, call⟩ ∈ s.given
  | .write _ page index => page ≤ s.tail ∧ ⟨page, index, call⟩ ∈ s.given

structure Inv (c : Config) (s : State) : Prop where
  slots : Slots c s
  owner : ∀ t, s.mutex = some t ↔
    ∃ call event pc, s.threads t = .logging call event pc ∧ pc.locked = true
  free : s.mutex = none → ∃ h, Shape c s none h
  held : ∀ t call event pc, s.threads t = .logging call event pc → pc.locked = true →
    ∃ h, Shape c s (some pc) h
  stands : ∀ t call event pc, s.threads t = .logging call event pc → Stands c s call pc

theorem Inv.start (c : Config) : Inv c start where
  slots := Slots.start c
  owner t := by
    constructor
    · nofun
    · intro hlocked
      obtain ⟨call, event, pc, hidle, -⟩ := hlocked
      cases hidle
  free := by
    intro _
    refine ⟨0, rfl, rfl, fun p hp => ?_, rfl, Nat.one_pos, c.pages_pos, fun p => ?_⟩
    · refine (if_neg fun hlt => ?_).symm
      have hlast : p + 1 < 1 := hlt
      omega
    · exact iff_of_false List.not_mem_nil (Nat.not_lt_zero _)
  held := nofun
  stands := nofun

theorem Inv.shape (h : Inv c s) : ∃ at_ hd, Shape c s at_ hd := by
  cases hmutex : s.mutex with
  | none =>
    obtain ⟨hd, hshape⟩ := h.free hmutex
    exact ⟨none, hd, hshape⟩
  | some t =>
    obtain ⟨call, event, pc, hpc, hlocked⟩ := (h.owner t).mp hmutex
    obtain ⟨hd, hshape⟩ := h.held t call event pc hpc hlocked
    exact ⟨some pc, hd, hshape⟩

theorem Inv.tail_lt (h : Inv c s) : s.tail < s.created := by
  obtain ⟨at_, hd, hshape⟩ := h.shape
  have hcreated := hshape.created
  omega

/-! ## Frames -/

/-- What every step of the program does at most backwards: nothing. -/
structure Grows (s s₁ : State) : Prop where
  tail : s.tail ≤ s₁.tail
  given : ∀ g ∈ s.given, g ∈ s₁.given

/-- What a thread without the mutex leaves alone. -/
structure Keeps (s s₁ : State) : Prop where
  head : s₁.head = s.head
  tail : s₁.tail = s.tail
  created : s₁.created = s.created
  numPages : s₁.numPages = s.numPages
  freed : s₁.freed = s.freed
  next : ∀ p, (s₁.pages p).next = (s.pages p).next
  index : ∀ p, s.indexOf p ≤ s₁.indexOf p
  given : ∀ g ∈ s.given, g ∈ s₁.given

theorem Keeps.grows (h : Keeps s s₁) : Grows s s₁ := ⟨Nat.le_of_eq h.tail.symm, h.given⟩

theorem Shape.keeps {at_ : Option Pc} {hd : Nat} (h : Shape c s at_ hd) (hkeeps : Keeps s s₁) :
    Shape c s₁ at_ hd where
  head := hkeeps.head.trans h.head
  created := by
    rw [hkeeps.created, hkeeps.tail]
    exact h.created
  next p hp := by
    rw [hkeeps.created] at hp ⊢
    rw [hkeeps.next]
    exact h.next p hp
  count := by
    rw [hkeeps.tail, hkeeps.numPages]
    exact h.count
  numPages_pos := by
    rw [hkeeps.numPages]
    exact h.numPages_pos
  numPages_le := by
    rw [hkeeps.numPages]
    exact h.numPages_le
  freed p := by
    rw [hkeeps.freed]
    exact h.freed p

theorem Stands.grows {call : Nat} {pc : Pc} (h : Stands c s call pc) (hpc : pc.locked = false)
    (hgrows : Grows s s₁) : Stands c s₁ call pc := by
  have htail := hgrows.tail
  cases pc with
  | loadTail | lock => trivial
  | fetchAdd page => exact Nat.le_trans h htail
  | write field page index => exact ⟨Nat.le_trans h.1 htail, hgrows.given _ h.2⟩
  | _ => cases hpc

theorem Stands.keeps {call : Nat} {pc : Pc} (h : Stands c s call pc) (hkeeps : Keeps s s₁) :
    Stands c s₁ call pc := by
  have hgiven := hkeeps.given
  have hindex := hkeeps.index
  cases pc with
  | loadTail | lock | loadOldTail => trivial
  | fetchAdd | loadIndex | fetchAddLocked =>
    simp only [Stands, hkeeps.tail] at h ⊢
    exact h
  | newPage oldTail =>
    simp only [Stands, hkeeps.tail] at h ⊢
    exact ⟨h.1, Nat.le_trans h.2 (hindex oldTail)⟩
  | linkNext oldTail newTail =>
    simp only [Stands, hkeeps.tail] at h ⊢
    exact ⟨h.1, h.2.1, hgiven _ h.2.2⟩
  | storeTail | countPage | unlock | write =>
    simp only [Stands, hkeeps.tail] at h ⊢
    exact ⟨h.1, hgiven _ h.2⟩
  | dropHead newTail =>
    simp only [Stands, hkeeps.tail, hkeeps.numPages] at h ⊢
    exact ⟨h.1, hgiven _ h.2.1, h.2.2⟩
  | deletePage newTail oldHead =>
    simp only [Stands, hkeeps.tail, hkeeps.head] at h ⊢
    exact ⟨h.1, hgiven _ h.2.1, h.2.2⟩

/-! ## One thread moves -/

/-- While one thread holds the mutex, no other is where it is held. -/
theorem Inv.alone (h : Inv c s) {t t' : Nat} (hmine : s.mutex = some t) (ht : t' ≠ t) {call : Nat}
    {event : Event} {pc : Pc} (hpc : s.threads t' = .logging call event pc) : pc.locked = false := by
  by_contra htrue
  have hyours := (h.owner t').mpr ⟨call, event, pc, hpc, by simpa using htrue⟩
  exact ht (Option.some.inj (hyours.symm.trans hmine))

/-- A thread that does not hold the mutex moves and does not take it. -/
theorem Inv.free_step (h : Inv c s) {t : Nat}
    (hpc : ∀ call event pc, s.threads t = .logging call event pc → pc.locked = false)
    (hkeeps : Keeps s s₁) (hthreads : s₁.threads = s.threads) (hmutex : s₁.mutex = s.mutex)
    (hslots : Slots c s₁) {thread : Thread}
    (hthread : ∀ call event pc, thread = .logging call event pc →
      pc.locked = false ∧ Stands c s₁ call pc) :
    Inv c (s₁.goto t thread) where
  slots := { hslots with }
  owner t' := by
    show s₁.mutex = some t' ↔ _
    rw [hmutex, h.owner t']
    by_cases ht : t' = t
    · subst ht
      rw [goto_self]
      constructor
      · intro hlocked
        obtain ⟨call, event, pc, hold, hlocked⟩ := hlocked
        rw [hpc call event pc hold] at hlocked
        cases hlocked
      · intro hlocked
        obtain ⟨call, event, pc, hnew, hlocked⟩ := hlocked
        rw [(hthread call event pc hnew).1] at hlocked
        cases hlocked
    · rw [goto_other ht, hthreads]
  free hfree := by
    obtain ⟨hd, hshape⟩ := h.free (hmutex.symm.trans hfree)
    exact ⟨hd, { hshape.keeps hkeeps with }⟩
  held t' call event pc hpc' hlocked := by
    rcases goto_cases hpc' with ⟨rfl, hnew⟩ | ⟨-, hold⟩
    · rw [(hthread call event pc hnew).1] at hlocked
      cases hlocked
    · rw [hthreads] at hold
      obtain ⟨hd, hshape⟩ := h.held t' call event pc hold hlocked
      exact ⟨hd, { hshape.keeps hkeeps with }⟩
  stands t' call event pc hpc' := by
    rcases goto_cases hpc' with ⟨rfl, hnew⟩ | ⟨-, hold⟩
    · exact (hthread call event pc hnew).2
    · rw [hthreads] at hold
      exact (h.stands t' call event pc hold).keeps { hkeeps with }

/-- The thread that holds the mutex moves and keeps it. -/
theorem Inv.locked_step (h : Inv c s) {t call : Nat} {event : Event} {pc pc' : Pc}
    (hpc : s.threads t = .logging call event pc) (hlocked : pc.locked = true)
    (hlocked' : pc'.locked = true) (hgrows : Grows s s₁) (hthreads : s₁.threads = s.threads)
    (hmutex : s₁.mutex = s.mutex) (hslots : Slots c s₁) {n : Nat}
    (hshape : Shape c s₁ (some pc') n) (hstands : Stands c s₁ call pc') :
    Inv c (s₁.goto t (.logging call event pc')) := by
  have hmine : s.mutex = some t := (h.owner t).mpr ⟨call, event, pc, hpc, hlocked⟩
  exact {
    slots := { hslots with }
    owner := by
      intro t'
      show s₁.mutex = some t' ↔ _
      rw [hmutex]
      by_cases ht : t' = t
      · subst ht
        rw [goto_self]
        exact iff_of_true hmine ⟨call, event, pc', rfl, hlocked'⟩
      · rw [goto_other ht, hthreads]
        exact h.owner t'
    free := by
      intro hfree
      have hnone : s.mutex = none := hmutex.symm.trans hfree
      rw [hmine] at hnone
      cases hnone
    held := by
      intro t' call' event' pc₁ hpc₁ hlocked₁
      rcases goto_cases hpc₁ with ⟨rfl, hnew⟩ | ⟨ht, hold⟩
      · cases hnew
        exact ⟨n, { hshape with }⟩
      · rw [hthreads] at hold
        rw [h.alone hmine ht hold] at hlocked₁
        cases hlocked₁
    stands := by
      intro t' call' event' pc₁ hpc₁
      rcases goto_cases hpc₁ with ⟨rfl, hnew⟩ | ⟨ht, hold⟩
      · cases hnew
        exact hstands
      · rw [hthreads] at hold
        have hstands' := h.stands t' call' event' pc₁ hold
        exact hstands'.grows (h.alone hmine ht hold) { hgrows with } }

/-! ## The steps -/

theorem Keeps.refl (s : State) : Keeps s s where
  head := rfl
  tail := rfl
  created := rfl
  numPages := rfl
  freed := rfl
  next _ := rfl
  index _ := Nat.le_refl _
  given _ hg := hg

theorem setPage_next (p q : Nat) (page : Page) (hnext : page.next = (s.pages p).next) :
    ((s.setPage p page).pages q).next = (s.pages q).next := by
  unfold State.setPage
  by_cases hq : q = p
  · subst hq
    simp [hnext]
  · simp [hq]

/-- What `fetchAdd` does to a page is nothing to the list. -/
theorem fetchAddIndex_keeps (call page : Nat) : Keeps s (s.fetchAddIndex c call page) where
  head := rfl
  tail := rfl
  created := rfl
  numPages := rfl
  freed := rfl
  next q := setPage_next page q _ rfl
  index q := by
    rw [indexOf_fetchAddIndex]
    split
    · rename_i hq
      rw [hq]
      omega
    · omega
  given g hg := by
    rw [given_fetchAddIndex]
    split
    · exact List.mem_append_left _ hg
    · exact hg

/-- If what `fetchAdd` returns is a slot, the call has been given it. -/
theorem fetchAddIndex_given (call page : Nat) (hlt : s.indexOf page < c.eventsPerPage) :
    ⟨page, s.indexOf page, call⟩ ∈ (s.fetchAddIndex c call page).given := by
  rw [given_fetchAddIndex, if_pos hlt]
  exact List.mem_append_right _ (List.mem_singleton_self _)

theorem indexOf_writeField (page index : Nat) (event : Event) (field : Field) (q : Nat) :
    (s.writeField page index event field).indexOf q = s.indexOf q := by
  apply (indexOf_setPage page q _).trans
  split
  · rename_i hq
    rw [hq]
    rfl
  · rfl

theorem writeField_keeps (page index : Nat) (event : Event) (field : Field) :
    Keeps s (s.writeField page index event field) where
  head := rfl
  tail := rfl
  created := rfl
  numPages := rfl
  freed := rfl
  next q := setPage_next page q _ rfl
  index q := Nat.le_of_eq (indexOf_writeField page index event field q).symm
  given _ hg := hg

/-- A shape is as good as another where the mutex holder has nothing under way. -/
theorem Shape.at {at_ at' : Option Pc} {hd : Nat} (h : Shape c s at_ hd) (hahead : ahead at' = ahead at_)
    (hunlinked : unlinked at' = unlinked at_) (huncounted : uncounted at' = uncounted at_)
    (hundeleted : undeleted at' = undeleted at_) : Shape c s at' hd where
  head := h.head
  created := by
    rw [hahead]
    exact h.created
  next := by
    rw [hunlinked]
    exact h.next
  count := by
    rw [huncounted]
    exact h.count
  numPages_pos := h.numPages_pos
  numPages_le := h.numPages_le
  freed := by
    rw [hundeleted]
    exact h.freed

/-! ## What the operations do to the shape -/

section Operations
variable {oldTail newTail hd : Nat}

/-- The new page is the last one, and nothing leads to it. -/
theorem Shape.addPage (h : Shape c s (some (.newPage oldTail)) hd) (call : Nat) :
    Shape c (s.addPage call) (some (.linkNext oldTail newTail)) hd := by
  refine { h with created := congrArg (· + 1) h.created, next := fun p hp => ?_ }
  have hp' : p < s.created + 1 := hp
  have hnext := h.next p
  show (Function.update s.pages s.created _ p).next = if p + 1 + 1 < s.created + 1 then _ else none
  by_cases hnew : p = s.created
  · subst hnew
    rw [Function.update_self, if_neg (by omega)]
    rfl
  · rw [Function.update_of_ne hnew, hnext (by omega)]
    show (if p + 1 + 0 < s.created then some (p + 1) else none) = _
    simp only [Nat.add_zero, Nat.add_lt_add_iff_right]

theorem Shape.linkNext (h : Shape c s (some (.linkNext s.tail newTail)) hd) :
    Shape c (s.setPage s.tail { s.pages s.tail with next := some (s.tail + 1) })
      (some (.storeTail newTail)) hd := by
  have hlast : s.created = s.tail + 1 + 1 := h.created
  refine { h with next := fun p hp => ?_ }
  have hp' : p < s.created := hp
  have hnext := h.next p hp'
  show (Function.update s.pages s.tail _ p).next = if p + 1 < s.created then some (p + 1) else none
  by_cases hold : p = s.tail
  · subst hold
    rw [Function.update_self, if_pos (by omega)]
  · rw [Function.update_of_ne hold, hnext]
    show (if p + 1 + 1 < s.created then some (p + 1) else none) = _
    by_cases hlt : p < s.tail
    · rw [if_pos (by omega), if_pos (by omega)]
    · rw [if_neg (by omega), if_neg (by omega)]

theorem Shape.storeTail (h : Shape c s (some (.storeTail newTail)) hd) :
    Shape c { s with tail := s.tail + 1 } (some (.countPage newTail)) hd := by
  have hcount : s.tail + 1 = hd + s.numPages := h.count
  refine { h with created := h.created, count := ?_ }
  show s.tail + 1 + 1 = hd + s.numPages + 1
  omega

theorem Shape.countPage (h : Shape c s (some (.countPage newTail)) hd)
    (hmax : ¬s.numPages ≥ c.maxNumPages) :
    Shape c { s with numPages := s.numPages + 1 } (some (.unlock newTail 0)) hd := by
  have hcount : s.tail + 1 = hd + s.numPages + 1 := h.count
  refine { h with
    count := ?_
    numPages_pos := Nat.succ_pos _
    numPages_le := Nat.lt_of_not_le hmax }
  show s.tail + 1 = hd + (s.numPages + 1) + 0
  omega

/-- The page that is about to be dropped leads to the next one, since the tail is new. -/
theorem Shape.next_head (h : Shape c s (some (.dropHead newTail)) hd) :
    (s.pages hd).next = some (hd + 1) := by
  have hcount : s.tail + 1 = hd + s.numPages + 1 := h.count
  have hlast : s.created = s.tail + 1 := h.created
  have hpos := h.numPages_pos
  rw [h.next hd (by omega)]
  exact if_pos (show hd + 1 + 0 < s.created by omega)

theorem Shape.dropHead (h : Shape c s (some (.dropHead newTail)) hd) :
    Shape c { s with head := (s.pages hd).next } (some (.deletePage newTail hd)) (hd + 1) := by
  have hcount : s.tail + 1 = hd + s.numPages + 1 := h.count
  refine { h with head := h.next_head, count := ?_, freed := fun p => ?_ }
  · show s.tail + 1 = hd + 1 + s.numPages + 0
    omega
  · apply (h.freed p).trans
    show p < hd ↔ p + 1 < hd + 1
    omega

theorem Shape.deletePage (h : Shape c s (some (.deletePage newTail hd)) (hd + 1)) :
    Shape c { s with freed := hd :: s.freed } (some (.unlock newTail 0)) (hd + 1) := by
  refine { h with freed := fun p => ?_ }
  have hfreed : p ∈ s.freed ↔ p + 1 < hd + 1 := h.freed p
  show p ∈ hd :: s.freed ↔ p < hd + 1
  rw [List.mem_cons, hfreed]
  omega

end Operations

section Step
variable {t call : Nat} {event : Event} {pc : Pc}

/-- The steps of a thread that does not hold the mutex, taking it apart. -/
theorem Inv.outside (h : Inv c s) {s' : State} {pc' : Option Pc}
    (hpc : s.threads t = .logging call event pc) (hfree : pc.locked = false) (hlock : pc ≠ .lock)
    (hmoves : Moves c s t call event pc s' pc') : Inv c (s'.goto t (resume call event pc')) := by
  have hmine : ∀ call event pc, s.threads t = .logging call event pc → pc.locked = false := by
    intro call' event' pc' hpc'
    rw [hpc] at hpc'
    cases hpc'
    exact hfree
  have hstands := h.stands t call event pc hpc
  cases hmoves with
  | loadTail =>
    apply h.free_step hmine (Keeps.refl s) rfl rfl h.slots
    intro _ _ _ hthread
    cases hthread
    exact ⟨rfl, Nat.le_refl _⟩
  | @slot page hlt =>
    have hpage : page < s.created := Nat.lt_of_le_of_lt hstands h.tail_lt
    refine h.free_step hmine (fetchAddIndex_keeps call page) rfl rfl
      (h.slots.fetchAddIndex call hpage) fun _ _ _ hthread => ?_
    cases hthread
    exact ⟨rfl, hstands, fetchAddIndex_given call page hlt⟩
  | @noSlot page hfull =>
    have hpage : page < s.created := Nat.lt_of_le_of_lt hstands h.tail_lt
    refine h.free_step hmine (fetchAddIndex_keeps call page) rfl rfl
      (h.slots.fetchAddIndex call hpage) fun _ _ _ hthread => ?_
    cases hthread
    exact ⟨rfl, trivial⟩
  | lock => exact absurd rfl hlock
  | @write field page index =>
    refine h.free_step hmine (writeField_keeps page index event field) rfl rfl
      (h.slots.congr rfl (indexOf_writeField page index event field) rfl) fun _ _ _ hthread => ?_
    cases hfield : field.after with
    | none =>
      rw [hfield] at hthread
      cases hthread
    | some field' =>
      rw [hfield] at hthread
      cases hthread
      exact ⟨rfl, hstands⟩
  | _ => cases hfree

/-- The steps of the thread that holds the mutex, releasing it apart. -/
theorem Inv.inside (h : Inv c s) {s' : State} {pc' : Option Pc}
    (hpc : s.threads t = .logging call event pc) (hlocked : pc.locked = true)
    (hunlock : ∀ page index, pc ≠ .unlock page index)
    (hmoves : Moves c s t call event pc s' pc') : Inv c (s'.goto t (resume call event pc')) := by
  have hstands := h.stands t call event pc hpc
  obtain ⟨hd, hshape⟩ := h.held t call event pc hpc hlocked
  have hcreated := hshape.created
  cases hmoves with
  | loadTail | slot | noSlot | lock | write => cases hlocked
  | loadOldTail =>
    exact h.locked_step hpc hlocked rfl (Keeps.refl s).grows rfl rfl h.slots
      (hshape.at rfl rfl rfl rfl) rfl
  | room hlt =>
    exact h.locked_step hpc hlocked rfl (Keeps.refl s).grows rfl rfl h.slots
      (hshape.at rfl rfl rfl rfl) hstands
  | noRoom hfull =>
    exact h.locked_step hpc hlocked rfl (Keeps.refl s).grows rfl rfl h.slots
      (hshape.at rfl rfl rfl rfl) ⟨hstands, Nat.le_of_not_lt hfull⟩
  | @slotLocked oldTail hlt =>
    obtain rfl : oldTail = s.tail := hstands
    have hkeeps : Keeps s (s.fetchAddIndex c call s.tail) := fetchAddIndex_keeps call s.tail
    exact h.locked_step hpc hlocked rfl hkeeps.grows rfl rfl (h.slots.fetchAddIndex call h.tail_lt)
      ((hshape.keeps hkeeps).at rfl rfl rfl rfl) ⟨rfl, fetchAddIndex_given call s.tail hlt⟩
  | @noSlotLocked oldTail hfull =>
    obtain rfl : oldTail = s.tail := hstands
    have hkeeps : Keeps s (s.fetchAddIndex c call s.tail) := fetchAddIndex_keeps call s.tail
    have hindex := hkeeps.index s.tail
    exact h.locked_step hpc hlocked rfl hkeeps.grows rfl rfl (h.slots.fetchAddIndex call h.tail_lt)
      ((hshape.keeps hkeeps).at rfl rfl rfl rfl) ⟨rfl, by omega⟩
  | @newPage oldTail =>
    obtain ⟨rfl, hfull⟩ := hstands
    have hlast : s.created = s.tail + 1 := hcreated
    have hmem : ⟨s.created, 0, call⟩ ∈ s.given ++ [⟨s.created, 0, call⟩] :=
      List.mem_append_right _ (List.mem_singleton_self _)
    exact h.locked_step hpc hlocked rfl ⟨Nat.le_refl _, fun g hg => List.mem_append_left _ hg⟩ rfl rfl
      (h.slots.addPage (by omega) call (by rwa [hlast])) (hshape.addPage call) ⟨rfl, hlast, hmem⟩
  | @linkNext oldTail newTail =>
    obtain ⟨rfl, rfl, hmem⟩ := hstands
    refine h.locked_step hpc hlocked rfl ⟨Nat.le_refl _, fun g hg => hg⟩ rfl rfl
      (h.slots.congr rfl (fun q => ?_) rfl) hshape.linkNext ⟨rfl, hmem⟩
    rw [indexOf_setPage]
    split
    · rename_i hq
      rw [hq]
      rfl
    · rfl
  | @storeTail newTail =>
    obtain ⟨rfl, hmem⟩ := hstands
    exact h.locked_step hpc hlocked rfl ⟨Nat.le_succ _, fun g hg => hg⟩ rfl rfl
      (h.slots.congr rfl (fun _ => rfl) rfl) hshape.storeTail ⟨rfl, hmem⟩
  | @tooMany newTail hmax =>
    obtain ⟨rfl, hmem⟩ := hstands
    have hle := hshape.numPages_le
    exact h.locked_step hpc hlocked rfl (Keeps.refl s).grows rfl rfl h.slots
      (hshape.at rfl rfl rfl rfl) ⟨rfl, hmem, by omega⟩
  | @countPage newTail hmax =>
    obtain ⟨rfl, hmem⟩ := hstands
    exact h.locked_step hpc hlocked rfl ⟨Nat.le_refl _, fun g hg => hg⟩ rfl rfl
      (h.slots.congr rfl (fun _ => rfl) rfl) (hshape.countPage hmax) ⟨rfl, hmem⟩
  | @dropHead newTail oldHead hhead =>
    obtain rfl : oldHead = hd := Option.some.inj (hhead.symm.trans hshape.head)
    obtain ⟨rfl, hmem, -⟩ := hstands
    exact h.locked_step hpc hlocked rfl ⟨Nat.le_refl _, fun g hg => hg⟩ rfl rfl
      (h.slots.congr rfl (fun _ => rfl) rfl) hshape.dropHead ⟨rfl, hmem, hshape.next_head⟩
  | @deletePage newTail oldHead =>
    obtain ⟨rfl, hmem, hhead⟩ := hstands
    obtain rfl : oldHead + 1 = hd := Option.some.inj (hhead.symm.trans hshape.head)
    exact h.locked_step hpc hlocked rfl ⟨Nat.le_refl _, fun g hg => hg⟩ rfl rfl
      (h.slots.congr rfl (fun _ => rfl) rfl) hshape.deletePage ⟨rfl, hmem⟩
  | @unlock page index => exact absurd rfl (hunlock page index)

/-- Taking the mutex. -/
theorem Inv.lock (h : Inv c s) (hpc : s.threads t = .logging call event .lock)
    (hmutex : s.mutex = none) :
    Inv c ({ s with mutex := some t }.goto t (.logging call event .loadOldTail)) where
  slots := { h.slots with }
  owner t' := by
    by_cases ht : t' = t
    · subst ht
      rw [goto_self]
      exact iff_of_true rfl ⟨call, event, _, rfl, rfl⟩
    · rw [goto_other ht]
      apply iff_of_false (fun hmine => ht (Option.some.inj hmine).symm)
      intro hlocked
      have hyours := (h.owner t').mpr hlocked
      rw [hmutex] at hyours
      cases hyours
  free := nofun
  held t' call' event' pc' hpc' hlocked := by
    rcases goto_cases hpc' with ⟨rfl, hnew⟩ | ⟨-, hold⟩
    · cases hnew
      obtain ⟨hd, hshape⟩ := h.free hmutex
      exact ⟨hd, { hshape with }⟩
    · obtain ⟨hd, hshape⟩ := h.held t' call' event' pc' hold hlocked
      exact ⟨hd, { hshape with }⟩
  stands t' call' event' pc' hpc' := by
    rcases goto_cases hpc' with ⟨rfl, hnew⟩ | ⟨-, hold⟩
    · cases hnew
      trivial
    · exact h.stands t' call' event' pc' hold

/-- Releasing the mutex, with a slot in hand. -/
theorem Inv.unlock (h : Inv c s) {page index : Nat}
    (hpc : s.threads t = .logging call event (.unlock page index)) :
    Inv c ({ s with mutex := none }.goto t (.logging call event (.write .tid page index))) := by
  have hmine : s.mutex = some t := (h.owner t).mpr ⟨call, event, _, hpc, rfl⟩
  exact {
    slots := { h.slots with }
    owner := by
      intro t'
      apply iff_of_false nofun
      intro hlocked
      obtain ⟨call', event', pc', hpc', hlocked⟩ := hlocked
      rcases goto_cases hpc' with ⟨rfl, hnew⟩ | ⟨ht, hold⟩
      · cases hnew
        cases hlocked
      · rw [h.alone hmine ht hold] at hlocked
        cases hlocked
    free := by
      intro _
      obtain ⟨hd, hshape⟩ := h.held t call event _ hpc rfl
      exact ⟨hd, { hshape with }⟩
    held := by
      intro t' call' event' pc' hpc' hlocked
      rcases goto_cases hpc' with ⟨rfl, hnew⟩ | ⟨ht, hold⟩
      · cases hnew
        cases hlocked
      · rw [h.alone hmine ht hold] at hlocked
        cases hlocked
    stands := by
      intro t' call' event' pc' hpc'
      rcases goto_cases hpc' with ⟨rfl, hnew⟩ | ⟨-, hold⟩
      · cases hnew
        obtain ⟨hpage, hmem⟩ := h.stands t' call event _ hpc
        exact ⟨Nat.le_of_eq hpage, hmem⟩
      · exact h.stands t' call' event' pc' hold }

theorem Inv.moves (h : Inv c s) {s' : State} {pc' : Option Pc}
    (hpc : s.threads t = .logging call event pc) (hmoves : Moves c s t call event pc s' pc') :
    Inv c (s'.goto t (resume call event pc')) := by
  cases hlocked : pc.locked with
  | false =>
    by_cases hlock : pc = .lock
    · subst hlock
      cases hmoves with
      | lock hmutex => exact h.lock hpc hmutex
    · exact h.outside hpc hlocked hlock hmoves
  | true =>
    by_cases hunlock : ∃ page index, pc = .unlock page index
    · obtain ⟨page, index, rfl⟩ := hunlock
      cases hmoves
      exact h.unlock hpc
    · exact h.inside hpc hlocked (fun page index heq => hunlock ⟨page, index, heq⟩) hmoves

end Step

theorem Inv.log (h : Inv c s) {t : Nat} (hidle : s.threads t = .idle) (call : Nat) (event : Event)
    (calls : List Event) :
    Inv c ({ s with calls }.goto t (.logging call event .loadTail)) := by
  have hkeeps : Keeps s { s with calls } := { Keeps.refl s with }
  refine h.free_step (fun call event pc hpc => ?_) hkeeps rfl rfl { h.slots with }
    fun call event pc hthread => ?_
  · rw [hidle] at hpc
    cases hpc
  · cases hthread
    exact ⟨rfl, trivial⟩

theorem step_inv (s : State) (l : Label) (s' : State) (hs : next c s l = some s') (h : Inv c s) :
    Inv c s' := by
  rcases next_cases hs with ⟨t, msg, param1, param2, rfl, hidle, rfl⟩ |
      ⟨t, call, event, pc, s₁, pc', rfl, hpc, hmoves, rfl⟩
  · exact h.log hidle _ _ _
  · exact h.moves hpc hmoves

/-- **The invariant holds throughout every run.** -/
theorem run_inv {ls : List Label} (hr : run (next c) start ls = some s) : Inv c s :=
  run_preserves step_inv hr (Inv.start c)

end Turf.MemLog
