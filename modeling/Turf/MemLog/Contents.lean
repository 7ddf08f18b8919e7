import Turf.MemLog.Progress

/-!
# What the slots hold

Each given slot holds, field by field, what the call that it was given to logs, except for
the fields that this call has still to write. When no call is under way the slots hold the
events, and the tail has not been filled beyond its end.
-/
namespace Turf.MemLog

open Turf.Lib.Schedule

variable {c : Config} {s s' : State}

def Field.order : Field → Nat
  | tid => 0
  | msg => 1
  | param1 => 2
  | param2 => 3

theorem Field.order_after {field field' : Field} (h : field.after = some field') :
    field'.order = field.order + 1 := by
  cases field with
  | param2 => cases h
  | _ =>
    cases h
    rfl

theorem Field.order_le_of_last {field field' : Field} (h : field.after = none) :
    field'.order ≤ field.order := by
  cases field with
  | param2 => cases field' <;> decide
  | _ => cases h

theorem Field.order_injective {field field' : Field} (h : field.order = field'.order) :
    field = field' := by
  cases field <;> cases field' <;> first | rfl | cases h

theorem Field.get_set (e : Event) (value : Nat) (field field' : Field) :
    field'.get (field.set e value) = if field' = field then value else field'.get e := by
  cases field <;> cases field' <;> rfl

theorem Event.ext_get {e e' : Event} (h : ∀ field : Field, field.get e = field.get e') : e = e' := by
  obtain ⟨tid, msg, param1, param2⟩ := e
  obtain ⟨tid', msg', param1', param2'⟩ := e'
  have htid : tid = tid' := h .tid
  have hmsg : msg = msg' := h .msg
  have hparam1 : param1 = param1' := h .param1
  have hparam2 : param2 = param2' := h .param2
  rw [htid, hmsg, hparam1, hparam2]

/-- The thread has still to write this field of the slot. -/
def Pc.Owes (page index : Nat) (field : Field) : Pc → Prop
  | .linkNext _ newTail | .storeTail newTail | .countPage newTail | .dropHead newTail
  | .deletePage newTail _ => page = newTail ∧ index = 0
  | .unlock page' index' => page = page' ∧ index = index'
  | .write field' page' index' => page = page' ∧ index = index' ∧ field'.order ≤ field.order
  | _ => False

/-- Some thread in call `call` owes this field of the slot. -/
def State.Owed (s : State) (page index call : Nat) (field : Field) : Prop :=
  ∃ t event pc, s.threads t = .logging call event pc ∧ pc.Owes page index field

structure Contents (s : State) : Prop where
  call : ∀ t call event pc, s.threads t = .logging call event pc → s.calls[call]? = some event
  written : ∀ g ∈ s.given, ∃ event, s.calls[g.call]? = some event ∧ ∀ field : Field,
    field.get ((s.pages g.page).events g.index) = field.get event ∨
      s.Owed g.page g.index g.call field

/-! ## One step -/

theorem events_setPage (p page : Nat) (q : Page) (hq : q.events = (s.pages p).events) :
    ((s.setPage p q).pages page).events = (s.pages page).events := by
  unfold State.setPage
  by_cases hp : page = p
  · subst hp
    simp [hq]
  · simp [hp]

theorem events_fetchAddIndex (call p page : Nat) :
    ((s.fetchAddIndex c call p).pages page).events = (s.pages page).events :=
  events_setPage p page _ rfl

section Moves
variable {t call : Nat} {event : Event} {pc : Pc} {pc' : Option Pc}

/-- A slot keeps its contents as long as it is not the one that the thread is writing. -/
theorem Moves.events_same (h : Moves c s t call event pc s' pc') {page : Nat}
    (hpage : page < s.created) (index : Nat) (hnot : ∀ field, pc ≠ .write field page index) :
    (s'.pages page).events index = (s.pages page).events index := by
  cases h with
  | slot | noSlot | slotLocked | noSlotLocked => rw [events_fetchAddIndex]
  | @linkNext oldTail newTail =>
    rw [events_setPage oldTail page { s.pages oldTail with next := some newTail } rfl]
  | newPage =>
    unfold State.addPage State.setPage
    simp [Nat.ne_of_lt hpage]
  | @write field page' index' =>
    unfold State.writeField State.setPage
    by_cases hp : page = page'
    · subst hp
      have hi : index ≠ index' := fun hi => hnot field (by rw [hi])
      simp [hi]
    · simp [hp]
  | _ => rfl

theorem Moves.events_write {field : Field} {page index : Nat}
    (h : Moves c s t call event (.write field page index) s' pc') :
    (s'.pages page).events index =
      field.set ((s.pages page).events index) (field.get event) := by
  cases h
  unfold State.writeField State.setPage
  simp

/-- A thread goes on owing what it owed, except for the field that it writes. -/
theorem Moves.owes (h : Moves c s t call event pc s' pc') {page index : Nat} {field : Field}
    (howes : pc.Owes page index field) :
    pc = .write field page index ∨ ∃ pc₁, pc' = some pc₁ ∧ pc₁.Owes page index field := by
  cases h with
  | linkNext | storeTail | tooMany | dropHead => exact Or.inr ⟨_, rfl, howes⟩
  | countPage | deletePage => exact Or.inr ⟨_, rfl, howes⟩
  | unlock => exact Or.inr ⟨_, rfl, howes.1, howes.2, Nat.zero_le _⟩
  | @write field' page' index' =>
    obtain ⟨rfl, rfl, hle⟩ := howes
    by_cases heq : field'.order = field.order
    · left
      rw [Field.order_injective heq]
    · right
      cases hafter : field'.after with
      | none =>
        have hlast : field.order ≤ field'.order := Field.order_le_of_last hafter
        omega
      | some field₁ =>
        have hnext := Field.order_after hafter
        exact ⟨_, rfl, rfl, rfl, by omega⟩
  | _ => cases howes

/-- A slot that a step gives out is the call's, which owes all of it. -/
theorem Moves.new_given (h : Moves c s t call event pc s' pc') {g : Given} (hg : g ∈ s'.given) :
    g ∈ s.given ∨ g.call = call ∧ ∃ pc₁, pc' = some pc₁ ∧ ∀ field, pc₁.Owes g.page g.index field := by
  cases h with
  | slot hlt =>
    rw [given_fetchAddIndex, if_pos hlt, List.mem_append, List.mem_singleton] at hg
    rcases hg with hg | rfl
    · exact Or.inl hg
    · exact Or.inr ⟨rfl, _, rfl, fun field => ⟨rfl, rfl, Nat.zero_le _⟩⟩
  | slotLocked hlt =>
    rw [given_fetchAddIndex, if_pos hlt, List.mem_append, List.mem_singleton] at hg
    rcases hg with hg | rfl
    · exact Or.inl hg
    · exact Or.inr ⟨rfl, _, rfl, fun field => ⟨rfl, rfl⟩⟩
  | noSlot hfull | noSlotLocked hfull =>
    rw [given_fetchAddIndex, if_neg hfull] at hg
    exact Or.inl hg
  | newPage =>
    have hg' : g ∈ s.given ++ [⟨s.created, 0, call⟩] := hg
    rw [List.mem_append, List.mem_singleton] at hg'
    rcases hg' with hg' | rfl
    · exact Or.inl hg'
    · exact Or.inr ⟨rfl, _, rfl, fun field => ⟨rfl, rfl⟩⟩
  | _ => exact Or.inl hg

/-- What is owed of a slot is owed still, except for the field that is being written. -/
theorem Moves.owed (hpc : s.threads t = .logging call event pc)
    (hmoves : Moves c s t call event pc s' pc') {g : Given} {field : Field}
    (howed : s.Owed g.page g.index g.call field) (hnot : pc ≠ .write field g.page g.index) :
    (s'.goto t (resume call event pc')).Owed g.page g.index g.call field := by
  obtain ⟨t₁, event₁, pc₁, hpc₁, howes⟩ := howed
  by_cases ht : t₁ = t
  · subst ht
    rw [hpc] at hpc₁
    cases hpc₁
    obtain ⟨pc₂, rfl, howes⟩ := (hmoves.owes howes).resolve_left hnot
    exact ⟨t₁, event, pc₂, goto_self, howes⟩
  · refine ⟨t₁, event₁, pc₁, ?_, howes⟩
    rw [goto_other ht, hmoves.threads]
    exact hpc₁

theorem Contents.written_old (hinv : Inv c s) (h : Contents s)
    (hpc : s.threads t = .logging call event pc) (hmoves : Moves c s t call event pc s' pc')
    {g : Given} (hg : g ∈ s.given) :
    ∃ event', s.calls[g.call]? = some event' ∧ ∀ field : Field,
      field.get ((s'.pages g.page).events g.index) = field.get event' ∨
        (s'.goto t (resume call event pc')).Owed g.page g.index g.call field := by
  obtain ⟨event', hevent, hwritten⟩ := h.written g hg
  refine ⟨event', hevent, fun field => ?_⟩
  have hpage := hinv.slots.page_lt (Nat.lt_of_le_of_lt (Nat.zero_le _) hinv.tail_lt) hg
  by_cases hwrites : ∃ field', pc = .write field' g.page g.index
  · obtain ⟨field', rfl⟩ := hwrites
    have hmine := (hinv.stands t call event _ hpc).2
    have hcall : g.call = call := congrArg Given.call (hinv.slots.unique hg hmine rfl rfl)
    obtain rfl : event' = event := by
      rw [hcall, h.call t call event _ hpc] at hevent
      exact (Option.some.inj hevent).symm
    rw [hmoves.events_write, Field.get_set]
    by_cases hfield : field = field'
    · rw [if_pos hfield, hfield]
      exact Or.inl rfl
    · rw [if_neg hfield]
      refine (hwritten field).imp id fun howed => hmoves.owed hpc howed fun heq => ?_
      cases heq
      exact hfield rfl
  · rw [hmoves.events_same hpage g.index fun field' heq => hwrites ⟨field', heq⟩]
    exact (hwritten field).imp id fun howed => hmoves.owed hpc howed fun heq => hwrites ⟨field, heq⟩

theorem Contents.moves (hinv : Inv c s) (h : Contents s) (hpc : s.threads t = .logging call event pc)
    (hmoves : Moves c s t call event pc s' pc') :
    Contents (s'.goto t (resume call event pc')) where
  call t' call' event' pc₁ hpc₁ := by
    show s'.calls[call']? = some event'
    rw [hmoves.calls]
    rcases goto_cases hpc₁ with ⟨rfl, hnew⟩ | ⟨-, hold⟩
    · cases pc' with
      | none => cases hnew
      | some pc' =>
        cases hnew
        exact h.call t' call event pc hpc
    · rw [hmoves.threads] at hold
      exact h.call t' call' event' pc₁ hold
  written g hg := by
    have hcalls : (s'.goto t (resume call event pc')).calls = s.calls := hmoves.calls
    rw [hcalls]
    rcases hmoves.new_given hg with hold | ⟨hcall, pc₁, rfl, howes⟩
    · exact h.written_old hinv hpc hmoves hold
    · rw [hcall]
      exact ⟨event, h.call t call event pc hpc, fun field => Or.inr ⟨t, event, pc₁, goto_self, howes field⟩⟩

end Moves

theorem Contents.log (h : Contents s) {t : Nat} (hidle : s.threads t = .idle) (event : Event) :
    Contents ({ s with calls := s.calls ++ [event] }.goto t
      (.logging s.calls.length event .loadTail)) where
  call t' call' event' pc' hpc' := by
    show (s.calls ++ [event])[call']? = some event'
    rcases goto_cases hpc' with ⟨rfl, hnew⟩ | ⟨-, hold⟩
    · cases hnew
      exact List.getElem?_concat_length
    · have hcall := h.call t' call' event' pc' hold
      rw [List.getElem?_append_left (List.getElem?_eq_some_iff.mp hcall).1]
      exact hcall
  written g hg := by
    obtain ⟨event', hevent, hwritten⟩ := h.written g hg
    refine ⟨event', ?_, fun field => (hwritten field).imp id fun howed => ?_⟩
    · show (s.calls ++ [event])[g.call]? = some event'
      rw [List.getElem?_append_left (List.getElem?_eq_some_iff.mp hevent).1]
      exact hevent
    · obtain ⟨t₁, event₁, pc₁, hpc₁, howes⟩ := howed
      exact ⟨t₁, event₁, pc₁, goto_logging hidle hpc₁, howes⟩

theorem contents_step (s : State) (l : Label) (s' : State) (hs : next c s l = some s')
    (h : Inv c s ∧ Contents s) : Inv c s' ∧ Contents s' := by
  refine ⟨step_inv s l s' hs h.1, ?_⟩
  rcases next_cases hs with ⟨t, msg, param1, param2, rfl, hidle, rfl⟩ |
      ⟨t, call, event, pc, s₁, pc', rfl, hpc, hmoves, rfl⟩
  · exact h.2.log hidle _
  · exact h.2.moves h.1 hpc hmoves

theorem run_contents {ls : List Label} (hr : run (next c) start ls = some s) : Contents s :=
  (run_preserves (P := fun s => Inv c s ∧ Contents s) contents_step hr
    ⟨Inv.start c, nofun, nofun⟩).2

/-- No log call is in progress. -/
def Quiescent (s : State) : Prop := ∀ t, s.threads t = .idle

/-- Then every given slot holds the event of its call. -/
theorem Contents.quiescent (h : Contents s) (hquiet : Quiescent s) {g : Given} (hg : g ∈ s.given) :
    s.calls[g.call]? = some ((s.pages g.page).events g.index) := by
  obtain ⟨event, hevent, hwritten⟩ := h.written g hg
  have hsame : (s.pages g.page).events g.index = event := by
    refine Event.ext_get fun field => (hwritten field).resolve_right fun howed => ?_
    obtain ⟨t, event', pc, hpc, -⟩ := howed
    rw [hquiet t] at hpc
    cases hpc
  rw [hsame]
  exact hevent

/-! ## The tail -/

/-- The call will look at the tail again, or replace it. -/
def Pc.looking : Pc → Bool
  | .lock | .loadOldTail | .loadIndex _ | .fetchAddLocked _ | .newPage _ => true
  | .linkNext .. | .storeTail _ => true
  | _ => false

/-- Pages after the tail are new, and a tail that has been overrun will be replaced. -/
structure Tail (c : Config) (s : State) : Prop where
  fresh : ∀ p, s.tail < p → s.indexOf p ≤ 1
  overrun : c.eventsPerPage < s.indexOf s.tail →
    ∃ t call event pc, s.threads t = .logging call event pc ∧ pc.looking = true

section Moves
variable {t call : Nat} {event : Event} {pc : Pc} {pc' : Option Pc}

/-- Whoever is looking goes on looking, has found a slot or has stored a new tail. -/
theorem Moves.looking (h : Moves c s t call event pc s' pc') (hlooking : pc.looking = true) :
    (∃ pc₁, pc' = some pc₁ ∧ pc₁.looking = true) ∨
      (∃ page, pc = .fetchAddLocked page ∧ s.indexOf page < c.eventsPerPage) ∨
      ∃ newTail, pc = .storeTail newTail := by
  cases h with
  | lock | loadOldTail | room | noRoom | noSlotLocked | newPage | linkNext =>
    exact Or.inl ⟨_, rfl, rfl⟩
  | slotLocked hlt => exact Or.inr (Or.inl ⟨_, rfl, hlt⟩)
  | storeTail => exact Or.inr (Or.inr ⟨_, rfl⟩)
  | _ => cases hlooking

theorem Moves.tail (h : Moves c s t call event pc s' pc') :
    s'.tail = s.tail ∨ pc = .storeTail s'.tail := by
  cases h with
  | storeTail => exact Or.inr rfl
  | _ => exact Or.inl rfl

/-- An index stays, is that of a new page, or is incremented: then there was a slot left, or
the thread goes on looking. -/
theorem Moves.indexOf (h : Moves c s t call event pc s' pc') (p : Nat) :
    s'.indexOf p = s.indexOf p ∨ (p = s.created ∧ s'.indexOf p = 1) ∨
      ((pc = .fetchAdd p ∨ pc = .fetchAddLocked p) ∧ s'.indexOf p = s.indexOf p + 1 ∧
        (s.indexOf p < c.eventsPerPage ∨ ∃ pc₁, pc' = some pc₁ ∧ pc₁.looking = true)) := by
  have hbump : ∀ page, (s.fetchAddIndex c call page).indexOf p = s.indexOf p ∨
      p = page ∧ (s.fetchAddIndex c call page).indexOf p = s.indexOf p + 1 := by
    intro page
    rw [indexOf_fetchAddIndex]
    by_cases hp : p = page
    · rw [if_pos hp, hp]
      exact Or.inr ⟨rfl, rfl⟩
    · rw [if_neg hp]
      exact Or.inl rfl
  cases h with
  | @slot page hlt =>
    rcases hbump page with hsame | ⟨rfl, hmore⟩
    · exact Or.inl hsame
    · exact Or.inr (Or.inr ⟨Or.inl rfl, hmore, Or.inl hlt⟩)
  | @noSlot page =>
    rcases hbump page with hsame | ⟨rfl, hmore⟩
    · exact Or.inl hsame
    · exact Or.inr (Or.inr ⟨Or.inl rfl, hmore, Or.inr ⟨_, rfl, rfl⟩⟩)
  | @slotLocked page hlt =>
    rcases hbump page with hsame | ⟨rfl, hmore⟩
    · exact Or.inl hsame
    · exact Or.inr (Or.inr ⟨Or.inr rfl, hmore, Or.inl hlt⟩)
  | @noSlotLocked page =>
    rcases hbump page with hsame | ⟨rfl, hmore⟩
    · exact Or.inl hsame
    · exact Or.inr (Or.inr ⟨Or.inr rfl, hmore, Or.inr ⟨_, rfl, rfl⟩⟩)
  | newPage =>
    by_cases hp : p = s.created
    · refine Or.inr (Or.inl ⟨hp, ?_⟩)
      exact (indexOf_setPage s.created p _).trans (if_pos hp)
    · exact Or.inl ((indexOf_setPage s.created p _).trans (if_neg hp))
  | @linkNext oldTail newTail =>
    left
    apply (indexOf_setPage oldTail p _).trans
    split
    · rename_i hp
      rw [hp]
      rfl
    · rfl
  | write => exact Or.inl (indexOf_writeField _ _ _ _ p)
  | _ => exact Or.inl rfl

theorem Tail.moves (hinv : Inv c s) (h : Tail c s) (hpc : s.threads t = .logging call event pc)
    (hmoves : Moves c s t call event pc s' pc') : Tail c (s'.goto t (resume call event pc')) := by
  have hstands := hinv.stands t call event pc hpc
  have htail_lt := hinv.tail_lt
  have hfresh : ∀ p, s.tail < p → s'.indexOf p ≤ 1 := by
    intro p hp
    have hle := h.fresh p hp
    rcases hmoves.indexOf p with hsame | ⟨-, hone⟩ | ⟨hat, -, -⟩
    · omega
    · omega
    · rcases hat with rfl | rfl
      · have hpage : p ≤ s.tail := hstands
        omega
      · have hpage : p = s.tail := hstands
        omega
  by_cases hstores : pc = .storeTail s'.tail
  · subst hstores
    have hnew : s'.tail = s.tail + 1 := hstands.1
    refine ⟨fun p hp => hfresh p ?_, fun hover => ?_⟩
    · have hlt : s'.tail < p := hp
      omega
    · have hle := hfresh s'.tail (by omega)
      have hpos := c.events_pos
      have hover' : c.eventsPerPage < s'.indexOf s'.tail := hover
      omega
  · have htail : s'.tail = s.tail := hmoves.tail.resolve_right hstores
    refine ⟨fun p hp => hfresh p ?_, fun hover => ?_⟩
    · rw [← htail]
      exact hp
    · have hover' : c.eventsPerPage < s'.indexOf s.tail := by
        rw [← htail]
        exact hover
      have hkept : ∀ pc₁, pc' = some pc₁ → pc₁.looking = true →
          ∃ t₁ call₁ event₁ pc₁, (s'.goto t (resume call event pc')).threads t₁ =
            .logging call₁ event₁ pc₁ ∧ pc₁.looking = true := by
        intro pc₁ heq hlooking
        subst heq
        exact ⟨t, call, event, pc₁, goto_self, hlooking⟩
      by_cases hold : c.eventsPerPage < s.indexOf s.tail
      · obtain ⟨t₁, call₁, event₁, pc₁, hpc₁, hlooking⟩ := h.overrun hold
        by_cases ht : t₁ = t
        · subst ht
          rw [hpc] at hpc₁
          cases hpc₁
          rcases hmoves.looking hlooking with ⟨pc₂, heq, hlooking⟩ | ⟨page, rfl, hlt⟩ | ⟨newTail, rfl⟩
          · exact hkept pc₂ heq hlooking
          · have hpage : page = s.tail := hstands
            rw [hpage] at hlt
            omega
          · cases hmoves
            exact absurd rfl hstores
        · refine ⟨t₁, call₁, event₁, pc₁, ?_, hlooking⟩
          rw [goto_other ht, hmoves.threads]
          exact hpc₁
      · rcases hmoves.indexOf s.tail with hsame | ⟨hnew, -⟩ | ⟨-, hmore, hlt | ⟨pc₁, heq, hlooking⟩⟩
        · omega
        · omega
        · omega
        · exact hkept pc₁ heq hlooking

end Moves

theorem tail_step (s : State) (l : Label) (s' : State) (hs : next c s l = some s')
    (h : Inv c s ∧ Tail c s) : Inv c s' ∧ Tail c s' := by
  refine ⟨step_inv s l s' hs h.1, ?_⟩
  rcases next_cases hs with ⟨t, msg, param1, param2, rfl, hidle, rfl⟩ |
      ⟨t, call, event, pc, s₁, pc', rfl, hpc, hmoves, rfl⟩
  · refine ⟨h.2.fresh, fun hover => ?_⟩
    obtain ⟨t₁, call₁, event₁, pc₁, hpc₁, hlooking⟩ := h.2.overrun hover
    exact ⟨t₁, call₁, event₁, pc₁, goto_logging hidle hpc₁, hlooking⟩
  · exact h.2.moves h.1 hpc hmoves

theorem run_tail {ls : List Label} (hr : run (next c) start ls = some s) : Tail c s := by
  refine (run_preserves (P := fun s => Inv c s ∧ Tail c s) tail_step hr ⟨Inv.start c, ?_⟩).2
  exact ⟨fun p _ => Nat.zero_le 1, fun hover => absurd hover (Nat.not_lt_zero _)⟩

/-- When no call is in progress the tail's index is the number of slots given out on it. -/
theorem Tail.quiescent (h : Tail c s) (hquiet : Quiescent s) :
    s.indexOf s.tail ≤ c.eventsPerPage := by
  by_contra hover
  obtain ⟨t, call, event, pc, hpc, -⟩ := h.overrun (Nat.lt_of_not_le hover)
  rw [hquiet t] at hpc
  cases hpc

end Turf.MemLog
