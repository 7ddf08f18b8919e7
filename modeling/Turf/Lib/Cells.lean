import Mathlib.Data.List.Nodup

/-!
# Singly linked lists

`Linked next head l` says that the cells reached from `head` through `next` are those of
`l`, in order, and that the last one has no successor. Such a list has no cell twice, is
the only one from its head, and a traversal that is given a step for each cell and one
more comes to its end.
-/
namespace Turf.Lib.Cells

variable {α β : Type*} {next next' : α → Option α} {head : Option α} {a : α} {l m : List α}

def Linked (next : α → Option α) : Option α → List α → Prop
  | head, [] => head = none
  | head, a :: l => head = some a ∧ Linked next (next a) l

@[simp] theorem linked_nil : Linked next head [] ↔ head = none := Iff.rfl

@[simp] theorem linked_cons :
    Linked next head (a :: l) ↔ head = some a ∧ Linked next (next a) l := Iff.rfl

/-- A cell outside the list may change its successor. -/
theorem Linked.congr (h : Linked next head l) (heq : ∀ a ∈ l, next' a = next a) :
    Linked next' head l := by
  induction l generalizing head with
  | nil => exact h
  | cons a l ih =>
    obtain ⟨hhead, htail⟩ := h
    refine ⟨hhead, ?_⟩
    rw [heq a List.mem_cons_self]
    exact ih htail fun b hb => heq b (List.mem_cons_of_mem a hb)

/-- A new cell in front, whose successor is the head. -/
theorem Linked.push (h : Linked next head l) (ha : next a = head) :
    Linked next (some a) (a :: l) := ⟨rfl, ha ▸ h⟩

theorem Linked.unique (h : Linked next head l) (h' : Linked next head m) : l = m := by
  induction l generalizing head m with
  | nil =>
    cases m with
    | nil => rfl
    | cons b m =>
      have hnone : head = none := h
      rw [hnone] at h'
      cases h'.1
  | cons a l ih =>
    cases m with
    | nil =>
      have hnone : head = none := h'
      rw [hnone] at h
      cases h.1
    | cons b m =>
      obtain rfl : a = b := Option.some.inj (h.1.symm.trans h'.1)
      rw [ih h.2 h'.2]

/-- From a cell of the list the rest of it is linked. -/
theorem Linked.suffix_of_mem (h : Linked next head l) (ha : a ∈ l) :
    ∃ m, Linked next (next a) m ∧ m.length < l.length := by
  induction l generalizing head with
  | nil => cases ha
  | cons b l ih =>
    obtain ⟨-, htail⟩ := h
    rcases List.mem_cons.mp ha with rfl | hmem
    · exact ⟨l, htail, Nat.lt_succ_self _⟩
    · obtain ⟨m, hm, hlt⟩ := ih htail hmem
      exact ⟨m, hm, Nat.lt_succ_of_lt hlt⟩

/-- No cell comes twice: the list after its second place would be the one after its first. -/
theorem Linked.nodup (h : Linked next head l) : l.Nodup := by
  induction l generalizing head with
  | nil => exact List.nodup_nil
  | cons a l ih =>
    obtain ⟨-, htail⟩ := h
    refine List.nodup_cons.mpr ⟨fun hmem => ?_, ih htail⟩
    obtain ⟨m, hm, hlt⟩ := htail.suffix_of_mem hmem
    rw [hm.unique htail] at hlt
    exact absurd hlt (Nat.lt_irrefl _)

/-- What `for (; cell; cell = cell->next) visit(cell)` collects, in at most `fuel` rounds. -/
def traverse (next : α → Option α) (visit : α → β) : Nat → Option α → Option (List β)
  | _, none => some []
  | 0, some _ => none
  | fuel + 1, some a => (traverse next visit fuel (next a)).map (visit a :: ·)

theorem Linked.traverse (h : Linked next head l) (visit : α → β) {fuel : Nat}
    (hfuel : l.length ≤ fuel) : traverse next visit fuel head = some (l.map visit) := by
  induction l generalizing head fuel with
  | nil =>
    have hnone : head = none := h
    rw [hnone]
    cases fuel <;> rfl
  | cons a l ih =>
    obtain ⟨rfl, htail⟩ := h
    cases fuel with
    | zero => exact absurd hfuel (Nat.not_succ_le_zero _)
    | succ fuel => simp [Cells.traverse, ih htail (Nat.le_of_succ_le_succ hfuel)]

end Turf.Lib.Cells
