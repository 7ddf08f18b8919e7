import Mathlib.Data.List.Basic

/-!
# Routines over one shared location

A routine is the code between two shared accesses of a thread, written as data:
plain reads, indivisible read-modify-write instructions and a loop around them.
`Pending` and `Finishing` are the two halves of an argument that a routine takes
effect at exactly one of its instructions, whatever the other threads store
between them.
-/
namespace Turf.Lib.SharedWord

variable {V C α β : Type}

/-- Straight-line code over a location of type `V`. `observe` is a plain read,
whose continuation may use a part of the value only; `locked f` replaces the
value by its image under `f` and continues with the value it replaced. -/
inductive Prog (V α : Type) where
  | ret (a : α)
  | observe (k : V → Prog V α)
  | locked (f : V → V) (k : V → Prog V α)

namespace Prog

def bind : Prog V α → (α → Prog V β) → Prog V β
  | ret a, g => g a
  | observe k, g => observe fun v => (k v).bind g
  | locked f k, g => locked f fun v => (k v).bind g

instance : Monad (Prog V) where
  pure := ret
  bind := bind

/-- The result and the final value when no other thread interferes. -/
def eval : Prog V α → V → α × V
  | ret a, v => (a, v)
  | observe k, v => (k v).eval v
  | locked f k, v => (k v).eval (f v)

@[simp] theorem pure_eq (a : α) : (pure a : Prog V α) = ret a := rfl
@[simp] theorem bind_eq (p : Prog V α) (g : α → Prog V β) : p >>= g = p.bind g := rfl
@[simp] theorem map_eq (f : α → β) (p : Prog V α) : f <$> p = p.bind fun a => ret (f a) := rfl
@[simp] theorem bind_ret (a : α) (g : α → Prog V β) : (ret a).bind g = g a := rfl
@[simp] theorem bind_observe (k : V → Prog V α) (g : α → Prog V β) :
    (observe k).bind g = observe fun v => (k v).bind g := rfl
@[simp] theorem bind_locked (f : V → V) (k : V → Prog V α) (g : α → Prog V β) :
    (locked f k).bind g = locked f fun v => (k v).bind g := rfl

@[simp] theorem bind_assoc {γ : Type} (p : Prog V α) (g : α → Prog V β) (h : β → Prog V γ) :
    (p.bind g).bind h = p.bind fun a => (g a).bind h := by
  induction p with
  | ret a => rfl
  | observe k ih => simp [ih]
  | locked f k ih => simp [ih]

theorem eval_bind (p : Prog V α) (g : α → Prog V β) (v : V) :
    (p.bind g).eval v = (g (p.eval v).1).eval (p.eval v).2 := by
  induction p generalizing v with
  | ret a => rfl
  | observe k ih => exact ih v v
  | locked f k ih => exact ih v (f v)

@[simp] theorem eval_ret (a : α) (v : V) : (ret a : Prog V α).eval v = (a, v) := rfl
@[simp] theorem eval_observe (k : V → Prog V α) (v : V) : (observe k).eval v = (k v).eval v := rfl
@[simp] theorem eval_locked (f : V → V) (k : V → Prog V α) (v : V) :
    (locked f k).eval v = (k v).eval (f v) := rfl

end Prog

/-- Code that runs once and then goes round a loop. `C` is what one round hands
to the next; a round ends with `inl` to go round again or with `inr` to return. -/
structure Routine (V C : Type) where
  entry : Prog V C
  body : C → Prog V (C ⊕ V)

namespace Routine

/-- Code without a loop. -/
def straight [Inhabited V] (p : Prog V V) : Routine V V := ⟨.ret default, fun _ => Sum.inr <$> p⟩

/-- A loop whose rounds hand nothing on; a round without a result is repeated. -/
def loop [Inhabited V] (p : Prog V (Option V)) : Routine V V where
  entry := .ret default
  body _ := do
    match ← p with
    | none => return .inl default
    | some a => return .inr a

/-- The code of a call that has just been made. -/
def start (r : Routine V C) : Prog V (C ⊕ V) := Sum.inl <$> r.entry

/-- At most `n` rounds without interference: the result and the final value. -/
def rounds (r : Routine V C) : Nat → C → V → Option (V × V)
  | 0, _, _ => none
  | n + 1, c, v =>
    match (r.body c).eval v with
    | (.inl c', v') => r.rounds n c' v'
    | (.inr a, v') => some (a, v')

/-- A call that runs alone, given `n` rounds. -/
def alone (r : Routine V C) (n : Nat) (v : V) : Option (V × V) :=
  r.rounds n (r.entry.eval v).1 (r.entry.eval v).2

end Routine

/-- The call has taken effect on `r` and returns it without touching the location. -/
def Finishing (r : V) : Prog V (C ⊕ V) → Prop
  | .ret (.inl _) => False
  | .ret (.inr a) => a = r
  | .observe k => ∀ v, Finishing r (k v)
  | .locked _ _ => False

/-- The call has not taken effect. Whatever value an instruction meets, it either
leaves it and the call is still pending, or applies `f` and the call is finishing. -/
def Pending (f : V → V) : Prog V (C ⊕ V) → Prop
  | .ret (.inl _) => True
  | .ret (.inr _) => False
  | .observe k => ∀ v, Pending f (k v)
  | .locked g k => ∀ v, (g v = v ∧ Pending f (k v)) ∨ (g v = f v ∧ Finishing v (k v))

/-- Every call of the routine applies `f` at one of its instructions and returns
the value that instruction met. -/
structure Routine.Atomic (r : Routine V C) (f : V → V) : Prop where
  entry : Pending f r.start
  body : ∀ c, Pending f (r.body c)

section Simp
variable (f g : V → V) (r : V)

@[simp] theorem finishing_inl (c : C) : Finishing r (.ret (.inl c)) ↔ False := Iff.rfl
@[simp] theorem finishing_inr (a : V) : Finishing (C := C) r (.ret (.inr a)) ↔ a = r := Iff.rfl
@[simp] theorem finishing_observe (k : V → Prog V (C ⊕ V)) :
    Finishing r (.observe k) ↔ ∀ v, Finishing r (k v) := Iff.rfl
@[simp] theorem finishing_locked (k : V → Prog V (C ⊕ V)) :
    Finishing r (.locked g k) ↔ False := Iff.rfl
@[simp] theorem pending_inl (c : C) : Pending f (.ret (.inl c)) ↔ True := Iff.rfl
@[simp] theorem pending_inr (a : V) : Pending (C := C) f (.ret (.inr a)) ↔ False := Iff.rfl
@[simp] theorem pending_observe (k : V → Prog V (C ⊕ V)) :
    Pending f (.observe k) ↔ ∀ v, Pending f (k v) := Iff.rfl
@[simp] theorem pending_locked (k : V → Prog V (C ⊕ V)) :
    Pending f (.locked g k) ↔
      ∀ v, (g v = v ∧ Pending f (k v)) ∨ (g v = f v ∧ Finishing v (k v)) := Iff.rfl

end Simp

end Turf.Lib.SharedWord
