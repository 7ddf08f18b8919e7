import Mathlib.Logic.Function.Basic
import Turf.Lib.Schedule
import Turf.Lib.SharedWord

/-!
# Threads calling routines on one location

Any number of threads, each with a finite list of calls, run the code of their
calls on one location. A schedule names the thread that moves; one move is one
plain read, one locked instruction or one step of control. The trace lists the
locked instructions in the order they were executed.

If the code of every operation is `Routine.Atomic`, the locked instructions of a
completed call are failed attempts followed by one that applies its operation,
and the call returns the value that instruction met (`run_inv`). The value is then
the fold of the operations in the order of these instructions (`Inv.value_eq`).
-/
namespace Turf.Lib.Interleave

open Turf.Lib.Schedule Turf.Lib.SharedWord

/-- One executed locked instruction, with the call it belongs to. -/
structure Event (Tid Op V : Type) where
  thread : Tid
  call : Nat
  op : Op
  before : V
  after : V

namespace Event

def key {Tid Op V : Type} (e : Event Tid Op V) : Tid × Nat := (e.thread, e.call)

end Event

/-- The calls a thread has still to make, the one it is in, and the completed
calls with the values they returned. -/
structure Thread (Op V C : Type) where
  todo : List Op
  cur : Option (Op × Prog V (C ⊕ V))
  done : List (Op × V)

structure State (Tid Op V C : Type) where
  value : V
  threads : Tid → Thread Op V C
  trace : List (Event Tid Op V)

variable {Tid Op V C : Type} [DecidableEq Tid]

def State.set (s : State Tid Op V C) (t : Tid) (th : Thread Op V C) : State Tid Op V C :=
  { s with threads := Function.update s.threads t th }

def start (init : V) (programs : Tid → List Op) : State Tid Op V C :=
  { value := init, threads := fun t => ⟨programs t, none, []⟩, trace := [] }

/-- Thread `t` makes its next move. Every call of every thread has code of its own. -/
def next (code : Tid → Nat → Op → Routine V C) (s : State Tid Op V C) (t : Tid) :
    Option (State Tid Op V C) :=
  let th := s.threads t
  let call := code t th.done.length
  match th.cur with
  | none =>
    match th.todo with
    | [] => none
    | op :: rest => some (s.set t { th with todo := rest, cur := some (op, (call op).start) })
  | some (op, .ret (.inl c)) => some (s.set t { th with cur := some (op, (call op).body c) })
  | some (op, .ret (.inr r)) => some (s.set t { th with cur := none, done := th.done ++ [(op, r)] })
  | some (op, .observe k) => some (s.set t { th with cur := some (op, k s.value) })
  | some (op, .locked f k) =>
    some { s.set t { th with cur := some (op, k s.value) } with
      value := f s.value
      trace := s.trace ++ [⟨t, th.done.length, op, s.value, f s.value⟩] }

/-- The locked instructions executed so far by call `n` of thread `t`. -/
def instrs (trace : List (Event Tid Op V)) (t : Tid) (n : Nat) : List (Event Tid Op V) :=
  trace.filter fun e => e.key = (t, n)

/-- None of these instructions changed the location. -/
def Failed (es : List (Event Tid Op V)) : Prop := ∀ e ∈ es, e.after = e.before

/-- Failed attempts, then one instruction that met `r` and left `f r`. -/
def Applied (op : Op) (f : V → V) (r : V) (es : List (Event Tid Op V)) : Prop :=
  ∃ pre e, es = pre ++ [e] ∧ Failed pre ∧ e.op = op ∧ e.before = r ∧ e.after = f r

/-- Each instruction met the value the one before it left. -/
def Chain (v : V) : List (Event Tid Op V) → V → Prop
  | [], w => v = w
  | e :: es, w => e.before = v ∧ Chain e.after es w

/-- The last locked instruction of each call, in the order of execution. -/
def commits : List (Event Tid Op V) → List (Event Tid Op V)
  | [] => []
  | e :: es => if e.key ∈ es.map Event.key then commits es else e :: commits es

/-! ## The trace -/

omit [DecidableEq Tid] in
theorem chain_snoc {v w : V} {es : List (Event Tid Op V)} {e : Event Tid Op V}
    (h : Chain v es w) (he : e.before = w) : Chain v (es ++ [e]) e.after := by
  induction es generalizing v with
  | nil => exact ⟨he.trans h.symm, rfl⟩
  | cons x es ih => exact ⟨h.1, ih h.2⟩

theorem instrs_snoc_self {trace : List (Event Tid Op V)} {e : Event Tid Op V} {t : Tid} {n : Nat}
    (h : e.key = (t, n)) : instrs (trace ++ [e]) t n = instrs trace t n ++ [e] := by
  simp [instrs, List.filter_append, h]

theorem instrs_snoc_ne {trace : List (Event Tid Op V)} {e : Event Tid Op V} {t : Tid} {n : Nat}
    (h : e.key ≠ (t, n)) : instrs (trace ++ [e]) t n = instrs trace t n := by
  simp [instrs, List.filter_append, h]

theorem mem_instrs {trace : List (Event Tid Op V)} {e : Event Tid Op V} {t : Tid} {n : Nat} :
    e ∈ instrs trace t n ↔ e ∈ trace ∧ e.key = (t, n) := by
  simp [instrs, List.mem_filter]

/-- Every call that executed an instruction has one last instruction. -/
theorem mem_commits_key {es : List (Event Tid Op V)} {k : Tid × Nat} :
    k ∈ (commits es).map Event.key ↔ k ∈ es.map Event.key := by
  induction es with
  | nil => rfl
  | cons x es ih =>
    rw [commits]
    split
    · rename_i hx
      rw [ih, List.map_cons, List.mem_cons]
      constructor
      · exact Or.inr
      · rintro (rfl | h)
        · exact hx
        · exact h
    · rw [List.map_cons, List.map_cons, List.mem_cons, List.mem_cons, ih]

theorem nodup_commits (es : List (Event Tid Op V)) : ((commits es).map Event.key).Nodup := by
  induction es with
  | nil => exact List.nodup_nil
  | cons x es ih =>
    rw [commits]
    split
    · exact ih
    · rename_i hx
      rw [List.map_cons, List.nodup_cons, mem_commits_key]
      exact ⟨hx, ih⟩

/-- When the last instruction of every call applies its operation and the others
change nothing, the value is the fold of the operations in commit order. -/
theorem chain_commits (effect : Op → V → V) {v w : V} {es : List (Event Tid Op V)}
    (hc : Chain v es w)
    (hlast : ∀ pre e post, es = pre ++ e :: post →
      if e.key ∈ post.map Event.key then e.after = e.before else e.after = effect e.op e.before) :
    w = (commits es).foldl (fun u e => effect e.op u) v := by
  induction es generalizing v with
  | nil => exact hc.symm
  | cons x es ih =>
    have hx := hlast [] x es rfl
    have hrest := ih hc.2 fun pre e post he => hlast (x :: pre) e post (by rw [he]; rfl)
    rw [commits]
    split
    · rename_i hm
      rw [if_pos hm] at hx
      rw [hrest, hx, hc.1]
    · rename_i hm
      rw [if_neg hm] at hx
      rw [List.foldl_cons, hrest, hx, hc.1]

/-! ## The invariant -/

/-- The instructions of the call a thread is in, against the code it has left. -/
def CurrentOk (effect : Op → V → V) :
    Option (Op × Prog V (C ⊕ V)) → List (Event Tid Op V) → Prop
  | none, es => es = []
  | some (op, p), es =>
    (Pending (effect op) p ∧ Failed es) ∨ ∃ r, Finishing r p ∧ Applied op (effect op) r es

structure ThreadOk (effect : Op → V → V) (program : List Op) (trace : List (Event Tid Op V))
    (t : Tid) (th : Thread Op V C) : Prop where
  program : th.done.map Prod.fst ++ (th.cur.map Prod.fst).toList ++ th.todo = program
  done : ∀ n op r, th.done[n]? = some (op, r) → Applied op (effect op) r (instrs trace t n)
  cur : CurrentOk effect th.cur (instrs trace t th.done.length)
  fresh : ∀ n, th.done.length < n → instrs trace t n = []

structure Inv (effect : Op → V → V) (init : V) (programs : Tid → List Op)
    (s : State Tid Op V C) : Prop where
  chain : Chain init s.trace s.value
  threads : ∀ t, ThreadOk effect (programs t) s.trace t (s.threads t)

theorem start_inv (effect : Op → V → V) (init : V) (programs : Tid → List Op) :
    Inv effect init programs (start init programs : State Tid Op V C) where
  chain := rfl
  threads _ := ⟨rfl, fun _ _ _ h => by simp [start] at h, rfl, fun _ _ => rfl⟩

/-- A move of `t` that executes no locked instruction concerns `t` alone. -/
theorem Inv.set {effect : Op → V → V} {init : V} {programs : Tid → List Op}
    {s : State Tid Op V C} (h : Inv effect init programs s) {t : Tid} {th : Thread Op V C}
    (ht : ThreadOk effect (programs t) s.trace t th) : Inv effect init programs (s.set t th) where
  chain := h.chain
  threads u := by
    by_cases hu : u = t
    · subst hu
      simpa [State.set] using ht
    · simpa [State.set, Function.update_of_ne hu] using h.threads u

/-- A locked instruction of another thread leaves a thread's accounts alone. -/
theorem ThreadOk.snoc_other {effect : Op → V → V} {program : List Op}
    {trace : List (Event Tid Op V)} {t : Tid} {th : Thread Op V C}
    (h : ThreadOk effect program trace t th) {e : Event Tid Op V} (he : e.thread ≠ t) :
    ThreadOk effect program (trace ++ [e]) t th := by
  have hk : ∀ n, instrs (trace ++ [e]) t n = instrs trace t n := fun n =>
    instrs_snoc_ne fun hk => he (congrArg Prod.fst hk)
  exact ⟨h.program, fun n op r hn => by rw [hk]; exact h.done n op r hn,
    by rw [hk]; exact h.cur, fun n hn => by rw [hk]; exact h.fresh n hn⟩

/-- The thread's own locked instruction is charged to the call it is in. -/
theorem ThreadOk.snoc_self {effect : Op → V → V} {program : List Op}
    {trace : List (Event Tid Op V)} {t : Tid} {th : Thread Op V C}
    (h : ThreadOk effect program trace t th) {op : Op} {p q : Prog V (C ⊕ V)}
    (hp : th.cur = some (op, p)) {v w : V}
    (hq : CurrentOk effect (some (op, q))
      (instrs trace t th.done.length ++ [⟨t, th.done.length, op, v, w⟩])) :
    ThreadOk effect program (trace ++ [⟨t, th.done.length, op, v, w⟩]) t
      { th with cur := some (op, q) } := by
  have hk : ∀ n, n ≠ th.done.length →
      instrs (trace ++ [⟨t, th.done.length, op, v, w⟩]) t n = instrs trace t n := fun n hn =>
    instrs_snoc_ne fun hk => hn (congrArg Prod.snd hk).symm
  refine ⟨?_, ?_, ?_, ?_⟩
  · simpa [hp] using h.program
  · intro n o r hn
    have hlt : n < th.done.length := (List.getElem?_eq_some_iff.mp hn).1
    rw [hk n (by omega)]
    exact h.done n o r hn
  · rw [instrs_snoc_self rfl]
    exact hq
  · intro n hn
    have hn : th.done.length < n := hn
    rw [hk n (by omega)]
    exact h.fresh n hn

omit [DecidableEq Tid] in
/-- What a locked instruction does to the accounts of the call it belongs to. -/
theorem currentOk_locked {effect : Op → V → V} {op : Op} {f : V → V} {k : V → Prog V (C ⊕ V)}
    {es : List (Event Tid Op V)} {e : Event Tid Op V} (ho : e.op = op) (he : e.after = f e.before)
    (h : CurrentOk effect (some (op, .locked f k)) es) :
    CurrentOk effect (some (op, k e.before)) (es ++ [e]) := by
  rcases h with ⟨hp, hf⟩ | ⟨r, hf, _⟩
  · rcases hp e.before with ⟨hsame, hp⟩ | ⟨happ, hfin⟩
    · refine Or.inl ⟨hp, fun x hx => ?_⟩
      rcases List.mem_append.mp hx with hx | hx
      · exact hf x hx
      · rw [List.mem_singleton.mp hx, he, hsame]
    · exact Or.inr ⟨e.before, hfin, es, e, rfl, hf, ho, rfl, he.trans happ⟩
  · exact absurd hf id

theorem next_inv {code : Tid → Nat → Op → Routine V C} {effect : Op → V → V}
    (hcode : ∀ t n op, (code t n op).Atomic (effect op)) {init : V} {programs : Tid → List Op}
    (s : State Tid Op V C) (t : Tid) (s' : State Tid Op V C) (hs : next code s t = some s')
    (h : Inv effect init programs s) : Inv effect init programs s' := by
  have ht := h.threads t
  unfold next at hs
  dsimp only at hs
  split at hs
  · rename_i hc
    split at hs
    · cases hs
    · rename_i op rest htodo
      cases hs
      refine h.set ⟨?_, ht.done, ?_, ht.fresh⟩
      · simpa [hc, htodo] using ht.program
      · have he : instrs s.trace t (s.threads t).done.length = [] := by
          have hcur := ht.cur
          rwa [hc] at hcur
        exact Or.inl ⟨(hcode t _ op).entry, by rw [he]; exact fun _ hx => absurd hx List.not_mem_nil⟩
  · rename_i op c hc
    cases hs
    refine h.set ⟨by simpa [hc] using ht.program, ht.done, ?_, ht.fresh⟩
    have hcur := ht.cur
    rw [hc] at hcur
    rcases hcur with ⟨_, hf⟩ | ⟨r, hf, _⟩
    · exact Or.inl ⟨(hcode t _ op).body c, hf⟩
    · exact absurd hf id
  · rename_i op r hc
    cases hs
    have hcur := ht.cur
    rw [hc] at hcur
    rcases hcur with ⟨hf, _⟩ | ⟨r', hr, ha⟩
    · exact absurd hf id
    have hr : r = r' := hr
    subst hr
    refine h.set ⟨by simpa [hc] using ht.program, ?_, ?_, ?_⟩
    · intro n o r' hn
      rcases Nat.lt_or_ge n (s.threads t).done.length with hlt | hge
      · rw [List.getElem?_append_left hlt] at hn
        exact ht.done n o r' hn
      · rw [List.getElem?_append_right hge, List.getElem?_singleton] at hn
        split at hn
        · rename_i hz
          cases hn
          have hn : n = (s.threads t).done.length := by omega
          rw [hn]
          exact ha
        · cases hn
    · exact ht.fresh _ (by simp)
    · intro n hn
      exact ht.fresh n (by simp at hn; omega)
  · rename_i op k hc
    cases hs
    refine h.set ⟨by simpa [hc] using ht.program, ht.done, ?_, ht.fresh⟩
    have hcur := ht.cur
    rw [hc] at hcur
    rcases hcur with ⟨hp, hf⟩ | ⟨r, hf, ha⟩
    · exact Or.inl ⟨hp s.value, hf⟩
    · exact Or.inr ⟨r, hf s.value, ha⟩
  · rename_i op f k hc
    cases hs
    have hcur := ht.cur
    rw [hc] at hcur
    refine ⟨chain_snoc h.chain rfl, fun u => ?_⟩
    by_cases hu : u = t
    · subst hu
      simpa [State.set] using ht.snoc_self hc (currentOk_locked
        (e := ⟨u, (s.threads u).done.length, op, s.value, f s.value⟩) rfl rfl hcur)
    · have hne : t ≠ u := fun h => hu h.symm
      simpa [State.set, Function.update_of_ne hu] using
        (h.threads u).snoc_other (e := ⟨t, _, op, s.value, f s.value⟩) hne

/-- Every run of threads whose routines are atomic keeps the accounts. -/
theorem run_inv {code : Tid → Nat → Op → Routine V C} {effect : Op → V → V}
    (hcode : ∀ t n op, (code t n op).Atomic (effect op)) {init : V} {programs : Tid → List Op}
    {schedule : List Tid} {s : State Tid Op V C}
    (hr : run (next code) (start init programs) schedule = some s) : Inv effect init programs s :=
  run_preserves (next_inv hcode) hr (start_inv effect init programs)

/-! ## The order of the calls -/

omit [DecidableEq Tid] in
/-- Only the last instruction of a completed call is not a failed attempt. -/
theorem Applied.split {op : Op} {f : V → V} {r : V} {xs ys : List (Event Tid Op V)}
    {e : Event Tid Op V} (h : Applied op f r (xs ++ e :: ys)) :
    if ys = [] then e.op = op ∧ e.after = f e.before else e.after = e.before := by
  obtain ⟨pre, last, heq, hfail, hop, hbefore, hafter⟩ := h
  split
  · rename_i hys
    rw [hys] at heq
    obtain ⟨-, he⟩ := List.append_inj' heq rfl
    obtain rfl : e = last := by simpa using he
    exact ⟨hop, by rw [hafter, hbefore]⟩
  · rename_i hys
    obtain ⟨zs, z, hz⟩ := List.eq_nil_or_concat ys |>.resolve_left hys
    rw [hz, List.concat_eq_append, ← List.cons_append, ← List.append_assoc] at heq
    obtain ⟨hpre, -⟩ := List.append_inj' heq rfl
    exact hfail e (by rw [← hpre]; simp)

/-- The call an instruction of an idle system belongs to is completed. -/
theorem Inv.call_lt {effect : Op → V → V} {init : V} {programs : Tid → List Op}
    {s : State Tid Op V C} (h : Inv effect init programs s)
    (hidle : ∀ t, (s.threads t).cur = none) {e : Event Tid Op V} (he : e ∈ s.trace) :
    e.call < (s.threads e.thread).done.length := by
  have ht := h.threads e.thread
  have hm : e ∈ instrs s.trace e.thread e.call := mem_instrs.mpr ⟨he, rfl⟩
  rcases Nat.lt_trichotomy e.call (s.threads e.thread).done.length with hlt | heq | hgt
  · exact hlt
  · have hcur := ht.cur
    rw [hidle, ← heq] at hcur
    rw [show instrs s.trace e.thread e.call = [] from hcur] at hm
    exact absurd hm List.not_mem_nil
  · rw [ht.fresh _ hgt] at hm
    exact absurd hm List.not_mem_nil

/-- While no call is in progress the committing instructions are those of the
completed calls, one each. -/
theorem Inv.mem_commits {effect : Op → V → V} {init : V} {programs : Tid → List Op}
    {s : State Tid Op V C} (h : Inv effect init programs s)
    (hidle : ∀ t, (s.threads t).cur = none) (t : Tid) (n : Nat) :
    (t, n) ∈ (commits s.trace).map Event.key ↔ n < (s.threads t).done.length := by
  rw [mem_commits_key]
  constructor
  · intro hm
    obtain ⟨e, he, hk⟩ := List.mem_map.mp hm
    obtain ⟨rfl, rfl⟩ := Prod.mk.inj hk
    exact h.call_lt hidle he
  · intro hn
    obtain ⟨pre, e, heq, -⟩ :=
      (h.threads t).done n _ _ (List.getElem?_eq_getElem hn)
    have hm : e ∈ instrs s.trace t n := by rw [heq]; simp
    obtain ⟨he, hk⟩ := mem_instrs.mp hm
    exact List.mem_map.mpr ⟨e, he, hk⟩

/-- While no call is in progress the location holds the initial value with every
completed operation applied once, in the order of the committing instructions. -/
theorem Inv.value_eq {effect : Op → V → V} {init : V} {programs : Tid → List Op}
    {s : State Tid Op V C} (h : Inv effect init programs s)
    (hidle : ∀ t, (s.threads t).cur = none) :
    s.value = (commits s.trace).foldl (fun v e => effect e.op v) init := by
  apply chain_commits effect h.chain
  intro pre e post heq
  have he : e ∈ s.trace := by rw [heq]; simp
  have hdone := (h.threads e.thread).done e.call _ _
    (List.getElem?_eq_getElem (h.call_lt hidle he))
  have hsplit : instrs s.trace e.thread e.call =
      instrs pre e.thread e.call ++ e :: instrs post e.thread e.call := by
    rw [heq]
    simp [instrs, List.filter_append, Event.key]
  rw [hsplit] at hdone
  have hcase := hdone.split
  have hnil : instrs post e.thread e.call = [] ↔ e.key ∉ post.map Event.key := by
    simp [instrs, List.filter_eq_nil_iff, List.mem_map, Event.key]
  split
  · rename_i hm
    rwa [if_neg (fun hn => hnil.mp hn hm)] at hcase
  · rename_i hm
    rw [if_pos (hnil.mpr hm)] at hcase
    obtain ⟨hop, hafter⟩ := hcase
    rw [hafter, hop]

end Turf.Lib.Interleave
