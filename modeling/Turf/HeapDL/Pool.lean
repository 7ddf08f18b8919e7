import Turf.HeapDL.Sessions

/-!
# What a heap is for

A pool hands out blocks of memory and takes them back. Blocks lie apart with room for a header between
them, inside the address space, and as the caller wants them aligned; which blocks, and whether there are
any, is left open. Sessions are runs of a pool.
-/
namespace Turf.HeapDL

open Turf.Lib.Extents Turf.Lib.Schedule

variable {c : Config} {narrow : Bool} {s s' : Session} {l : Call × Answers} {ls : List (Call × Answers)}

def Held.Apart (l l' : Held) : Prop := l.ptr + l.size < l'.ptr ∨ l'.ptr + l'.size < l.ptr

structure Held.Placed (c : Config) (l : Held) : Prop where
  pos : 0 < l.ptr
  bound : l.ptr + l.size < modulus c
  unit : mallocAlignment c ∣ l.ptr
  asked : l.alignment.isPowerOfTwo → l.alignment ∣ l.ptr

structure Pool (c : Config) where
  held : List Held
  apart : held.Pairwise Held.Apart
  placed : ∀ l ∈ held, l.Placed c

namespace Pool

def empty : Pool c := ⟨[], .nil, fun _ hl => absurd hl List.not_mem_nil⟩

/-- What a call may do to a pool. -/
inductive Step : Pool c → Call → Pool c → Prop
  | refuse {P P' : Pool c} {k : Call} (hk : ∀ ptr, k ≠ .op (.free ptr)) (h : P'.held = P.held) : Step P k P'
  | alloc {P P' : Pool c} {ptr size : Nat} (h : P'.held = ⟨ptr, size, 1⟩ :: P.held) :
    Step P (.op (.alloc size)) P'
  | allocAligned {P P' : Pool c} {ptr size alignment : Nat} (h : P'.held = ⟨ptr, size, alignment⟩ :: P.held) :
    Step P (.op (.allocAligned size alignment)) P'
  | free {P P' : Pool c} {l : Held} (h : P.held.Perm (l :: P'.held)) : Step P (.op (.free l.ptr)) P'
  | reallocNull {P P' : Pool c} {ptr size : Nat} (h : P'.held = ⟨ptr, size, 1⟩ :: P.held) :
    Step P (.realloc 0 size) P'
  | realloc {P P' : Pool c} {l : Held} {ptr size : Nat} {rest : List Held} (h : P.held.Perm (l :: rest))
    (h' : P'.held = ⟨ptr, size, 1⟩ :: rest) : Step P (.realloc l.ptr size) P'

end Pool

/-! ## Sessions as runs of a pool -/

theorem Session.Inv.pos (inv : s.Inv c narrow) {l : Held} (hl : l ∈ s.held) : 0 < l.ptr := by
  obtain ⟨-, -, seg, -, hbase, -⟩ := inv.placed hl
  exact (Nat.zero_le _).trans_lt hbase

/-- The pool that the caller of a heap sees. -/
def Session.Inv.pool (inv : s.Inv c narrow) : Pool c where
  held := s.held
  apart := inv.apart
  placed l hl := by
    obtain ⟨hunit, hasked, seg, hseg, hbase, hend⟩ := inv.placed hl
    have hbound := (inv.heap.wf.sound seg hseg).bound
    exact ⟨inv.pos hl, by omega, hunit, hasked⟩

/-- The block at a pointer leaves a list. -/
theorem perm_eraseP {held : List Held} {ptr : Nat} (hptr : ptr ∈ held.map Held.ptr) :
    ∃ l, l.ptr = ptr ∧ held.Perm (l :: held.eraseP fun l => l.ptr = ptr) := by
  obtain ⟨l, hl, rfl⟩ := List.mem_map.mp hptr
  obtain ⟨l', r, r', -, hl', hheld, herase⟩ :=
    List.exists_of_eraseP (p := fun x : Held => decide (x.ptr = l.ptr)) hl (decide_eq_true rfl)
  refine ⟨l', of_decide_eq_true hl', ?_⟩
  rw [herase, hheld]
  exact List.perm_middle

theorem Session.Inv.pool_step (hpage : 9 ≤ c.granularityShift) (inv : s.Inv c narrow)
    (hs : s.next c narrow l = some s') {P : Pool c} (hP : P.held = s.held) :
    ∃ P', P.Step l.1 P' ∧ P'.held = s'.held := by
  refine ⟨(inv.step hpage hs).pool, ?_, rfl⟩
  have hheld : (inv.step hpage hs).pool.held = s'.held := rfl
  generalize (inv.step hpage hs).pool = P' at hheld
  obtain ⟨k, ans⟩ := l
  obtain ⟨hlawful, -, h', mem, -, rfl⟩ := Session.next_cases hs
  cases k with
  | op o =>
    cases o with
    | alloc size =>
      by_cases h0 : mem = 0
      · exact .refuse (fun _ => by simp) (by simpa [heldAfter, h0, hP] using hheld)
      · exact .alloc (by simpa [heldAfter, h0, hP] using hheld)
    | allocAligned size alignment =>
      by_cases h0 : mem = 0
      · exact .refuse (fun _ => by simp) (by simpa [heldAfter, h0, hP] using hheld)
      · exact .allocAligned (by simpa [heldAfter, h0, hP] using hheld)
    | free ptr =>
      obtain ⟨l, rfl, hperm⟩ := perm_eraseP hlawful
      refine .free ?_
      rw [hP, hheld]
      exact hperm
  | realloc ptr newSize =>
    by_cases h0 : mem = 0
    · exact .refuse (fun _ => by simp) (by simpa [heldAfter, h0, hP] using hheld)
    · simp only [heldAfter, if_neg h0] at hheld
      by_cases hnull : ptr = 0
      · subst hnull
        have hkeep : s.held.eraseP (fun l => l.ptr = 0) = s.held :=
          List.eraseP_of_forall_not fun l hl => by simpa using (inv.pos hl).ne'
        rw [hkeep, ← hP] at hheld
        exact .reallocNull hheld
      · obtain ⟨l, rfl, hperm⟩ := perm_eraseP (hlawful.2.resolve_left hnull)
        exact .realloc (hP ▸ hperm) hheld

/-- Every session is a run of a pool, whatever the heap does to serve it. -/
theorem session_refines_pool (hpage : 9 ≤ c.granularityShift) (hr : run (Session.next c narrow) .zeroed ls = some s) :
    ∃ P : Pool c, Runs Pool.Step .empty (ls.map Prod.fst) P ∧ P.held = s.held := by
  have hstep : ∀ (s : Session) (l : Call × Answers) (s' : Session) (P : Pool c), s.next c narrow l = some s' →
      s.Inv c narrow ∧ P.held = s.held → ∃ P', P.Step l.1 P' ∧ s'.Inv c narrow ∧ P'.held = s'.held := by
    rintro s l s' P hs ⟨inv, hP⟩
    obtain ⟨P', hP', hheld⟩ := inv.pool_step hpage hs hP
    exact ⟨P', hP', inv.step hpage hs, hheld⟩
  have hstart : Session.zeroed.Inv c narrow ∧ (Pool.empty : Pool c).held = Session.zeroed.held :=
    ⟨Session.inv_zeroed, rfl⟩
  obtain ⟨P, hruns, -, hP⟩ := run_simulates Prod.fst hstep hr hstart
  exact ⟨P, hruns, hP⟩

theorem fewCalls_refine_pool : ∃ s, run (Session.next plainPages4K false) .zeroed fewCalls = some s ∧
    ∃ P : Pool plainPages4K, Runs Pool.Step .empty (fewCalls.map Prod.fst) P ∧ P.held = s.held := by
  obtain ⟨s, hs⟩ := fewCalls_run
  exact ⟨s, hs, session_refines_pool (by decide) hs⟩

end Turf.HeapDL
