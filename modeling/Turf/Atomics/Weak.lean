import Turf.Lib.Arm
import Turf.Atomics.X86

/-!
# The weak compare-exchange of every backend

Each variant is the code of the C function: on x86 and x64 one locked instruction or
intrinsic and a comparison, on ARM an assembly block of exclusive accesses and the
lines after it. The operands `%0` to `%5` of a block are r0 to r5. `%1` is an output,
so on entry its register holds whatever it held before the call; a C initialiser of
`status` never reaches it.
-/
namespace Turf.Atomics.Weak

open Turf.Lib.Schedule Turf.Lib.SharedWord Turf.Lib.Exclusive Turf.Lib.Words Turf.Lib.Arm
open Turf.Lib.Arm.Reg
open Turf.Atomics.X86 (cmpxchg)

variable {w : Nat}

/-- The addresses a call is passed, the value at the second of them, and `desired`. -/
structure Args (w : Nat) where
  object : Word
  expectedPtr : Word
  expected : BitVec w
  desired : BitVec w

/-- The truth value a call returns and the value it leaves in `*expected`. -/
structure Result (w : Nat) where
  matched : Bool
  expected : BitVec w
  deriving DecidableEq

/-! ## The functions -/

/-- A function: a block with the operand it passes as `%4`, or code around a locked
instruction. -/
inductive Fn (w : Nat) where
  | arm (block : List Instr) (operand : Args w → Word)
  | x86 (code : Args w → Prog (BitVec w) (Result w))

/-- The lines around `lock; cmpxchg` and around `_InterlockedCompareExchange`. -/
def weakLocked : Fn w := .x86 fun args => do
  let e := args.expected
  let previous ← cmpxchg e args.desired
  let matched : Bool := previous = e
  return { matched, expected := if !matched then previous else args.expected }

namespace Arm

/-- The operand is the address `expected`, not the value there. -/
def compareExchangeWeak8Relaxed : Fn 8 := .arm
  [ -- 1:
    .ldrex r0 r3,
    .cmp r0 r4,
    .bne 4,
    .strex r1 r5 r3
    -- 2:
  ] (·.expectedPtr)

def compareExchangeWeak16Relaxed : Fn 16 := .arm
  [ -- 1:
    .ldrex r0 r3,
    .cmp r0 r4,
    .bne 4,
    .strex r1 r5 r3
    -- 2:
  ] (·.expectedPtr)

def compareExchangeWeak32Relaxed : Fn 32 := .arm
  [ .movImm r1 1,
    .ldrex r0 r3,
    .cmp r0 r4,
    .bne 5,
    .strex r1 r5 r3
    -- 1:
  ] fun args => args.expected

end Arm

namespace Gcc

def compareExchangeWeak8Relaxed : Fn 8 := weakLocked
def compareExchangeWeak16Relaxed : Fn 16 := weakLocked
def compareExchangeWeak32Relaxed : Fn 32 := weakLocked
def X64.compareExchangeWeak64Relaxed : Fn 64 := weakLocked

/-- `cmpxchg8b`, with `desired` in ECX:EBX and `e` in EDX:EAX. -/
def X86.compareExchangeWeak64Relaxed : Fn 64 := weakLocked

end Gcc

namespace Msvc

def compareExchangeWeak8Relaxed : Fn 8 := weakLocked
def compareExchangeWeak16Relaxed : Fn 16 := weakLocked
def compareExchangeWeak32Relaxed : Fn 32 := weakLocked
def compareExchangeWeak64Relaxed : Fn 64 := weakLocked

end Msvc

/-- The functions of all backends. -/
inductive Variant : Nat → Type where
  | arm8 : Variant 8
  | arm16 : Variant 16
  | arm32 : Variant 32
  | gcc8 : Variant 8
  | gcc16 : Variant 16
  | gcc32 : Variant 32
  | gccX64 : Variant 64
  | gccX86 : Variant 64
  | msvc8 : Variant 8
  | msvc16 : Variant 16
  | msvc32 : Variant 32
  | msvc64 : Variant 64

def Variant.fn : Variant w → Fn w
  | arm8 => Arm.compareExchangeWeak8Relaxed
  | arm16 => Arm.compareExchangeWeak16Relaxed
  | arm32 => Arm.compareExchangeWeak32Relaxed
  | gcc8 => Gcc.compareExchangeWeak8Relaxed
  | gcc16 => Gcc.compareExchangeWeak16Relaxed
  | gcc32 => Gcc.compareExchangeWeak32Relaxed
  | gccX64 => Gcc.X64.compareExchangeWeak64Relaxed
  | gccX86 => Gcc.X86.compareExchangeWeak64Relaxed
  | msvc8 => Msvc.compareExchangeWeak8Relaxed
  | msvc16 => Msvc.compareExchangeWeak16Relaxed
  | msvc32 => Msvc.compareExchangeWeak32Relaxed
  | msvc64 => Msvc.compareExchangeWeak64Relaxed

/-! ## Running a call -/

/-- Straight-line code as a machine: what is left to run is its state. -/
def progAction {α : Type} : Prog (BitVec w) α → Action (BitVec w) (Prog (BitVec w) α)
  | .ret _ => .stop
  | .observe k => .load k
  | .locked f k => .locked f k

/-- The registers on entry to a block: the operands, and otherwise what `cpu` holds. -/
def operands (args : Args w) (operand : Word) (cpu : Cpu) : Cpu :=
  { ((cpu.set r3 args.object).set r4 operand).set r5 (args.desired.setWidth 32) with pc := 0 }

/-- The lines after a block. -/
def afterBlock (args : Args w) (cpu : Cpu) : Result w :=
  let previous := (cpu.regs r0).setWidth w
  let status := cpu.regs r1
  { matched := status = 0, expected := if status ≠ 0 then previous else args.expected }

/-- A call of a function as a machine. `enter` starts it on a CPU in any state. -/
structure Machine (w : Nat) where
  Code : Type
  act : Code → Action (BitVec w) Code
  enter : Cpu → Code
  result : Code → Option (Result w)

def Fn.machine (args : Args w) : Fn w → Machine w
  | arm block operand =>
    { Code := Cpu
      act := action args.object block
      enter := operands args (operand args)
      result := fun cpu => if cpu.pc < block.length then none else some (afterBlock args cpu) }
  | x86 code =>
    { Code := Prog (BitVec w) (Result w)
      act := progAction
      enter := fun _ => code args
      result := fun
        | .ret r => some r
        | _ => none }

abbrev Variant.machine (v : Variant w) (args : Args w) : Machine w := v.fn.machine args

/-- The contract, against the accesses the call made. -/
structure Contract (args : Args w) (log : List (Access (BitVec w))) (r : Result w) : Prop where
  success : r.matched = true →
    stores log = [(args.expected, args.desired)] ∧ r.expected = args.expected
  failure : r.matched = false →
    (∀ p ∈ stores log, p.1 = p.2) ∧ lastLoad log = some r.expected

/-- When a block that compares with `operand` and finds `status` in its status register
meets the contract: a value equal to the operand must be `*expected` unless the store is
refused, and after any other value the register must say that nothing was stored. -/
def Reports (args : Args w) (operand status : Word) (log : List (Access (BitVec w))) : Prop :=
  ∃ v, lastLoad log = some v ∧
    if v.setWidth 32 = operand then v = args.expected ∨ log.getLast? = some .failed
    else status ≠ 0

/-- The 8- and 16-bit blocks compare with an address and leave the status register as
they found it when the values differ; the other functions need no condition. -/
def Variant.Works (args : Args w) (cpu : Cpu) (log : List (Access (BitVec w))) : Variant w → Prop
  | arm8 | arm16 => Reports args args.expectedPtr (cpu.regs r1) log
  | _ => True

/-! ## The blocks -/

/-- Between the instructions of a block. -/
structure Within (args : Args w) (operand status : Word) (pc : Nat) (cpu : Cpu) : Prop where
  pc : cpu.pc = pc
  object : cpu.regs r3 = args.object
  operand : cpu.regs r4 = operand
  desired : cpu.regs r5 = args.desired.setWidth 32
  status : cpu.regs r1 = status

theorem operands_within (args : Args w) (operand : Word) (cpu : Cpu) :
    Within args operand (cpu.regs r1) 0 (operands args operand cpu) := ⟨rfl, rfl, rfl, rfl, rfl⟩

/-- What the status register says at the end of a block that loaded `v`. -/
def Status (args : Args w) (operand status : Word) (v : BitVec w) (cpu : Cpu) :
    Outcome (BitVec w) → Prop
  | .kept => v.setWidth 32 ≠ operand ∧ cpu.regs r1 = status
  | .refused => v.setWidth 32 = operand ∧ cpu.regs r1 = 1
  | .stored new => v.setWidth 32 = operand ∧ cpu.regs r1 = 0 ∧ new = args.desired

structure Ended (args : Args w) (size : Nat) (operand status : Word) (v : BitVec w)
    (out : Outcome (BitVec w)) (cpu : Cpu) : Prop where
  pc : cpu.pc = size
  previous : cpu.regs r0 = v.setWidth 32
  status : Status args operand status v cpu out

/-- A block that loads at `pc`, compares, stores if equal, and ends. -/
theorem block_retry (hw : w ≤ 32) (args : Args w) (operand status : Word) {block : List Instr}
    {pc : Nat} (hload : block[pc]? = some (.ldrex r0 r3))
    (hcmp : block[pc + 1]? = some (.cmp r0 r4)) (hbne : block[pc + 2]? = some (.bne (pc + 4)))
    (hstore : block[pc + 3]? = some (.strex r1 r5 r3)) (hend : block[pc + 4]? = none) :
    Retry (action args.object block) (Within args operand status pc)
      (fun v cpu => Within args operand status (pc + 3) cpu ∧ cpu.regs r0 = v.setWidth 32 ∧
        v.setWidth 32 = operand)
      (Ended args (pc + 4) operand status) where
  load := by
    intro cpu h
    refine ⟨_, by rw [action, h.pc, hload]; exact if_pos h.object, fun v => ?_⟩
    let loaded : Cpu := (cpu.set r0 (v.setWidth 32)).advance
    have hpc : loaded.pc = pc + 1 := congrArg (· + 1) h.pc
    have hin : Within args operand status (pc + 1) loaded :=
      ⟨hpc, h.object, h.operand, h.desired, h.status⟩
    have hr0 : loaded.regs r0 = v.setWidth 32 := rfl
    have hsettle : ∀ d, Settles (action (w := w) args.object block)
        { loaded.compare (v.setWidth 32) operand with
          pc := if v.setWidth 32 = operand then pc + 3 else pc + 4 } d →
        Settles (action (w := w) args.object block) loaded d := by
      intro d hd
      apply settles_cmp (by rw [hpc]; exact hcmp) (by rw [hpc]; exact hbne)
      rw [hr0, hin.operand, hpc]
      exact hd
    by_cases hv : v.setWidth 32 = operand
    · rw [if_pos hv] at hsettle
      refine ⟨_, hsettle _ (settles_shared hstore rfl), Or.inl ⟨?_, hr0, hv⟩⟩
      exact ⟨rfl, hin.object, hin.operand, hin.desired, hin.status⟩
    · rw [if_neg hv] at hsettle
      exact ⟨_, hsettle _ (settles_end hend), Or.inr ⟨rfl, hr0, hv, hin.status⟩⟩
  store := by
    intro v cpu h
    obtain ⟨h, hr0, hv⟩ := h
    have hend' : ∀ n, block[(cpu.set r1 n).advance.pc]? = none := by
      intro n
      show block[cpu.pc + 1]? = none
      rw [h.pc]
      exact hend
    have hpc : ∀ n, (cpu.set r1 n).advance.pc = pc + 4 := fun n => congrArg (· + 1) h.pc
    refine ⟨_, _, by rw [action, h.pc, hstore]; exact if_pos h.object,
      ⟨_, settles_end (hend' 0), hpc 0, hr0, hv, rfl, ?_⟩,
      ⟨_, settles_end (hend' 1), Or.inr ⟨hpc 1, hr0, hv, rfl⟩⟩⟩
    rw [h.desired, BitVec.setWidth_setWidth_of_le _ hw, BitVec.setWidth_eq]
  stop := by
    intro v out cpu h
    rw [action, h.pc, hend]

theorem afterBlock_of_zero {args : Args w} {cpu : Cpu} (h : cpu.regs r1 = 0) :
    afterBlock args cpu = ⟨true, args.expected⟩ := by simp [afterBlock, h]

theorem afterBlock_of_ne {args : Args w} {cpu : Cpu} (h : cpu.regs r1 ≠ 0) :
    afterBlock args cpu = ⟨false, (cpu.regs r0).setWidth w⟩ := by
  simp only [afterBlock, if_pos h, decide_eq_false h]

theorem contract_matched {args : Args w} {log : List (Access (BitVec w))} :
    Contract args log ⟨true, args.expected⟩ ↔ stores log = [(args.expected, args.desired)] := by
  constructor
  · intro h
    exact (h.success rfl).1
  · intro h
    exact ⟨fun _ => ⟨h, rfl⟩, nofun⟩

theorem contract_failed {args : Args w} {log : List (Access (BitVec w))} {v : BitVec w} :
    Contract args log ⟨false, v⟩ ↔ (∀ p ∈ stores log, p.1 = p.2) ∧ lastLoad log = some v := by
  constructor
  · intro h
    exact h.failure rfl
  · intro h
    exact ⟨nofun, fun _ => h⟩

/-- What the lines after a block report of its accesses. -/
theorem Ended.contract_iff (hw : w ≤ 32) {args : Args w} {size : Nat} {operand status : Word}
    {v : BitVec w} {out : Outcome (BitVec w)} {cpu : Cpu} {log : List (Access (BitVec w))}
    (h : Ended args size operand status v out cpu) (hlog : stores log = out.stores v)
    (hlast : lastLoad log = some v) (hend : log.getLast? = some (out.access v)) :
    Contract args log (afterBlock args cpu) ↔ Reports args operand status log := by
  have hprevious : (cpu.regs r0).setWidth w = v := by
    rw [h.previous, BitVec.setWidth_setWidth_of_le _ hw, BitVec.setWidth_eq]
  have hreports : Reports args operand status log ↔
      if v.setWidth 32 = operand then v = args.expected ∨ log.getLast? = some .failed
      else status ≠ 0 := by
    constructor
    · intro hr
      obtain ⟨u, hu, hif⟩ := hr
      obtain rfl : v = u := Option.some.inj (hlast.symm.trans hu)
      exact hif
    · intro hif
      exact ⟨v, hlast, hif⟩
  rw [hreports]
  have hstatus := h.status
  cases out with
  | kept =>
    obtain ⟨hv, hs⟩ := hstatus
    rw [if_neg hv]
    by_cases hzero : status = 0
    · rw [afterBlock_of_zero (hs.trans hzero), contract_matched, hlog]
      exact iff_of_false nofun (fun hne => hne hzero)
    · rw [afterBlock_of_ne (by rw [hs]; exact hzero), hprevious, contract_failed, hlog]
      exact iff_of_true ⟨nofun, hlast⟩ hzero
  | refused =>
    obtain ⟨hv, hs⟩ := hstatus
    rw [if_pos hv, afterBlock_of_ne (by rw [hs]; decide), hprevious, contract_failed, hlog]
    exact iff_of_true ⟨nofun, hlast⟩ (Or.inr hend)
  | stored new =>
    obtain ⟨hv, hs, rfl⟩ := hstatus
    rw [if_pos hv, afterBlock_of_zero hs, contract_matched, hlog, hend]
    simp [Outcome.stores, Outcome.access]

/-- A whole call of a block: it can end, and when it has ended it meets the contract
exactly when it reports what it did. -/
theorem block_contract (hw : w ≤ 32) {args : Args w} {block : List Instr}
    {operand : Args w → Word} {status : Word} {pc : Nat} {entry c : Cpu}
    (hentry : Settles (action (w := w) args.object block) entry c)
    (hc : Within args (operand args) status pc c)
    (hload : block[pc]? = some (.ldrex r0 r3))
    (hcmp : block[pc + 1]? = some (.cmp r0 r4)) (hbne : block[pc + 2]? = some (.bne (pc + 4)))
    (hstore : block[pc + 3]? = some (.strex r1 r5 r3)) (hlen : block.length = pc + 4)
    {value : BitVec w} {monitor : Bool} {moves : List (Move (BitVec w))} {s : State (BitVec w) Cpu}
    (hr : run (next (action args.object block)) (start entry value monitor) moves = some s) :
    (∀ r, ((Fn.arm block operand).machine args).result s.code = some r →
      (∃ v, lastLoad s.log = some v) ∧
        (Contract args s.log r ↔ Reports args (operand args) status s.log)) ∧
    ∃ n s', run (next (action args.object block)) s (List.replicate n (.exec true)) = some s' ∧
      (((Fn.arm block operand).machine args).result s'.code).isSome = true := by
  have hend : block[pc + 4]? = none := List.getElem?_eq_none (by omega)
  have hretry := block_retry hw args (operand args) status hload hcmp hbne hstore hend
  constructor
  · intro r hres
    have hended : block.length ≤ s.code.pc := by
      by_contra hlt
      simp [Fn.machine, Nat.lt_of_not_le hlt] at hres
    have hresult : afterBlock args s.code = r := by
      simpa [Fn.machine, Nat.not_lt.mpr hended] using hres
    obtain ⟨v, out, hz, hlog, hlast, hacc⟩ :=
      run_stopped hretry hentry hc hr (action_eq_stop_iff.mpr hended)
    rw [← hresult]
    exact ⟨⟨v, hlast⟩, hz.contract_iff hw hlog hlast hacc⟩
  · obtain ⟨n, s', hn, hstop⟩ := run_returns hretry hentry hc hr
    have hended := action_eq_stop_iff.mp hstop
    exact ⟨n, s', hn, by simp [Fn.machine, Nat.not_lt.mpr hended]⟩

/-- A block that compares with `*expected` and sets its status register reports
everything. -/
theorem reports_of_value {args : Args 32} {log : List (Access (BitVec 32))}
    (h : ∃ v, lastLoad log = some v) : Reports args args.expected 1 log := by
  obtain ⟨v, hv⟩ := h
  refine ⟨v, hv, ?_⟩
  rw [BitVec.setWidth_eq]
  split
  · rename_i heq
    exact Or.inl heq
  · decide

/-! ## The locked instruction -/

def swap (args : Args w) (v : BitVec w) : BitVec w := if v = args.expected then args.desired else v

/-- What is reported of a value met. -/
def reply (args : Args w) (v : BitVec w) : Result w :=
  ⟨v = args.expected, if v = args.expected then args.expected else v⟩

/-- Before the instruction nothing has been accessed, and after it what remains is to
report the value it met. -/
def Swapped (args : Args w) (s : State (BitVec w) (Prog (BitVec w) (Result w))) : Prop :=
  (s.log = [] ∧ ∃ k, s.code = .locked (swap args) k ∧ ∀ v, k v = .ret (reply args v)) ∨
  ∃ v, s.log = [.load v, .store v (swap args v)] ∧ s.code = .ret (reply args v)

theorem next_swapped {args : Args w} (s : State (BitVec w) (Prog (BitVec w) (Result w)))
    (m : Move (BitVec w)) (s' : State (BitVec w) (Prog (BitVec w) (Result w)))
    (hs : next progAction s m = some s') (h : Swapped args s) : Swapped args s' := by
  cases m with
  | write v =>
    cases hs
    exact h
  | exec grant =>
    rcases h with ⟨hlog, k, hcode, hk⟩ | ⟨v, hlog, hcode⟩
    · simp only [next, hcode, progAction] at hs
      cases hs
      exact Or.inr ⟨s.value, by simp [hlog], hk s.value⟩
    · simp only [next, hcode, progAction] at hs
      cases hs

theorem reply_contract {args : Args w} {log : List (Access (BitVec w))} {v : BitVec w}
    (hlog : log = [.load v, .store v (swap args v)]) : Contract args log (reply args v) := by
  unfold reply
  by_cases hv : v = args.expected
  · rw [if_pos hv, decide_eq_true hv, contract_matched, hlog, swap, if_pos hv]
    simp [stores, hv]
  · rw [if_neg hv, decide_eq_false hv, contract_failed, hlog, swap, if_neg hv]
    simp [stores, lastLoad]

theorem weakLocked_contract {args : Args w} (cpu : Cpu) {value : BitVec w} {monitor : Bool}
    {moves : List (Move (BitVec w))} {s : State (BitVec w) (Prog (BitVec w) (Result w))}
    (hr : run (next progAction) (start ((weakLocked.machine args).enter cpu) value monitor) moves =
      some s) :
    (∀ r, (weakLocked.machine args).result s.code = some r → Contract args s.log r) ∧
    ∃ n s', run (next progAction) s (List.replicate n (.exec true)) = some s' ∧
      ((weakLocked.machine args).result s'.code).isSome = true := by
  have hstart : Swapped args (start ((weakLocked.machine args).enter cpu) value monitor) := by
    refine Or.inl ⟨rfl, _, rfl, fun v => ?_⟩
    by_cases hv : v = args.expected
    · simp [reply, hv]
    · simp [reply, hv]
  rcases run_preserves next_swapped hr hstart with ⟨hlog, k, hcode, hk⟩ | ⟨v, hlog, hcode⟩
  · constructor
    · intro r hres
      rw [hcode] at hres
      cases hres
    · have hstep : next progAction s (.exec true) = some
          { code := .ret (reply args s.value), value := swap args s.value, monitor := false,
            log := s.log ++ [.load s.value, .store s.value (swap args s.value)] } := by
        simp only [next, hcode, progAction, hk]
      exact ⟨1, _, run_cons.mpr ⟨_, hstep, rfl⟩, rfl⟩
  · constructor
    · intro r hres
      rw [hcode] at hres
      cases hres
      exact reply_contract hlog
    · exact ⟨0, s, rfl, by rw [hcode]; rfl⟩

/-! ## The contract -/

/-- **Every variant, under any interference.** A call can end from wherever it stands,
and when it has ended it meets the contract exactly when the condition holds: always,
except for the two blocks that compare with the address they were passed. -/
theorem compareExchangeWeak_contract (v : Variant w) (args : Args w) (cpu : Cpu) (value : BitVec w)
    (monitor : Bool) (moves : List (Move (BitVec w))) (s : State (BitVec w) (v.machine args).Code)
    (hr : run (next (v.machine args).act) (start ((v.machine args).enter cpu) value monitor) moves =
      some s) :
    (∀ r, (v.machine args).result s.code = some r →
      (Contract args s.log r ↔ v.Works args cpu s.log)) ∧
    ∃ n s', run (next (v.machine args).act) s (List.replicate n (.exec true)) = some s' ∧
      ((v.machine args).result s'.code).isSome = true := by
  have hlocked : ∀ {u : Nat} {args : Args u} {s : State (BitVec u) (Prog (BitVec u) (Result u))}
      {value : BitVec u} {moves : List (Move (BitVec u))},
      run (next progAction) (start ((weakLocked.machine args).enter cpu) value monitor) moves =
        some s →
      (∀ r, (weakLocked.machine args).result s.code = some r → (Contract args s.log r ↔ True)) ∧
      ∃ n s', run (next progAction) s (List.replicate n (.exec true)) = some s' ∧
        ((weakLocked.machine args).result s'.code).isSome = true := by
    intro u args s value moves hr
    obtain ⟨hcontract, hreturns⟩ := weakLocked_contract cpu hr
    exact ⟨fun r hres => iff_of_true (hcontract r hres) trivial, hreturns⟩
  cases v with
  | arm8 =>
    obtain ⟨hcontract, hreturns⟩ := block_contract (by decide) (settles_shared rfl rfl)
      (operands_within _ _ cpu) rfl rfl rfl rfl rfl hr
    exact ⟨fun r hres => (hcontract r hres).2, hreturns⟩
  | arm16 =>
    obtain ⟨hcontract, hreturns⟩ := block_contract (by decide) (settles_shared rfl rfl)
      (operands_within _ _ cpu) rfl rfl rfl rfl rfl hr
    exact ⟨fun r hres => (hcontract r hres).2, hreturns⟩
  | arm32 =>
    have hin : Within args args.expected 1 1 ((operands args args.expected cpu).set r1 1).advance :=
      ⟨rfl, rfl, rfl, rfl, rfl⟩
    obtain ⟨hcontract, hreturns⟩ := block_contract (by decide)
      (settles_tau rfl rfl (settles_shared rfl rfl)) hin rfl rfl rfl rfl rfl hr
    refine ⟨fun r hres => iff_of_true ?_ trivial, hreturns⟩
    obtain ⟨hlast, hiff⟩ := hcontract r hres
    exact hiff.mpr (reports_of_value hlast)
  | _ => exact hlocked hr

/-- A CPU with every register zero. -/
def idle : Cpu := ⟨fun _ => 0, false, false, [], 0⟩

/-- Another thread writes 9 between the load and the store, so the 32-bit call fails
although it met `*expected`. -/
theorem compareExchangeWeak32_refused :
    Contract (w := 32) ⟨0x1000, 0x2000, 5, 6⟩ [.load 5, .failed] ⟨false, 5⟩ := by
  let args : Args 32 := ⟨0x1000, 0x2000, 5, 6⟩
  have hrun : (run (next (Variant.arm32.machine args).act)
      (start ((Variant.arm32.machine args).enter idle) 5 false)
      (List.replicate 4 (.exec true) ++ [.write 9, .exec true])).map
        (fun s => (s.log, (Variant.arm32.machine args).result s.code)) =
          some ([.load 5, .failed], some ⟨false, 5⟩) := by decide
  obtain ⟨s, hs, hv⟩ := Option.map_eq_some_iff.mp hrun
  obtain ⟨hlog, hres⟩ := Prod.mk.inj hv
  rw [← hlog]
  exact ((compareExchangeWeak_contract .arm32 args idle 5 false _ s hs).1 _ hres).mpr trivial

/-- The 8-bit block meets 5 where 5 is expected, compares it with the address 0x2000,
and with 0 left in its status register the call reports that it stored 6. -/
theorem compareExchangeWeak8_reports_no_store :
    ¬ ∀ (w : Nat) (v : Variant w) (args : Args w) (cpu : Cpu) (value : BitVec w) (monitor : Bool)
      (moves : List (Move (BitVec w))) (s : State (BitVec w) (v.machine args).Code),
      run (next (v.machine args).act) (start ((v.machine args).enter cpu) value monitor) moves =
        some s →
      ∀ r, (v.machine args).result s.code = some r → Contract args s.log r := by
  intro h
  let args : Args 8 := ⟨0x1000, 0x2000, 5, 6⟩
  have hrun : (run (next (Variant.arm8.machine args).act)
      (start ((Variant.arm8.machine args).enter idle) 5 false)
      (List.replicate 3 (.exec true))).map
        (fun s => (s.log, (Variant.arm8.machine args).result s.code)) =
          some ([.load 5], some ⟨true, 5⟩) := by decide
  obtain ⟨s, hs, hv⟩ := Option.map_eq_some_iff.mp hrun
  obtain ⟨hlog, hres⟩ := Prod.mk.inj hv
  have hstored := ((h 8 .arm8 args idle 5 false _ s hs _ hres).success rfl).1
  rw [hlog] at hstored
  cases hstored

end Turf.Atomics.Weak
