import Turf.Lib.Arm

/-!
# The 64-bit operations on 32-bit ARM

The blocks of atomic_gcc_arm.c, instruction by instruction, in their ARM form; the
Thumb form adds an `it` before `cmpeq`, which computes nothing. Arguments arrive
packed in r1, r2, r3 and the first stack word, after the object's address in r0.
-/
namespace Turf.Atomics.Arm64

open Turf.Lib.Schedule Turf.Lib.Exclusive Turf.Lib.Words Turf.Lib.Arm Turf.Lib.Arm.Reg

def load64Relaxed : List Instr :=
  [ .mov r2 r0,
    -- 1:
    .ldrexd r0 r1 r2,
    .strexd r3 r0 r1 r2,
    .cmpImm r3 0,
    .bne 1,
    .bxLr ]

def store64Relaxed : List Instr :=
  [ .push [r4, r5],
    .mov r5 r0,
    .mov r3 r2,
    .mov r2 r1,
    -- 1:
    .ldrexd r0 r1 r5,
    .strexd r4 r2 r3 r5,
    .cmpImm r4 0,
    .bne 4,
    .pop [r4, r5],
    .bxLr ]

def compareExchange64Relaxed : List Instr :=
  [ .push [r4, r5, r6, r7],
    .mov r6 r3,
    .ldrSp r7 4,
    .mov r5 r0,
    .mov r4 r1,
    -- 1:
    .ldrexd r0 r1 r5,
    .cmp r0 r4,
    .cmpeq r1 r2,
    .bne 12,
    .strexd r3 r6 r7 r5,
    .cmpImm r3 0,
    .bne 5,
    -- 2:
    .pop [r4, r5, r6, r7],
    .bxLr ]

/-- Instruction by instruction the block of `compareExchange64Relaxed`. -/
def exchange64Relaxed : List Instr :=
  [ .push [r4, r5, r6, r7],
    .mov r6 r3,
    .ldrSp r7 4,
    .mov r5 r0,
    .mov r4 r1,
    -- 1:
    .ldrexd r0 r1 r5,
    .cmp r0 r4,
    .cmpeq r1 r2,
    .bne 12,
    .strexd r3 r6 r7 r5,
    .cmpImm r3 0,
    .bne 5,
    -- 2:
    .pop [r4, r5, r6, r7],
    .bxLr ]

/-- The block of the three functions below, which differ in two instructions. -/
def fetch64 (low high : Instr) : List Instr :=
  [ .push [r4, r5, r6, r7],
    .mov r5 r0,
    .mov r4 r1,
    -- 1:
    .ldrexd r0 r1 r5,
    low,
    high,
    .strexd r3 r6 r7 r5,
    .cmpImm r3 0,
    .bne 3,
    .pop [r4, r5, r6, r7],
    .bxLr ]

def fetchAdd64Relaxed : List Instr := fetch64 (.adds r6 r0 r4) (.adc r7 r1 r2)
def fetchAnd64Relaxed : List Instr := fetch64 (.and r6 r0 r4) (.and r7 r1 r2)
def fetchOr64Relaxed : List Instr := fetch64 (.orr r6 r0 r4) (.orr r7 r1 r2)

/-- The function has returned `v` in r0:r1 with the callee-saved registers and the
stack as they were, after storing `out v` over `v`, if that is anything. -/
structure Returned (size : Nat) (entry : Cpu) (out : BitVec 64 → Outcome (BitVec 64))
    (v : BitVec 64) (stored : Outcome (BitVec 64)) (d : Cpu) : Prop where
  pc : d.pc = size
  stored : stored = out v
  result : d.pair r0 r1 = v
  r4 : d.regs r4 = entry.regs r4
  r5 : d.regs r5 = entry.regs r5
  r6 : d.regs r6 = entry.regs r6
  r7 : d.regs r7 = entry.regs r7
  stack : d.stack = entry.stack

/-- A block that returns what it loaded and stores `out` of it, retrying until then. -/
def Verified (object : Word) (prog : List Instr) (entry : Cpu)
    (out : BitVec 64 → Outcome (BitVec 64)) : Prop :=
  ∃ A B c, Retry (action object prog) A B (Returned prog.length entry out) ∧
    Settles (action (w := 64) object prog) entry c ∧ A c

/-- Between the accesses of `load64Relaxed`: it uses no callee-saved register. -/
structure Loading (object : Word) (entry : Cpu) (pc : Nat) (d : Cpu) : Prop where
  pc : d.pc = pc
  object : d.regs r2 = object
  r4 : d.regs r4 = entry.regs r4
  r5 : d.regs r5 = entry.regs r5
  r6 : d.regs r6 = entry.regs r6
  r7 : d.regs r7 = entry.regs r7
  stack : d.stack = entry.stack

theorem load64_verified {object : Word} {entry : Cpu} (hpc : entry.pc = 0)
    (hobject : entry.regs r0 = object) : Verified object load64Relaxed entry .stored := by
  obtain ⟨regs, z, c, stack, pc⟩ := entry
  cases hpc
  cases hobject
  refine ⟨Loading (regs r0) ⟨regs, z, c, stack, 0⟩ 1,
    fun v d => Loading (regs r0) ⟨regs, z, c, stack, 0⟩ 2 d ∧ d.pair r0 r1 = v, _, ⟨?_, ?_, ?_⟩,
    .step rfl (settles_shared rfl rfl), ⟨rfl, rfl, rfl, rfl, rfl, rfl, rfl⟩⟩
  · rintro ⟨regs', z', c', stack', pc'⟩ ⟨rfl, ho, h4, h5, h6, h7, rfl⟩
    exact ⟨_, if_pos ho, fun v => ⟨_, settles_shared rfl rfl,
      Or.inl ⟨⟨rfl, ho, h4, h5, h6, h7, rfl⟩, halves_append v⟩⟩⟩
  · rintro v ⟨regs', z', c', stack', pc'⟩ ⟨⟨rfl, ho, h4, h5, h6, h7, rfl⟩, rfl⟩
    refine ⟨_, _, if_pos ho,
      ⟨_, .step rfl (.step rfl (.step rfl (settles_end rfl))), rfl, ?_, rfl, h4, h5, h6, h7, rfl⟩,
      ⟨_, .step rfl (.step rfl (settles_shared rfl rfl)), Or.inl ⟨rfl, ho, h4, h5, h6, h7, rfl⟩⟩⟩
    simp
  · rintro v out ⟨regs', z', c', stack', pc'⟩ ⟨rfl, -, -, -, -, -, -, -⟩
    rfl

/-- Between the accesses of `store64Relaxed`, which saves r4 and r5. -/
structure Storing (object : Word) (entry : Cpu) (pc : Nat) (d : Cpu) : Prop where
  pc : d.pc = pc
  object : d.regs r5 = object
  desired : d.pair r2 r3 = entry.pair r1 r2
  r6 : d.regs r6 = entry.regs r6
  r7 : d.regs r7 = entry.regs r7
  stack : d.stack = entry.regs r4 :: entry.regs r5 :: entry.stack

theorem store64_verified {object : Word} {entry : Cpu} (hpc : entry.pc = 0)
    (hobject : entry.regs r0 = object) :
    Verified object store64Relaxed entry fun _ => .stored (entry.pair r1 r2) := by
  obtain ⟨regs, z, c, stack, pc⟩ := entry
  cases hpc
  cases hobject
  refine ⟨Storing (regs r0) ⟨regs, z, c, stack, 0⟩ 4,
    fun v d => Storing (regs r0) ⟨regs, z, c, stack, 0⟩ 5 d ∧ d.pair r0 r1 = v, _, ⟨?_, ?_, ?_⟩,
    .step rfl (.step rfl (.step rfl (.step rfl (settles_shared rfl rfl)))),
    ⟨rfl, rfl, rfl, rfl, rfl, rfl⟩⟩
  · rintro ⟨regs', z', c', stack', pc'⟩ ⟨rfl, ho, hd, h6, h7, rfl⟩
    exact ⟨_, if_pos ho, fun v => ⟨_, settles_shared rfl rfl,
      Or.inl ⟨⟨rfl, ho, hd, h6, h7, rfl⟩, halves_append v⟩⟩⟩
  · rintro v ⟨regs', z', c', stack', pc'⟩ ⟨⟨rfl, ho, hd, h6, h7, rfl⟩, rfl⟩
    refine ⟨_, _, if_pos ho,
      ⟨_, .step rfl (.step rfl (.step rfl (.step rfl (settles_end rfl)))), rfl, ?_, rfl, rfl, rfl,
        h6, h7, rfl⟩,
      ⟨_, .step rfl (.step rfl (settles_shared rfl rfl)), Or.inl ⟨rfl, ho, hd, h6, h7, rfl⟩⟩⟩
    simpa using hd
  · rintro v out ⟨regs', z', c', stack', pc'⟩ ⟨rfl, -, -, -, -, -, -, -⟩
    rfl

/-- Between the accesses of `compareExchange64Relaxed`: the value compared with is in
r4:r2 and the value to store in r6:r7. -/
structure Comparing (object : Word) (entry : Cpu) (second : BitVec 64) (pc : Nat) (d : Cpu) : Prop where
  pc : d.pc = pc
  object : d.regs r5 = object
  expected : d.pair r4 r2 = entry.pair r1 r2
  desired : d.pair r6 r7 = second
  stack : d.stack =
    entry.regs r4 :: entry.regs r5 :: entry.regs r6 :: entry.regs r7 :: entry.stack

theorem compareExchange64_verified {object : Word} {entry : Cpu} (hpc : entry.pc = 0)
    (hobject : entry.regs r0 = object) {slot : Word} {rest : List Word}
    (hstack : entry.stack = slot :: rest) :
    Verified object compareExchange64Relaxed entry fun v =>
      if v = entry.pair r1 r2 then .stored (slot ++ entry.regs r3) else .kept := by
  obtain ⟨regs, z, c, stack, pc⟩ := entry
  cases hpc
  cases hobject
  cases hstack
  refine ⟨Comparing (regs r0) ⟨regs, z, c, slot :: rest, 0⟩ (slot ++ regs r3) 5,
    fun v d => Comparing (regs r0) ⟨regs, z, c, slot :: rest, 0⟩ (slot ++ regs r3) 9 d ∧
      d.pair r0 r1 = v ∧ v = regs r2 ++ regs r1, _, ⟨?_, ?_, ?_⟩,
    .step rfl (.step rfl (.step rfl (.step rfl (.step rfl (settles_shared rfl rfl))))),
    ⟨rfl, rfl, rfl, rfl, rfl⟩⟩
  · rintro ⟨regs', z', c', stack', pc'⟩ ⟨rfl, ho, he, hd, rfl⟩
    obtain ⟨hhigh, hlow⟩ := append_inj.mp he
    refine ⟨_, if_pos ho, fun v => settles_compare rfl rfl rfl ?_ ?_⟩
    · intro hl hh z c
      have hv : v = regs r2 ++ regs r1 :=
        (pair_eq_iff.mpr ⟨hlow.symm.trans hl.symm, hhigh.symm.trans hh.symm⟩).symm
      exact ⟨_, settles_shared rfl rfl, Or.inl ⟨⟨rfl, ho, he, hd, rfl⟩, halves_append v, hv⟩⟩
    · intro hne z c
      have hv : v ≠ regs r2 ++ regs r1 := fun hv => by
        obtain ⟨hl, hh⟩ := pair_eq_iff.mp hv.symm
        exact hne ⟨hl.symm.trans hlow.symm, hh.symm.trans hhigh.symm⟩
      exact ⟨_, .step rfl (.step rfl (settles_end rfl)), Or.inr
        ⟨rfl, (if_neg hv).symm, halves_append v, rfl, rfl, rfl, rfl, rfl⟩⟩
  · rintro v ⟨regs', z', c', stack', pc'⟩ ⟨⟨rfl, ho, he, hd, rfl⟩, hr, hv⟩
    refine ⟨_, _, if_pos ho,
      ⟨_, .step rfl (.step rfl (.step rfl (.step rfl (settles_end rfl)))), rfl, ?_, hr, rfl, rfl,
        rfl, rfl, rfl⟩,
      ⟨_, .step rfl (.step rfl (settles_shared rfl rfl)), Or.inl ⟨rfl, ho, he, hd, rfl⟩⟩⟩
    refine (congrArg Outcome.stored ?_).trans (if_pos hv).symm
    simpa using hd
  · rintro v out ⟨regs', z', c', stack', pc'⟩ ⟨rfl, -, -, -, -, -, -, -⟩
    rfl

/-- Between the accesses of the `fetch64` blocks: the operand is in r4:r2. -/
structure Fetching (object : Word) (entry : Cpu) (pc : Nat) (d : Cpu) : Prop where
  pc : d.pc = pc
  object : d.regs r5 = object
  operand : d.pair r4 r2 = entry.pair r1 r2
  stack : d.stack =
    entry.regs r4 :: entry.regs r5 :: entry.regs r6 :: entry.regs r7 :: entry.stack

/-- The two instructions leave the result of the operation in r6:r7 and change no
other register. -/
def Combines (object : Word) (low high : Instr) (combine : BitVec 64 → BitVec 64 → BitVec 64) : Prop :=
  ∀ cpu : Cpu, cpu.pc = 4 → ∃ (mid : Cpu) (z c : Bool) (n6 n7 : Word),
    low.action (w := 64) object 11 cpu = .tau mid ∧ mid.pc = 5 ∧
    high.action (w := 64) object 11 mid =
      .tau { cpu with
        regs := Function.update (Function.update cpu.regs r6 n6) r7 n7, z := z, c := c, pc := 6 } ∧
    n7 ++ n6 = combine (cpu.pair r0 r1) (cpu.pair r4 r2)

theorem fetch64_verified {object : Word} {entry : Cpu} (hpc : entry.pc = 0)
    (hobject : entry.regs r0 = object) {low high : Instr}
    {combine : BitVec 64 → BitVec 64 → BitVec 64} (hcomb : Combines object low high combine) :
    Verified object (fetch64 low high) entry fun v => .stored (combine v (entry.pair r1 r2)) := by
  obtain ⟨regs, z, c, stack, pc⟩ := entry
  cases hpc
  cases hobject
  refine ⟨Fetching (regs r0) ⟨regs, z, c, stack, 0⟩ 3,
    fun v d => Fetching (regs r0) ⟨regs, z, c, stack, 0⟩ 6 d ∧ d.pair r0 r1 = v ∧
      d.pair r6 r7 = combine v (Cpu.pair ⟨regs, z, c, stack, 0⟩ r1 r2), _, ⟨?_, ?_, ?_⟩,
    .step rfl (.step rfl (.step rfl (settles_shared rfl rfl))), ⟨rfl, rfl, rfl, rfl⟩⟩
  · rintro ⟨regs', z', c', stack', pc'⟩ ⟨rfl, ho, he, rfl⟩
    refine ⟨_, if_pos ho, fun v => ?_⟩
    obtain ⟨mid, z, c, n6, n7, hl, hc, hh, hn⟩ := hcomb
      (((⟨regs', z', c', _, 3⟩ : Cpu).set r0 (v.extractLsb' 0 32)).set r1
        (v.extractLsb' 32 32)).advance rfl
    refine ⟨_, settles_tau rfl hl (settles_tau (i := high) (by rw [hc]; rfl) hh
      (settles_shared rfl rfl)), Or.inl ⟨⟨rfl, ho, he, rfl⟩, halves_append v, ?_⟩⟩
    exact hn.trans (congrArg₂ combine (halves_append v) he)
  · rintro v ⟨regs', z', c', stack', pc'⟩ ⟨⟨rfl, ho, he, rfl⟩, hr, hn⟩
    refine ⟨_, _, if_pos ho,
      ⟨_, .step rfl (.step rfl (.step rfl (.step rfl (settles_end rfl)))), rfl, ?_, hr, rfl, rfl,
        rfl, rfl, rfl⟩,
      ⟨_, .step rfl (.step rfl (settles_shared rfl rfl)), Or.inl ⟨rfl, ho, he, rfl⟩⟩⟩
    simpa using hn
  · rintro v out ⟨regs', z', c', stack', pc'⟩ ⟨rfl, -, -, -, -, -, -, -⟩
    rfl

theorem adds_adc_combines (object : Word) :
    Combines object (.adds r6 r0 r4) (.adc r7 r1 r2) (· + ·) := by
  rintro ⟨regs, z, c, stack, pc⟩ rfl
  exact ⟨_, _, _, _, _, rfl, rfl, rfl, adds_adc _ _ _ _⟩

theorem and_combines (object : Word) :
    Combines object (.and r6 r0 r4) (.and r7 r1 r2) (· &&& ·) := by
  rintro ⟨regs, z, c, stack, pc⟩ rfl
  exact ⟨_, _, _, _, _, rfl, rfl, rfl, and_append _ _ _ _⟩

theorem orr_combines (object : Word) :
    Combines object (.orr r6 r0 r4) (.orr r7 r1 r2) (· ||| ·) := by
  rintro ⟨regs, z, c, stack, pc⟩ rfl
  exact ⟨_, _, _, _, _, rfl, rfl, rfl, or_append _ _ _ _⟩

/-! ## The seven functions -/

/-- A call with its 64-bit operands. -/
inductive Fn where
  | load
  | store (desired : BitVec 64)
  | compareExchange (expected desired : BitVec 64)
  | exchange (desired : BitVec 64)
  | fetchAdd (operand : BitVec 64)
  | fetchAnd (operand : BitVec 64)
  | fetchOr (operand : BitVec 64)

namespace Fn

def prog : Fn → List Instr
  | load => load64Relaxed
  | store _ => store64Relaxed
  | compareExchange _ _ => compareExchange64Relaxed
  | exchange _ => exchange64Relaxed
  | fetchAdd _ => fetchAdd64Relaxed
  | fetchAnd _ => fetchAnd64Relaxed
  | fetchOr _ => fetchOr64Relaxed

/-- What the named operation makes of the value of the location. -/
def effect : Fn → BitVec 64 → BitVec 64
  | load, v => v
  | store desired, _ => desired
  | compareExchange expected desired, v => if v = expected then desired else v
  | exchange desired, _ => desired
  | fetchAdd operand, v => v + operand
  | fetchAnd operand, v => v &&& operand
  | fetchOr operand, v => v ||| operand

def returnsPrevious : Fn → Bool
  | store _ => false
  | _ => true

end Fn

def firstOperand (cpu : Cpu) : BitVec 64 := cpu.pair r1 r2

def secondOperand (cpu : Cpu) : BitVec 64 := cpu.stack.headD 0 ++ cpu.regs r3

def Fn.Passed (cpu : Cpu) : Fn → Prop
  | load => True
  | store desired => firstOperand cpu = desired
  | compareExchange expected desired => firstOperand cpu = expected ∧ secondOperand cpu = desired
  | exchange desired => firstOperand cpu = desired
  | fetchAdd operand => firstOperand cpu = operand
  | fetchAnd operand => firstOperand cpu = operand
  | fetchOr operand => firstOperand cpu = operand

/-- The state in which the function is entered: everything its arguments do not
determine is arbitrary, and the caller's frame lies above the stack pointer. -/
structure Called (object : Word) (fn : Fn) (cpu : Cpu) : Prop where
  pc : cpu.pc = 0
  object : cpu.regs r0 = object
  frame : cpu.stack ≠ []
  passed : fn.Passed cpu

/-- The contract: one store that applied the operation to the value it replaced, or
none if the value met is its own result; that value in r0:r1; r4 to r7 as on entry. -/
structure Meets (fn : Fn) (entry final : Cpu) (log : List (Access (BitVec 64))) : Prop where
  applied : ∃ v, (stores log = [(v, fn.effect v)] ∨
      (stores log = [] ∧ lastLoad log = some v ∧ fn.effect v = v)) ∧
    (fn.returnsPrevious = true → final.pair r0 r1 = v)
  saved : ∀ r ∈ [r4, r5, r6, r7], final.regs r = entry.regs r

/-- For `exchange`, that the location holds `desired` at the last load-exclusive, and
that the words after the operand happen to hold `desired` too. -/
def Fn.Works (entry : Cpu) (log : List (Access (BitVec 64))) : Fn → Prop
  | exchange desired => lastLoad log = some desired ∧ secondOperand entry = desired
  | _ => True

/-- What the block stores over the value it loaded. -/
def Fn.out (entry : Cpu) : Fn → BitVec 64 → Outcome (BitVec 64)
  | compareExchange expected desired, v => if v = expected then .stored desired else .kept
  | exchange desired, v => if v = desired then .stored (secondOperand entry) else .kept
  | fn, v => .stored (fn.effect v)

theorem Called.verified {object : Word} {fn : Fn} {entry : Cpu} (h : Called object fn entry) :
    Verified object fn.prog entry (fn.out entry) := by
  obtain ⟨hpc, hobject, hframe, hpassed⟩ := h
  obtain ⟨slot, rest, hstack⟩ := List.exists_cons_of_ne_nil hframe
  have hsecond : secondOperand entry = slot ++ entry.regs r3 := by
    rw [secondOperand, hstack, List.headD_cons]
  cases fn with
  | load => exact load64_verified hpc hobject
  | store desired =>
    cases hpassed
    exact store64_verified hpc hobject
  | compareExchange expected desired =>
    obtain ⟨rfl, rfl⟩ := hpassed
    unfold Fn.out
    rw [hsecond]
    exact compareExchange64_verified hpc hobject hstack
  | exchange desired =>
    cases hpassed
    unfold Fn.out
    rw [hsecond]
    exact compareExchange64_verified hpc hobject hstack
  | fetchAdd operand =>
    cases hpassed
    exact fetch64_verified hpc hobject (adds_adc_combines object)
  | fetchAnd operand =>
    cases hpassed
    exact fetch64_verified hpc hobject (and_combines object)
  | fetchOr operand =>
    cases hpassed
    exact fetch64_verified hpc hobject (orr_combines object)

/-- A block that stored what its operation makes of the value meets the contract. -/
theorem Returned.meets {fn : Fn} {size : Nat} {entry final : Cpu}
    {out : BitVec 64 → Outcome (BitVec 64)} {v : BitVec 64} {stored : Outcome (BitVec 64)}
    {log : List (Access (BitVec 64))} (h : Returned size entry out v stored final)
    (hlog : stores log = stored.stores v) (hlast : lastLoad log = some v)
    (hout : out v = .stored (fn.effect v) ∨ (out v = .kept ∧ fn.effect v = v)) :
    Meets fn entry final log := by
  refine ⟨⟨v, ?_, fun _ => h.result⟩, ?_⟩
  · rw [hlog, h.stored]
    rcases hout with hout | ⟨hout, he⟩
    · rw [hout]
      exact Or.inl rfl
    · rw [hout]
      exact Or.inr ⟨rfl, hlast, he⟩
  · simp [h.r4, h.r5, h.r6, h.r7]

/-- `exchange` stores its second operand, and only over a value equal to its first. -/
theorem Returned.exchange_meets_iff {desired : BitVec 64} {size : Nat} {entry final : Cpu}
    {v : BitVec 64} {stored : Outcome (BitVec 64)} {log : List (Access (BitVec 64))}
    (h : Returned size entry ((Fn.exchange desired).out entry) v stored final)
    (hlog : stores log = stored.stores v) (hlast : lastLoad log = some v) :
    Meets (.exchange desired) entry final log ↔ (Fn.exchange desired).Works entry log := by
  have hstored : stored = if v = desired then .stored (secondOperand entry) else .kept := h.stored
  constructor
  · intro hm
    obtain ⟨u, hu | ⟨hnil, hload, hu⟩, -⟩ := hm.applied
    · by_cases hv : v = desired
      · rw [hlog, hstored, if_pos hv] at hu
        obtain ⟨-, hsecond⟩ := Prod.mk.inj (List.cons.inj hu).1
        exact ⟨by rw [hlast, hv], hsecond⟩
      · rw [hlog, hstored, if_neg hv] at hu
        cases hu
    · obtain rfl : u = v := Option.some.inj (hload.symm.trans hlast)
      have hv : u = desired := Eq.symm hu
      rw [hlog, hstored, if_pos hv] at hnil
      cases hnil
  · intro hw
    obtain ⟨hload, hsecond⟩ := hw
    have hv : v = desired := Option.some.inj (hlast.symm.trans hload)
    refine h.meets hlog hlast (Or.inl ?_)
    rw [Fn.out, if_pos hv, hsecond]
    rfl

/-- Whatever the other writers do, each call can return, and when it has returned it
meets the contract, except that `exchange` does so exactly when it met the value it
was asked to store and the words it stores instead equal that value. -/
theorem arm64_operations {object : Word} {fn : Fn} {entry : Cpu} (h : Called object fn entry)
    (value : BitVec 64) (monitor : Bool) (moves : List (Move (BitVec 64))) (s : State (BitVec 64) Cpu)
    (hr : run (next (action object fn.prog)) (start entry value monitor) moves = some s) :
    (action (w := 64) object fn.prog s.code = .stop →
      (Meets fn entry s.code s.log ↔ fn.Works entry s.log)) ∧
    ∃ n s', run (next (action object fn.prog)) s (List.replicate n (.exec true)) = some s' ∧
      action (w := 64) object fn.prog s'.code = .stop := by
  obtain ⟨A, B, c, hretry, hc, ha⟩ := h.verified
  refine ⟨fun hstop => ?_, run_returns hretry hc ha hr⟩
  obtain ⟨v, stored, hret, hlog, hlast, -⟩ := run_stopped hretry hc ha hr hstop
  cases fn with
  | exchange desired => exact hret.exchange_meets_iff hlog hlast
  | compareExchange expected desired =>
    refine iff_of_true (hret.meets hlog hlast ?_) trivial
    by_cases hv : v = expected
    · exact Or.inl (by simp [Fn.out, Fn.effect, hv])
    · exact Or.inr (by simp [Fn.out, Fn.effect, hv])
  | _ => exact iff_of_true (hret.meets hlog hlast (Or.inl rfl)) trivial

/-- A state of entry with the two argument words given and every other register zero. -/
def entryWith (low high : Word) : Cpu where
  regs := fun r => match r with | r1 => low | r2 => high | _ => 0
  z := false
  c := false
  stack := [0]
  pc := 0

/-- Between the load and the store of `fetchAdd(1)` another thread writes 2^32 - 1;
the second attempt carries into the high word. -/
theorem arm64_fetchAdd_contended :
    ∃ s : State (BitVec 64) Cpu,
      run (next (action (w := 64) 0 (Fn.fetchAdd 1).prog)) (start (entryWith 1 0) 7 false)
        (List.replicate 4 (.exec true) ++ [.write 0xffffffff] ++ List.replicate 13 (.exec true)) =
          some s ∧
      s.value = 0x100000000 ∧ Meets (.fetchAdd 1) (entryWith 1 0) s.code s.log := by
  have hcalled : Called 0 (.fetchAdd 1) (entryWith 1 0) := ⟨rfl, rfl, nofun, rfl⟩
  have hrun : (run (next (action (w := 64) 0 (Fn.fetchAdd 1).prog)) (start (entryWith 1 0) 7 false)
      (List.replicate 4 (.exec true) ++ [.write 0xffffffff] ++ List.replicate 13 (.exec true))).map
        (fun s => (s.value, s.code.pc)) = some (0x100000000, 11) := by decide
  obtain ⟨s, hs, hv⟩ := Option.map_eq_some_iff.mp hrun
  obtain ⟨hvalue, hpc⟩ := Prod.mk.inj hv
  have hstop : action (w := 64) 0 (Fn.fetchAdd 1).prog s.code = .stop := by
    rw [action, hpc]
    rfl
  exact ⟨s, hs, hvalue, ((arm64_operations hcalled 7 false _ s hs).1 hstop).mpr trivial⟩

/-- `exchange(1)` on a location that holds 0 returns 0 and stores nothing. -/
theorem exchange64_does_not_exchange :
    ¬ ∀ (object : Word) (fn : Fn) (entry : Cpu), Called object fn entry →
      ∀ (value : BitVec 64) (monitor : Bool) (moves : List (Move (BitVec 64)))
        (s : State (BitVec 64) Cpu),
        run (next (action object fn.prog)) (start entry value monitor) moves = some s →
        action (w := 64) object fn.prog s.code = .stop → Meets fn entry s.code s.log := by
  intro h
  have hcalled : Called 0 (.exchange 1) (entryWith 1 0) := ⟨rfl, rfl, nofun, rfl⟩
  have hrun : (run (next (action (w := 64) 0 (Fn.exchange 1).prog)) (start (entryWith 1 0) 0 false)
      (List.replicate 11 (.exec true))).map (fun s => (s.log, s.code.pc)) =
        some ([.load 0], 14) := by decide
  obtain ⟨s, hs, hv⟩ := Option.map_eq_some_iff.mp hrun
  obtain ⟨hlog, hpc⟩ := Prod.mk.inj hv
  have hstop : action (w := 64) 0 (Fn.exchange 1).prog s.code = .stop := by
    rw [action, hpc]
    rfl
  obtain ⟨v, hstore | ⟨-, hload, hv⟩, -⟩ := (h 0 _ _ hcalled 0 false _ s hs hstop).applied
  · rw [hlog] at hstore
    cases hstore
  · rw [hlog] at hload
    cases hload
    exact absurd hv (by decide)

end Turf.Atomics.Arm64
