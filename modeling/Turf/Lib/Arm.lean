import Mathlib.Logic.Function.Basic
import Turf.Lib.Exclusive
import Turf.Lib.Words

/-!
# Register programs of a 32-bit ARM CPU

The instructions that exclusive-access loops use, over the argument and low
callee-saved registers and the stack. One location of `w` bits is shared: the
exclusive instructions reach it through a register that holds its address, and
every other instruction is private. An access through any other address faults.

`ldrex` and `strex` stand for the byte, halfword and word forms, by the width of the
location; the loads extend with zeros and the stores write the low bits.
-/
namespace Turf.Lib.Arm

open Turf.Lib.Exclusive Turf.Lib.Words

inductive Reg where
  | r0 | r1 | r2 | r3 | r4 | r5 | r6 | r7
  deriving DecidableEq

inductive Instr where
  | push (rs : List Reg)
  | pop (rs : List Reg)
  | mov (rd rm : Reg)
  | movImm (rd : Reg) (n : Word)
  | ldrSp (rd : Reg) (slot : Nat)
  | cmp (rn rm : Reg)
  | cmpImm (rn : Reg) (n : Word)
  | cmpeq (rn rm : Reg)
  | bne (target : Nat)
  | adds (rd rn rm : Reg)
  | adc (rd rn rm : Reg)
  | and (rd rn rm : Reg)
  | orr (rd rn rm : Reg)
  | ldrex (rt rn : Reg)
  | strex (rd rt rn : Reg)
  | ldrexd (rt rt2 rn : Reg)
  | strexd (rd rt rt2 rn : Reg)
  | bxLr

/-- The private state: registers, the Z and C flags, the stack from the word the
stack pointer addresses upwards, and the index of the next instruction. -/
structure Cpu where
  regs : Reg → Word
  z : Bool
  c : Bool
  stack : List Word
  pc : Nat

namespace Cpu

def set (cpu : Cpu) (r : Reg) (v : Word) : Cpu :=
  { cpu with regs := Function.update cpu.regs r v }

def advance (cpu : Cpu) : Cpu := { cpu with pc := cpu.pc + 1 }

/-- The lowest register of the list ends up at the lowest address. -/
def push (cpu : Cpu) (rs : List Reg) : Cpu := { cpu with stack := rs.map cpu.regs ++ cpu.stack }

def pop (cpu : Cpu) : List Reg → Option Cpu
  | [] => some cpu
  | r :: rs =>
    match cpu.stack with
    | [] => none
    | v :: stack => ({ cpu with stack := stack }.set r v).pop rs

def compare (cpu : Cpu) (a b : Word) : Cpu := { cpu with z := a = b, c := b ≤ a }

/-- The value a register pair holds, the first register being the low word. -/
def pair (cpu : Cpu) (low high : Reg) : BitVec 64 := cpu.regs high ++ cpu.regs low

end Cpu

variable {w : Nat}

/-- The effect of one instruction of a program of `size` instructions, when the
shared location is at address `object`. -/
def Instr.action (object : Word) (size : Nat) (cpu : Cpu) : Instr → Action (BitVec w) Cpu
  | push rs => .tau (cpu.push rs).advance
  | pop rs =>
    match cpu.pop rs with
    | some cpu => .tau cpu.advance
    | none => .fault
  | mov rd rm => .tau (cpu.set rd (cpu.regs rm)).advance
  | movImm rd n => .tau (cpu.set rd n).advance
  | ldrSp rd slot =>
    match cpu.stack[slot]? with
    | some v => .tau (cpu.set rd v).advance
    | none => .fault
  | cmp rn rm => .tau (cpu.compare (cpu.regs rn) (cpu.regs rm)).advance
  | cmpImm rn n => .tau (cpu.compare (cpu.regs rn) n).advance
  | cmpeq rn rm =>
    .tau (if cpu.z then cpu.compare (cpu.regs rn) (cpu.regs rm) else cpu).advance
  | bne target => .tau (if cpu.z then cpu.advance else { cpu with pc := target })
  | adds rd rn rm =>
    let sum := cpu.regs rn + cpu.regs rm
    let carry := 2 ^ 32 ≤ (cpu.regs rn).toNat + (cpu.regs rm).toNat
    .tau { cpu.set rd sum with z := sum = 0, c := carry }.advance
  | adc rd rn rm =>
    .tau (cpu.set rd (cpu.regs rn + cpu.regs rm + BitVec.ofNat 32 cpu.c.toNat)).advance
  | and rd rn rm => .tau (cpu.set rd (cpu.regs rn &&& cpu.regs rm)).advance
  | orr rd rn rm => .tau (cpu.set rd (cpu.regs rn ||| cpu.regs rm)).advance
  | ldrex rt rn =>
    if cpu.regs rn = object then .load fun v => (cpu.set rt (v.setWidth 32)).advance else .fault
  | strex rd rt rn =>
    if cpu.regs rn = object then
      .store ((cpu.regs rt).setWidth w) fun ok => (cpu.set rd (if ok then 0 else 1)).advance
    else .fault
  | ldrexd rt rt2 rn =>
    if cpu.regs rn = object then
      .load fun v => ((cpu.set rt (v.extractLsb' 0 32)).set rt2 (v.extractLsb' 32 32)).advance
    else .fault
  | strexd rd rt rt2 rn =>
    if cpu.regs rn = object then
      .store ((cpu.pair rt rt2).setWidth w) fun ok => (cpu.set rd (if ok then 0 else 1)).advance
    else .fault
  | bxLr => .tau { cpu with pc := size }

/-- What a program does next; it has stopped when it ran past its last instruction. -/
def action (object : Word) (prog : List Instr) (cpu : Cpu) : Action (BitVec w) Cpu :=
  match prog[cpu.pc]? with
  | none => .stop
  | some i => i.action object prog.length cpu

def Instr.shared : Instr → Bool
  | ldrex _ _ | strex _ _ _ | ldrexd _ _ _ | strexd _ _ _ _ => true
  | _ => false

theorem Instr.action_ne_stop (object : Word) (size : Nat) (cpu : Cpu) (i : Instr) :
    i.action (w := w) object size cpu ≠ .stop := by
  cases i with
  | pop | ldrSp | ldrex | strex | ldrexd | strexd => simp only [action]; split <;> nofun
  | _ => nofun

theorem action_eq_stop_iff {object : Word} {prog : List Instr} {cpu : Cpu} :
    action (w := w) object prog cpu = .stop ↔ prog.length ≤ cpu.pc := by
  rw [← List.getElem?_eq_none_iff]
  unfold action
  split
  · rename_i h
    exact iff_of_true rfl h
  · rename_i i h
    rw [h]
    exact iff_of_false (i.action_ne_stop object prog.length cpu) nofun

theorem settles_shared {object : Word} {prog : List Instr} {cpu : Cpu} {i : Instr}
    (h : prog[cpu.pc]? = some i) (hi : i.shared = true) :
    Settles (action (w := w) object prog) cpu cpu := by
  refine .here fun d => ?_
  rw [action, h]
  show i.action object prog.length cpu ≠ .tau d
  cases i with
  | ldrex | strex | ldrexd | strexd => simp only [Instr.action]; split <;> nofun
  | _ => cases hi

theorem settles_end {object : Word} {prog : List Instr} {cpu : Cpu} (h : prog[cpu.pc]? = none) :
    Settles (action (w := w) object prog) cpu cpu := by
  refine .here fun d => ?_
  rw [action, h]
  nofun

theorem settles_tau {object : Word} {prog : List Instr} {cpu c d : Cpu} {i : Instr}
    (h : prog[cpu.pc]? = some i) (hi : i.action (w := w) object prog.length cpu = .tau c)
    (hd : Settles (action (w := w) object prog) c d) :
    Settles (action (w := w) object prog) cpu d :=
  .step (by rw [action, h]; exact hi) hd

/-- A comparison of two registers and the branch taken when they differ. -/
theorem settles_cmp {object : Word} {prog : List Instr} {cpu d : Cpu} {rn rm : Reg} {target : Nat}
    (h0 : prog[cpu.pc]? = some (.cmp rn rm)) (h1 : prog[cpu.pc + 1]? = some (.bne target))
    (hd : Settles (action (w := w) object prog)
      { cpu.compare (cpu.regs rn) (cpu.regs rm) with
        pc := if cpu.regs rn = cpu.regs rm then cpu.pc + 2 else target } d) :
    Settles (action (w := w) object prog) cpu d := by
  refine settles_tau h0 rfl (settles_tau (i := .bne target) h1 rfl ?_)
  by_cases h : cpu.regs rn = cpu.regs rm
  · simpa [Cpu.compare, Cpu.advance, h] using hd
  · simpa [Cpu.compare, Cpu.advance, h] using hd

/-- A comparison of two register pairs and the branch taken when they differ. -/
theorem settles_compare {object : Word} {prog : List Instr} {cpu : Cpu} {rn rm rn' rm' : Reg}
    {target : Nat} {P : Cpu → Prop} (h0 : prog[cpu.pc]? = some (.cmp rn rm))
    (h1 : prog[cpu.pc + 1]? = some (.cmpeq rn' rm'))
    (h2 : prog[cpu.pc + 2]? = some (.bne target))
    (heq : cpu.regs rn = cpu.regs rm → cpu.regs rn' = cpu.regs rm' → ∀ z c, ∃ d,
      Settles (action (w := w) object prog) { cpu with z := z, c := c, pc := cpu.pc + 3 } d ∧ P d)
    (hne : ¬(cpu.regs rn = cpu.regs rm ∧ cpu.regs rn' = cpu.regs rm') → ∀ z c, ∃ d,
      Settles (action (w := w) object prog) { cpu with z := z, c := c, pc := target } d ∧ P d) :
    ∃ d, Settles (action (w := w) object prog) cpu d ∧ P d := by
  have hbranch : ∀ c d, c.pc = cpu.pc + 2 →
      Settles (action (w := w) object prog) (if c.z then c.advance else { c with pc := target }) d →
      Settles (action (w := w) object prog) c d := fun c d hc h =>
    settles_tau (by rw [hc]; exact h2) rfl h
  by_cases ha : cpu.regs rn = cpu.regs rm
  · by_cases hb : cpu.regs rn' = cpu.regs rm'
    · obtain ⟨d, hd, hP⟩ := heq ha hb true (cpu.regs rm' ≤ cpu.regs rn')
      refine ⟨d, settles_tau h0 rfl (settles_tau h1 rfl (hbranch _ _ ?_ ?_)), hP⟩
      · simp [Cpu.compare, Cpu.advance, ha]
      · simpa [Cpu.compare, Cpu.advance, ha, hb] using hd
    · obtain ⟨d, hd, hP⟩ := hne (fun h => hb h.2) false (cpu.regs rm' ≤ cpu.regs rn')
      refine ⟨d, settles_tau h0 rfl (settles_tau h1 rfl (hbranch _ _ ?_ ?_)), hP⟩
      · simp [Cpu.compare, Cpu.advance, ha]
      · simpa [Cpu.compare, Cpu.advance, ha, hb] using hd
  · obtain ⟨d, hd, hP⟩ := hne (fun h => ha h.1) false (cpu.regs rm ≤ cpu.regs rn)
    refine ⟨d, settles_tau h0 rfl (settles_tau h1 rfl (hbranch _ _ ?_ ?_)), hP⟩
    · simp [Cpu.compare, Cpu.advance, ha]
    · simpa [Cpu.compare, Cpu.advance, ha] using hd

end Turf.Lib.Arm
