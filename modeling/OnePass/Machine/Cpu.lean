import OnePass.Machine.Core
import OnePass.Text.Quoted

namespace OnePass

structure ProgramLine where
  instr : Instr
  line : Int
  text : String
deriving DecidableEq, Repr, Inhabited

structure Cpu where
  core : Core := {}
  pc : Int := 0
  steps : Int := 0
  halted : Bool := false
  program : Array ProgramLine := #[]
  hosts : HostTable := []

inductive Halt where
  | unknownFunction (line : Int) (name : String)
  | unknownOpcode (line : Int) (n : Int)
  | stepLimit (steps : Int)
  | crash (f : Fault)
deriving DecidableEq, Repr

def Halt.message : Halt → String
  | .unknownFunction line name => s!"line {line}: unknown function " ++ Text.quote name
  | .unknownOpcode line n => s!"line {line}: unknown opcode {n}"
  | .stepLimit steps => s!"step limit reached after {steps} instructions"
  | .crash f => f.message?.getD ""

def Halt.ofTrap (line : Int) : Trap → Halt
  | .unknownFunction name => .unknownFunction line name
  | .unknownOpcode n => .unknownOpcode line n
  | .fault f => .crash f

namespace Cpu

def register (c : Cpu) (name : String) (h : Host) : Cpu :=
  { c with hosts := (name, h) :: c.hosts.filter (·.1 ≠ name) }

def hostNames (c : Cpu) : List String :=
  (c.hosts.map (·.1)).mergeSort fun a b => decide (a ≤ b)

/-- Installs a program and goes to its start. Registers and memory stay. -/
def load (c : Cpu) (program : Array ProgramLine) : Cpu :=
  { c with program, pc := 0, steps := 0, halted := program.isEmpty }

abbrev Outcome := EStateM.Result Halt Cpu Unit

def step (c : Cpu) : Outcome :=
  match c with
  | ⟨core, pc, steps, halted, program, hosts⟩ =>
    if halted then .ok () ⟨core, pc, steps, halted, program, hosts⟩
    else if program.size ≤ pc then .ok () ⟨core, pc, steps, true, program, hosts⟩
    else
      match program[pc.toNat]?, decide (pc < 0) with
      | some ⟨instr, line, _⟩, false =>
        match Exec.instr hosts instr core with
        | .ok () core => .ok () ⟨core, pc + 1, steps + 1, false, program, hosts⟩
        | .error trap core =>
          .error (Halt.ofTrap line trap) ⟨core, pc + 1, steps + 1, true, program, hosts⟩
      | _, _ => .error (.crash .missingInstruction) ⟨core, pc, steps, halted, program, hosts⟩

/-- Bounds the steps that are left. -/
def left (c : Cpu) : Nat :=
  if c.halted then 0 else (c.program.size - c.pc).toNat + 1

theorem left_step_lt {c d : Cpu} (hrun : c.halted = false) (h : c.step = .ok () d) :
    d.left < c.left := by
  obtain ⟨core, pc, steps, halted, program, hosts⟩ := c
  simp only at hrun
  subst hrun
  simp only [step, Bool.false_eq_true, ↓reduceIte] at h
  split at h
  · simp only [EStateM.Result.ok.injEq, true_and] at h
    simp [← h, left]
  · split at h
    · split at h <;> simp only [EStateM.Result.ok.injEq, reduceCtorEq, true_and] at h
      simp only [← h, left, Bool.false_eq_true, ↓reduceIte]
      omega
    · simp at h

/-- Steps until the program ends, an instruction fails or `max` instructions have run. There
are no jumps. -/
def run (max : Int) (c : Cpu) : Outcome :=
  if _hrun : c.halted = true then .ok () c
  else if max ≤ c.steps then .error (.stepLimit c.steps) c
  else
    match _h : c.step with
    | .ok () d => run max d
    | .error e d => .error e d
termination_by c.left
decreasing_by exact left_step_lt (by simpa using _hrun) _h

end Cpu

end OnePass
