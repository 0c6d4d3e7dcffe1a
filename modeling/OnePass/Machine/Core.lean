import OnePass.Machine.Instr
import OnePass.Machine.Memory
import OnePass.Size

namespace OnePass

/-- A function of the host. Its arguments are popped from the stack and its result is pushed. -/
structure Host where
  arity : Int
  apply : List UInt16 → UInt16

/-- A later registration of a name hides an earlier one. -/
abbrev HostTable := List (String × Host)

structure HostCall where
  name : String
  args : List UInt16
deriving DecidableEq, Repr

/-- The stack grows downward from `sp`. Words have 16 bits and wrap around. -/
structure Core where
  r0 : UInt16 := 0
  r1 : UInt16 := 0
  r2 : UInt16 := 0
  sp : UInt16 := 0
  memory : Memory := .zero
  calls : Array HostCall := #[]

/-- Why an instruction could not be carried out. -/
inductive Trap where
  | unknownFunction (name : String)
  | unknownOpcode (n : Int)
  | fault (f : Fault)
deriving DecidableEq, Repr

/-- Instructions change the core, or trap and leave it. -/
abbrev Exec := EStateM Trap Core

/-- The lowest 16 bits of an immediate. -/
def word (n : Int) : UInt16 := UInt16.ofNat (n % 65536).toNat

def Alu.apply : Alu → UInt16 → UInt16 → UInt16
  | .add, a, b => a + b
  | .sub, a, b => a - b
  | .mul, a, b => a * b

def Core.stack (c : Core) (n : Int) : Except Fault (List UInt16) :=
  (allot 2 n).map fun () =>
    (List.range n.toNat).map fun i => c.memory.read (c.sp + UInt16.ofNat i)

namespace Exec

def getReg : Reg → Exec UInt16
  | .r0 => return (← get).r0
  | .r1 => return (← get).r1
  | .r2 => return (← get).r2
  | .sp => return (← get).sp
  | .other _ => throw (.fault .missingRegister)

def setReg (r : Reg) (v : UInt16) : Exec Unit :=
  match r with
  | .r0 => modify fun c => { c with r0 := v }
  | .r1 => modify fun c => { c with r1 := v }
  | .r2 => modify fun c => { c with r2 := v }
  | .sp => modify fun c => { c with sp := v }
  | .other _ => throw (.fault .missingRegister)

def read (a : UInt16) : Exec UInt16 := return (← get).memory.read a

def write (a v : UInt16) : Exec Unit :=
  modify fun c => { c with memory := c.memory.write a v }

def push (v : UInt16) : Exec Unit := do
  let sp := (← get).sp - 1
  setReg .sp sp
  write sp v

def pop : Exec UInt16 := do
  let sp := (← get).sp
  setReg .sp (sp + 1)
  read sp

/-- Pops `n` words in front of `above`; the first one popped is the last argument. -/
def popArgs : Nat → List UInt16 → Exec (List UInt16)
  | 0, above => return above
  | n + 1, above => do popArgs n ((← pop) :: above)

def call (hosts : HostTable) (name : String) : Exec Unit := do
  match hosts.lookup name with
  | none => throw (.unknownFunction name)
  | some h =>
    if fitsInMemory 2 h.arity then
      let args ← popArgs h.arity.toNat []
      modify fun c => { c with calls := c.calls.push ⟨name, args⟩ }
      push (h.apply args)
    else throw (.fault .countOutOfRange)

def instr (hosts : HostTable) : Instr → Exec Unit
  | .movi n => setReg .r0 (word n)
  | .addi n => do setReg .r0 ((← getReg .r0) + word n)
  | .subi n => do setReg .r0 ((← getReg .r0) - word n)
  | .mov dst src => do setReg dst (← getReg src)
  | .alu op dst src => do setReg dst (op.apply (← getReg dst) (← getReg src))
  | .push r => do push (← getReg r)
  | .pop r => do setReg r (← pop)
  | .ldr dst addr => do setReg dst (← read (← getReg addr))
  | .str addr src => do write (← getReg addr) (← getReg src)
  | .call name => call hosts name
  | .unknown n _ _ => throw (.unknownOpcode n)

end Exec

end OnePass
