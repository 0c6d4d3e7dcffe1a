namespace OnePass

/-- The machine has three scratch registers and a stack pointer. Any other name can be written,
but no machine has such a register. -/
inductive Reg where
  | r0
  | r1
  | r2
  | sp
  | other (name : String)
deriving DecidableEq, Repr, Inhabited

namespace Reg

def name : Reg → String
  | r0 => "r0"
  | r1 => "r1"
  | r2 => "r2"
  | sp => "sp"
  | other name => name

def ofName? : String → Option Reg
  | "r0" => some r0
  | "r1" => some r1
  | "r2" => some r2
  | "sp" => some sp
  | _ => none

end Reg

inductive Alu where
  | add
  | sub
  | mul
deriving DecidableEq, Repr

def Alu.name : Alu → String
  | .add => "add"
  | .sub => "sub"
  | .mul => "mul"

/-- The first register of `ldr` is its destination, of `str` the address. An instruction outside
the set keeps its number and registers. -/
inductive Instr where
  | movi (n : Int)
  | addi (n : Int)
  | subi (n : Int)
  | mov (dst src : Reg)
  | alu (op : Alu) (dst src : Reg)
  | push (r : Reg)
  | pop (r : Reg)
  | ldr (dst addr : Reg)
  | str (addr src : Reg)
  | call (name : String)
  | unknown (opcode : Int) (a b : Reg)
deriving DecidableEq, Repr, Inhabited

namespace Instr

def pair (a b : Reg) : String := a.name ++ ", " ++ b.name

def text : Instr → String
  | movi n => "movi #" ++ toString n
  | addi n => "addi #" ++ toString n
  | subi n => "subi #" ++ toString n
  | mov dst src => "mov " ++ pair dst src
  | alu op dst src => op.name ++ " " ++ pair dst src
  | push r => "push " ++ r.name
  | pop r => "pop " ++ r.name
  | ldr dst addr => "ldr " ++ pair dst addr
  | str addr src => "str " ++ pair addr src
  | call name => "call " ++ name
  | unknown _ a b => " " ++ pair a b

def registers : Instr → Reg × Reg
  | mov a b | alu _ a b | ldr a b | str a b | unknown _ a b => (a, b)
  | push a | pop a => (a, .r0)
  | movi _ | addi _ | subi _ | call _ => (.r0, .r0)

end Instr

def listing (code : List Instr) : String :=
  String.join (code.map (·.text ++ "\n"))

end OnePass
