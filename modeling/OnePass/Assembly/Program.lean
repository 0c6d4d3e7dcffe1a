import OnePass.Assembly.Grammar
import OnePass.Machine.Cpu
import OnePass.Text.Utf8

namespace OnePass.Assembly

def register (line : Nat) : Argument → Except Error Reg
  | .immediate n => .error (.registerExpected n line)
  | .name s =>
    match Reg.ofName? s.toLower with
    | some r => .ok r
    | none => .error (.registerUnknown s line)

def oneRegister (mnemonic : String) (l : Line) (make : Reg → Instr) : Except Error Instr :=
  match l.args with
  | [a] => (register l.line a).map make
  | _ => .error (.operandCount mnemonic 1 l.line)

def twoRegisters (mnemonic : String) (l : Line) : Except Error (Reg × Reg) := do
  match l.args with
  | [a, b] => return (← register l.line a, ← register l.line b)
  | _ => .error (.operandCount mnemonic 2 l.line)

def scratchRegisters (mnemonic : String) (l : Line) (make : Reg → Reg → Instr) :
    Except Error Instr := do
  let (a, b) ← twoRegisters mnemonic l
  if a = .sp ∨ b = .sp then .error (.stackPointer mnemonic l.line) else return make a b

def oneImmediate (mnemonic : String) (l : Line) (make : Int → Instr) : Except Error Instr :=
  match l.args with
  | [.immediate n] => .ok (make n)
  | _ => .error (.notImmediate mnemonic l.line)

def decode (l : Line) : Except Error Instr :=
  let mnemonic := l.mnemonic.toLower
  match mnemonic with
  | "push" => oneRegister mnemonic l .push
  | "pop" => oneRegister mnemonic l .pop
  | "mov" => (twoRegisters mnemonic l).map fun (a, b) => .mov a b
  | "add" => scratchRegisters mnemonic l (.alu .add)
  | "sub" => scratchRegisters mnemonic l (.alu .sub)
  | "mul" => scratchRegisters mnemonic l (.alu .mul)
  | "ldr" => scratchRegisters mnemonic l .ldr
  | "str" => scratchRegisters mnemonic l .str
  | "movi" => oneImmediate mnemonic l .movi
  | "addi" => oneImmediate mnemonic l .addi
  | "subi" => oneImmediate mnemonic l .subi
  | "call" =>
    match l.args with
    | [.name s] => .ok (.call s)
    | _ => .error (.notName mnemonic l.line)
  | _ => .error (.mnemonicUnknown l.mnemonic l.line)

/-- The lines of a text; there is one more than there are line ends. -/
def splitLines : List Char → List (List Char)
  | [] => [[]]
  | c :: rest =>
    match splitLines rest with
    | l :: ls => if c = '\n' then [] :: l :: ls else (c :: l) :: ls
    | [] => [[c]]

def isSpace (c : Char) : Bool :=
  c = ' ' || c = '\t' || c = '\n' || c = '\r' || c = '\x0b' || c = '\x0c'

def bare (l : List Char) : String :=
  let code := (l.takeWhile (· ≠ ';')).dropWhile isSpace
  String.ofList (code.reverse.dropWhile isSpace).reverse

def assembleLines (source : Array (List Char)) (ls : List Line) :
    Except Error (List ProgramLine) :=
  ls.mapM fun l => do
    return { instr := ← decode l, line := l.line, text := bare (source.getD (l.line - 1) []) }

def assembleChars (cs : List Char) : Except Error (List ProgramLine) := do
  assembleLines (splitLines cs).toArray (← lines (← lexemes 1 1 cs))

/-- The program that a text stands for. Mnemonics and registers may be written in either case;
`sp` is an operand of `mov`, `push` and `pop` only. -/
def assemble (code : List UInt8) : Except Error (List ProgramLine) :=
  assembleChars (Text.decodeBytes code)

end OnePass.Assembly
