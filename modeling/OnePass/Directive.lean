import OnePass.Machine.Instr
import OnePass.Types.Basic

namespace OnePass

/-- A call counts the arguments already pushed. -/
inductive DirectiveKind where
  | value
  | declaration
  | openParen
  | call (args : Int)
  | assign
  | add
  | sub
  | mul
  | addressOf
  | deref
  | unknown (n : Int)
deriving DecidableEq, Repr, Inhabited

namespace DirectiveKind

def name : DirectiveKind → String
  | value => "value"
  | declaration => "declaration"
  | openParen => "("
  | call _ => "call"
  | assign => "="
  | add => "+"
  | sub => "-"
  | mul => "*"
  | addressOf => "&"
  | deref => "unary *"
  | unknown n => s!"DirectiveKind({n})"

/-- Higher binds tighter; operands have none. -/
def precedence : DirectiveKind → Int
  | assign | declaration => 1
  | add | sub => 2
  | addressOf | deref => 2
  | mul => 3
  | call _ => 4
  | value | openParen | unknown _ => 0

/-- A number past the known operators counts as one too. -/
def isOperator : DirectiveKind → Bool
  | assign | add | sub | mul | addressOf | deref => true
  | unknown n => 10 ≤ n
  | value | declaration | openParen | call _ => false

def isUnary : DirectiveKind → Bool
  | addressOf | deref => true
  | _ => false

/-- Entries that no reduction passes. -/
def opensGroup : DirectiveKind → Bool
  | openParen | call _ => true
  | _ => false

def alu? : DirectiveKind → Option Alu
  | add => some .add
  | sub => some .sub
  | mul => some .mul
  | _ => none

end DirectiveKind

inductive Place where
  | immediate (n : Int)
  | frame (address : Int)
  | stack
  | register (r : Reg)
  | unknown (n : Int)
deriving DecidableEq, Repr

namespace Place

def name : Place → String
  | immediate _ => "immediate"
  | frame _ => "frame"
  | stack => "stack"
  | register _ => "register"
  | unknown n => s!"Location({n})"

def text (p : Place) : String :=
  match p with
  | immediate n => p.name ++ " #" ++ toString n
  | frame address => p.name ++ " @" ++ toString address
  | register r => p.name ++ " " ++ r.name
  | stack | unknown _ => p.name

end Place

/-- A value with the dereferences still to be applied when it is loaded. -/
structure Operand where
  type : Ty := {}
  derefs : Int := 0
  place : Place := .immediate 0
deriving DecidableEq, Repr

namespace Operand

def text (o : Operand) : String :=
  "value(" ++ o.type.text ++ " " ++ o.place.text ++
    (if 0 < o.derefs then " deref " ++ toString o.derefs else "") ++ ")"

/-- A literal lies in the range of a slot of type `t`; what is no untyped literal always does. -/
def fits (o : Operand) (t : Ty) : Except Fault Bool := do
  match o.place with
  | .immediate n =>
    if ← o.type.isUntyped then return n ≤ if (← t.info).prim = .i16 then 32767 else 65535
    else return true
  | _ =>
    let _ ← o.type.isUntyped
    return true

end Operand

/-- An entry of the stack that parses a statement and emits its code in one pass. `tok` is the
index of the token that the entry stands for. -/
structure Directive where
  kind : DirectiveKind
  tok : Int := 0
  operand : Operand := {}
deriving DecidableEq, Repr

namespace Directive

def text (d : Directive) : String :=
  match d.kind with
  | .value => d.operand.text
  | .declaration => "declaration(" ++ d.operand.type.text ++ ")"
  | .call args => "call(" ++ toString args ++ " args)"
  | k => k.name

def hasAddress (d : Directive) : Bool :=
  d.kind = .value &&
    match d.operand.place with
    | .frame _ => true
    | .stack => 0 < d.operand.derefs
    | _ => false

end Directive

end OnePass
