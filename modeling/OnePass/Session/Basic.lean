import OnePass.Diagnostic
import OnePass.Trace
import OnePass.Types.Registry

namespace OnePass

/-- Why a step did not finish. -/
inductive Stop where
  | reject (d : Diagnostic)
  | crash (f : Fault)
deriving DecidableEq, Repr

def Stop.message : Stop → String
  | .reject d => d.message
  | .crash f => f.message?.getD ""

/-- Sources compiled in the same session see each other's types and variables, and what a step did
before it stopped stays done. The directive stack is listed top first. -/
structure Session where
  types : Registry := {}
  frame : Frame := {}
  code : Array Instr := #[]
  tokens : Array Token := #[]
  stack : List Directive := []
  expectOperand : Bool := false
  trace : Array Event := #[]
deriving Inhabited

abbrev Build := EStateM Stop Session

namespace Session

def fresh (ids : IdSupply) : Session := { types := { ids } }

/-- The token at an index; outside the source, one of type `eof` without a line. -/
def token (s : Session) (i : Int) : Token :=
  if i < 0 then { type := .eof } else s.tokens.getD i.toNat { type := .eof }

def endToken (s : Session) : Token :=
  { type := .eof, line := (s.tokens.back?.map (·.line)).getD 1 }

end Session

namespace Build

def reject {α : Type} (line : Int) (problem : Problem) : Build α :=
  throw (.reject ⟨line, problem⟩)

/-- Goes on with a value, or crashes with a fault. -/
def sound {α : Type} : Except Fault α → Build α
  | .ok a => pure a
  | .error f => throw (.crash f)

def note (e : Event) : Build Unit :=
  modify fun s => { s with trace := s.trace.push e }

def tokenAt (i : Int) : Build Token := return (← get).token i

def setStack (stack : List Directive) : Build Unit :=
  modify fun s => { s with stack }

def setExpectOperand (expectOperand : Bool) : Build Unit :=
  modify fun s => { s with expectOperand }

end Build

end OnePass
