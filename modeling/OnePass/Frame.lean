import OnePass.Text.Column
import OnePass.Types.Basic

namespace OnePass

structure Variable where
  name : String
  line : Int
  type : Ty
  address : Int
  scope : Int
deriving DecidableEq, Repr

def Variable.size (v : Variable) : Except Fault Int := v.type.size

/-- An open scope other than the outermost, with the depth at which it was opened. -/
structure Scope where
  id : Int
  depth : Int
deriving DecidableEq, Repr

/-- A declaration that would share a slot with the last live variable. -/
structure Overlap where
  name : String
  address : Int
  last : Variable
deriving DecidableEq, Repr

def Overlap.text (o : Overlap) : String :=
  "frame address " ++ toString o.address ++ " for " ++ o.name ++ " overlaps " ++ o.last.name ++
    " at " ++ toString o.last.address

/-- The variables of a compilation and the depth of its evaluation stack. Variables are listed
latest first, open scopes innermost first; the outermost scope has the id 0 and is always open.
Closing a scope hides its variables and removes none. An address is the slot of a variable's first
word, counted from the bottom of the frame. -/
structure Frame where
  vars : List Variable := []
  scopes : List Scope := []
  closed : List Int := []
  next : Int := 1
  depth : Int := 0
deriving Repr, Inhabited

namespace Frame

def scope (f : Frame) : Int :=
  match f.scopes with
  | [] => 0
  | s :: _ => s.id

def nested (f : Frame) : Bool := !f.scopes.isEmpty

def push (f : Frame) (n : Int) : Frame := { f with depth := wrap (f.depth + n) }

def pop (f : Frame) (n : Int) : Except Fault Frame :=
  let depth := wrap (f.depth - n)
  if depth < 0 then .error (.underflow depth) else .ok { f with depth }

def enter (f : Frame) : Int × Frame :=
  (f.next, { f with scopes := ⟨f.next, f.depth⟩ :: f.scopes, next := f.next + 1 })

/-- Closes the innermost scope and gives the words that it held. -/
def exit (f : Frame) : Except Fault (Int × Frame) :=
  match f.scopes with
  | [] => .error .outermostScope
  | s :: outer =>
    .ok (wrap (f.depth - s.depth),
      { f with scopes := outer, closed := s.id :: f.closed, depth := s.depth })

def isLive (f : Frame) (v : Variable) : Bool := !f.closed.contains v.scope

def visible (f : Frame) : List Variable := f.vars.filter f.isLive

def live (f : Frame) : List Variable := f.visible.reverse

/-- The latest visible variable of that name. -/
def lookup (f : Frame) (name : String) : Option Variable :=
  f.visible.find? (·.name = name)

def liveWords (f : Frame) : Except Fault Int :=
  (f.live.mapM Variable.size).map fun sizes => wrap (sizes.foldr (· + ·) 0)

/-- Whether `address` lies before the end of the last visible variable. -/
def overlap? (f : Frame) (name : String) (address : Int) : Except Fault (Option Overlap) :=
  match f.visible with
  | [] => .ok none
  | last :: _ =>
    last.size.map fun size =>
      if address < wrap (last.address + size) then some ⟨name, address, last⟩ else none

def add (f : Frame) (name : String) (line : Int) (type : Ty) (address : Int) : Variable × Frame :=
  let v := { name, line, type, address, scope := f.scope }
  (v, { f with vars := v :: f.vars })

def declare (f : Frame) (name : String) (line : Int) (type : Ty) (address : Int) :
    Except Fault (Except Overlap (Variable × Frame)) :=
  (f.overlap? name address).map fun
    | some o => .error o
    | none => .ok (f.add name line type address)

def row (v : Variable) : Except Fault String := do
  let size ← v.size
  let type ← v.type.text?
  return "  " ++ Text.column 20 v.name ++ "  Address: " ++ toString v.address ++ " (Size: " ++
    toString size ++ ", Type: " ++ type ++ ", Scope: " ++ toString v.scope ++ ")\n"

def text (f : Frame) : Except Fault String :=
  if f.live.isEmpty then .ok "Variables: (empty)\n"
  else do
    let rows ← f.live.mapM row
    return "Variables:\n" ++ String.join rows

end Frame

end OnePass
