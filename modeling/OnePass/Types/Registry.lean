import OnePass.Token.Basic
import OnePass.Types.Basic

namespace OnePass

/-- Where definitions draw their numbers from: no number is drawn twice. -/
structure IdSupply where
  draw : Nat → Nat
  injective : ∀ {m n}, draw m = draw n → m = n

def IdSupply.serial : IdSupply := ⟨id, id⟩

instance : Inhabited IdSupply := ⟨.serial⟩

/-- Latest registration first. -/
structure Registry where
  entries : List (String × Option TypeInfo) := []
  ids : IdSupply := .serial
deriving Inhabited

namespace Registry

def lookup (r : Registry) (name : String) : Option (Option TypeInfo) :=
  r.entries.lookup name

def insert (r : Registry) (name : String) (t : Option TypeInfo) : Registry :=
  { r with entries := (name, t) :: r.entries }

def nextId (r : Registry) : TypeId := .drawn (r.ids.draw r.entries.length)

def register? (r : Registry) (name : String) (t : Option TypeInfo) : Option Registry :=
  if (r.lookup name).isSome then none else some (r.insert name t)

def taken (name : String) : String :=
  "duplicate definition: type " ++ name ++ " already defined"

/-- The type that a token names: a builtin keyword, or a registered identifier. -/
def resolve (r : Registry) (t : Token) : Option (Option TypeInfo) :=
  match t.type with
  | .void => some (some .void)
  | .u16 => some (some .u16)
  | .i16 => some (some .i16)
  | .identifier => r.lookup t.name
  | _ => none

def sorted (r : Registry) : List (String × Option TypeInfo) :=
  r.entries.mergeSort fun a b => decide (a.1 ≤ b.1)

def names (r : Registry) : List String := r.sorted.map (·.1)

/-- One line of the table. A layout that cannot be written shows why. -/
def row : Option TypeInfo → String
  | none => "  <nil>\n"
  | some t =>
    match t.text with
    | .ok layout => "  " ++ layout ++ "\n"
    | .error f => "  %!s(PANIC=String method: " ++ f.message?.getD "" ++ ")\n"

def text (r : Registry) : String :=
  if r.entries.isEmpty then "Structs: (empty)\n"
  else "Structs:\n" ++ String.join (r.sorted.map fun e => row e.2)

end Registry

end OnePass
