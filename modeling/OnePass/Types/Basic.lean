import OnePass.Fault
import OnePass.Size

namespace OnePass

inductive Primitive where
  | void
  | u16
  | i16
  | struct
  | untyped
  | unknown (n : Int)
deriving DecidableEq, Repr, Inhabited

namespace Primitive

def name : Primitive → String
  | void => "void"
  | u16 => "u16"
  | i16 => "i16"
  | struct => "struct"
  | untyped => "untyped"
  | unknown n => s!"Primitive({n})"

end Primitive

/-- What tells struct types apart. A definition draws a number of its own. -/
inductive TypeId where
  | builtin
  | drawn (n : Nat)
deriving DecidableEq, Repr, Inhabited

/-- A type without its fields, as a field refers to it. -/
structure TypeHead where
  prim : Primitive
  size : Int
  name : String
  id : TypeId := .builtin
deriving DecidableEq, Repr, Inhabited

def starred (name : String) (depth : Int) : String :=
  name ++ String.ofList (List.replicate depth.toNat '*')

/-- A depth below zero cannot be written, nor one without an end. -/
def starred? (name : String) (depth : Int) : Except Fault String :=
  if depth < 0 then .error .negativeStars
  else if fitsInMemory 1 depth then .ok (starred name depth)
  else .error .countOutOfRange

structure Field where
  name : String
  type : Option TypeHead
  depth : Int
  offset : Int
deriving DecidableEq, Repr

namespace Field

def typeText (f : Field) : Except Fault String :=
  match f.type with
  | none => .ok "<nil>"
  | some t => starred? t.name f.depth

def text (f : Field) : Except Fault String :=
  f.typeText.map (· ++ " " ++ f.name ++ " @" ++ toString f.offset)

end Field

structure TypeInfo extends TypeHead where
  fields : List Field := []
deriving DecidableEq, Repr, Inhabited

namespace TypeInfo

def void : TypeInfo := { prim := .void, size := 0, name := "void" }

def u16 : TypeInfo := { prim := .u16, size := 1, name := "u16" }

def i16 : TypeInfo := { prim := .i16, size := 1, name := "i16" }

def untyped : TypeInfo := { prim := .untyped, size := 1, name := "untyped int" }

def field? (t : TypeInfo) (name : String) : Option Field :=
  t.fields.find? (·.name = name)

/-- Structs are the same when their identities are, other types when their kinds are. -/
def same (t u : TypeInfo) : Bool :=
  t.prim = u.prim && (t.prim ≠ .struct || t.id = u.id)

def text (t : TypeInfo) : Except Fault String :=
  if t.prim = .struct then do
    let fields ← t.fields.mapM Field.text
    return "struct " ++ t.name ++ " (Size: " ++ toString t.size ++ ") \x7b" ++
      ";".intercalate (fields.map (" " ++ ·)) ++ " \x7d"
  else .ok t.name

end TypeInfo

/-- A type at a pointer depth. The base is missing where no type was given. -/
structure Ty where
  base : Option TypeInfo := none
  depth : Int := 0
deriving DecidableEq, Repr, Inhabited

namespace Ty

def untyped : Ty := ⟨some .untyped, 0⟩

def text (t : Ty) : String :=
  match t.base with
  | none => "<nil>"
  | some b => starred b.name t.depth

/-- The text where a depth below zero is a fault. -/
def text? (t : Ty) : Except Fault String :=
  match t.base with
  | none => .ok "<nil>"
  | some b => starred? b.name t.depth

def info (t : Ty) : Except Fault TypeInfo :=
  match t.base with
  | none => .error .missingType
  | some b => .ok b

/-- A pointer takes one word whatever it points to. -/
def size (t : Ty) : Except Fault Int :=
  if 0 < t.depth then .ok 1 else t.info.map (·.size)

def isScalar (t : Ty) : Except Fault Bool :=
  if 0 < t.depth then .ok true
  else t.info.map fun b => b.prim = .u16 || b.prim = .i16 || b.prim = .untyped

def isUntyped (t : Ty) : Except Fault Bool :=
  if t.depth ≠ 0 then .ok false else t.info.map (·.prim = .untyped)

/-- Same base, compared also where it is missing. -/
def sameBase (t u : Ty) : Bool :=
  match t.base, u.base with
  | some a, some b => a.same b
  | none, none => true
  | _, _ => false

def same (t u : Ty) : Bool := t.sameBase u && t.depth = u.depth

/-- Whether a value of type `v` may be stored in a slot of type `t`. An untyped integer fits any
integer slot that is not a pointer. -/
def accepts (t v : Ty) : Except Fault Bool := do
  if ← v.isUntyped then
    if t.depth = 0 then return (← t.info).prim ∈ [.u16, .i16] else return false
  else return t.same v

end Ty

end OnePass
