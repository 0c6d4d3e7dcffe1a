import OnePass.Session.Basic

namespace OnePass

structure Layout where
  fields : List Field := []
  size : Int := 0

def Layout.add (l : Layout) (name : String) (type : Ty) (size : Int) : Layout :=
  { fields := l.fields ++ [⟨name, type.base.map (·.toTypeHead), type.depth, l.size⟩]
    size := wrap (l.size + size) }

/-- Where a definition is read: the types known, the name it defines, and the token that stands
after the last one. -/
structure StructDef where
  types : Registry
  name : String
  atEnd : Token

namespace StructDef

/-- The struct itself, as its own fields see it: they may only point to it. -/
def self (d : StructDef) : TypeInfo :=
  { prim := .struct, size := 0, name := d.name, id := d.types.nextId }

def stop {α : Type} (tok : Token) (problem : Problem) : Except Stop α :=
  .error (.reject ⟨tok.line, problem⟩)

/-- Whether a field type is the struct being defined. -/
def isSelf (d : StructDef) (tok : Token) : Bool :=
  tok.type = .identifier && tok.name = d.name

def resolve (d : StructDef) (tok : Token) : Option (Option TypeInfo) :=
  if d.isSelf tok then some (some d.self) else d.types.resolve tok

def addField (d : StructDef) (l : Layout) (type : Ty) (isSelf : Bool) (name : Token) :
    Except Stop Layout := do
  if isSelf ∧ type.depth = 0 then stop name (.structInItself d.name)
  let size ← type.size.mapError .crash
  if size = 0 then stop name (.fieldWithoutSize name.name type)
  if (l.fields.find? (·.name = name.name)).isSome then stop name (.fieldTaken name.name d.name)
  return l.add name.name type size

/-- Reads fields up to the closing brace, and gives what follows it. -/
def body (d : StructDef) (l : Layout) : List Token → Except Stop (Layout × List Token)
  | [] => stop d.atEnd (.structUnterminated d.name)
  | tok :: rest =>
    match tok.type with
    | .rbrace => .ok (l, rest)
    | .eof => stop tok (.structUnterminated d.name)
    | _ =>
      match d.resolve tok with
      | none => stop tok (.fieldTypeUnknown tok d.name)
      | some base =>
        match _h : rest.dropWhile Token.isStar with
        | [] => stop d.atEnd (.expected .fieldName d.atEnd)
        | name :: rest' =>
          if name.type ≠ .identifier then stop name (.expected .fieldName name)
          else
            let type := ⟨base, (rest.takeWhile Token.isStar).length⟩
            match d.addField l type (d.isSelf tok) name with
            | .error e => .error e
            | .ok l' =>
              match rest' with
              | [] => stop d.atEnd (.expected (.fieldEnd name.name) d.atEnd)
              | semi :: rest'' =>
                if semi.type ≠ .semicolon then stop semi (.expected (.fieldEnd name.name) semi)
                else body d l' rest''
termination_by ts => ts.length
decreasing_by
  have := (List.dropWhile_sublist (l := rest) Token.isStar).length_le
  simp only [_h, List.length_cons] at this ⊢
  omega

theorem length_body {d : StructDef} {l l' : Layout} {ts rest : List Token}
    (h : d.body l ts = .ok (l', rest)) : rest.length < ts.length := by
  fun_induction body d l ts with
  | case2 l tok rest =>
    simp only [Except.ok.injEq, Prod.mk.injEq] at h
    simp [← h.2]
  | case10 =>
    rename_i hd ih
    have hle := congrArg List.length hd ▸ (List.dropWhile_sublist Token.isStar).length_le
    have := ih h
    simp only [List.length_cons] at hle ⊢
    omega
  | _ => simp_all [stop]

def skipSemicolon : List Token → List Token
  | tok :: rest => if tok.type = .semicolon then rest else tok :: rest
  | [] => []

/-- Reads a definition from the token after `struct` on, and gives what follows it. -/
def parse (types : Registry) (atEnd : Token) : List Token → Except Stop (TypeInfo × List Token)
  | [] => stop atEnd (.expected .structName atEnd)
  | name :: rest =>
    if name.type ≠ .identifier then stop name (.expected .structName name)
    else if (types.lookup name.name).isSome then stop name (.structTaken name.name)
    else
      match rest with
      | [] => stop atEnd (.expected .structBody atEnd)
      | brace :: rest' =>
        if brace.type ≠ .lbrace then stop brace (.expected .structBody brace)
        else
          let d : StructDef := ⟨types, name.name, atEnd⟩
          match d.body {} rest' with
          | .error e => .error e
          | .ok (l, rest'') =>
            if l.fields.isEmpty then stop name (.structEmpty name.name)
            else .ok ({ d.self with size := l.size, fields := l.fields }, skipSemicolon rest'')

theorem length_skipSemicolon (ts : List Token) : (skipSemicolon ts).length ≤ ts.length := by
  unfold skipSemicolon
  split
  · split <;> simp
  · simp

theorem length_parse {types : Registry} {atEnd : Token} {ts rest : List Token} {info : TypeInfo}
    (h : parse types atEnd ts = .ok (info, rest)) : rest.length ≤ ts.length := by
  unfold parse at h
  split at h
  · simp [stop] at h
  split at h
  · simp [stop] at h
  split at h
  · simp [stop] at h
  split at h
  · simp [stop] at h
  split at h
  · simp [stop] at h
  dsimp only at h
  split at h
  · simp at h
  · rename_i hbody
    have hlt := length_body hbody
    split at h
    · simp [stop] at h
    · simp only [Except.ok.injEq, Prod.mk.injEq] at h
      simp only [← h.2, List.length_cons]
      exact Nat.le_trans (length_skipSemicolon _) (by omega)

end StructDef

end OnePass
