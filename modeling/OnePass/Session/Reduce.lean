import OnePass.Session.Emit

namespace OnePass.Build

def requireScalar (d : Directive) : Build Unit := do
  unless ← sound d.operand.type.isScalar do
    let line := (← tokenAt d.tok).line
    if (← sound d.operand.type.info).prim = .void then reject line .voidValue
    else reject line (.aggregateValue d.operand.type)

def requireRange (line : Int) (t : Ty) (o : Operand) : Build Unit := do
  unless ← sound (o.fits t) do
    match o.place with
    | .immediate n => reject line (.literalOutOfType n (← sound t.info).name)
    | _ => pure ()

/-- A dereference is put off until the operand is loaded. -/
def dereference (op : Token) (d : Directive) : Build Directive := do
  let o := d.operand
  if o.type.depth = 0 then reject op.line (.notPointer o.type)
  else
    return { d with operand :=
      { o with
        type := { o.type with depth := wrap (o.type.depth - 1) }
        derefs := wrap (o.derefs + 1) } }

def result (tok : Int) (type : Ty) : Directive :=
  ⟨.value, tok, { type, place := .stack }⟩

def takeAddress (op : Token) (d : Directive) : Build Directive := do
  let o := d.operand
  if d.hasAddress then
    locate o
    push .r0
    return result d.tok { o.type with depth := wrap (o.type.depth + 1) }
  else reject op.line (.notAddressable o.place)

def declare (name : Token) (type : Ty) (address : Int) : Build Unit := do
  match ← sound ((← get).frame.declare name.name name.line type address) with
  | .error overlap => reject name.line (.slotTaken overlap)
  | .ok (v, frame) => do
    modify fun s => { s with frame }
    note (.declare v.type v.name v.address)

/-- The type of a variable declared as `declared` with a value of type `given`. Without a type of
its own it has that of the value, or `u16`. -/
def initialType (name : Token) (declared given : Ty) : Build Ty := do
  if declared.base.isNone then
    if ← sound given.isUntyped then return { given with base := some .u16 } else return given
  else
    if ← sound (declared.accepts given) then return declared
    else reject name.line (.cannotInitialize name.name declared given)

/-- A declaration with a value: the word on the evaluation stack becomes the variable's slot. -/
def define (decl value : Directive) : Build Unit := do
  let name ← tokenAt decl.tok
  requireScalar value
  let type ← initialType name decl.operand.type value.operand.type
  requireRange name.line type value.operand
  let _ ← spill value.operand
  declare name type (wrap ((← get).frame.depth - 1))

def store (op : Token) (lhs rhs : Directive) : Build Unit := do
  unless lhs.hasAddress do reject op.line .notAssignable
  requireScalar lhs
  requireScalar rhs
  let target := lhs.operand.type
  let given := rhs.operand.type
  unless ← sound (target.accepts given) do reject op.line (.cannotAssign target given)
  requireRange op.line target rhs.operand
  let _ ← load rhs.operand .r1
  locate lhs.operand
  emit [.str .r0 .r1]

/-- The operand that the result of an arithmetic operator takes after: an untyped operand adopts
the type of the other. -/
def adopt (kind : DirectiveKind) (op : Token) (lhs rhs : Directive) : Build Directive := do
  let l := lhs.operand
  let r := rhs.operand
  let mismatch {α : Type} : Build α :=
    reject op.line (.operandsMismatched kind l.type r.type)
  match ← sound l.type.isUntyped, ← sound r.type.isUntyped with
  | true, true => return lhs
  | true, false =>
    unless ← sound (r.type.accepts l.type) do mismatch
    requireRange op.line r.type l
    return rhs
  | false, true =>
    unless ← sound (l.type.accepts r.type) do mismatch
    requireRange op.line l.type r
    return lhs
  | false, false => if l.type.same r.type then return lhs else mismatch

def arithmetic (kind : DirectiveKind) : Instr :=
  match kind.alu? with
  | some op => .alu op .r1 .r2
  | none => .unknown (-1) .r1 .r2

/-- Stack operands are popped from the top before any slot is reached, so that slots are reached
from the final depth. -/
def combine (kind : DirectiveKind) (op : Token) (lhs rhs : Directive) : Build Directive := do
  requireScalar lhs
  requireScalar rhs
  let like ← adopt kind op lhs rhs
  let right ← if rhs.operand.place = .stack then load rhs.operand .r2 else pure rhs.operand
  let left ← if lhs.operand.place = .stack then load lhs.operand .r1 else pure lhs.operand
  let _ ← load right .r2
  let _ ← load left .r1
  emit [arithmetic kind]
  push .r1
  return result like.tok like.operand.type

def reduceBinary (op : Directive) (tok : Token) (rhs : Directive) :
    (below : List Directive) → Build { stack : List Directive // stack.length ≤ below.length }
  | [] => reject tok.line (.leftOperandMissing op.kind)
  | lhs :: rest =>
    if lhs.kind.isOperator || lhs.kind.opensGroup then
      reject tok.line (.leftOperandMissing op.kind)
    else
      match op.kind with
      | .assign => do
        if lhs.kind = .declaration then define lhs rhs else store tok lhs rhs
        return ⟨rest, by simp⟩
      | .add | .sub | .mul =>
        if lhs.kind = .declaration then reject tok.line (.declarationAsOperand op.kind)
        else do
          let value ← combine op.kind tok lhs rhs
          return ⟨value :: rest, by simp⟩
      | _ => reject tok.line (.noReduction op)

def reduceOver (op : Directive) (tok : Token) (rhs : Directive) (below : List Directive) :
    Build { stack : List Directive // stack.length ≤ below.length + 1 } :=
  match rhs.kind with
  | .value =>
    match op.kind with
    | .deref => do
      let value ← dereference tok rhs
      return ⟨value :: below, by simp⟩
    | .addressOf => do
      let value ← takeAddress tok rhs
      return ⟨value :: below, by simp⟩
    | _ => do
      let reduced ← reduceBinary op tok rhs below
      return ⟨reduced.1, Nat.le_succ_of_le reduced.2⟩
  | .declaration => reject tok.line (.declarationAsOperand op.kind)
  | _ => reject tok.line (.operandMissing op.kind below.length (below.length + 2))

/-- Reduces the operator `op` of the stack `above ++ op :: below`, which must have exactly one value
above it, and gives the stack that results. -/
def reduceSplit : (above : List Directive) → (op : Directive) → (below : List Directive) →
    Build { stack : List Directive // stack.length < (above ++ op :: below).length }
  | [rhs], op, below => do
    let reduced ← reduceOver op (← tokenAt op.tok) rhs below
    return ⟨reduced.1, by have := reduced.2; simp; omega⟩
  | above, op, below => do
    reject (← tokenAt op.tok).line
      (.operandMissing op.kind below.length (above.length + 1 + below.length))

/-- Splits a stack at the topmost entry of a class, unless one that blocks it comes first. -/
def splitTop (wanted blocks : DirectiveKind → Bool) :
    List Directive → Option (List Directive × Directive × List Directive)
  | [] => none
  | d :: rest =>
    if wanted d.kind then some ([], d, rest)
    else if blocks d.kind then none
    else (splitTop wanted blocks rest).map fun (above, e, below) => (d :: above, e, below)

theorem splitTop_eq {wanted blocks : DirectiveKind → Bool} {stack above below : List Directive}
    {d : Directive} (h : splitTop wanted blocks stack = some (above, d, below)) :
    stack = above ++ d :: below := by
  induction stack generalizing above with
  | nil => simp [splitTop] at h
  | cons e rest ih =>
    simp only [splitTop] at h
    split at h
    · simp_all
    · split at h
      · simp at h
      · obtain ⟨⟨a, d', b⟩, hs, heq⟩ := Option.map_eq_some_iff.1 h
        simp only [Prod.mk.injEq] at heq
        obtain ⟨rfl, rfl, rfl⟩ := heq
        simp [ih hs]

/-- The topmost pending operator above every open parenthesis. -/
def splitOperator := splitTop DirectiveKind.isOperator DirectiveKind.opensGroup

def splitGroup := splitTop DirectiveKind.opensGroup fun _ => false

/-- Reduces pending operators from the top while they bind at least as tightly as `threshold`. A
prefix operator always reduces: its operand is complete and nothing else can claim it. -/
def reduceStack (threshold : Int) (stack : List Directive) : Build Unit :=
  match _h : splitOperator stack with
  | none => pure ()
  | some (above, op, below) =>
    if op.kind.precedence < threshold ∧ !op.kind.isUnary then pure ()
    else do
      note (.reduce op.kind below.length stack.length threshold)
      let reduced ← reduceSplit above op below
      setStack reduced.1
      reduceStack threshold reduced.1
termination_by stack.length
decreasing_by
  have := splitTop_eq _h
  exact this ▸ reduced.2

def reduce (threshold : Int) : Build Unit := do
  reduceStack threshold (← get).stack

def reduceEntry (i : Int) : Build Unit := do
  let stack := (← get).stack
  let above := stack.take (stack.length - 1 - i.toNat)
  match stack.drop (stack.length - 1 - i.toNat) with
  | op :: below =>
    if i < 0 ∨ stack.length ≤ i then throw (.crash .missingEntry)
    else setStack (← reduceSplit above op below).1
  | [] => throw (.crash .missingEntry)

end OnePass.Build
