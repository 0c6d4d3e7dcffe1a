import OnePass.Session.Reduce

namespace OnePass.Build

def pushEntry (d : Directive) (tok : Token) : Build Unit := do
  if (← get).expectOperand then setStack (d :: (← get).stack)
  else reject tok.line (.operatorExpected tok)

def pushTerm (d : Directive) (tok : Token) : Build Unit := do
  pushEntry d tok
  setExpectOperand false

def pushOperator (kind : DirectiveKind) (i : Nat) (tok : Token) : Build Unit := do
  if (← get).expectOperand then reject tok.line (.operandExpected tok)
  else do
    reduce kind.precedence
    setStack ({ kind, tok := i } :: (← get).stack)
    setExpectOperand true

def useLiteral (i : Nat) (tok : Token) : Build Unit := do
  if 65535 < tok.value then reject tok.line (.literalTooLarge tok.value)
  else pushTerm ⟨.value, i, { type := .untyped, place := .immediate tok.value }⟩ tok

def useVariable (i : Nat) (tok : Token) : Build Unit := do
  match (← get).frame.lookup tok.name with
  | none => reject tok.line (.variableUndefined tok.name)
  | some v => pushTerm ⟨.value, i, { type := v.type, place := .frame v.address }⟩ tok

/-- A star is a dereference where an operand is due and a product elsewhere. -/
def pushStar (i : Nat) (tok : Token) : Build Unit := do
  if (← get).expectOperand then pushEntry { kind := .deref, tok := i } tok
  else pushOperator .mul i tok

def passArgument (arg marker : Directive) (args : Int) (below : List Directive) : Build Unit := do
  requireScalar arg
  let _ ← spill arg.operand
  setStack ({ marker with kind := .call (wrap (args + 1)) } :: below)

/-- Calls the function of a marker whose arguments are all on the evaluation stack. -/
def finishCall (marker : Directive) (args : Int) (below : List Directive) : Build Unit := do
  let name := (← tokenAt marker.tok).name
  call name args
  note (.call name args)
  setStack (result marker.tok .untyped :: below)
  setExpectOperand false

/-- Closes the nearest parenthesis or call. An empty pair is a call without arguments. -/
def closeGroup (tok : Token) : Build Unit := do
  let s ← get
  if s.expectOperand then
    match s.stack with
    | marker :: below =>
      match marker.kind with
      | .call args =>
        if 0 < args then reject tok.line .operandBeforeParen else finishCall marker args below
      | _ => reject tok.line .operandBeforeParen
    | [] => reject tok.line .operandBeforeParen
  else do
    reduce 0
    match splitGroup (← get).stack with
    | none => reject tok.line .parenUnmatched
    | some ([arg], marker, below) =>
      match marker.kind with
      | .call args => do
        passArgument arg marker args below
        finishCall marker (wrap (args + 1)) below
      | _ => setStack (arg :: below)
    | some _ => reject tok.line .expressionBeforeParen

def nextArgument (tok : Token) : Build Unit := do
  if (← get).expectOperand then reject tok.line .argumentMissing
  else do
    reduce 0
    match splitGroup (← get).stack with
    | none => reject tok.line .commaOutsideCall
    | some (above, marker, below) =>
      match marker.kind with
      | .call args =>
        match above with
        | [arg] => do
          passArgument arg marker args below
          setExpectOperand true
        | _ => reject tok.line .expressionPerArgument
      | _ => reject tok.line .commaOutsideCall

/-- Completes what a statement came down to: a variable is declared with zeros, a scalar is left in
`r1`, and any other value is dropped. -/
def settle (d : Directive) : Build Unit := do
  let name ← tokenAt d.tok
  let type := d.operand.type
  match d.kind with
  | .declaration =>
    if type.base.isNone then reject name.line (.typeOrValueMissing name.name)
    else do
      let size ← sound type.size
      let address := (← get).frame.depth
      zeros size
      declare name type address
  | .value =>
    if ← sound type.isScalar then
      let _ ← load d.operand .r1
    else if (← sound type.info).prim = .void then requireScalar d
    else if d.operand.place = .stack then pop .r1
  | _ => reject name.line (.endedOn d)

/-- Words on the evaluation stack that belong to no variable. -/
def temporaries (f : Frame) : Except Fault Int :=
  f.liveWords.map fun words => wrap (f.depth - words)

def conclude (tok : Token) : Build Unit := do
  let s ← get
  if s.expectOperand && !s.stack.isEmpty then reject tok.line .operandBeforeSemicolon
  reduce 0
  let stack := (← get).stack
  if let some (_, marker, _) := splitGroup stack then
    reject (← tokenAt marker.tok).line .parenUnclosed
  match stack with
  | [] => pure ()
  | [d] => do
    setStack []
    settle d
  | _ => reject tok.line (.entriesLeft stack.length)
  let words ← sound (temporaries (← get).frame)
  unless words = 0 do reject tok.line (.wordsLeft words)

/-- Compiles the tokens of a statement from the `i`-th token of the source on, up to its
semicolon. -/
def terms (i : Nat) : List Token → Build Unit
  | [] => do reject (← get).endToken.line .statementUnterminated
  | tok :: rest =>
    match tok.type with
    | .semicolon => conclude tok
    | .eof => reject tok.line .statementUnterminated
    | .var => reject tok.line .varInside
    | .integer => do
      useLiteral i tok
      terms (i + 1) rest
    | .identifier =>
      match rest with
      | paren :: rest' =>
        if paren.type = .lparen then do
          pushEntry { kind := .call 0, tok := i } tok
          terms (i + 2) rest'
        else do
          useVariable i tok
          terms (i + 1) (paren :: rest')
      | [] => do
        useVariable i tok
        terms (i + 1) []
    | .lparen => do
      pushEntry { kind := .openParen, tok := i } tok
      terms (i + 1) rest
    | .rparen => do
      closeGroup tok
      terms (i + 1) rest
    | .comma => do
      nextArgument tok
      terms (i + 1) rest
    | .assign => do
      pushOperator .assign i tok
      terms (i + 1) rest
    | .plus => do
      pushOperator .add i tok
      terms (i + 1) rest
    | .minus => do
      pushOperator .sub i tok
      terms (i + 1) rest
    | .star => do
      pushStar i tok
      terms (i + 1) rest
    | .amp => do
      pushEntry { kind := .addressOf, tok := i } tok
      terms (i + 1) rest
    | _ => reject tok.line (.unexpectedInStatement tok)

/-- Whether a declaration gives a type: a keyword, or an identifier before the name or a star. -/
def isTyped : List Token → Bool
  | tok :: rest =>
    match tok.type with
    | .u16 | .i16 | .void => true
    | .identifier =>
      match rest with
      | next :: _ => next.type = .identifier || next.type = .star
      | [] => false
    | _ => false
  | [] => false

def declaredType (ts : List Token) : Build (Ty × Nat) := do
  match ts with
  | tok :: rest =>
    if isTyped ts then
      match (← get).types.resolve tok with
      | none => reject tok.line (.typeUnknown tok)
      | some base =>
        let stars := (rest.takeWhile Token.isStar).length
        return (⟨base, stars⟩, stars + 1)
    else return ({}, 0)
  | [] => return ({}, 0)

def openDeclaration (i : Nat) (ts : List Token) : Build Nat := do
  let (type, n) ← declaredType ts
  let name := (ts.drop n).headD (← get).endToken
  unless name.type = .identifier do reject name.line (.expected .variableName name)
  if isTyped ts then
    if (← sound type.size) = 0 then reject name.line (.variableWithoutSize name.name type)
  pushTerm ⟨.declaration, (i + n : Nat), { type }⟩ name
  return n + 1

/-- Compiles a statement that starts with the `i`-th token. Only its first token may be `var`. -/
def statement (i : Nat) (ts : List Token) : Build Unit := do
  setStack []
  setExpectOperand true
  match ts with
  | tok :: rest =>
    if tok.type = .var then
      let n ← openDeclaration (i + 1) rest
      terms (i + 1 + n) (rest.drop n)
    else terms i ts
  | [] => terms i ts

end OnePass.Build
