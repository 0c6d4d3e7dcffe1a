import OnePass.Session.Statement
import OnePass.Session.StructDef
import OnePass.Token.Lexer

namespace OnePass

namespace Build

def readStruct (ts : List Token) :
    Build { p : TypeInfo × List Token // p.2.length ≤ ts.length } := fun s =>
  match h : StructDef.parse s.types s.endToken ts with
  | .ok p => .ok ⟨p, StructDef.length_parse h⟩ s
  | .error e => .error e s

def registerStruct (t : TypeInfo) : Build Unit := do
  modify fun s => { s with types := s.types.insert t.name t }
  note (.struct t.name t.size t.fields.length)

def openBlock : Build Unit := do
  let (id, frame) := (← get).frame.enter
  modify fun s => { s with frame }
  note (.enterScope id frame.depth)

/-- Closes a block and drops the words of its variables. -/
def closeBlock (tok : Token) : Build Unit := do
  if (← get).frame.nested then do
    let (words, frame) ← sound (← get).frame.exit
    modify fun s => { s with frame }
    if 0 < words then drop words
  else reject tok.line .blockUnmatched

def endSource (tok : Token) : Build Unit := do
  if (← get).frame.nested then reject tok.line .blockUnterminated

def afterSemicolon (ts : List Token) : List Token :=
  (ts.dropWhile (·.type ≠ .semicolon)).tail

theorem length_afterSemicolon_lt (tok : Token) (ts : List Token) :
    (afterSemicolon (tok :: ts)).length < (tok :: ts).length := by
  have := (List.dropWhile_sublist (l := tok :: ts) (·.type ≠ .semicolon)).length_le
  simp only [afterSemicolon, List.length_tail, List.length_cons] at this ⊢
  omega

/-- Compiles from the `i`-th token on. A token of type `eof` ends the source. -/
def items (i : Nat) (ts : List Token) : Build Unit :=
  match ts with
  | [] => do endSource (← get).endToken
  | tok :: rest =>
    match tok.type with
    | .eof => endSource tok
    | .struct => do
      let read ← readStruct rest
      registerStruct read.1.1
      items (i + (rest.length + 1 - read.1.2.length)) read.1.2
    | .lbrace => do
      openBlock
      items (i + 1) rest
    | .rbrace => do
      closeBlock tok
      items (i + 1) rest
    | _ => do
      statement i (tok :: rest)
      let next := afterSemicolon (tok :: rest)
      items (i + (rest.length + 1 - next.length)) next
termination_by ts.length
decreasing_by
  · exact Nat.lt_succ_of_le read.2
  · simp
  · simp
  · exact length_afterSemicolon_lt tok rest

def compile (ts : List Token) : Build Unit := do
  modify fun s => { s with tokens := ts.toArray }
  items 0 ts

end Build

/-- Runs a step; the session is what the step left, also where it stopped. -/
def Session.run {α : Type} (s : Session) (step : Build α) : Except Stop α × Session :=
  match EStateM.run step s with
  | .ok a s => (.ok a, s)
  | .error e s => (.error e, s)

/-- The outcome of compiling one source. -/
structure Compiled where
  tokens : List Token
  session : Session
  stop : Option Stop
  trace : Array Event

/-- Lexes a feed through a new buffer and compiles it in a new session. The first error
ends the compilation. -/
def compileFeed (ids : IdSupply) (feed : Feed) (size : Option Int) : Compiled :=
  match Lexer.allotBuffer size with
  | .error f => ⟨[], .fresh ids, some (.crash f), #[]⟩
  | .ok () =>
    let lexed := tokenize feed size
    match lexed.error with
    | some e => ⟨lexed.tokens, .fresh ids, some (.reject e), lexed.trace⟩
    | none =>
      match (Session.fresh ids).run (Build.compile lexed.tokens) with
      | (.ok (), s) => ⟨lexed.tokens, s, none, lexed.trace ++ s.trace⟩
      | (.error e, s) => ⟨lexed.tokens, s, some e, lexed.trace ++ s.trace⟩

end OnePass
