import OnePass.Directive
import OnePass.Frame
import OnePass.Token.Basic

namespace OnePass

inductive ErrorKind where
  | tokenize
  | parse
  | type
  | internal
  | unknown (n : Int)
deriving DecidableEq, Repr

namespace ErrorKind

def name : ErrorKind → String
  | tokenize => "tokenize"
  | parse => "parse"
  | type => "type"
  | internal => "internal"
  | unknown n => s!"Kind({n})"

end ErrorKind

structure Report where
  kind : ErrorKind
  line : Int
  text : String
  cause : String
deriving DecidableEq, Repr

/-- A line that is not positive is not shown. -/
def Report.message (r : Report) : String :=
  (if 0 < r.line then "line " ++ toString r.line ++ ": " else "") ++
    r.kind.name ++ " error: " ++ r.text

def Report.isKind (r : Report) (kind : ErrorKind) : Bool := r.kind = kind

inductive Expected where
  | structName
  | structBody
  | fieldName
  | fieldEnd (field : String)
  | variableName
deriving DecidableEq, Repr

def Expected.text : Expected → String
  | .structName => "struct name"
  | .structBody => "\"\x7b\" after struct name"
  | .fieldName => "field name"
  | .fieldEnd field => "\";\" after field " ++ field
  | .variableName => "variable name"

inductive Problem where
  | tokenTooLong (capacity : Nat)
  | invalidCount (count : Int)
  | readFailed (text : String)
  | noProgress
  | literalTooLong (digits : String)
  | unexpectedByte (b : UInt8)
  | expected (what : Expected) (got : Token)
  | structTaken (name : String)
  | structUnterminated (name : String)
  | fieldTypeUnknown (got : Token) (struct : String)
  | structInItself (name : String)
  | fieldWithoutSize (field : String) (type : Ty)
  | fieldTaken (field struct : String)
  | structEmpty (name : String)
  | blockUnmatched
  | blockUnterminated
  | statementUnterminated
  | varInside
  | unexpectedInStatement (got : Token)
  | operatorExpected (got : Token)
  | operandExpected (got : Token)
  | literalTooLarge (n : Int)
  | variableUndefined (name : String)
  | typeUnknown (got : Token)
  | variableWithoutSize (name : String) (type : Ty)
  | declarationAsOperand (operator : DirectiveKind)
  | leftOperandMissing (operator : DirectiveKind)
  | notAddressable (place : Place)
  | notAssignable
  | operandBeforeParen
  | parenUnmatched
  | expressionBeforeParen
  | argumentMissing
  | commaOutsideCall
  | expressionPerArgument
  | operandBeforeSemicolon
  | parenUnclosed
  | entriesLeft (count : Nat)
  | typeOrValueMissing (name : String)
  | notPointer (type : Ty)
  | voidValue
  | aggregateValue (type : Ty)
  | cannotInitialize (name : String) (type value : Ty)
  | cannotAssign (type value : Ty)
  | literalOutOfType (n : Int) (type : String)
  | operandsMismatched (operator : DirectiveKind) (left right : Ty)
  | operandMissing (operator : DirectiveKind) (index entries : Nat)
  | noReduction (directive : Directive)
  | slotTaken (overlap : Overlap)
  | wordsLeft (count : Int)
  | endedOn (directive : Directive)
deriving DecidableEq, Repr

namespace Problem

def maxDigits : Nat := 11

def kind : Problem → ErrorKind
  | tokenTooLong _ | invalidCount _ | readFailed _ | noProgress | literalTooLong _
  | unexpectedByte _ => .tokenize
  | notPointer _ | voidValue | aggregateValue _ | cannotInitialize .. | cannotAssign ..
  | literalOutOfType .. | operandsMismatched .. => .type
  | operandMissing .. | noReduction _ | slotTaken _ | wordsLeft _ | endedOn _ => .internal
  | _ => .parse

def cause : Problem → String
  | tokenTooLong _ => "token length limit exceeded"
  | invalidCount _ => "short buffer"
  | readFailed text => text
  | noProgress => "multiple Read calls return no data or error"
  | literalTooLong _ => "integer literal too long"
  | unexpectedByte _ => "unexpected byte"
  | structTaken _ | fieldTaken .. => "duplicate definition"
  | fieldTypeUnknown .. | variableUndefined _ | typeUnknown _ => "undefined name"
  | blockUnmatched | blockUnterminated | parenUnmatched | parenUnclosed =>
    "unbalanced parenthesis"
  | literalTooLarge _ | literalOutOfType .. => "integer literal out of range"
  | notPointer _ | voidValue | cannotInitialize .. | cannotAssign .. | operandsMismatched .. =>
    "type mismatch"
  | aggregateValue _ => "unsupported operation"
  | operandMissing .. | noReduction _ | slotTaken _ | wordsLeft _ | endedOn _ =>
    "unhandled directive"
  | _ => "unexpected token"

def text : Problem → String
  | tokenTooLong capacity =>
    "token longer than the " ++ toString capacity ++ " byte lookahead buffer"
  | invalidCount count => "reader returned invalid count " ++ toString count
  | readFailed text => "read failed: " ++ text
  | noProgress => "reader made no progress"
  | literalTooLong digits =>
    "integer literal " ++ digits ++ " has more than " ++ toString maxDigits ++ " digits"
  | unexpectedByte b => "unexpected byte " ++ Text.quoteByte b
  | expected what got => "expected " ++ what.text ++ ", got " ++ got.inWords
  | structTaken name => "struct " ++ name ++ " already defined"
  | structUnterminated name => "unterminated struct " ++ name
  | fieldTypeUnknown got struct =>
    "unknown field type " ++ got.inWords ++ " in struct " ++ struct
  | structInItself name => "struct " ++ name ++ " cannot contain itself"
  | fieldWithoutSize field type => "field " ++ field ++ " cannot have type " ++ type.text
  | fieldTaken field struct => "duplicate field " ++ field ++ " in struct " ++ struct
  | structEmpty name => "struct " ++ name ++ " has no fields"
  | blockUnmatched => "unmatched \"\x7d\""
  | blockUnterminated => "unterminated block"
  | statementUnterminated => "missing \";\" at end of input"
  | varInside => "\"var\" must start a statement"
  | unexpectedInStatement got => "unexpected " ++ got.inWords ++ " in statement"
  | operatorExpected got => "unexpected " ++ got.inWords ++ ", expected an operator"
  | operandExpected got => "unexpected " ++ got.inWords ++ ", expected an operand"
  | literalTooLarge n => "integer " ++ toString n ++ " does not fit in a 16-bit word"
  | variableUndefined name => "undefined variable " ++ Text.quote name
  | typeUnknown got => "unknown type " ++ got.inWords
  | variableWithoutSize name type =>
    "variable " ++ Text.quote name ++ " cannot have type " ++ type.text
  | declarationAsOperand operator =>
    "declaration used as an operand of " ++ Text.quote operator.name
  | leftOperandMissing operator => Text.quote operator.name ++ " has no left operand"
  | notAddressable place => "cannot take the address of a " ++ place.name ++ " operand"
  | notAssignable => "left side of \"=\" is not assignable"
  | operandBeforeParen => "expected an operand before \")\""
  | parenUnmatched => "unmatched \")\""
  | expressionBeforeParen => "expected one expression before \")\""
  | argumentMissing => "missing argument before \",\""
  | commaOutsideCall => "\",\" outside of a call"
  | expressionPerArgument => "expected one expression per argument"
  | operandBeforeSemicolon => "expected an operand before \";\""
  | parenUnclosed => "unclosed \"(\""
  | entriesLeft count =>
    "malformed statement: " ++ toString count ++ " entries left after reduction"
  | typeOrValueMissing name =>
    "declaration of " ++ Text.quote name ++ " needs a type or an initializer"
  | notPointer type => "cannot dereference non-pointer of type " ++ type.text
  | voidValue => "void value used in an expression"
  | aggregateValue type => type.text ++ " values can only be declared and addressed"
  | cannotInitialize name type value =>
    "cannot initialize " ++ type.text ++ " " ++ Text.quote name ++ " with " ++ value.text
  | cannotAssign type value => "cannot assign " ++ value.text ++ " to " ++ type.text
  | literalOutOfType n type => "integer " ++ toString n ++ " does not fit in " ++ type
  | operandsMismatched operator left right =>
    "mismatched operands of " ++ Text.quote operator.name ++ ": " ++ left.text ++ " and " ++
      right.text
  | operandMissing operator index entries =>
    "operator " ++ operator.name ++ " at " ++ toString index ++
      " has no operand on top of a " ++ toString entries ++ " entry stack"
  | noReduction directive => "no reduction for directive " ++ directive.text
  | slotTaken overlap => overlap.text
  | wordsLeft count => toString count ++ " evaluation stack words left after statement"
  | endedOn directive => "statement ended on " ++ directive.text

end Problem

structure Diagnostic where
  line : Int
  problem : Problem
deriving DecidableEq, Repr

namespace Diagnostic

def report (d : Diagnostic) : Report :=
  ⟨d.problem.kind, d.line, d.problem.text, d.problem.cause⟩

def message (d : Diagnostic) : String := d.report.message

end Diagnostic

end OnePass
