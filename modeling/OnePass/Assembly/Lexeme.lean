import OnePass.Text.Numeral
import OnePass.Text.Quoted

namespace OnePass.Assembly

inductive LexemeKind where
  | comment
  | eol
  | ident
  | int
  | punct
  | blank
  | eof
deriving DecidableEq, Repr

/-- Lines and columns count characters from 1. -/
structure Lexeme where
  kind : LexemeKind
  text : String
  line : Nat
  column : Nat
deriving DecidableEq, Repr

inductive Wanted where
  | int
  | operand
deriving DecidableEq, Repr

/-- Why instruction text was refused: it could not be read, or a line is no instruction. -/
inductive Error where
  | invalidText (line column : Nat) (rest : List Char)
  | unexpected (lexeme : Lexeme) (wanted : Option Wanted)
  | immediate (text : String) (why : Text.NumeralError)
  | operandCount (mnemonic : String) (count : Nat) (line : Nat)
  | notImmediate (mnemonic : String) (line : Nat)
  | notName (mnemonic : String) (line : Nat)
  | registerExpected (n : Int) (line : Nat)
  | registerUnknown (name : String) (line : Nat)
  | stackPointer (mnemonic : String) (line : Nat)
  | mnemonicUnknown (mnemonic : String) (line : Nat)
deriving DecidableEq, Repr

namespace Error

def excerptLength : Nat := 16

def excerpt (rest : List Char) : String :=
  String.ofList (rest.take excerptLength) ++ if excerptLength < rest.length then "..." else ""

def message : Error → String
  | invalidText line column rest =>
    s!"parse: {line}:{column}: invalid input text " ++ Text.quote (excerpt rest)
  | unexpected lexeme wanted =>
    "parse: " ++ toString lexeme.line ++ ":" ++ toString lexeme.column ++ ": unexpected token " ++
      Text.quote lexeme.text ++
      match wanted with
      | none => ""
      | some .int => " (expected <int>)"
      | some .operand => " (expected Operand)"
  | immediate text why =>
    "parse: operand.Imm: strconv.ParseInt: parsing " ++ Text.quote text ++ ": " ++ why.message
  | operandCount mnemonic count line =>
    s!"{mnemonic} expects {count} operand" ++ (if count = 1 then "" else "s") ++ s!" on line {line}"
  | notImmediate mnemonic line => s!"{mnemonic} expects one #immediate on line {line}"
  | notName mnemonic line => s!"{mnemonic} expects a name on line {line}"
  | registerExpected n line => s!"expected register on line {line}, got #{n}"
  | registerUnknown name line => s!"invalid register '{name}' on line {line}"
  | stackPointer mnemonic line => s!"{mnemonic} cannot use sp on line {line}"
  | mnemonicUnknown mnemonic line => s!"unknown instruction on line {line}: {mnemonic}"

end Error

def isDigit (c : Char) : Bool := '0' ≤ c && c ≤ '9'

def isIdentStart (c : Char) : Bool :=
  ('a' ≤ c && c ≤ 'z') || ('A' ≤ c && c ≤ 'Z') || c = '_'

def isIdent (c : Char) : Bool := isIdentStart c || isDigit c

def isBlank (c : Char) : Bool := c = ' ' || c = '\t'

/-- The kind of the lexeme that starts with `c`, and how many characters of `rest` belong to it. -/
def first? (c : Char) (rest : List Char) : Option (LexemeKind × Nat) :=
  if c = ';' then some (.comment, (rest.takeWhile (· ≠ '\n')).length)
  else if c = '\n' then some (.eol, 0)
  else if c = '\r' ∧ rest.head? = some '\n' then some (.eol, 1)
  else if isIdentStart c then some (.ident, (rest.takeWhile isIdent).length)
  else if isDigit c then some (.int, (rest.takeWhile isDigit).length)
  else if c = '-' ∧ (rest.takeWhile isDigit).length ≠ 0 then
    some (.int, (rest.takeWhile isDigit).length)
  else if c = '#' ∨ c = ',' then some (.punct, 0)
  else if isBlank c then some (.blank, (rest.takeWhile isBlank).length)
  else none

/-- Cuts up a text that starts at the given position. The last lexeme is the end of the text;
comments and blanks only separate. -/
def lexemes (line column : Nat) : List Char → Except Error (List Lexeme)
  | [] => .ok [⟨.eof, "<EOF>", line, column⟩]
  | c :: rest =>
    match first? c rest with
    | none => .error (.invalidText line column (c :: rest))
    | some (kind, n) =>
      let text := String.ofList (c :: rest.take n)
      let after :=
        if kind = .eol then lexemes (line + 1) 1 (rest.drop n)
        else lexemes line (column + n + 1) (rest.drop n)
      if kind = .comment ∨ kind = .blank then after
      else after.map (⟨kind, text, line, column⟩ :: ·)
termination_by cs => cs.length

end OnePass.Assembly
