import OnePass.Text.Column
import OnePass.Text.Quoted

namespace OnePass

/-- Numbers outside the fixed classes are kept, so that they can be named in messages. -/
inductive TokenType where
  | eof
  | identifier
  | integer
  | var
  | struct
  | void
  | u16
  | i16
  | lbrace
  | rbrace
  | lparen
  | rparen
  | semicolon
  | comma
  | assign
  | plus
  | minus
  | star
  | amp
  | unknown (n : Int)
deriving DecidableEq, Repr, Inhabited

namespace TokenType

def name : TokenType → String
  | eof => "EOF"
  | identifier => "IDENTIFIER"
  | integer => "INTEGER"
  | var => "VAR"
  | struct => "STRUCT"
  | void => "VOID"
  | u16 => "U16"
  | i16 => "I16"
  | lbrace => "LBRACE"
  | rbrace => "RBRACE"
  | lparen => "LPAREN"
  | rparen => "RPAREN"
  | semicolon => "SEMICOLON"
  | comma => "COMMA"
  | assign => "ASSIGN"
  | plus => "PLUS"
  | minus => "MINUS"
  | star => "STAR"
  | amp => "AMP"
  | unknown n => s!"TokenType({n})"

def keyword? : String → Option TokenType
  | "var" => some var
  | "struct" => some struct
  | "void" => some void
  | "u16" => some u16
  | "i16" => some i16
  | _ => none

def mark? (b : UInt8) : Option TokenType :=
  match Char.ofNat b.toNat with
  | '=' => some assign
  | '+' => some plus
  | '-' => some minus
  | '*' => some star
  | '&' => some amp
  | ';' => some semicolon
  | ',' => some comma
  | '(' => some lparen
  | ')' => some rparen
  | '\x7b' => some lbrace
  | '\x7d' => some rbrace
  | _ => none

end TokenType

/-- Only identifiers carry a name and only integers a value. Lines count from 1. -/
structure Token where
  type : TokenType
  name : String := ""
  value : Int := 0
  line : Int := 0
deriving DecidableEq, Repr, Inhabited

namespace Token

def isStar (t : Token) : Bool := t.type = .star

def text (t : Token) : String :=
  match t.type with
  | .identifier => t.name
  | .integer => toString t.value
  | .eof => ""
  | .var => "var"
  | .struct => "struct"
  | .void => "void"
  | .u16 => "u16"
  | .i16 => "i16"
  | .lbrace => "\x7b"
  | .rbrace => "\x7d"
  | .lparen => "("
  | .rparen => ")"
  | .semicolon => ";"
  | .comma => ","
  | .assign => "="
  | .plus => "+"
  | .minus => "-"
  | .star => "*"
  | .amp => "&"
  | .unknown n => (TokenType.unknown n).name

def inWords (t : Token) : String :=
  match t.type with
  | .eof => "end of input"
  | .identifier => "identifier " ++ Text.quote t.name
  | .integer => "integer " ++ toString t.value
  | _ => Text.quote t.text

def row (t : Token) : String :=
  Text.column 10 t.type.name ++ " " ++ Text.column 14 (Text.quote t.text) ++ "  line " ++
    toString t.line

end Token

end OnePass
