import Mathlib
import OnePass.Token.Lexer

namespace OnePass.Munch

open Lexer

/-- Tokens up to the first error, and that error. -/
abbrev Result := List Token × Option Diagnostic

/-- The line of the byte that follows `before`. -/
def lineAfter (before : List UInt8) : Nat := 1 + before.count 10

def decimal (digits : List UInt8) : Int :=
  digits.foldl (fun n b => n * 10 + (b.toNat - 48 : Int)) 0

/-- The token of a run that starts with a digit. -/
def number (line : Nat) (digits : List UInt8) : Except Diagnostic Token :=
  if Problem.maxDigits < digits.length then .error ⟨line, .literalTooLong (ascii digits)⟩
  else .ok { type := .integer, value := decimal digits, line }

/-- The token of a run that starts with a letter. -/
def word (line : Nat) (bytes : List UInt8) : Except Diagnostic Token :=
  match TokenType.keyword? (ascii bytes) with
  | some type => .ok { type, line }
  | none => .ok { type := .identifier, name := ascii bytes, line }

/-- The bytes of the token that starts with `b`, and the token or the error that they make. -/
def cut (limit line : Nat) (b : UInt8) (bs : List UInt8) : List UInt8 × Except Diagnostic Token :=
  if isDigit b then
    let run := b :: bs.takeWhile isDigit
    (run, if limit ≤ run.length then .error ⟨line, .tokenTooLong limit⟩ else number line run)
  else if isLetter b then
    let run := b :: bs.takeWhile isAlnum
    (run, if limit ≤ run.length then .error ⟨line, .tokenTooLong limit⟩ else word line run)
  else
    ([b], match TokenType.mark? b with
      | some type => .ok { type, line }
      | none => .error ⟨line, .unexpectedByte b⟩)

theorem cut_pos (limit line : Nat) (b : UInt8) (bs : List UInt8) :
    0 < (cut limit line b bs).1.length := by
  unfold cut
  split_ifs <;> simp

/-- Lexes `rest`, the bytes that follow `before`. No buffer takes part; a limit on the length of a
run is all that is left of one. -/
def lex (limit : Nat) (before rest : List UInt8) : Result :=
  match rest with
  | [] => ([], none)
  | b :: bs =>
    if isBlank b then lex limit (before ++ [b]) bs
    else
      let piece := cut limit (lineAfter before) b bs
      match piece.2 with
      | .error e => ([], some e)
      | .ok tok =>
        let more := lex limit (before ++ piece.1) ((b :: bs).drop piece.1.length)
        (tok :: more.1, more.2)
termination_by rest.length
decreasing_by
  · simp
  · have := cut_pos limit (lineAfter before) b bs
    simp only [List.length_drop, List.length_cons]
    omega

end OnePass.Munch
