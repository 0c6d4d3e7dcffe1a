namespace OnePass.Text

inductive NumeralError where
  | malformed
  | outOfRange
deriving Repr, DecidableEq

def NumeralError.message : NumeralError → String
  | .malformed => "invalid syntax"
  | .outOfRange => "value out of range"

def digitValue (c : Char) : Option Nat :=
  if '0' ≤ c ∧ c ≤ '9' then some (c.toNat - '0'.toNat) else none

/-- Reads digits from the left. A character that is no digit of the base and a value above 64 bits
are both refused where they first show. -/
def readDigits (base : Nat) : Nat → List Char → Except NumeralError Nat
  | n, [] => .ok n
  | n, c :: cs =>
    match digitValue c with
    | none => .error .malformed
    | some d =>
      if base ≤ d then .error .malformed
      else if 0x10000000000000000 ≤ n * base + d then .error .outOfRange
      else readDigits base (n * base + d) cs

def splitSign : List Char → Bool × List Char
  | '-' :: cs => (true, cs)
  | '+' :: cs => (false, cs)
  | cs => (false, cs)

def signed (negative : Bool) (n : Nat) : Except NumeralError Int :=
  if negative then if n ≤ 0x8000000000000000 then .ok (-n) else .error .outOfRange
  else if n < 0x8000000000000000 then .ok n else .error .outOfRange

def readDecimal (s : String) : Except NumeralError Int :=
  let (negative, digits) := splitSign s.toList
  if digits = [] then .error .malformed
  else (readDigits 10 0 digits).bind (signed negative)

/-- A numeral with an optional sign, octal when its first digit is 0 and decimal otherwise. -/
def readLiteral (s : String) : Except NumeralError Int :=
  let (negative, digits) := splitSign s.toList
  match digits with
  | [] => .error .malformed
  | '0' :: rest => (readDigits 8 0 rest).bind (signed negative)
  | _ => (readDigits 10 0 digits).bind (signed negative)

end OnePass.Text
