namespace OnePass

inductive Fault where
  /-- More words popped than the evaluation stack holds; `depth` is the depth reached. -/
  | underflow (depth : Int)
  | outermostScope
  | missingType
  | missingEntry
  | missingRegister
  | missingInstruction
  | countOutOfRange
  | negativeStars
deriving DecidableEq, Repr

def Fault.message? : Fault → Option String
  | .underflow depth => some s!"frame: evaluation stack underflow ({depth})"
  | .outermostScope => some "ExitScope called on the outermost scope"
  | .negativeStars => some "strings: negative Repeat count"
  | _ => none

end OnePass
