import OnePass.Text.Numeral

namespace OnePass.Command

structure Settings where
  bufferSize : Int := 64
  maxSteps : Int := 100000
  trace : Bool := false
deriving DecidableEq, Repr

namespace Settings

def affirmatives : List String :=
  ["absolutely", "affirmative", "enable", "enabled", "positive", "t", "true", "y", "yes"]

/-- The number one, or an affirmative in lower case, in capitals or with a capital. -/
def isTrue (s : String) : Bool :=
  s = "1" || affirmatives.any fun w => s = w || s = w.capitalize || s = w.toUpper

def integer (default : Int) (value : Option String) : Int :=
  match value.map Text.readDecimal with
  | some (.ok n) => n
  | _ => default

/-- What is not set, or cannot be read, keeps its default. -/
def ofEnvironment (env : String → Option String) : Settings where
  bufferSize := integer 64 (env "MINICC_BUFFER_SIZE")
  maxSteps := integer 100000 (env "MINICC_MAX_STEPS")
  trace := (env "MINICC_TRACE").any isTrue

end Settings

end OnePass.Command
