import OnePass.Text.Quoted

namespace OnePass.Command

structure Options where
  path : String := ""
  showTokens : Bool := false
  showSymbols : Bool := false
  run : Bool := false
deriving DecidableEq, Repr

inductive UsageError where
  | pathMissing
  | unknownOption (arg : String)
deriving DecidableEq, Repr

def usage : String := "usage: minicc <file> [--tokens] [--symbols] [--run]"

def UsageError.message : UsageError → String
  | .pathMissing => "filepath argument missing\n" ++ usage
  | .unknownOption arg => "unknown option " ++ Text.quote arg ++ "\n" ++ usage

namespace Options

def withFlags (o : Options) : List String → Options × Option UsageError
  | [] => (o, none)
  | "--tokens" :: args => withFlags { o with showTokens := true } args
  | "--symbols" :: args => withFlags { o with showSymbols := true } args
  | "--run" :: args => withFlags { o with run := true } args
  | arg :: _ => (o, some (.unknownOption arg))

/-- The first argument is the path, whatever it looks like. -/
def parse : List String → Options × Option UsageError
  | [] => ({}, some .pathMissing)
  | path :: args => withFlags { path } args

end Options

end OnePass.Command
