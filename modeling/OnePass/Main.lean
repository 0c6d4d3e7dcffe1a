import OnePass.Command.Output
import OnePass.Command.Path

namespace OnePass

open Command

def readSource (full : String) : IO (Except OpenError (List UInt8)) := do
  try
    return .ok (← IO.FS.readBinFile full).toList
  catch e =>
    match e with
    | .inappropriateType .. => return .error .isDirectory
    | .noFileOrDirectory .. => return .error .missing
    | _ => return .error .notDirectory

def runCommand (args : List String) : IO Exit := do
  match Options.parse args with
  | (_, some e) => return misuse e
  | (o, none) => do
    let buffer ← IO.getEnv "MINICC_BUFFER_SIZE"
    let steps ← IO.getEnv "MINICC_MAX_STEPS"
    let trace ← IO.getEnv "MINICC_TRACE"
    let settings := Settings.ofEnvironment fun
      | "MINICC_BUFFER_SIZE" => buffer
      | "MINICC_MAX_STEPS" => steps
      | "MINICC_TRACE" => trace
      | _ => none
    let full := (Path.absolute (toString (← IO.currentDir)) o.path).toString
    return Command.exit settings (Command.output o settings full (← readSource full))

end OnePass

def main (args : List String) : IO UInt32 := do
  let exit ← OnePass.runCommand args
  IO.print exit.out
  IO.eprint exit.err
  return exit.status.toUInt32
