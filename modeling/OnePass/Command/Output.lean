import OnePass.Assembly.Program
import OnePass.Command.Options
import OnePass.Command.Settings
import OnePass.Compile
import OnePass.Machine.Host

namespace OnePass.Command

inductive OpenError where
  | missing
  | notDirectory
  | isDirectory
deriving DecidableEq, Repr

def OpenError.message (full : String) : OpenError → String
  | .missing => "stat " ++ full ++ ": no such file or directory"
  | .notDirectory => "stat " ++ full ++ ": not a directory"
  | .isDirectory => full ++ " is a directory"

inductive Failure where
  | notOpened (path full : String) (why : OpenError)
  | notCompiled (why : Stop)
  | notAssembled (why : Assembly.Error)
  | notRun (why : Halt)
deriving Repr

def Failure.message : Failure → String
  | .notOpened path full why => "failed to open file " ++ path ++ ": " ++ why.message full
  | .notCompiled why => why.message
  | .notAssembled why => "run failed: " ++ why.message
  | .notRun why => "run failed: " ++ why.message

def Failure.fault? : Failure → Option Fault
  | .notCompiled (.crash f) | .notRun (.crash f) => some f
  | _ => none

/-- What the command printed, what it logged, and how it failed. -/
structure Output where
  out : String := ""
  log : List String := []
  failure : Option Failure := none

namespace Output

def text (r : Output) (s : String) : Output := { r with out := r.out ++ s }

def fail (r : Output) (f : Failure) : Output := { r with failure := some f }

def logText (r : Output) : String := String.join (r.log.map (· ++ "\n"))

end Output

def info (message : String) : String := "INFO  " ++ message

def debug (e : Event) : String := "DEBUG " ++ e.message

def tokenRows (ts : List Token) : String := String.join (ts.map ("  " ++ ·.row ++ "\n"))

def summary (c : Cpu) : String :=
  let k := c.core
  s!"r0={k.r0} r1={k.r1} r2={k.r2} sp={k.sp} steps={c.steps}\n"

def printedRows (c : Cpu) : String := String.join (c.core.printed.map fun w => s!"{w}\n")

def runListing (maxSteps : Int) (code : String) (r : Output) : Output :=
  match Assembly.assembleChars code.toList with
  | .error e => r.fail (.notAssembled e)
  | .ok program =>
    let cpu := (({} : Cpu).register "print" .print).register "max" .max
    match (cpu.load program.toArray).run maxSteps with
    | .ok () c => (r.text (printedRows c)).text (summary c)
    | .error halt c => (r.text (printedRows c)).fail (.notRun halt)

def symbols (s : Session) (r : Output) : Output :=
  match s.frame.text with
  | .ok vars => r.text (s.types.text ++ vars)
  | .error f => r.fail (.notCompiled (.crash f))

def present (o : Options) (settings : Settings) (compiled : Compiled) (r : Output) : Output :=
  let r := r.text s!"Count: {compiled.tokens.length}\n"
  let r := if o.showTokens then r.text (tokenRows compiled.tokens) else r
  match compiled.stop with
  | some why => r.fail (.notCompiled why)
  | none =>
    let code := listing compiled.session.code.toList
    let r := r.text code
    let r := if o.showSymbols then symbols compiled.session r else r
    if o.run ∧ r.failure.isNone then runListing settings.maxSteps code r else r

/-- Compiles and shows an opened source. A fault leaves nothing to show. -/
def compileSource (o : Options) (settings : Settings) (source : List UInt8) (r : Output) :
    Output :=
  let compiled := compileFeed .serial { bytes := source } (some settings.bufferSize)
  let r := { r with log := r.log ++ compiled.trace.toList.map debug }
  match compiled.stop with
  | some (.crash f) => r.fail (.notCompiled (.crash f))
  | _ => present o settings compiled r

def output (o : Options) (settings : Settings) (full : String)
    (source : Except OpenError (List UInt8)) : Output :=
  match source with
  | .error why => { failure := some (.notOpened o.path full why) }
  | .ok bytes => compileSource o settings bytes { log := [info ("compiling " ++ full)] }

structure Exit where
  status : UInt8
  out : String
  err : String

/-- The command as a process. The log is shown only where tracing is on. Of a fault only the
status and the message are given, not where it was raised. -/
def exit (settings : Settings) (r : Output) : Exit :=
  let log := if settings.trace then r.logText else ""
  match r.failure with
  | none => ⟨0, r.out, log⟩
  | some failure =>
    match failure.fault? with
    | some f => ⟨2, r.out, log ++ "panic: " ++ f.message?.getD "" ++ "\n"⟩
    | none => ⟨1, r.out, log ++ "minicc: " ++ failure.message ++ "\n"⟩

def misuse (e : UsageError) : Exit := ⟨1, "", e.message ++ "\n"⟩

end OnePass.Command
