import Glyph.CommandLine.Arguments
import Glyph.CommandLine.Log
import Glyph.CommandLine.SourceFile
import Glyph.Run

/-!
# The command line

The command runs the program in a file and reports the lines that failed. `run` is the whole of it
as a function: from a reader of files, the arguments and the word for the threshold of the log to
the exit code and what is written to the two streams. A source text with an integer of too many
digits, and a path with a null character, are not reported but passed on to the host.
-/

namespace Glyph.CommandLine

structure Report where
  code : Nat
  stdout : String
  stderr : String
  deriving DecidableEq, Repr

def usage : String := "usage: arrlang [-h] [--keep-going] [--show-env] program\n"

def helpText : String :=
  usage ++
    "\nRun an arrlang program file.\n" ++
    "\npositional arguments:\n" ++
    "  program       source file, one statement per line\n" ++
    "\noptions:\n" ++
    "  -h, --help    show this help message and exit\n" ++
    "  --keep-going  report a failing line and continue with the next one\n" ++
    "  --show-env    print the final variable bindings after the run\n"

def lineRecords (l : LineResult) : List LogRecord :=
  let place := "line " ++ Decimal.natural l.index
  ⟨.debug, place ++ ": " ++ l.line.label⟩ ::
    l.events.filterMap (fun e =>
      match e with
      | .assigned name v => some ⟨.debug, "assign " ++ name ++ " = " ++ v.render⟩
      | .printed _ => none) ++
    (match l.result with
      | .error f => [⟨.debug, place ++ " failed: " ++ f.message⟩]
      | .ok _ => [])

def failureRecords (path : String) (l : LineResult) : List LogRecord :=
  match l.result with
  | .error f =>
    [⟨.error, path ++ ": statement " ++ Decimal.natural (l.index + 1) ++ ": " ++ f.title ++ ": " ++
      f.message⟩]
  | .ok _ => []

def bindingLines (env : Env) : String :=
  String.join (env.bindings.map fun b => b.1 ++ " = " ++ b.2.render ++ "\n")

def reportRun (limit : Nat) (path : String) (showEnv : Bool) (r : Run) : Report where
  code := if r.ok then 0 else 1
  stdout := Event.output r.events ++ (if showEnv then bindingLines r.env else "")
  stderr := logText limit (r.lines.flatMap lineRecords ++ r.lines.flatMap (failureRecords path))

def refusal (limit : Nat) (message : String) : Report where
  code := 2
  stdout := ""
  stderr := logText limit [⟨.error, message⟩]

def runProgram (reader : FileReader) (limit : Nat) (o : Options) : Except Misuse Report :=
  let path := normalPath o.program
  if path.toList.contains '\x00' then .error .nullInPath
  else
    match readSource reader path with
    | .error e => .ok (refusal limit ("Error reading " ++ path ++ ": " ++ e.message))
    | .ok source =>
      match parseProgram source with
      | .error (.tooManyDigits n) => .error (.tooManyDigits n)
      | .error (.malformed e) => .ok (refusal limit (path ++ ": " ++ e.message))
      | .ok lines =>
        let r := Run.program o.keepGoing lines Env.empty
        match r.halt with
        | some h => .error h.cause
        | none => .ok (reportRun limit path o.showEnv r)

def run (reader : FileReader) (args : List String) (level : Option String) :
    Except Misuse Report :=
  match request args with
  | .error e => .ok ⟨2, "", usage ++ "arrlang: error: " ++ e.message ++ "\n"⟩
  | .ok .help => .ok ⟨0, helpText, ""⟩
  | .ok (.run o) => runProgram reader (threshold level) o

end Glyph.CommandLine
