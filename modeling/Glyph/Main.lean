import Glyph.CommandLine

/-!
# The program

The outermost layer: it hands the arguments, the files and the environment of the process to
`Glyph.CommandLine.run`, and writes what that gives.
-/

namespace Glyph

def fileError (e : IO.Error) : CommandLine.FileError :=
  match e with
  | .noFileOrDirectory .. => .missing
  | .inappropriateType _ code _ =>
    if code.toNat = CommandLine.FileError.notAFolder.code then .notAFolder else .folder
  | .permissionDenied _ code _ => ⟨code.toNat, "Permission denied"⟩
  | e => ⟨5, toString e⟩

def readFile (path : String) : IO (Except CommandLine.FileError (List UInt8)) := do
  try
    let content ← IO.FS.readBinFile path
    return .ok content.toList
  catch e => return .error (fileError e)

def execute (args : List String) : IO UInt32 := do
  let level ← IO.getEnv "LOGLEVEL"
  let content ← match CommandLine.request args with
    | .ok (.run o) => readFile (CommandLine.normalPath o.program)
    | _ => pure (.error .missing)
  match CommandLine.run (fun _ => content) args level with
  | .ok r =>
    IO.print r.stdout
    IO.eprint r.stderr
    return UInt32.ofNat r.code
  | .error m =>
    IO.eprintln m.message
    return 1

end Glyph

def main (args : List String) : IO UInt32 := Glyph.execute args
