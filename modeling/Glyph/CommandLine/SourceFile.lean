import Glyph.Text.Utf8

/-!
# Source files

The path of a program is brought into normal form: single slashes, no `.` and no slash at the end.
A file is read as UTF-8 with all line ends turned into line feeds. Where that fails, the reason is a
`ReadError`.

`Tree` is a file system as a value, and `Spot` a place in it from which paths are followed, one part
after the other: each part has to be found in a folder, and its length counts only there.
-/

namespace Glyph.CommandLine

/-- The parts of a path between slashes; empty parts and single points lead nowhere. -/
def pathParts (path : String) : List String :=
  (path.splitOn "/").filter fun part => part != "" && part != "."

/-- What a path starts with: nothing, or a slash, or two of them where there are exactly two. -/
def pathRoot (path : String) : String :=
  match (path.toList.takeWhile (· == '/')).length with
  | 0 => ""
  | 2 => "//"
  | _ => "/"

/-- The normal form of a path; the empty one is `.`. -/
def normalPath (path : String) : String :=
  let normal := pathRoot path ++ String.intercalate "/" (pathParts path)
  if normal.isEmpty then "." else normal

structure FileError where
  code : Nat
  words : String
  deriving DecidableEq, Repr

namespace FileError

def missing : FileError := ⟨2, "No such file or directory"⟩

def notAFolder : FileError := ⟨20, "Not a directory"⟩

def folder : FileError := ⟨21, "Is a directory"⟩

def tooLong : FileError := ⟨36, "File name too long"⟩

end FileError

inductive ReadError where
  | file (e : FileError) (path : String)
  | encoding (e : Text.Utf8Error)

def ReadError.message : ReadError → String
  | file e path =>
    "[Errno " ++ Decimal.natural e.code ++ "] " ++ e.words ++ ": " ++ Text.quote path
  | encoding e => e.message

abbrev FileReader := String → Except FileError (List UInt8)

def readSource (reader : FileReader) (path : String) : Except ReadError String :=
  match reader path with
  | .error e => .error (.file e path)
  | .ok bytes =>
    match Text.decodeUtf8 bytes with
    | .error e => .error (.encoding e)
    | .ok cs => .ok (String.ofList (Text.unifyLineEnds cs))

/-- A file, or a folder of named files and folders. -/
inductive Tree where
  | file (content : List UInt8)
  | folder (entries : List (String × Tree))

/-- A place in a file system: what is there, and the folders above it from the inside out. -/
structure Spot where
  here : Tree
  above : List Tree

namespace Spot

/-- The longest name of a file or a folder, in bytes. -/
def maxName : Nat := 255

/-- The longest path, in bytes. -/
def maxPath : Nat := 4095

/-- The folder above a place; above the outermost folder is that folder itself. -/
def outer (s : Spot) : Spot :=
  match s.above with
  | [] => s
  | t :: ts => ⟨t, ts⟩

def root (s : Spot) : Spot := ⟨s.above.getLast?.getD s.here, []⟩

def step (s : Spot) (part : String) : Except FileError Spot :=
  match s.here with
  | .file _ => .error .notAFolder
  | .folder entries =>
    if part = ".." then .ok s.outer
    else if maxName < part.utf8ByteSize then .error .tooLong
    else
      match entries.lookup part with
      | some t => .ok ⟨t, s.here :: s.above⟩
      | none => .error .missing

/-- The place that a path leads to, from the outermost folder where it starts with a slash. -/
def follow (s : Spot) (path : String) : Except FileError Spot :=
  if maxPath < path.utf8ByteSize then .error .tooLong
  else (pathParts path).foldlM step (if pathRoot path = "" then s else s.root)

def reader (s : Spot) : FileReader := fun path => do
  match (← s.follow path).here with
  | .file content => return content
  | .folder _ => .error .folder

end Spot

end Glyph.CommandLine
