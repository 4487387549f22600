import Glyph.Text.Digit
import Glyph.Text.Quoted

/-!
# The arguments of a command line

The command takes the path of a program and a few flags, in any order. A long flag may be shortened
as far as it stays unambiguous, `--` ends the flags, and what looks like a negative number or has a
space in it is no flag. An argument that is neither the path nor a flag is not recognised.

All arguments are classified before any of them is acted upon, so that an ambiguous flag is reported
first; then they are taken from left to right, and a request for help ends there. A missing path is
reported before arguments that are not recognised.
-/

namespace Glyph.CommandLine

inductive Flag where
  | help
  | keepGoing
  | showEnv
  deriving DecidableEq, Repr

def flagNames : List (String × Flag) :=
  [("-h", .help), ("--help", .help), ("--keep-going", .keepGoing), ("--show-env", .showEnv)]

def Flag.title (f : Flag) : String :=
  String.intercalate "/" ((flagNames.filter fun n => n.2 = f).map Prod.fst)

inductive Word where
  /-- An argument that is no flag. -/
  | operand
  /-- The end of the flags. -/
  | dashes
  /-- A flag. -/
  | flag (f : Flag)
  /-- A long flag with something after an equals sign. -/
  | assigned (f : Flag) (value : String)
  /-- A short flag with more characters after it, or after an equals sign. -/
  | bundled (f : Flag) (tail : List Char)
  /-- Something that looks like a flag. -/
  | unknown
  deriving DecidableEq, Repr

inductive ArgumentError where
  | ambiguous (argument : String) (candidates : List String)
  | ignoredValue (f : Flag) (value : String)
  | missingProgram
  | unrecognized (arguments : List String)
  deriving DecidableEq, Repr

def ArgumentError.message : ArgumentError → String
  | ambiguous a cs =>
    "ambiguous option: " ++ a ++ " could match " ++ String.intercalate ", " cs
  | ignoredValue f v => "argument " ++ f.title ++ ": ignored explicit argument " ++ Text.quote v
  | missingProgram => "the following arguments are required: program"
  | unrecognized as => "unrecognized arguments: " ++ String.intercalate " " as

def splitAssignment (cs : List Char) : List Char × Option (List Char) :=
  match cs.dropWhile (· != '=') with
  | [] => (cs, none)
  | _ :: value => (cs.takeWhile (· != '='), some value)

/-- Whether digits are all there is, maybe with a point before the last run of them. -/
def isNumber (cs : List Char) : Bool :=
  match cs.dropWhile Text.isDecimal with
  | [] => !cs.isEmpty
  | '.' :: fraction => !fraction.isEmpty && fraction.all Text.isDecimal
  | _ => false

def dropLineFeed (cs : List Char) : List Char :=
  if cs.getLast? = some '\n' then cs.dropLast else cs

def isNegativeNumber : List Char → Bool
  | '-' :: cs => isNumber cs || isNumber (dropLineFeed cs)
  | _ => false

/-- The word that a flag is with nothing or something after an equals sign. -/
def flagWord (long : Bool) (f : Flag) : Option (List Char) → Word
  | none => .flag f
  | some value => if long then .assigned f (String.ofList value) else .bundled f value

def classify (argument : String) : Except ArgumentError Word :=
  match argument.toList with
  | '-' :: c :: cs =>
    let (name, value) := splitAssignment ('-' :: c :: cs)
    match flagNames.lookup argument, flagNames.lookup (String.ofList name) with
    | some f, _ => .ok (.flag f)
    | none, some f => .ok (flagWord (c == '-') f value)
    | none, none =>
      let candidates :=
        if c = '-' then flagNames.filter fun n => name.isPrefixOf n.1.toList
        else flagNames.filter fun n => n.1.toList == ['-', c]
      match candidates with
      | [(_, f)] => .ok (if c = '-' then flagWord true f value else .bundled f cs)
      | [] =>
        if isNegativeNumber argument.toList || argument.toList.contains ' ' then .ok .operand
        else .ok .unknown
      | several => .error (.ambiguous argument (several.map Prod.fst))
  | _ => .ok .operand

def classifyAll : List String → Except ArgumentError (List (String × Word))
  | [] => .ok []
  | a :: as =>
    if a = "--" then .ok ((a, .dashes) :: as.map fun b => (b, .operand))
    else do
      let w ← classify a
      let ws ← classifyAll as
      return (a, w) :: ws

structure Options where
  program : String
  keepGoing : Bool
  showEnv : Bool
  deriving DecidableEq, Repr

structure Taken where
  program : Option String
  keepGoing : Bool
  showEnv : Bool
  extras : List String
  deriving DecidableEq, Repr

/-- Acts on a flag; a request for help ends everything. -/
def Taken.withFlag (t : Taken) : Flag → Option Taken
  | .help => none
  | .keepGoing => some ⟨t.program, true, t.showEnv, t.extras⟩
  | .showEnv => some ⟨t.program, t.keepGoing, true, t.extras⟩

def Taken.withFlags (t : Taken) (fs : List Flag) : Option Taken := fs.foldlM Taken.withFlag t

def Taken.aside (t : Taken) (a : String) : Taken :=
  ⟨t.program, t.keepGoing, t.showEnv, t.extras ++ [a]⟩

def Taken.withOperand (t : Taken) (a : String) : Taken :=
  match t.program with
  | none => ⟨some a, t.keepGoing, t.showEnv, t.extras⟩
  | some _ => t.aside a

/-- The short flags that follow a short flag in the same argument. From the first character on that
is none, all is a value, which no flag takes. -/
def bundle (f : Flag) : List Char → Except ArgumentError (List Flag)
  | [] => .error (.ignoredValue f "")
  | c :: cs =>
    match flagNames.lookup (String.ofList ['-', c]) with
    | none => .error (.ignoredValue f (String.ofList (c :: cs)))
    | some g => if cs.isEmpty then .ok [g] else do return g :: (← bundle g cs)

/-- Takes the arguments from left to right; `none` is a request for help. The end of the flags is
swallowed next to the path, and set aside elsewhere. -/
def take (t : Taken) : List (String × Word) → Except ArgumentError (Option Taken)
  | [] => .ok (some t)
  | (a, .operand) :: (d, .dashes) :: rest =>
    if t.program.isNone then take (t.withOperand a) rest
    else take ((t.aside a).aside d) rest
  | (a, .operand) :: rest => take (t.withOperand a) rest
  | (d, .dashes) :: (a, _) :: rest =>
    if t.program.isNone then take (t.withOperand a) rest
    else take ((t.aside d).aside a) rest
  | (d, .dashes) :: [] => take (t.aside d) []
  | (_, .flag f) :: rest =>
    match t.withFlag f with
    | none => .ok none
    | some t => take t rest
  | (_, .assigned f value) :: _ => .error (.ignoredValue f value)
  | (_, .bundled f tail) :: rest => do
    let fs ← bundle f tail
    match t.withFlags (f :: fs) with
    | none => .ok none
    | some t => take t rest
  | (a, .unknown) :: rest => take (t.aside a) rest

inductive Request where
  | help
  | run (o : Options)
  deriving DecidableEq, Repr

def request (args : List String) : Except ArgumentError Request := do
  match ← take ⟨none, false, false, []⟩ (← classifyAll args) with
  | none => return .help
  | some t =>
    match t.program, t.extras with
    | none, _ => .error .missingProgram
    | some _, a :: as => .error (.unrecognized (a :: as))
    | some p, [] => return .run ⟨p, t.keepGoing, t.showEnv⟩

end Glyph.CommandLine
