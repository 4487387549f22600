import Glyph.Eval
import Glyph.Expr.Parser

/-!
# Runs

A program is run line by line in one environment. A line that fails with a fault is recorded; the
run then stops, or goes on with the next line where it is told to keep going. A misuse ends the run
altogether, which no program that was read from a source text does.
-/

namespace Glyph

structure LineResult where
  index : Nat
  line : Expr
  result : Except Fault Value
  events : List Event

def LineResult.ok (l : LineResult) : Bool := l.result.isOk

/-- A misuse that ended a run, with the events of the line that it ended. -/
structure Halt where
  cause : Misuse
  events : List Event

/-- What came of a program: its lines as far as they were run, and the environment after them. -/
structure Run where
  lines : List LineResult
  env : Env
  halt : Option Halt

namespace Run

def push (l : LineResult) (r : Run) : Run := ⟨l :: r.lines, r.env, r.halt⟩

def linesFrom (keepGoing : Bool) (index : Nat) : List Expr → Env → Run
  | [], env => ⟨[], env, none⟩
  | e :: es, env =>
    let t := e.eval env
    match t.outcome with
    | .ok v => (linesFrom keepGoing (index + 1) es t.env).push ⟨index, e, .ok v, t.events⟩
    | .error (.fault f) =>
      let line : LineResult := ⟨index, e, .error f, t.events⟩
      if keepGoing then (linesFrom keepGoing (index + 1) es t.env).push line
      else ⟨[line], t.env, none⟩
    | .error (.misuse m) => ⟨[], t.env, some ⟨m, t.events⟩⟩

def program (keepGoing : Bool) (lines : List Expr) (env : Env) : Run :=
  linesFrom keepGoing 0 lines env

def ok (r : Run) : Bool := r.lines.all LineResult.ok

def failures (r : Run) : List LineResult := r.lines.filter fun l => !l.ok

def lastValue (r : Run) : Value :=
  (r.lines.filterMap fun l => l.result.toOption).getLast?.getD .null

def events (r : Run) : List Event :=
  r.lines.flatMap LineResult.events ++ (r.halt.map Halt.events).getD []

end Run

/-- The text that the events of a run write, a line for each printed value. -/
def Event.output (es : List Event) : String :=
  String.join (es.map fun e =>
    match e with
    | .printed v => v.render ++ "\n"
    | .assigned _ _ => "")

inductive Refusal where
  /-- The text was not accepted. -/
  | rejected (r : Rejection)
  /-- Running it failed. -/
  | failed (cause : Failure)

/-- What came of a source text: the value of its last line, the environment and the events. -/
structure Reply where
  result : Except Refusal Value
  env : Env
  events : List Event

def Run.reply (r : Run) : Reply :=
  match r.halt, r.failures with
  | some h, _ => ⟨.error (.failed (.misuse h.cause)), r.env, r.events⟩
  | none, l :: _ =>
    match l.result with
    | .error f => ⟨.error (.failed (.fault f)), r.env, r.events⟩
    | .ok v => ⟨.ok v, r.env, r.events⟩
  | none, [] => ⟨.ok r.lastValue, r.env, r.events⟩

/-- Evaluates a source text in an environment, up to the first line that fails. -/
def evaluateSource (source : String) (env : Env) : Reply :=
  match parseProgram source with
  | .error r => ⟨.error (.rejected r), env, []⟩
  | .ok lines => (Run.program false lines env).reply

def runLines (keepGoing : Bool) (lines : List Expr) (data : List (String × Value)) :
    Except Refusal Run :=
  match Env.ofHost data with
  | .error e => .error (.failed e)
  | .ok env => .ok (Run.program keepGoing lines env)

/-- Runs a source text in an environment with the data of a host. The text is read before the data
is looked at. -/
def runSource (keepGoing : Bool) (source : String) (data : List (String × Value)) :
    Except Refusal Run :=
  match parseProgram source with
  | .error r => .error (.rejected r)
  | .ok lines => runLines keepGoing lines data

def session : List String → Env → List Reply
  | [], _ => []
  | source :: sources, env =>
    let r := evaluateSource source env
    r :: session sources r.env

end Glyph
