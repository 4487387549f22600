import Glyph.Run

/-!
# Commands to environments

A workspace is a list of environments, which a host works on by commands; a snapshot adds an
environment to the list. Where a command takes a name, a host may use any object. `Workspace.run`
gives the answer to a command, the workspace after it and the values that were printed. A command
that is refused changes nothing, with two exceptions: an update keeps what it stored before it was
refused, and a source text whatever its lines did.
-/

namespace Glyph

inductive Command where
  | lookup (o : Value)
  | fetch (o : Value)
  | store (o v : Value)
  | remove (o : Value)
  | contains (o : Value)
  | size
  | names
  | describe
  | snapshot
  | emit (v : Value)
  | get (o : Value)
  | pop (o : Value) (fallback : Option Value)
  | popFirst
  | setDefault (o v : Value)
  /-- Stores the entries of a map, or of any sequence of pairs. -/
  | update (items : List (Value × Value))
  | clear
  | same (other : Nat)
  | eval (source : String)

inductive Answer where
  | done
  | value (v : Value)
  | binding (name : String) (v : Value)
  | truth (b : Bool)
  | count (n : Nat)
  | names (ns : List String)
  | text (s : String)

structure Workspace where
  envs : List Env

structure CommandResult where
  answer : Except Refusal Answer
  workspace : Workspace
  printed : List Value

namespace Workspace

def env (w : Workspace) (n : Nat) : Env := w.envs[n]?.getD Env.empty

def withEnv (w : Workspace) (n : Nat) (env : Env) : Workspace := ⟨w.envs.set n env⟩

/-- An outcome as an answer, in an unchanged workspace. -/
def answering (w : Workspace) (o : Outcome Answer) : CommandResult :=
  match o with
  | .ok a => ⟨.ok a, w, []⟩
  | .error e => ⟨.error (.failed e), w, []⟩

def changing (w : Workspace) (n : Nat) (o : Outcome (Answer × Env)) : CommandResult :=
  match o with
  | .ok (a, env) => ⟨.ok a, w.withEnv n env, []⟩
  | .error e => ⟨.error (.failed e), w, []⟩

def printedValues (es : List Event) : List Value :=
  es.filterMap fun e =>
    match e with
    | .printed v => some v
    | .assigned _ _ => none

def run (w : Workspace) (n : Nat) (c : Command) : CommandResult :=
  let env := w.env n
  match c with
  | .lookup o =>
    w.answering
      ((Env.asking o env.lookup (do misuse (.unboundObject (← shown o.form?)))).map .value)
  | .fetch o =>
    w.answering ((Env.asking o env.fetch (misuse (.missingObject o.form?))).map .value)
  | .store o v => w.changing n ((env.storeUnder o v).map fun e => (.done, e))
  | .remove o =>
    w.changing n
      ((Env.asking o env.remove (misuse (.missingObject o.form?))).map fun e => (.done, e))
  | .contains o =>
    w.answering ((Env.asking o (fun name => .ok (env.contains name)) (.ok false)).map .truth)
  | .size => w.answering (.ok (.count env.size))
  | .names => w.answering (.ok (.names env.names))
  | .describe => w.answering (.ok (.text env.describe))
  | .snapshot => ⟨.ok (.count w.envs.length), ⟨w.envs ++ [env.snapshot]⟩, []⟩
  | .emit v => ⟨.ok .done, w, [v]⟩
  | .get o =>
    w.answering ((Env.asking o (fun name => .ok (((env.get? name).map Value.copy).getD .null))
      (.ok .null)).map .value)
  | .pop o fallback =>
    w.changing n ((Env.asking o (env.pop · fallback)
      (env.popMissing o fallback)).map fun (v, e) => (.value v, e))
  | .popFirst => w.changing n (env.popFirst.map fun ((name, v), e) => (.binding name v, e))
  | .setDefault o v =>
    w.changing n ((Env.asking o (env.setDefault · v)
      (do misuse (.notAName (← shown o.form?)))).map fun (v, e) => (.value v, e))
  | .update items =>
    match env.storeAll items with
    | (.ok (), e) => ⟨.ok .done, w.withEnv n e, []⟩
    | (.error f, e) => ⟨.error (.failed f), w.withEnv n e, []⟩
  | .clear => ⟨.ok .done, w.withEnv n Env.empty, []⟩
  | .same other => w.answering (.ok (.truth (env.same (w.env other))))
  | .eval source =>
    let r := evaluateSource source env
    ⟨r.result.map .value, w.withEnv n r.env, printedValues r.events⟩

end Workspace

end Glyph
