import Glyph.Env
import Glyph.Expr
import Glyph.Monadic
import Glyph.Reduce

/-!
# Evaluation

To evaluate an expression in an environment gives an outcome, the environment afterwards and the
events on the way, also where the outcome is a failure: what happened before a failure has happened.
Operands are evaluated from left to right.

Only an assignment changes the environment. Its right side is evaluated in a snapshot, so that
assignments inside it leave no trace.
-/

namespace Glyph

/-- What evaluation does besides computing a value. -/
inductive Event where
  /-- A value was written by print. -/
  | printed (v : Value)
  /-- A name was bound, also where the binding is lost later on. -/
  | assigned (name : String) (v : Value)

structure Trace (α : Type) where
  outcome : Outcome α
  env : Env
  events : List Event

/-- A step: what it comes to in every environment. -/
def Action (α : Type) : Type := Env → Trace α

namespace Action

protected def pure {α : Type} (a : α) : Action α := fun env => ⟨.ok a, env, []⟩

protected def bind {α β : Type} (m : Action α) (f : α → Action β) : Action β := fun env =>
  let s := m env
  match s.outcome with
  | .ok a =>
    let t := f a s.env
    ⟨t.outcome, t.env, s.events ++ t.events⟩
  | .error e => ⟨.error e, s.env, s.events⟩

instance : Monad Action where
  pure := Action.pure
  bind := Action.bind

@[simp] theorem pure_apply {α : Type} (a : α) (env : Env) :
    (pure a : Action α) env = ⟨.ok a, env, []⟩ := rfl

theorem bind_apply_of_ok {α β : Type} {m : Action α} {env next : Env} {a : α} {es : List Event}
    (h : m env = ⟨.ok a, next, es⟩) (f : α → Action β) :
    (m >>= f) env = ⟨(f a next).outcome, (f a next).env, es ++ (f a next).events⟩ := by
  simp only [bind, Action.bind, h]

theorem bind_apply_of_error {α β : Type} {m : Action α} {env next : Env} {e : Failure}
    {es : List Event} (h : m env = ⟨.error e, next, es⟩) (f : α → Action β) :
    (m >>= f) env = ⟨.error e, next, es⟩ := by
  simp only [bind, Action.bind, h]

def give {α : Type} (o : Outcome α) : Action α := fun env => ⟨o, env, []⟩

def lookup (name : String) : Action Value := fun env => ⟨env.lookup name, env, []⟩

def print (v : Value) : Action Unit := fun env => ⟨.ok (), env, [.printed v]⟩

/-- Binds a name to what a step comes to in a snapshot of the environment. -/
def assign (name : String) (m : Action Value) : Action Value := fun env =>
  let s := m env.snapshot
  match s.outcome with
  | .error e => ⟨.error e, env, s.events⟩
  | .ok v =>
    match env.store name v with
    | .error e => ⟨.error e, env, s.events⟩
    | .ok next => ⟨.ok .null, next, s.events ++ [.assigned name v]⟩

def monadic (verb : Monadic) (v : Value) : Action Value := do
  let r ← give (verb.apply v)
  match r.printed with
  | some w => print w
  | none => pure ()
  return r.value

end Action

def Literal.value : Literal → Outcome Value
  | .int n => do return .number (← Value.ofInt n)
  | .float x => .ok (.float x)
  | .other v => misuse (.notAnInteger v.typeName)

namespace Expr

mutual

def eval : Expr → Action Value
  | literal l => Action.give l.value
  | text s => pure (.text s)
  | array items => do
    let vs ← evalItems items
    return .vector vs
  | map entries => do
    let es ← evalEntries entries
    return .record (Entries.ofPairs es)
  | ref name => Action.lookup name
  | assign name e => Action.assign name e.eval
  | dyadic verb l r => do
    let a ← l.eval
    let b ← r.eval
    Action.give (verb.apply a b)
  | monadic verb r => do
    let a ← r.eval
    Action.monadic verb a
  | operator verb o r => do
    let a ← r.eval
    Action.give (o.apply verb a)
  | block _ => Action.give (misuse .blockExpression)

def evalItems : List Expr → Action (List Value)
  | [] => pure []
  | e :: es => do
    let v ← e.eval
    let vs ← evalItems es
    return v :: vs

def evalEntries : List (String × Expr) → Action (List (Key × Value))
  | [] => pure []
  | (k, e) :: es => do
    let v ← e.eval
    let vs ← evalEntries es
    return (Key.name k, v) :: vs

end

end Expr

end Glyph
