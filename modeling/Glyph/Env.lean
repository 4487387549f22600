import Glyph.Entries
import Glyph.Value.Copy
import Glyph.Value.Form
import Glyph.Value.Host
import Glyph.Value.Offence
import Glyph.Value.Render

/-!
# Environments

An environment binds names to values, in the order in which the names were first bound. Whatever is
stored is valid and copied into native containers, so an environment shares nothing with its host.

`lookup` is what a program does with a name, and fails with a fault; the other operations are those
of a host, and fail with a misuse. A host may also use an object that is no string where a name has
to stand (`storeUnder`, `asking`), which no environment ever binds.
-/

namespace Glyph

/-- Names bound to values, in order of insertion. -/
structure Env where
  bindings : List (String × Value)

namespace Env

def empty : Env := ⟨[]⟩

def names (env : Env) : List String := Entries.keys env.bindings

def size (env : Env) : Nat := env.bindings.length

def get? (env : Env) (name : String) : Option Value := env.bindings.lookup name

def contains (env : Env) (name : String) : Bool := (env.get? name).isSome

def lookup (env : Env) (name : String) : Outcome Value :=
  match env.get? name with
  | some v => .ok v.copy
  | none => fail (.unbound name)

def fetch (env : Env) (name : String) : Outcome Value :=
  match env.get? name with
  | some v => .ok v.copy
  | none => misuse (.missingName name)

def placeOf (name : String) : String := "env[" ++ Text.quote name ++ "]"

def store (env : Env) (name : String) (v : Value) : Outcome Env :=
  if name.isEmpty then misuse .emptyName
  else do
    v.validate (placeOf name)
    return ⟨Entries.insert name v.copy env.bindings⟩

def remove (env : Env) (name : String) : Outcome Env :=
  if env.contains name then .ok ⟨Entries.erase name env.bindings⟩
  else misuse (.missingName name)

def snapshot (env : Env) : Env := ⟨env.bindings.map fun b => (b.1, b.2.copy)⟩

def storeHost (env : Env) : List (String × Value) → Outcome Env
  | [] => .ok env
  | (name, v) :: data => do
    let w ← v.ofHost
    let env ← env.store name w
    env.storeHost data

def ofHost (data : List (String × Value)) : Outcome Env :=
  empty.storeHost (Entries.ofPairs data)

def describe (env : Env) : String :=
  Text.bracketed "Environment(" ")" (env.bindings.map fun b => b.1 ++ "=" ++ b.2.render)

/-- Unbinds a name and gives its value; without it `fallback`, where there is one. -/
def pop (env : Env) (name : String) (fallback : Option Value) : Outcome (Value × Env) :=
  match env.get? name, fallback with
  | some v, _ => .ok (v.copy, ⟨Entries.erase name env.bindings⟩)
  | none, some v => .ok (v, env)
  | none, none => misuse (.missingName name)

/-- What unbinding comes to for an object that is no name. -/
def popMissing (env : Env) (o : Value) (fallback : Option Value) : Outcome (Value × Env) :=
  match fallback with
  | some v => .ok (v, env)
  | none => misuse (.missingObject o.form?)

def popFirst (env : Env) : Outcome ((String × Value) × Env) :=
  match env.bindings with
  | [] => misuse .emptyStore
  | (name, v) :: _ => .ok ((name, v.copy), ⟨Entries.erase name env.bindings⟩)

/-- The value of a name, which is bound to `v` if it was not bound. -/
def setDefault (env : Env) (name : String) (v : Value) : Outcome (Value × Env) :=
  match env.get? name with
  | some w => .ok (w.copy, env)
  | none => do
    let env ← env.store name v
    return (v, env)

def storeUnder (env : Env) (o v : Value) : Outcome Env :=
  match o with
  | .foreign (.string name) => env.store name v
  | o => do misuse (.notAName (← shown o.form?))

/-- What an environment has under an object: `found` under the name that it is, `missing` where it
is none. What cannot be a key is refused. -/
def asking {α : Type} (o : Value) (found : String → Outcome α) (missing : Outcome α) : Outcome α :=
  match o with
  | .foreign (.string name) => found name
  | o => do
    let _ ← o.toKey 0
    missing

/-- Stores values under objects one after the other, up to the first that is refused. -/
def storeAll (env : Env) : List (Value × Value) → Outcome Unit × Env
  | [] => (.ok (), env)
  | (o, v) :: items =>
    match env.storeUnder o v with
    | .ok env => env.storeAll items
    | .error e => (.error e, env)

/-- The entries of a host's map, in order: of equal keys the first stays, with the last value. -/
def entriesOf (items : List (Key × Value)) : List (Value × Value) :=
  (Entries.ofPairs items).map fun e => (Value.ofKey e.1, e.2)

def same (env other : Env) : Bool :=
  env.size == other.size &&
    env.bindings.all fun b =>
      match other.get? b.1 with
      | some w => b.2.same w
      | none => false

/-- What storing comes to: the name has to be nonempty and the value valid. -/
theorem store_eq_ok_iff {env next : Env} {name : String} {v : Value} :
    env.store name v = .ok next ↔
      name.isEmpty = false ∧ v.validate (placeOf name) = .ok () ∧
        next = ⟨Entries.insert name v.copy env.bindings⟩ := by
  cases hn : name.isEmpty with
  | true => simp [store, hn, misuse]
  | false =>
      cases hv : v.validate (placeOf name) with
      | error e => simp [store, hn, hv, bind, Except.bind]
      | ok u =>
          simp only [store, hn, hv, bind, Except.bind, pure, Except.pure, Except.ok.injEq,
            Bool.false_eq_true, if_false, true_and]
          exact eq_comm

/-- Whether a value is accepted under a name is the same for all environments. -/
theorem store_uniform (name : String) (v : Value) :
    (∃ e, ∀ env : Env, env.store name v = .error e) ∨
      ∀ env : Env, env.store name v = .ok ⟨Entries.insert name v.copy env.bindings⟩ := by
  cases hn : name.isEmpty with
  | true => exact .inl ⟨_, fun env => by rw [store, if_pos hn]⟩
  | false =>
      cases hv : v.validate (placeOf name) with
      | error e => exact .inl ⟨e, fun env => by simp [store, hn, hv, bind, Except.bind]⟩
      | ok u => exact .inr fun env => store_eq_ok_iff.mpr ⟨hn, hv, rfl⟩

end Env

end Glyph
