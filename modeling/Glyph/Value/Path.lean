import Glyph.Value.Basic

/-!
# Paths

A path leads from a value to a part of it, through indices of arrays and names of maps.
-/

namespace Glyph

inductive Step where
  | index (i : Nat)
  | key (name : String)
  deriving DecidableEq, Repr

def Step.form : Step → String
  | .index i => "[" ++ Decimal.natural i ++ "]"
  | .key name => "[" ++ Text.quote name ++ "]"

namespace Value

def step? : Value → Step → Option Value
  | array _ xs, .index i => xs[i]?
  | map _ es, .key name => es.lookup (Key.name name)
  | _, _ => none

def at? : Value → List Step → Option Value
  | v, [] => some v
  | v, s :: path => (v.step? s).bind fun w => w.at? path

@[simp] theorem at?_nil (v : Value) : v.at? [] = some v := by cases v <;> rfl

theorem at?_cons (v : Value) (s : Step) (path : List Step) :
    v.at? (s :: path) = (v.step? s).bind fun w => w.at? path := by cases v <;> rfl

end Value

end Glyph
