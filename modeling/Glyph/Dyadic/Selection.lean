import Glyph.Dyadic.Cases
import Glyph.Value.Copy

/-!
# Replicate and access

Replicate takes an array of counts and an array of items of the same length and repeats each item as
often as its count says.

Access selects: from an array by an index, by an array of indices, or by a name that is projected
out of an array of maps; and from a map by a name. Indices start at zero. What is selected is
copied.
-/

namespace Glyph

namespace Replicate

def counts : List Value → Outcome (List Int64)
  | [] => .ok []
  | .int n :: vs => do return n :: (← counts vs)
  | v :: _ => do fail (.countKind (← v.kind))

/-- Each item as often as its count says. -/
def expand : List Int64 → List Value → Outcome (List Value)
  | n :: ns, v :: vs =>
    if n.toInt < 0 then fail (.negativeCount n.toInt)
    else do
      let rest ← expand ns vs
      return List.replicate n.toInt.toNat v.copy ++ rest
  | _, _ => .ok []

def run (cs vs : List Value) : Outcome (List Value) :=
  if cs.length ≠ vs.length then fail (.countLengths cs.length vs.length)
  else do expand (← counts cs) vs

end Replicate

namespace Access

/-- The place in a list of length `n` that an index names. -/
def place (n : Nat) : Value → Outcome Nat
  | .int i =>
    if 0 ≤ i.toInt ∧ i.toInt < n then .ok i.toInt.toNat else fail (.indexRange i.toInt n)
  | v => fail (.indexType v.typeName)

def item (vs : List Value) (i : Value) : Outcome Value := do
  let n ← place vs.length i
  match vs[n]? with
  | some v => return v.copy
  | none => fail (.indexRange n vs.length)

def places (n : Nat) : List Value → Outcome (List Nat)
  | [] => .ok []
  | i :: is => do
    let p ← place n i
    let ps ← places n is
    return p :: ps

def gather (vs is : List Value) : Outcome (List Value) := do
  let ps ← places vs.length is
  return (ps.filterMap fun p => vs[p]?).map Value.copy

def field (es : List (Key × Value)) (name : String) : Outcome Value :=
  match es.lookup (Key.name name) with
  | some v => .ok v.copy
  | none => fail (.missingKey name)

def checkMaps (name : String) : List Value → Outcome Unit
  | [] => .ok ()
  | .map _ _ :: vs => checkMaps name vs
  | v :: _ => do fail (.projectedKind name (← v.kind))

def fields (name : String) : List Value → Outcome (List Value)
  | [] => .ok []
  | .map _ es :: vs => do
    let w ← field es name
    let ws ← fields name vs
    return w :: ws
  | _ :: vs => fields name vs

def project (vs : List Value) (name : String) : Outcome (List Value) := do
  checkMaps name vs
  fields name vs

end Access

end Glyph
