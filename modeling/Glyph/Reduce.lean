import Glyph.Dyadic

/-!
# Reduce

Reduce folds a verb over an array, from the left, starting at the identity of the verb. Sum and
product have identities, and the identity takes the shape of the first item: the same containers
with the identity of its class at each number.

The fold takes one item after the other through broadcasting. Where the items are integers, or rows
of integers of one length, `Fold.shortcut?` folds them at once, column by column; integers wrap
around, so the order of the items does not matter there.
-/

namespace Glyph

/-- The verbs that have an identity. -/
inductive Fold where
  | sum
  | product
  deriving DecidableEq, Repr

namespace Fold

def verb : Fold → Pervasive
  | sum => .add
  | product => .multiply

def intIdentity : Fold → Int64
  | sum => 0
  | product => 1

def floatIdentity : Fold → Float
  | sum => 0.0
  | product => 1.0

def identity (f : Fold) : NumberClass → Number
  | .int => .int f.intIdentity
  | .float => .float f.floatIdentity

def onInts : Fold → Int64 → Int64 → Int64
  | sum, a, b => a + b
  | product, a, b => a * b

def ofVerb? : Dyadic → Option Fold
  | .pervasive .add => some sum
  | .pervasive .multiply => some product
  | _ => none

def refuseLeaf {α : Type} (f : Fold) (v : Value) : Outcome α := do
  let kind ← v.kind
  fail (.operand Operator.reduce.glyph kind
    ("no identity for " ++ Text.quote f.verb.glyph ++ " over this element"))

mutual

/-- The identity in the shape of a value. -/
def identityLike (f : Fold) : Value → Outcome Value
  | .number n => .ok (.number (f.identity n.cls))
  | .array _ vs => do return .vector (← identityItems f vs)
  | .map _ es => do return .record (← identityEntries f es)
  | v => f.refuseLeaf v

def identityItems (f : Fold) : List Value → Outcome (List Value)
  | [] => .ok []
  | v :: vs => do
    let w ← identityLike f v
    let ws ← identityItems f vs
    return w :: ws

def identityEntries (f : Fold) : List (Key × Value) → Outcome (List (Key × Value))
  | [] => .ok []
  | (k, v) :: es => do
    let w ← identityLike f v
    let ws ← identityEntries f es
    return (k, w) :: ws

end

def ints (f : Fold) (ns : List Int64) : Int64 := ns.foldl f.onInts f.intIdentity

def columns (f : Fold) (width : Nat) (rows : List (List Int64)) : List Int64 :=
  rows.foldl (List.zipWith f.onInts) (List.replicate width f.intIdentity)

end Fold

def row? : Value → Option (List Int64)
  | .array _ vs => ints? vs
  | _ => none

def rows? : List Value → Option (List (List Int64))
  | [] => some []
  | v :: vs =>
    match row? v, rows? vs with
    | some r, some rs => some (r :: rs)
    | _, _ => none

def width (rows : List (List Int64)) : Nat := (rows.headD []).length

/-- The rows of integers, all of one width that is not zero, that the values of a nonempty list
are. -/
def matrix? (vs : List Value) : Option (List (List Int64)) :=
  match rows? vs with
  | some rows =>
    if width rows ≠ 0 ∧ rows.all (fun r => r.length == width rows) then some rows else none
  | none => none

namespace Fold

def rows (f : Fold) (rows : List (List Int64)) : Value :=
  .vector ((f.columns (width rows) rows).map Value.int)

/-- The fold of a nonempty array at once, where it is one of integers or a matrix of them. -/
def shortcut? (f : Fold) (vs : List Value) : Option Value :=
  if vs.isEmpty then none
  else
    match ints? vs with
    | some ns => some (.int (f.ints ns))
    | none => (matrix? vs).map f.rows

/-- The fold of values one after the other, starting at `acc`. -/
def run (f : Fold) (acc : Value) : List Value → Outcome Value
  | [] => .ok acc
  | v :: vs => do run f (← f.verb.apply acc v) vs

/-- The fold of an array whose first item is `v`, one after the other. -/
def plain (f : Fold) (v : Value) (vs : List Value) : Outcome Value := do
  run f (← f.identityLike v) (v :: vs)

end Fold

/-- The identity of a verb in the shape of a value; other verbs than sum and product have none. -/
def identityLike (verb : Dyadic) (v : Value) : Outcome Value :=
  match Fold.ofVerb? verb with
  | some f => f.identityLike v
  | none => misuse (.noIdentity verb)

def Fold.ofGlyph (glyph : String) : Outcome Fold :=
  match (Dyadic.ofGlyph? glyph).bind Fold.ofVerb? with
  | some f => .ok f
  | none => misuse (.noFold glyph)

/-- The fold, with the verb of a glyph, of a matrix of integers or of the integers that values hold.
The values are looked at before the verb. -/
def foldBlock (glyph : String) (vs : List Value) : Outcome Value :=
  match matrix? vs with
  | some rows => do return (← Fold.ofGlyph glyph).rows rows
  | none => do
    Value.checkHeld vs
    let ns ← Value.heldInts vs
    return .int ((← Fold.ofGlyph glyph).ints ns)

def reduce (verb : Dyadic) (v : Value) : Outcome Value :=
  match Fold.ofVerb? verb with
  | none => fail (.operatorVerb .reduce verb)
  | some f =>
    match v with
    | .array _ [] => fail (.emptyReduce verb)
    | .array _ (x :: xs) =>
      match f.shortcut? (x :: xs) with
      | some w => .ok w
      | none => f.plain x xs
    | w => do fail (.operand Operator.reduce.glyph (← w.kind) "expected an array")

def Operator.apply (o : Operator) (verb : Dyadic) (v : Value) : Outcome Value :=
  match o with
  | .reduce => Glyph.reduce verb v

end Glyph
