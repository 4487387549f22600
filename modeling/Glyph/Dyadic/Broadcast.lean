import Glyph.Dyadic.Cases
import Glyph.Entries
import Glyph.Number.Arithmetic
import Glyph.Value.KeyOrder

/-!
# Broadcasting

A pervasive verb descends into its operands until it meets two numbers. Two arrays of one length are
taken place by place and two maps with the same keys key by key; a number next to a container meets
every part of it. At each level the table of the verb decides whether the pair of kinds is taken at
all.

There are two recursions, both on the structure of one operand: `spread` takes a number into a
container on the other side, and `lockstep` takes two operands in step and hands over to `spread`
where one of them is a number.

A `Shortcut` may give the result for two operands at once, before they are taken apart. It is a
parameter here: `Glyph.Dyadic.Dense` has the one for flat arrays, and `Shortcut.never` leaves
the plain recursion.
-/

namespace Glyph

/-- A way to the result for two operands of which one at least is an array. -/
abbrev Shortcut := Pervasive → Value → Value → Option Value

def Shortcut.never : Shortcut := fun _ _ _ => none

/-- The side of a container whose parts meet a number on the other side. -/
inductive Side where
  | left
  | right
  deriving DecidableEq, Repr

def Side.arrange {α : Type} (side : Side) (here there : α) : α × α :=
  match side with
  | .left => (here, there)
  | .right => (there, here)

namespace Pervasive

def scalar (op : Pervasive) (x y : Number) : Outcome Value :=
  match op.combine x y with
  | .ok z => .ok (.number z)
  | .error f => fail f

/-- The keys that only one of two maps has: those of the first, then those of the second. -/
def differingKeys (es fs : List (Key × Value)) : List Key :=
  (Entries.keys es).filter (fun k => !Entries.has k fs) ++
    (Entries.keys fs).filter (fun k => !Entries.has k es)

def refuseKeys {α : Type} (op : Pervasive) (ks : List Key) : Outcome α := do
  fail (.keySets op (← shown (Key.forms? ks)))

def checkKeys (op : Pervasive) (es fs : List (Key × Value)) : Outcome Unit :=
  if es.length ≠ fs.length then fail (.sizes op es.length fs.length)
  else
    match differingKeys es fs with
    | [] => .ok ()
    | ks => do op.refuseKeys (← Key.sorted ks)

section Recursion

variable (quick : Shortcut) (op : Pervasive)

mutual

def spread (side : Side) (x : Number) : Value → Outcome Value
  | .number y =>
    let (l, r) := side.arrange y x
    op.scalar l r
  | .array o ys =>
    let (l, r) := side.arrange (Value.array o ys) (.number x)
    if op.takes (side.arrange .array .numeric) then
      match quick op l r with
      | some v => .ok v
      | none => do return .vector (← spreadItems side x ys)
    else Dyadic.refuse (.pervasive op) l r
  | .map o es =>
    let (l, r) := side.arrange (Value.map o es) (.number x)
    if op.takes (side.arrange .map .numeric) then do return .record (← spreadEntries side x es)
    else Dyadic.refuse (.pervasive op) l r
  | v =>
    let (l, r) := side.arrange v (.number x)
    Dyadic.refuse (.pervasive op) l r

def spreadItems (side : Side) (x : Number) : List Value → Outcome (List Value)
  | [] => .ok []
  | y :: ys => do
    let z ← spread side x y
    let zs ← spreadItems side x ys
    return z :: zs

def spreadEntries (side : Side) (x : Number) :
    List (Key × Value) → Outcome (List (Key × Value))
  | [] => .ok []
  | (k, y) :: es => do
    let z ← spread side x y
    let zs ← spreadEntries side x es
    return (k, z) :: zs

end

mutual

def lockstep : Value → Value → Outcome Value
  | v, .number y => spread quick op .left y v
  | .number x, w => spread quick op .right x w
  | .array o xs, .array p ys =>
    if op.takes (.array, .array) then
      match quick op (.array o xs) (.array p ys) with
      | some v => .ok v
      | none =>
        if xs.length = ys.length then do return .vector (← lockstepItems xs ys)
        else fail (.lengths op xs.length ys.length)
    else Dyadic.refuse (.pervasive op) (.array o xs) (.array p ys)
  | .map o es, .map p fs =>
    if op.takes (.map, .map) then do
      op.checkKeys es fs
      return .record (← lockstepEntries es fs)
    else Dyadic.refuse (.pervasive op) (.map o es) (.map p fs)
  | v, w => Dyadic.refuse (.pervasive op) v w

def lockstepItems : List Value → List Value → Outcome (List Value)
  | x :: xs, y :: ys => do
    let z ← lockstep x y
    let zs ← lockstepItems xs ys
    return z :: zs
  | _, _ => .ok []

/-- The verb on the entries of two maps, key by key, in the order of the first. -/
def lockstepEntries : List (Key × Value) → List (Key × Value) → Outcome (List (Key × Value))
  | [], _ => .ok []
  | (k, x) :: es, fs =>
    match fs.lookup k with
    | some y => do
      let z ← lockstep x y
      let zs ← lockstepEntries es fs
      return (k, z) :: zs
    | none => op.refuseKeys [k]

end

end Recursion

end Pervasive

end Glyph
