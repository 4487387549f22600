import Glyph.Error

/-!
# The cases of the dyadic verbs

Each dyadic verb has a table of the pairs of kinds that it takes. Any other pair is refused, with
the kinds in the order of the operands; a foreign operand has no kind and is refused before that.
-/

namespace Glyph

def Pervasive.cases : Pervasive → List (Kind × Kind)
  | .add | .subtract | .multiply =>
    [(.array, .array), (.array, .numeric), (.map, .map), (.numeric, .array), (.numeric, .numeric)]
  | .divide => [(.array, .array), (.array, .numeric), (.map, .numeric), (.numeric, .numeric)]
  | .greater => [(.array, .numeric), (.numeric, .numeric)]
  | .equal =>
    [(.array, .array), (.array, .numeric), (.map, .numeric), (.numeric, .array), (.numeric, .map),
      (.numeric, .numeric)]

def Pervasive.takes (op : Pervasive) (pair : Kind × Kind) : Bool := op.cases.contains pair

/-- The pairs of kinds that a dyadic verb takes, in the order of their words. -/
def Dyadic.cases : Dyadic → List (Kind × Kind)
  | .pervasive op => op.cases
  | .replicate => [(.array, .array)]
  | .access => [(.array, .array), (.array, .numeric), (.array, .text), (.map, .text)]

def Dyadic.refuse {α : Type} (v : Dyadic) (a b : Value) : Outcome α := do
  let left ← a.kind
  let right ← b.kind
  fail (.operands v left right)

end Glyph
