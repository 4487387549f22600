import Glyph.Value.Render
import Glyph.Verb

/-!
# Monadic verbs

Print writes its operand and gives null, generate counts from zero up to an integer, and shape is
the length of an array. Writing is an effect, which the result records: `printed` is what was
written.
-/

namespace Glyph

structure Response where
  value : Value
  printed : Option Value

namespace Monadic

def count (n : Int64) : List Value :=
  (List.range n.toInt.toNat).map fun i => .int (Int64.ofNat i)

def apply (v : Monadic) (x : Value) : Outcome Response :=
  match v with
  | .print => do
    let _ ← x.format
    return ⟨.null, some x⟩
  | .generate =>
    match x with
    | .int n => .ok ⟨.vector (count n), none⟩
    | x => do fail (.operand v.glyph (← x.kind) "expected an Int count")
  | .shape =>
    match x with
    | .array _ xs => .ok ⟨.int (Int64.ofNat xs.length), none⟩
    | x => do fail (.operand v.glyph (← x.kind) "shape is defined for arrays only")

end Monadic

end Glyph
