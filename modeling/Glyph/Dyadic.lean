import Glyph.Dyadic.Dense
import Glyph.Dyadic.Selection

/-!
# Dyadic verbs

The verbs with two operands: the six pervasive ones by broadcasting, and the two that select. The
shortcut of broadcasting is a parameter of `applyWith`; `apply` takes flat arrays at once, and
`applyWith Shortcut.never` takes everything apart.
-/

namespace Glyph.Dyadic

/-- A dyadic verb on two values, with a shortcut for the pervasive verbs. -/
def applyWith (quick : Shortcut) (v : Dyadic) (a b : Value) : Outcome Value :=
  match v with
  | .pervasive op => Pervasive.lockstep quick op a b
  | .replicate =>
    match a, b with
    | .array _ cs, .array _ vs => do return .vector (← Replicate.run cs vs)
    | a, b => refuse .replicate a b
  | .access =>
    match a, b with
    | .array _ vs, .array _ is => do return .vector (← Access.gather vs is)
    | .array _ vs, .number n => Access.item vs (.number n)
    | .array _ vs, .text name => do return .vector (← Access.project vs name)
    | .map _ es, .text name => Access.field es name
    | a, b => refuse .access a b

def apply (v : Dyadic) (a b : Value) : Outcome Value := applyWith Dense.shortcut v a b

@[simp] theorem apply_pervasive (op : Pervasive) (a b : Value) :
    apply (.pervasive op) a b = op.apply a b := rfl

end Glyph.Dyadic
