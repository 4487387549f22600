import Glyph.Decimal.Binary64

/-!
# The shortest decimal of a double

Every finite double has a finite decimal expansion: with `units b` smallest units, its value is
`units b * 5 ^ 1074` times `10 ^ -1074`. Dropping the last `s` digits of that expansion leaves two
neighbours on a coarser grid, and the shortest decimal is the neighbour that still reads back as the
same double on the coarsest grid which has one. If both do, the nearer one is taken, and halfway
between the two the even one.

The search starts at one digit and ends at the latest at the full expansion, which reads back
because it is exact.
-/

namespace Glyph.Decimal

/-- The digits of the exact expansion of a pattern, whose exponent is `-1074`. -/
def expansion (bits : Nat) : Nat := units bits * Nat.pow 5 unitBits

def digitCount (n : Nat) : Nat := (Nat.toDigits 10 n).length

/-- Whether `n` units of the grid with `s` digits dropped read back as `bits`. -/
def readsBack (bits s n : Nat) : Bool := nearest (n * tenPow s) (tenPow unitBits) == bits

/-- Of the neighbours `low` and `low + 1` of a value on a grid, the one that passes a test. If both
do, the nearer one, where the value is `gap` of `width` parts above `low`; halfway between the two,
the even one. -/
def neighbour? (passes : Nat → Bool) (low gap width : Nat) : Option Nat :=
  match passes low, passes (low + 1) with
  | false, false => none
  | true, false => some low
  | false, true => some (low + 1)
  | true, true =>
    if 2 * gap < width then some low
    else if width < 2 * gap then some (low + 1)
    else some (if low % 2 = 0 then low else low + 1)

/-- The neighbour of a double that reads back after its last `s` digits are dropped. -/
def shorten? (bits s : Nat) : Option Nat :=
  neighbour? (readsBack bits s) (expansion bits / tenPow s) (expansion bits % tenPow s) (tenPow s)

/-- The first answer from `s` down to one and where it is given, or `last` at zero. -/
def searchDown (answer? : Nat → Option Nat) (last : Nat) : Nat → Nat × Nat
  | 0 => (last, 0)
  | s + 1 =>
    match answer? (s + 1) with
    | some n => (n, s + 1)
    | none => searchDown answer? last s

/-- The shortest decimal that reads back as a finite nonzero pattern: digits and exponent. -/
def shortest (bits : Nat) : Nat × Int :=
  let found := searchDown (shorten? bits) (expansion bits) (digitCount (expansion bits) - 1)
  (found.1, found.2 - unitBits)

end Glyph.Decimal
