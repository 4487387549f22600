import Glyph.Decimal.Shortest

/-!
# Writing doubles

`Layout` collects the decisions that a text of a double rests on: between which powers of ten it is
positional, and how an exponent is written otherwise. `Layout.write` takes the shortest digits from
`shortest`, and `Layout.plain` is the layout of this project.
-/

namespace Glyph.Decimal

/-- The decisions behind the text of a double. -/
structure Layout where
  /-- The least decimal exponent that is written positionally. -/
  leastPositional : Int
  /-- The first decimal exponent too large for positional notation. -/
  endPositional : Int
  /-- The least number of digits of an exponent. -/
  exponentDigits : Nat

/-- Positional from `10 ^ -4` up to but not including `10 ^ 16`, always with a fraction; otherwise
one digit before the point and an exponent with its sign and at least two digits. -/
def Layout.plain : Layout := ⟨-4, 16, 2⟩

/-- The digits of a number without the zeros at its end. -/
def significant (n : Nat) : List Char :=
  ((Nat.toDigits 10 n).reverse.dropWhile (· == '0')).reverse

/-- Digits with the decimal point after the first `point` of them, filled with zeros. -/
def positional (ds : List Char) (point : Int) : List Char :=
  if point ≤ 0 then '0' :: '.' :: List.replicate point.natAbs '0' ++ ds
  else if point.toNat < ds.length then ds.take point.toNat ++ '.' :: ds.drop point.toNat
  else ds ++ List.replicate (point.toNat - ds.length) '0' ++ ['.', '0']

def Layout.scientific (f : Layout) (ds : List Char) (exponent : Int) : List Char :=
  let sign := if exponent < 0 then '-' else '+'
  let power := (Nat.toDigits 10 exponent.natAbs).leftpad f.exponentDigits '0'
  ds.take 1 ++ (if ds.length ≤ 1 then [] else '.' :: ds.drop 1) ++ 'e' :: sign :: power

def Layout.writeDecimal (f : Layout) (n : Nat) (e : Int) : List Char :=
  let top : Int := digitCount n - 1 + e
  let ds := significant n
  if f.leastPositional ≤ top && top < f.endPositional then positional ds (top + 1)
  else f.scientific ds top

def Layout.writePattern (f : Layout) (bits : Nat) : List Char :=
  if bits = 0 then ['0', '.', '0']
  else
    let decimal := shortest bits
    f.writeDecimal decimal.1 decimal.2

/-- The text of a double: `nan`, `inf`, or the shortest digits, after a `-` where the sign is set.
-/
def Layout.write (f : Layout) (x : Float) : String :=
  if infinityBits < magnitude x then "nan"
  else
    let body := if magnitude x = infinityBits then ['i', 'n', 'f'] else f.writePattern (magnitude x)
    String.ofList (if isNegative x then '-' :: body else body)

end Glyph.Decimal
