import Glyph.Decimal.Binary64
import Glyph.Text.Digit
import Glyph.Text.Space

/-!
# Reading numbers

A text spells a double when it is, between white space, an optional sign and then either digits,
with a point somewhere in them and an exponent behind them if it likes, or one of the words `inf`,
`infinity` and `nan` in any case. It spells an integer when only digits follow the sign. The decimal
digits of all scripts count, and a single underscore may stand between two of them.

`read?` gives the double nearest to what a text spells, and so reads all that `Layout.plain` writes.
`splitInteger` takes the front of a text apart as far as it can belong to an integer.
-/

namespace Glyph.Decimal

/-- The value of decimal digits, after the digits of `start`. -/
def digitsValue (start : Nat) (ds : List Char) : Nat :=
  ds.foldl (fun n c => 10 * n + (c.toNat - '0'.toNat)) start

def readDigits? (ds : List Char) : Option Nat :=
  if !ds.isEmpty && ds.all Char.isDigit then some (digitsValue 0 ds) else none

/-- A decimal digit of any script as one of `0` to `9`, and any other character as it is. -/
def plainDigit (c : Char) : Char :=
  match Text.decimalValue? c with
  | some d => Nat.digitChar d
  | none => c

/-- The characters of a text without white space at its ends, with plain digits. -/
def plainChars (s : String) : List Char := (Text.trim s.toList).map plainDigit

/-- Takes out the underscores, each of which has to stand between two digits; `after` says whether a
digit stands in front of the text. -/
def joinDigits? (after : Bool) : List Char → Option (List Char)
  | [] => some []
  | ['_'] => none
  | '_' :: c :: cs => if after && c.isDigit then (joinDigits? true cs).map (c :: ·) else none
  | c :: cs => (joinDigits? c.isDigit cs).map (c :: ·)

/-- Whether a text starts with a minus, and what follows its sign. -/
def takeSign : List Char → Bool × List Char
  | '-' :: cs => (true, cs)
  | '+' :: cs => (false, cs)
  | cs => (false, cs)

def signed (negative : Bool) (n : Nat) : Int := if negative then -(n : Int) else n

/-- Reads an exponent: nothing, or an `e` in either case, an optional sign and digits. -/
def readExponent? : List Char → Option Int
  | [] => some 0
  | c :: cs =>
    if c = 'e' || c = 'E' then (readDigits? (takeSign cs).2).map (signed (takeSign cs).1) else none

def readUnsigned? (negative : Bool) (cs : List Char) : Option Float := do
  let whole := cs.takeWhile Char.isDigit
  let rest := cs.dropWhile Char.isDigit
  let (fraction, tail) := match rest with
    | '.' :: ds => (ds.takeWhile Char.isDigit, ds.dropWhile Char.isDigit)
    | ds => ([], ds)
  let digits ← readDigits? (whole ++ fraction)
  let exponent ← readExponent? tail
  some (ofScientific negative digits (exponent - fraction.length))

def wordPattern? (cs : List Char) : Option Nat :=
  match cs.map Char.toLower with
  | ['i', 'n', 'f'] => some infinityBits
  | ['i', 'n', 'f', 'i', 'n', 'i', 't', 'y'] => some infinityBits
  | ['n', 'a', 'n'] => some (infinityBits + twoPow 51)
  | _ => none

def read? (s : String) : Option Float := do
  let cs ← joinDigits? false (plainChars s)
  let (negative, body) := takeSign cs
  match wordPattern? body with
  | some bits => some (ofPattern negative bits)
  | none => readUnsigned? negative body

/-- Takes a text apart into whether it is negative, the digits and underscores at its front, and
what follows them. -/
def splitInteger (s : String) : Bool × List Char × List Char :=
  let (negative, body) := takeSign (plainChars s)
  let belongs (c : Char) : Bool := c.isDigit || c = '_'
  (negative, body.takeWhile belongs, body.dropWhile belongs)

end Glyph.Decimal
