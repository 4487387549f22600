import Glyph.Decimal.Binary64

/-!
# Numbers

The language has two classes of numbers, signed 64-bit integers that wrap around and IEEE doubles.
They stay apart: an operation either demands two numbers of one class, or says into which class it
takes both. This module holds the numbers; the operations on them are in `Glyph.Number.Arithmetic`.
-/

namespace Glyph

inductive NumberClass where
  | int
  | float
  deriving DecidableEq, Repr

def NumberClass.name : NumberClass → String
  | .int => "Int"
  | .float => "Float"

inductive Number where
  | int (n : Int64)
  | float (x : Float)

namespace Number

def cls : Number → NumberClass
  | .int _ => .int
  | .float _ => .float

/-- A number taken into the floats, to the nearest one where it is an integer. -/
def toFloat : Number → Float
  | .int n => Decimal.ofInt64 n
  | .float x => x

/-- Equality of numbers of one class; numbers of two classes differ. -/
def same : Number → Number → Bool
  | .int m, .int n => m == n
  | .float x, .float y => x == y
  | _, _ => false

@[simp] theorem cls_int (n : Int64) : (int n).cls = .int := rfl

@[simp] theorem cls_float (x : Float) : (float x).cls = .float := rfl

end Number

def FitsInt64 (n : Int) : Prop := -0x8000000000000000 ≤ n ∧ n < 0x8000000000000000

instance (n : Int) : Decidable (FitsInt64 n) := inferInstanceAs (Decidable (_ ∧ _))

def int64? (n : Int) : Option Int64 := if FitsInt64 n then some (Int64.ofInt n) else none

namespace Number

/-- A number taken into the integers: a double without its fraction, or zero where that does not
fit. -/
def toInt64 : Number → Int64
  | .int n => n
  | .float x => ((Decimal.truncate? x).bind int64?).getD 0

def into (x : Number) : NumberClass → Number
  | .int => .int x.toInt64
  | .float => .float x.toFloat

end Number

end Glyph
