/-!
# Texts of integers

An integer is written in base ten with a mark in front where it is negative. Messages use `-`; the
language writes its own literals with a high minus, which keeps them apart from the verb.

Integers of the language are short. Those of a host have any size, but neither turn into a text nor
are read from one beyond `maxDigits` digits.
-/

namespace Glyph

def highMinus : Char := '¯'

namespace Decimal

def integerChars (minus : Char) (n : Int) : List Char :=
  if n < 0 then minus :: Nat.toDigits 10 n.natAbs else Nat.toDigits 10 n.natAbs

def integer (n : Int) : String := String.ofList (integerChars '-' n)

/-- The most digits of an integer that is written or read. -/
def maxDigits : Nat := 4300

/-- An integer of a host as messages show it, unless it has too many digits. -/
def integer? (n : Int) : Option String :=
  if maxDigits < (Nat.toDigits 10 n.natAbs).length then none else some (integer n)

def natural (n : Nat) : String := String.ofList (Nat.toDigits 10 n)

end Decimal

end Glyph
