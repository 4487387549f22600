/-!
# Rounding to binary64

A double is handled through its bit pattern, a natural number. The positive finite doubles are the
numbers `m * 2 ^ k / 2 ^ 1074` with `m < 2 ^ 53`, where `m ≥ 2 ^ 52` unless `k = 0`; the pattern of
such a number is `k * 2 ^ 52 + m`, for the subnormal and the normal numbers alike, and the pattern
after the largest one is that of infinity. So the order of the patterns is the order of the numbers,
and rounding up to the next power of two carries into the exponent by itself.

`nearest num den` is the pattern of the double nearest to `num / den`, and `ofScientific` builds on
it the double nearest to a decimal. All arithmetic is exact, on natural numbers.
-/

namespace Glyph.Decimal

def twoPow (k : Nat) : Nat := Nat.pow 2 k

def tenPow (k : Nat) : Nat := Nat.pow 10 k

/-- The natural number nearest to `num / den`; halfway between two, the even one. -/
def roundDiv (num den : Nat) : Nat :=
  let q := num / den
  let r := num % den
  if 2 * r < den then q
  else if den < 2 * r then q + 1
  else if q % 2 = 0 then q
  else q + 1

/-- The number of smallest units, `2 ^ -1074`, in one, as a power of two. -/
def unitBits : Nat := 1074

def storedBits : Nat := 52

def infinityBits : Nat := 0x7FF0000000000000

def signBit : Nat := 0x8000000000000000

/-- The exponent `k` for which the doubles around `num / den` lie `2 ^ k` smallest units apart. -/
def spacing (num den : Nat) : Nat := (num * twoPow unitBits / den).log2 - storedBits

/-- The pattern of the nonnegative double nearest to `num / den`; halfway between two, the one
whose last bit is zero. -/
def nearest (num den : Nat) : Nat :=
  let k := spacing num den
  min (k * twoPow storedBits + roundDiv (num * twoPow unitBits) (den * twoPow k)) infinityBits

/-- The exact value of a finite nonnegative pattern, counted in smallest units. -/
def units (bits : Nat) : Nat :=
  let field := bits / twoPow storedBits
  if field = 0 then bits
  else (bits % twoPow storedBits + twoPow storedBits) * twoPow (field - 1)

def ofPattern (negative : Bool) (bits : Nat) : Float :=
  Float.ofBits (UInt64.ofNat (if negative then signBit + bits else bits))

def nan : Float := Float.ofBits 0x7FF8000000000000

def isNegative (x : Float) : Bool := decide (signBit ≤ x.toBits.toNat)

def magnitude (x : Float) : Nat := x.toBits.toNat % signBit

/-- The pattern of the double nearest to `digits * 10 ^ exponent`. Two cases are settled before any
power of ten is formed, so that an exponent of any size is cheap: beyond `10 ^ 400` everything is
infinite, and what is below half the smallest unit is zero. -/
def nearestScientific (digits : Nat) (exponent : Int) : Nat :=
  if digits = 0 then 0
  else if 400 < exponent then infinityBits
  else if exponent * 3 + digits.log2 + 1 < -1076 then 0
  else if exponent < 0 then nearest digits (tenPow exponent.natAbs)
  else nearest (digits * tenPow exponent.natAbs) 1

def ofScientific (negative : Bool) (digits : Nat) (exponent : Int) : Float :=
  ofPattern negative (nearestScientific digits exponent)

def truncate? (x : Float) : Option Int :=
  if magnitude x < infinityBits then
    let n : Int := units (magnitude x) / twoPow unitBits
    some (if isNegative x then -n else n)
  else none

def ofInt? (n : Int) : Option Float :=
  let bits := nearest n.natAbs 1
  if bits < infinityBits then some (ofPattern (decide (n < 0)) bits) else none

def ofInt64 (n : Int64) : Float :=
  ofPattern (decide (n.toInt < 0)) (nearest n.toInt.natAbs 1)

end Glyph.Decimal
