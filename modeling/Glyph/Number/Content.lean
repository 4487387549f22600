import Glyph.Numeral

/-!
# The numbers that values hold

An operation on numbers that a host calls with any values takes out of each one the number that it
holds. Numbers and texts hold something, a text what it spells; nothing else does. Where a double is
asked for, `Value.heldNumber` gives the number as it is. Where a 64-bit integer is asked for,
`Value.heldInt` drops the fraction of a double, and refuses what does not fit.
-/

namespace Glyph

/-- The integer that a text spells. Its digits are counted before anything behind them is looked
at. -/
def readInteger (s : String) : Outcome Int :=
  let (negative, run, rest) := Decimal.splitInteger s
  match Decimal.joinDigits? false run with
  | none => misuse (.integerText s)
  | some digits =>
    if Numeral.maxDigits < digits.length then misuse (.tooManyDigits digits.length)
    else if digits.isEmpty || !rest.isEmpty then misuse (.integerText s)
    else .ok (Decimal.signed negative (Decimal.digitsValue 0 digits))

def integerPart (x : Float) : Outcome Int :=
  match Decimal.truncate? x with
  | some n => .ok n
  | none => misuse (if x.isNaN then .integerNan else .integerInfinity)

def narrowInt (n : Int) : Outcome Int64 :=
  match int64? n with
  | some m => .ok m
  | none => misuse .wideInteger

namespace Value

def heldNumber : Value → Outcome Number
  | .number n => .ok n
  | .text s =>
    match Decimal.read? s with
    | some x => .ok (.float x)
    | none => misuse (.floatText s)
  | v => misuse (.noContent v.typeName)

def heldInt : Value → Outcome Int64
  | .number (.int n) => .ok n
  | .number (.float x) => do narrowInt (← integerPart x)
  | .text s => do narrowInt (← readInteger s)
  | v => misuse (.noContent v.typeName)

/-- Refuses values of which not all hold something, naming the first that does not. -/
def checkHeld : List Value → Outcome Unit
  | [] => .ok ()
  | .number _ :: vs => checkHeld vs
  | .text _ :: vs => checkHeld vs
  | v :: _ => misuse (.noContent v.typeName)

def heldInts : List Value → Outcome (List Int64)
  | [] => .ok []
  | v :: vs => do
    let n ← v.heldInt
    let ns ← heldInts vs
    return n :: ns

end Value

end Glyph
