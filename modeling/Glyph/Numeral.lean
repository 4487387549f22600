import Glyph.Decimal.Reading
import Glyph.Error

/-!
# Numerals

A numeral is a number as it is written: an optional high minus, digits, optionally a point with more
digits, and optionally an exponent, whose sign is a high minus or a plain one. Only the digits `0`
to `9` count. `scan` takes the longest numeral off the front of a text and `spell` writes it back,
character for character; a point or an exponent mark that no digit follows is left alone, so that
`1.x` is a numeral followed by the access verb.

A numeral with neither a point nor an exponent is an integer, of any size; every other one is the
nearest double.
-/

namespace Glyph

/-- A literal number of an expression. Source texts only have integers that fit in 64 bits, and
doubles; a host may build the rest. -/
inductive Literal where
  | int (n : Int)
  | float (x : Float)
  /-- Something that is no number, and fails where it is evaluated. -/
  | other (v : Value)

structure Exponent where
  /-- The mark, `e` or `E`. -/
  mark : Char
  /-- The sign, a high minus or a plain one. -/
  sign : Option Char
  /-- The digits, of which there is at least one. -/
  digits : List Char
  deriving DecidableEq, Repr

structure Numeral where
  /-- Whether a high minus stands in front. -/
  negative : Bool
  /-- The digits before the point. -/
  whole : List Char
  /-- The digits after the point, if there is one. -/
  fraction : Option (List Char)
  /-- The exponent, if there is one. -/
  exponent : Option Exponent
  deriving DecidableEq, Repr

namespace Exponent

def spell (e : Exponent) : List Char := e.mark :: e.sign.toList ++ e.digits

def value (e : Exponent) : Int :=
  if e.sign.isSome then -(Decimal.digitsValue 0 e.digits : Int) else Decimal.digitsValue 0 e.digits

def scanSign : List Char → Option Char × List Char
  | c :: cs => if c = highMinus || c = '-' then (some c, cs) else (none, c :: cs)
  | [] => (none, [])

def scan : List Char → Option Exponent × List Char
  | [] => (none, [])
  | c :: cs =>
    if c = 'e' || c = 'E' then
      let (sign, ds) := scanSign cs
      match ds.takeWhile Char.isDigit with
      | [] => (none, c :: cs)
      | digits => (some ⟨c, sign, digits⟩, ds.dropWhile Char.isDigit)
    else (none, c :: cs)

theorem scanSign_toList_append (cs : List Char) :
    (scanSign cs).1.toList ++ (scanSign cs).2 = cs := by
  fun_cases scanSign cs <;> rfl

theorem spell_append_scan (cs : List Char) :
    ((scan cs).1.map spell).getD [] ++ (scan cs).2 = cs := by
  fun_cases scan cs with
  | case1 => rfl
  | case2 c cs _ sign ds hs _ => rfl
  | case3 c cs _ sign ds hs _ =>
      have h := scanSign_toList_append cs
      rw [hs] at h
      simp only [Option.map_some, Option.getD_some, spell, List.cons_append, List.append_assoc,
        List.takeWhile_append_dropWhile, h]
  | case4 c cs _ => rfl

end Exponent

namespace Numeral

def spell (n : Numeral) : List Char :=
  (if n.negative then [highMinus] else []) ++ n.whole ++ (n.fraction.map ('.' :: ·)).getD [] ++
    (n.exponent.map Exponent.spell).getD []

def scanFraction : List Char → Option (List Char) × List Char
  | [] => (none, [])
  | c :: cs =>
    if c = '.' then
      match cs.takeWhile Char.isDigit with
      | [] => (none, c :: cs)
      | digits => (some digits, cs.dropWhile Char.isDigit)
    else (none, c :: cs)

def scanUnsigned (negative : Bool) (cs : List Char) : Option (Numeral × List Char) :=
  match cs.takeWhile Char.isDigit with
  | [] => none
  | whole =>
    let (fraction, rest) := scanFraction (cs.dropWhile Char.isDigit)
    let (exponent, tail) := Exponent.scan rest
    some (⟨negative, whole, fraction, exponent⟩, tail)

/-- Takes the longest numeral off the front of a text. -/
def scan : List Char → Option (Numeral × List Char)
  | [] => none
  | c :: cs => if c = highMinus then scanUnsigned true cs else scanUnsigned false (c :: cs)

theorem append_scanFraction (cs : List Char) :
    ((scanFraction cs).1.map ('.' :: ·)).getD [] ++ (scanFraction cs).2 = cs := by
  fun_cases scanFraction cs with
  | case1 => rfl
  | case2 cs _ => rfl
  | case3 cs _ => simp only [Option.map_some, Option.getD_some, List.cons_append,
      List.takeWhile_append_dropWhile]
  | case4 c cs _ => rfl

theorem spell_append_of_scanUnsigned {negative : Bool} {cs rest : List Char} {n : Numeral}
    (h : scanUnsigned negative cs = some (n, rest)) :
    n.spell ++ rest = (if negative then [highMinus] else []) ++ cs := by
  rw [scanUnsigned] at h
  split at h
  · cases h
  · simp only [Option.some.injEq, Prod.mk.injEq] at h
    obtain ⟨rfl, rfl⟩ := h
    simp only [spell, List.append_assoc, Exponent.spell_append_scan, append_scanFraction,
      List.takeWhile_append_dropWhile]

/-- Scanning a numeral loses no character. -/
theorem spell_append_of_scan {cs rest : List Char} {n : Numeral}
    (h : scan cs = some (n, rest)) : n.spell ++ rest = cs := by
  cases cs with
  | nil => cases h
  | cons c cs =>
      rw [scan] at h
      split at h
      · rename_i hc
        rw [spell_append_of_scanUnsigned h, hc]; rfl
      · rw [spell_append_of_scanUnsigned h]; rfl

def isInteger (n : Numeral) : Bool := n.fraction.isNone && n.exponent.isNone

def intValue (n : Numeral) : Int :=
  if n.negative then -(Decimal.digitsValue 0 n.whole : Int) else Decimal.digitsValue 0 n.whole

def floatValue (n : Numeral) : Float :=
  let places := n.fraction.getD []
  let power := (n.exponent.map Exponent.value).getD 0
  Decimal.ofScientific n.negative (Decimal.digitsValue 0 (n.whole ++ places))
    (power - places.length)

def maxDigits : Nat := Decimal.maxDigits

/-- The number a numeral stands for; an integer with too many digits is refused with their count. -/
def value (n : Numeral) : Except Nat Literal :=
  if n.isInteger then
    if maxDigits < n.whole.length then .error n.whole.length else .ok (.int n.intValue)
  else .ok (.float n.floatValue)

def read (s : String) : Outcome Literal :=
  match scan s.toList with
  | some (n, []) =>
    match n.value with
    | .ok l => .ok l
    | .error count => misuse (.tooManyDigits count)
  | _ => misuse (.notANumeral s)

end Numeral

end Glyph
