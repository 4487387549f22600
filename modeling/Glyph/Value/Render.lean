import Glyph.Error

/-!
# Values as texts

A value is written as the literal that stands for it: negative numbers with a high minus, texts
between apostrophes with the apostrophes in them doubled, arrays in brackets and maps in braces.
Null and the doubles that are not finite have words of their own, which are no literals.

`chars` writes every value; what is foreign leaves no trace. `format` is the writing that programs
get to see: it refuses whatever `unwritable?` finds.
-/

namespace Glyph.Value

def numberChars : Number → List Char
  | .int n => Decimal.integerChars highMinus n.toInt
  | .float x =>
    let size := Decimal.magnitude x
    if Decimal.infinityBits < size then ['N', 'a', 'N']
    else
      let body :=
        if size = Decimal.infinityBits then ['∞'] else Decimal.Layout.plain.writePattern size
      if Decimal.isNegative x then highMinus :: body else body

/-- The characters of a text with its apostrophes doubled. -/
def doubled : List Char → List Char
  | [] => []
  | c :: cs => if c = '\'' then '\'' :: '\'' :: doubled cs else c :: doubled cs

def textChars (s : String) : List Char := '\'' :: doubled s.toList ++ ['\'']

def keyChars : Key → List Char
  | .name s => textChars s
  | _ => []

mutual

def chars : Value → List Char
  | number n => numberChars n
  | text s => textChars s
  | null => ['n', 'u', 'l', 'l']
  | array _ xs => '[' :: List.intercalate [',', ' '] (itemChars xs) ++ [']']
  | map _ es => '\x7b' :: List.intercalate [',', ' '] (entryChars es) ++ ['\x7d']
  | foreign _ => []
  | tuple _ => []

def itemChars : List Value → List (List Char)
  | [] => []
  | x :: xs => x.chars :: itemChars xs

def entryChars : List (Key × Value) → List (List Char)
  | [] => []
  | (k, v) :: es => (keyChars k ++ ':' :: ' ' :: v.chars) :: entryChars es

end

def render (v : Value) : String := String.ofList v.chars

def unwritableKey? : Key → Option Misuse
  | .name _ => none
  | .atom (.bytes _) => some .bytesKey
  | k => some (.unwritableKey k.typeName)

mutual

def unwritable? : Value → Option Misuse
  | number _ => none
  | text _ => none
  | null => none
  | array _ xs => unwritableItem? xs
  | map _ es => unwritablePair? es
  | foreign a => some (.notAValue a.typeName)
  | tuple xs => some (.notAValue (tuple xs).typeName)

def unwritableItem? : List Value → Option Misuse
  | [] => none
  | x :: xs =>
    match x.unwritable? with
    | some m => some m
    | none => unwritableItem? xs

def unwritablePair? : List (Key × Value) → Option Misuse
  | [] => none
  | (k, v) :: es =>
    match unwritableKey? k with
    | some m => some m
    | none =>
      match v.unwritable? with
      | some m => some m
      | none => unwritablePair? es

end

def format (v : Value) : Outcome String :=
  match v.unwritable? with
  | none => .ok v.render
  | some m => misuse m

end Glyph.Value
