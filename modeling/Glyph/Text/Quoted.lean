import Glyph.Text.Printable

/-!
# Quoted text

Messages show a text between quotation marks, with everything that would not be visible written as
an escape. The mark is an apostrophe, unless the text holds apostrophes and no double quote: then it
is a double quote and the apostrophes stand for themselves.

`quote` is the form of a text, `quoteBytes` that of a string of bytes, and `bracketed` that of a
list of forms.
-/

namespace Glyph.Text

/-- The quotation mark around a text with the given characters. -/
def mark (cs : List Char) : Char :=
  if cs.contains '\'' && !cs.contains '"' then '"' else '\''

def hex (width n : Nat) : List Char := (Nat.toDigits 16 n).leftpad width '0'

/-- The escape that names a code point: two, four or eight digits, as few as hold it. -/
def codeEscape (n : Nat) : List Char :=
  if n < 0x100 then '\\' :: 'x' :: hex 2 n
  else if n < 0x10000 then '\\' :: 'u' :: hex 4 n
  else '\\' :: 'U' :: hex 8 n

def escape (q c : Char) : List Char :=
  if c = q || c = '\\' then ['\\', c]
  else if c = '\n' then ['\\', 'n']
  else if c = '\r' then ['\\', 'r']
  else if c = '\t' then ['\\', 't']
  else if isPrintable c then [c]
  else codeEscape c.toNat

def quote (s : String) : String :=
  let q := mark s.toList
  String.ofList (q :: s.toList.flatMap (escape q) ++ [q])

/-- A string of bytes as messages show it: bytes beyond ASCII are always escaped. -/
def quoteBytes (bs : List UInt8) : String :=
  let cs := bs.map fun b => Char.ofNat b.toNat
  let q := mark cs
  let body := cs.flatMap fun c => if c.toNat < 0x80 then escape q c else codeEscape c.toNat
  String.ofList ('b' :: q :: body ++ [q])

def bracketed (opening closing : String) (forms : List String) : String :=
  opening ++ String.intercalate ", " forms ++ closing

end Glyph.Text
