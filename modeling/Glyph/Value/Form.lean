import Glyph.Value.Basic

/-!
# Objects in messages

A message shows an object of a host, or a value, by its form: containers in their brackets, whoever
made them, and all else as a key is shown. Like a key, an object has no form where an integer in it
has too many digits.
-/

namespace Glyph.Value

mutual

def form? : Value → Option String
  | number n => (Key.number n).form?
  | text s => (Key.text s).form?
  | null => Key.null.form?
  | array _ xs => (itemForms? xs).map (Text.bracketed "[" "]")
  | map _ es => (entryForms? es).map (Text.bracketed "\x7b" "\x7d")
  | foreign a => a.form?
  | tuple xs => (itemForms? xs).map Key.tupleForm

def itemForms? : List Value → Option (List String)
  | [] => some []
  | x :: xs => do return (← x.form?) :: (← itemForms? xs)

def entryForms? : List (Key × Value) → Option (List String)
  | [] => some []
  | (k, v) :: es => do return ((← k.form?) ++ ": " ++ (← v.form?)) :: (← entryForms? es)

end

end Glyph.Value
