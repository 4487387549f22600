import Glyph.Entries
import Glyph.Error

/-!
# Values and the data of a host

`ofHost` turns data of a host into a value: numbers, texts, sequences and maps find their
counterparts, at every depth, and what already is a value is kept. Keys become names; where two keys
become the same name, the later value stands at the place of the earlier one. Truth values, integers
beyond 64 bits and bytes have no counterpart, and a key with an integer of too many digits becomes
no name.

`toHost` goes the other way, from a valid value to plain data. `makeInt` and `makeFloat` make single
numbers, `toKey` makes keys, and `parts` is what a host meets when it goes through a value.
-/

namespace Glyph.Value

def ofInt (n : Int) : Outcome Number :=
  match int64? n with
  | some i => .ok (.int i)
  | none => do misuse (.outOfRange (← shown (Decimal.integer? n)))

mutual

def ofHost : Value → Outcome Value
  | number n => .ok (number n)
  | text s => .ok (text s)
  | null => .ok null
  | foreign (.int n) => do return number (← ofInt n)
  | foreign (.float x) => .ok (float x)
  | foreign (.bool _) => misuse .truthValue
  | foreign (.string s) => .ok (text s)
  | foreign .none => .ok null
  | foreign (.bytes bs) => misuse (.notConvertible (Atom.bytes bs).typeName)
  | array _ xs => do return .vector (← ofHostItems xs)
  | tuple xs => do return .vector (← ofHostItems xs)
  | map _ es => do return .record (Entries.ofPairs (← ofHostEntries es))

def ofHostItems : List Value → Outcome (List Value)
  | [] => .ok []
  | x :: xs => do
    let y ← x.ofHost
    let ys ← ofHostItems xs
    return y :: ys

def ofHostEntries : List (Key × Value) → Outcome (List (Key × Value))
  | [] => .ok []
  | (k, v) :: es => do
    let name ← shown k.toName?
    let w ← v.ofHost
    let fs ← ofHostEntries es
    return (Key.name name, w) :: fs

end

mutual

def toHost : Value → Outcome Value
  | number (.int n) => .ok (foreign (.int n.toInt))
  | number (.float x) => .ok (foreign (.float x))
  | text s => .ok (foreign (.string s))
  | null => .ok (foreign .none)
  | array _ xs => do return array .host (← toHostItems xs)
  | map _ es => do return map .host (← toHostEntries es)
  | foreign a => misuse (.notAValue a.typeName)
  | tuple xs => misuse (.notAValue (tuple xs).typeName)

def toHostItems : List Value → Outcome (List Value)
  | [] => .ok []
  | x :: xs => do
    let y ← x.toHost
    let ys ← toHostItems xs
    return y :: ys

def toHostEntries : List (Key × Value) → Outcome (List (Key × Value))
  | [] => .ok []
  | (k, v) :: es => do
    let w ← v.toHost
    let fs ← toHostEntries es
    return (k, w) :: fs

end

def makeInt : Value → Outcome Value
  | foreign (.int n) => do return number (← ofInt n)
  | v => misuse (.notAnInteger v.typeName)

def makeFloat : Value → Outcome Value
  | foreign (.float x) => .ok (float x)
  | foreign (.int n) =>
    match Decimal.ofInt? n with
    | some x => .ok (float x)
    | none => misuse .floatOverflow
  | v => misuse (.notReal v.typeName)

mutual

/-- The key that a value can serve as; `mark` is the mark of a NaN in it. -/
def toKey (mark : Nat) : Value → Outcome Key
  | number (.float x) => .ok (if x.isNaN then .nan .native mark else .number (.float x))
  | number n => .ok (.number n)
  | text s => .ok (.text s)
  | null => .ok .null
  | foreign (.float x) => .ok (if x.isNaN then .nan .host mark else .atom (.float x))
  | foreign a => .ok (.atom a)
  | tuple xs => do return .tuple (← toKeys mark xs)
  | array o xs => misuse (.unusableKey (array o xs).typeName)
  | map o es => misuse (.unusableKey (map o es).typeName)

def toKeys (mark : Nat) : List Value → Outcome (List Key)
  | [] => .ok []
  | x :: xs => do
    let k ← x.toKey mark
    let ks ← toKeys mark xs
    return k :: ks

end

mutual

def ofKey : Key → Value
  | .atom a => foreign a
  | .number n => number n
  | .text s => text s
  | .null => null
  | .tuple ks => tuple (ofKeys ks)
  | .nan .host _ => foreign (.float Decimal.nan)
  | .nan .native _ => float Decimal.nan

def ofKeys : List Key → List Value
  | [] => []
  | k :: ks => ofKey k :: ofKeys ks

end

/-- What a host meets when it goes through a value: the items of a sequence, the keys of a map, the
characters of a string, the numbers of bytes. -/
def parts : Value → Outcome (List Value)
  | array _ xs => .ok xs
  | tuple xs => .ok xs
  | map _ es => .ok (es.map fun e => ofKey e.1)
  | foreign (.string s) => .ok (s.toList.map fun c => foreign (.string (String.singleton c)))
  | foreign (.bytes bs) => .ok (bs.map fun b => foreign (.int b.toNat))
  | v => misuse (.notIterable v.typeName)

/-- The host's map with the given entries: of equal keys the first stays, with the last value. -/
def hostMap (es : List (Key × Value)) : Value := map .host (Entries.ofPairs es)

end Glyph.Value
