import Glyph.Decimal.Integer
import Glyph.Decimal.Notation
import Glyph.Number
import Glyph.Text.Quoted

/-!
# Values

A value is a number, a text, null, an array of values or a map from keys to values. Programs only
ever see such values with texts for keys, but a host may hand in anything, so the type also has room
for what is foreign to the language: `Atom` is a foreign scalar, `tuple` a foreign sequence, and a
container remembers by its `Origin` whether the language or the host made it. Every operation treats
containers of both origins alike and makes native ones.

The entries of a map are a list in order of insertion. A key is usually a plain name, `Key.name`;
other keys occur in maps of a host only.

Messages show a key, or anything a host hands in, by its form. There is none where an integer in it
has more digits than are written.
-/

namespace Glyph

inductive Kind where
  | numeric
  | text
  | array
  | map
  | null
  deriving DecidableEq, Repr

def Kind.name : Kind → String
  | .numeric => "numeric"
  | .text => "text"
  | .array => "array"
  | .map => "map"
  | .null => "null"

inductive Origin where
  | native
  | host
  deriving DecidableEq, Repr

/-- A scalar of a host, which is no value of the language. -/
inductive Atom where
  | int (n : Int)
  | float (x : Float)
  | bool (b : Bool)
  | string (s : String)
  | none
  | bytes (bs : List UInt8)

namespace Atom

def typeName : Atom → String
  | int _ => "int"
  | float _ => "float"
  | bool _ => "bool"
  | string _ => "str"
  | none => "NoneType"
  | bytes _ => "bytes"

def form? : Atom → Option String
  | int n => Decimal.integer? n
  | float x => some (Decimal.Layout.plain.write x)
  | bool true => some "True"
  | bool false => some "False"
  | string s => some (Text.quote s)
  | none => some "None"
  | bytes bs => some (Text.quoteBytes bs)

/-- The exact value of a finite number of a host, in smallest units of a double. -/
def units? : Atom → Option Int
  | int n => some (n * Decimal.twoPow Decimal.unitBits)
  | bool b => some (if b then Decimal.twoPow Decimal.unitBits else 0)
  | float x =>
    if Decimal.magnitude x < Decimal.infinityBits then
      let n : Int := Decimal.units (Decimal.magnitude x)
      some (if Decimal.isNegative x then -n else n)
    else Option.none
  | _ => Option.none

/-- Equality of a host's scalars: finite numbers are equal when their values are. -/
def same : Atom → Atom → Bool
  | string s, string t => s == t
  | bytes s, bytes t => s == t
  | none, none => true
  | a, b =>
    match a.units?, b.units? with
    | some m, some n => m == n
    | Option.none, Option.none =>
      match a, b with
      | float x, float y => x == y
      | _, _ => false
    | _, _ => false

end Atom

/-- A key of a map. A NaN equals nothing by its value, so as a key it goes by a mark, which its
host gives to each one it makes. -/
inductive Key where
  | atom (a : Atom)
  | number (n : Number)
  | text (s : String)
  | null
  | tuple (items : List Key)
  /-- A NaN, as a scalar of the host or as a number of the language. -/
  | nan (origin : Origin) (mark : Nat)

namespace Key

@[match_pattern] abbrev name (s : String) : Key := .atom (.string s)

def name? : Key → Option String
  | .name s => some s
  | _ => none

def typeName : Key → String
  | atom a => a.typeName
  | number n => n.cls.name
  | text _ => "Text"
  | null => "NullValue"
  | tuple _ => "tuple"
  | nan .host _ => "float"
  | nan .native _ => "Float"

/-- The forms of a tuple's items in parentheses; a single one is followed by a comma. -/
def tupleForm : List String → String
  | [s] => "(" ++ s ++ ",)"
  | forms => Text.bracketed "(" ")" forms

mutual

def form? : Key → Option String
  | atom a => a.form?
  | number (.int n) => some ("Int(value=" ++ Decimal.integer n.toInt ++ ")")
  | number (.float x) => some ("Float(value=" ++ Decimal.Layout.plain.write x ++ ")")
  | text s => some ("Text(value=" ++ Text.quote s ++ ")")
  | null => some "NullValue()"
  | tuple items => (forms? items).map tupleForm
  | nan .host _ => some "nan"
  | nan .native _ => some "Float(value=nan)"

def forms? : List Key → Option (List String)
  | [] => some []
  | k :: ks => do return (← k.form?) :: (← forms? ks)

end

/-- The name that a key turns into when a host's map is taken over. -/
def toName? : Key → Option String
  | .name s => some s
  | k => k.form?

mutual

def same : Key → Key → Bool
  | atom a, atom b => a.same b
  | number m, number n => m.same n
  | text s, text t => s == t
  | null, null => true
  | tuple ks, tuple ls => sameItems ks ls
  | nan o m, nan p n => o == p && m == n
  | _, _ => false

def sameItems : List Key → List Key → Bool
  | [], [] => true
  | k :: ks, l :: ls => k.same l && sameItems ks ls
  | _, _ => false

end

instance : BEq Key := ⟨same⟩

@[simp] theorem name_beq_name (s t : String) : (name s == name t) = (s == t) := rfl

end Key

/-- A value of the language, or something foreign that a host handed in. -/
inductive Value where
  | number (n : Number)
  | text (s : String)
  | null
  | array (origin : Origin) (items : List Value)
  | map (origin : Origin) (entries : List (Key × Value))
  | foreign (a : Atom)
  | tuple (items : List Value)

namespace Value

@[match_pattern] abbrev int (n : Int64) : Value := .number (.int n)

@[match_pattern] abbrev float (x : Float) : Value := .number (.float x)

@[match_pattern] abbrev vector (items : List Value) : Value := .array .native items

@[match_pattern] abbrev record (entries : List (Key × Value)) : Value := .map .native entries

/-- The kind of a value; what is foreign has none. -/
def kind? : Value → Option Kind
  | number _ => some .numeric
  | text _ => some .text
  | null => some .null
  | array _ _ => some .array
  | map _ _ => some .map
  | foreign _ => none
  | tuple _ => none

def typeName : Value → String
  | number n => n.cls.name
  | text _ => "Text"
  | null => "NullValue"
  | array .native _ => "ArrayValue"
  | array .host _ => "list"
  | map .native _ => "MapValue"
  | map .host _ => "dict"
  | foreign a => a.typeName
  | tuple _ => "tuple"

def isNumeric : Value → Bool
  | number _ => true
  | _ => false

end Value

end Glyph
