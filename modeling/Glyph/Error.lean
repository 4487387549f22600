import Glyph.Value.Path
import Glyph.Verb

/-!
# Errors

There are two families. A `Fault` is a failure of a running program: a verb met operands it has no
case for, lengths or keys did not fit, a name was unbound. A `Misuse` is a failure of the host that
called the library: a value that is none, a number out of range, a tree that no source text has.
A program that was read from a source text only ever has faults; a line of it that fails is
reported, and the run can go on.

Each constructor is a cause with what is needed to report it; `message` is the one place for the
wording, and `Fault.title` for the word a report puts in front of it.
-/

namespace Glyph

inductive Fault where
  /-- A verb that demands operands of one type met two. -/
  | mixedTypes (op : Pervasive) (left right : String)
  /-- A count of replicate is no integer. -/
  | countKind (kind : Kind)
  /-- An index is no integer. -/
  | indexType (typeName : String)
  /-- A key was projected out of an array in which not everything is a map. -/
  | projectedKind (key : String) (kind : Kind)
  /-- A dyadic verb has no case for the kinds of its operands. -/
  | operands (verb : Dyadic) (left right : Kind)
  /-- A monadic verb or an operator has no case for the kind of its operand. -/
  | operand (glyph : String) (kind : Kind) (detail : String)
  /-- Two arrays differ in length. -/
  | lengths (op : Pervasive) (left right : Nat)
  /-- Two maps differ in size. -/
  | sizes (op : Pervasive) (left right : Nat)
  /-- Two maps of one size differ in their keys; the forms of those that only one of them has. -/
  | keySets (op : Pervasive) (differing : List String)
  /-- Replicate met as many counts as items. -/
  | countLengths (counts items : Nat)
  /-- A count of replicate is negative. -/
  | negativeCount (count : Int)
  /-- An index lies outside the array. -/
  | indexRange (index : Int) (length : Nat)
  /-- A map has no such key. -/
  | missingKey (key : String)
  /-- A variable is not bound. -/
  | unbound (name : String)
  /-- The operator cannot take the verb. -/
  | operatorVerb (operator : Operator) (verb : Dyadic)
  /-- An empty array was reduced. -/
  | emptyReduce (verb : Dyadic)

namespace Fault

/-- The word that a report puts in front of the message. -/
def title : Fault → String
  | mixedTypes .. => "TypeMismatchError"
  | countKind .. => "TypeMismatchError"
  | indexType .. => "TypeMismatchError"
  | projectedKind .. => "TypeMismatchError"
  | operands .. => "UnsupportedOperandsError"
  | operand .. => "UnsupportedOperandError"
  | lengths .. => "ShapeMismatchError"
  | sizes .. => "ShapeMismatchError"
  | keySets .. => "ShapeMismatchError"
  | countLengths .. => "ShapeMismatchError"
  | negativeCount .. => "InvalidMultiplicityError"
  | indexRange .. => "IndexOutOfBoundsError"
  | missingKey .. => "KeyNotFoundError"
  | unbound .. => "UndefinedVariableError"
  | operatorVerb .. => "OperatorNotImplementedError"
  | emptyReduce .. => "EmptyReduceError"

def message : Fault → String
  | mixedTypes op l r =>
    "Verb " ++ Text.quote op.glyph ++ " cannot mix " ++ l ++ " and " ++ r ++ " operands"
  | countKind k => "Replicate counts must be Int, got " ++ k.name
  | indexType t => "Array index must be Int, got " ++ t
  | projectedKind key k =>
    "Projecting key " ++ Text.quote key ++ " requires an array of maps, found " ++ k.name
  | operands v l r =>
    "Verb " ++ Text.quote v.glyph ++ " is not defined for (" ++ l.name ++ ", " ++ r.name ++
      ") operands"
  | operand glyph k detail =>
    "Verb " ++ Text.quote glyph ++ " is not defined for a " ++ k.name ++ " operand: " ++ detail
  | lengths op m n =>
    "Verb " ++ Text.quote op.glyph ++ " requires arrays of equal length, got " ++
      Decimal.natural m ++ " and " ++ Decimal.natural n
  | sizes op m n =>
    "Verb " ++ Text.quote op.glyph ++ " requires maps of equal size, got " ++
      Decimal.natural m ++ " and " ++ Decimal.natural n ++ " keys"
  | keySets op forms =>
    "Verb " ++ Text.quote op.glyph ++ " requires maps with the same keys; differing keys " ++
      Text.bracketed "[" "]" forms
  | countLengths m n =>
    "Replicate requires arrays of equal length, got " ++ Decimal.natural m ++ " and " ++
      Decimal.natural n
  | negativeCount n => "Replicate count " ++ Decimal.integer n ++ " is negative"
  | indexRange i n =>
    "Index " ++ Decimal.integer i ++ " is out of bounds for array of length " ++ Decimal.natural n
  | missingKey key => "Key " ++ Text.quote key ++ " not found in map"
  | unbound name => "Undefined variable " ++ Text.quote name
  | operatorVerb o v =>
    "Operator " ++ Text.quote o.glyph ++ " is not implemented for verb " ++ Text.quote v.glyph
  | emptyReduce v => "Cannot reduce " ++ Text.quote v.glyph ++ " over an empty array"

end Fault

inductive VerbFamily where
  | dyadic
  | monadic
  | operator
  deriving DecidableEq, Repr

def VerbFamily.name : VerbFamily → String
  | .dyadic => "DyadicVerb"
  | .monadic => "MonadicVerb"
  | .operator => "OperatorVerb"

inductive Misuse where
  /-- Something foreign stands where a value has to. -/
  | notAValue (typeName : String)
  /-- An integer was made of something else. -/
  | notAnInteger (typeName : String)
  /-- A float was made of something that is no real number. -/
  | notReal (typeName : String)
  /-- An integer does not fit in 64 bits. -/
  | outOfRange (form : String)
  /-- An integer in something that is to be shown has too many digits. -/
  | unwritableInteger
  /-- An integer lies beyond the largest float. -/
  | floatOverflow
  /-- Truth values have no counterpart in the language. -/
  | truthValue
  /-- A host's object has no counterpart in the language. -/
  | notConvertible (typeName : String)
  /-- Something foreign at the end of a path. -/
  | foreignAt (place : String) (path : List Step) (typeName : String)
  /-- A map at the end of a path has a key that is no name. -/
  | keyAt (place : String) (path : List Step) (form : String)
  /-- A key that is no name cannot be written. -/
  | unwritableKey (typeName : String)
  /-- A key of bytes cannot be written. -/
  | bytesKey
  /-- Such a key cannot be put in a map. -/
  | unusableKey (typeName : String)
  /-- Two keys of these types cannot be put in order. -/
  | unorderedKeys (left right : String)
  /-- No verb of the family has the glyph. -/
  | unknownVerb (family : VerbFamily) (glyph : String)
  /-- A map literal has a key twice. -/
  | duplicateKey (key : String)
  /-- A whole program stands where an expression has to. -/
  | blockExpression
  /-- A variable has no name. -/
  | emptyName
  /-- An object that is no string stands where a name has to. -/
  | notAName (form : String)
  /-- No operation on numbers has the glyph. -/
  | noKernel (glyph : String)
  /-- The verb has no identity. -/
  | noIdentity (verb : Dyadic)
  /-- There is no fold of integers with the glyph. -/
  | noFold (glyph : String)
  /-- Something without a content stands where a number has to. -/
  | noContent (typeName : String)
  /-- A text that spells no number stands where a double has to. -/
  | floatText (text : String)
  /-- A text that spells no integer stands where one has to. -/
  | integerText (text : String)
  /-- A NaN stands where an integer has to. -/
  | integerNan
  /-- An infinity stands where an integer has to. -/
  | integerInfinity
  /-- An integer of more than 64 bits stands where a shorter one has to. -/
  | wideInteger
  /-- A host cannot go through such a thing. -/
  | notIterable (typeName : String)
  /-- A store has no such name. -/
  | missingName (name : String)
  /-- A store was asked for an object that is no string. The object goes with the misuse, whether it
  can be shown or not. -/
  | missingObject (form? : Option String)
  /-- An object that is no string was looked up as a variable. -/
  | unboundObject (form : String)
  /-- A store is empty. -/
  | emptyStore
  /-- A text is no number. -/
  | notANumeral (text : String)
  /-- An integer is written with more digits than are read. -/
  | tooManyDigits (count : Nat)
  /-- A path of a file holds a null character. -/
  | nullInPath

def Misuse.message : Misuse → String
  | notAValue t => "Unsupported runtime type " ++ t
  | notAnInteger t => "Int requires an integer, got " ++ t
  | notReal t => "Float requires a real number, got " ++ t
  | outOfRange form => "Int value " ++ form ++ " does not fit in 64 bits"
  | unwritableInteger =>
    "Exceeds the limit (4300 digits) for integer string conversion; use " ++
      "sys.set_int_max_str_digits() to increase the limit"
  | floatOverflow => "int too large to convert to float"
  | truthValue => "bool has no runtime representation; use 0 or 1"
  | notConvertible t => "Cannot convert " ++ t ++ " to a runtime value"
  | foreignAt place path t =>
    place ++ String.join (path.map Step.form) ++ " has unsupported runtime type " ++ t
  | keyAt place path form =>
    place ++ String.join (path.map Step.form) ++ " has non-string key " ++ form
  | unwritableKey t => "'" ++ t ++ "' object has no attribute 'replace'"
  | bytesKey => "a bytes-like object is required, not 'str'"
  | unusableKey t => "unhashable type: '" ++ t ++ "'"
  | unorderedKeys l r =>
    "'<' not supported between instances of '" ++ l ++ "' and '" ++ r ++ "'"
  | unknownVerb family glyph => Text.quote glyph ++ " is not a valid " ++ family.name
  | duplicateKey key => "Duplicate map key " ++ Text.quote key
  | blockExpression => "Unsupported expression node: <class 'arrlang.ast.Program'>"
  | emptyName => "Variable names must be non-empty strings, got ''"
  | notAName form => "Variable names must be non-empty strings, got " ++ form
  | noKernel glyph => Text.quote glyph
  | noIdentity v => v.entry
  | noFold glyph => "No dense fold for verb " ++ Text.quote glyph
  | noContent t => "'" ++ t ++ "' object has no attribute 'value'"
  | floatText s => "could not convert string to float: " ++ Text.quote s
  | integerText s =>
    "invalid literal for int() with base 10: " ++ String.ofList ((Text.quote s).toList.take 200)
  | integerNan => "cannot convert float NaN to integer"
  | integerInfinity => "cannot convert float infinity to integer"
  | wideInteger => "Python int too large to convert to C long"
  | notIterable t => "'" ++ t ++ "' object is not iterable"
  | missingName name => Text.quote name
  | missingObject form? => form?.getD ""
  | unboundObject form => "Undefined variable " ++ form
  | emptyStore => ""
  | notANumeral s => "Invalid numeric literal " ++ Text.quote s
  | tooManyDigits n =>
    "Exceeds the limit (4300 digits) for integer string conversion: value has " ++
      Decimal.natural n ++ " digits; use sys.set_int_max_str_digits() to increase the limit"
  | nullInPath => "embedded null byte"

inductive Failure where
  | fault (cause : Fault)
  | misuse (cause : Misuse)

def Failure.message : Failure → String
  | fault cause => cause.message
  | misuse cause => cause.message

abbrev Outcome (α : Type) := Except Failure α

abbrev fail {α : Type} (cause : Fault) : Outcome α := .error (.fault cause)

abbrev misuse {α : Type} (cause : Misuse) : Outcome α := .error (.misuse cause)

/-- What is to be shown; without a form it holds an integer that cannot be written. -/
def shown {α : Type} : Option α → Outcome α
  | some form => .ok form
  | none => misuse .unwritableInteger

@[simp] theorem shown_eq_ok_iff {α : Type} {form? : Option α} {form : α} :
    shown form? = .ok form ↔ form? = some form := by
  cases form? <;> simp [shown]

/-- A misuse that has to be shown is a misuse also where it cannot be. -/
theorem exists_misuse_of_shown {α β : Type} (form? : Option α) (cause : α → Misuse) :
    ∃ m, (do misuse (cause (← shown form?)) : Outcome β) = misuse m := by
  cases form? with
  | some form => exact ⟨cause form, rfl⟩
  | none => exact ⟨.unwritableInteger, rfl⟩

theorem Outcome.bind_eq_ok_iff {α β : Type} {x : Outcome α} {f : α → Outcome β} {b : β} :
    (x >>= f) = .ok b ↔ ∃ a, x = .ok a ∧ f a = .ok b := by
  constructor
  · intro h
    cases x with
    | error e => cases h
    | ok a => exact ⟨a, rfl, h⟩
  · rintro ⟨a, rfl, h⟩
    exact h

/-- The kind of a value, or the misuse of something foreign. -/
def Value.kind (v : Value) : Outcome Kind :=
  match v.kind? with
  | some k => .ok k
  | none => misuse (.notAValue v.typeName)

end Glyph
