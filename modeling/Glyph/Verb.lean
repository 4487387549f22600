/-!
# Verbs

A dyadic verb stands between two operands, a monadic verb in front of one, and an operator turns a
dyadic verb into a verb on one operand. Six of the dyadic verbs are pervasive: they descend into
arrays and maps down to the numbers. The other two, replicate and access, take containers as wholes.

Every verb has one glyph; `ofGlyph?` finds the verb of a glyph.
-/

namespace Glyph

/-- The verbs that act on numbers and descend into containers to find them. -/
inductive Pervasive where
  | add
  | subtract
  | multiply
  | divide
  | greater
  | equal
  deriving DecidableEq, Repr

inductive Dyadic where
  | pervasive (op : Pervasive)
  | replicate
  | access
  deriving DecidableEq, Repr

inductive Monadic where
  | print
  | generate
  | shape
  deriving DecidableEq, Repr

/-- The operators, which make a verb on one operand out of a dyadic verb. -/
inductive Operator where
  | reduce
  deriving DecidableEq, Repr

namespace Pervasive

def all : List Pervasive := [add, subtract, multiply, divide, greater, equal]

def glyph : Pervasive → String
  | add => "+"
  | subtract => "-"
  | multiply => "×"
  | divide => "÷"
  | greater => ">"
  | equal => "="

def ofGlyph? (s : String) : Option Pervasive := all.find? fun op => op.glyph == s

@[simp] theorem ofGlyph?_glyph (op : Pervasive) : ofGlyph? op.glyph = some op := by
  cases op <;> rfl

end Pervasive

namespace Dyadic

def all : List Dyadic := Pervasive.all.map pervasive ++ [replicate, access]

def glyph : Dyadic → String
  | pervasive op => op.glyph
  | replicate => "/"
  | access => "."

def ofGlyph? (s : String) : Option Dyadic := all.find? fun v => v.glyph == s

@[simp] theorem ofGlyph?_glyph (v : Dyadic) : ofGlyph? v.glyph = some v := by
  cases v with
  | pervasive op => cases op <;> rfl
  | replicate => rfl
  | access => rfl

/-- The verb's entry in the table of verbs, as messages about that table show it. -/
def entry (v : Dyadic) : String :=
  let word := match v with
    | pervasive .add => "ADD"
    | pervasive .subtract => "SUBTRACT"
    | pervasive .multiply => "MULTIPLY"
    | pervasive .divide => "DIVIDE"
    | pervasive .greater => "GREATER_THAN"
    | pervasive .equal => "EQUALS"
    | replicate => "REPLICATE"
    | access => "ACCESS"
  "<DyadicVerb." ++ word ++ ": '" ++ v.glyph ++ "'>"

end Dyadic

namespace Monadic

def all : List Monadic := [print, generate, shape]

/-- The glyph of a monadic verb; printing is spelled out. -/
def glyph : Monadic → String
  | print => "print"
  | generate => "⍳"
  | shape => "⍴"

def ofGlyph? (s : String) : Option Monadic := all.find? fun v => v.glyph == s

@[simp] theorem ofGlyph?_glyph (v : Monadic) : ofGlyph? v.glyph = some v := by
  cases v <;> rfl

end Monadic

namespace Operator

def glyph : Operator → String
  | reduce => "/"

def ofGlyph? (s : String) : Option Operator := if s = "/" then some reduce else none

end Operator

end Glyph
