import Glyph.Number.Content

/-!
# The pervasive verbs on two numbers

Sum, difference and product demand two numbers of one class and stay in it; integers wrap around at
64 bits. A quotient is always a double, with an infinity or a NaN where it divides by zero, and both
operands are taken into the doubles first. Comparisons take both operands into the doubles unless
both are integers, and answer with the integers one and zero.

`combine` is the operation: it takes the operands into one class, `operandClass`, computes there and
takes what comes out into the class of the result, `resultClass`. `Kernel` gives the same classes
for a glyph, which need not be one, and `Kernel.apply` is the operation as a host calls it, on
operands that need not be numbers.
-/

namespace Glyph

namespace Pervasive

def demandsOneClass : Pervasive → Bool
  | add => true
  | subtract => true
  | multiply => true
  | divide => false
  | greater => false
  | equal => false

/-- The class that both operands are taken into. -/
def operandClass (op : Pervasive) (left right : NumberClass) : NumberClass :=
  match op, left, right with
  | divide, _, _ => .float
  | _, .int, .int => .int
  | _, _, _ => .float

/-- The class of the result, where the left operand is of the given class. -/
def resultClass (op : Pervasive) (left : NumberClass) : NumberClass :=
  match op with
  | divide => .float
  | greater => .int
  | equal => .int
  | _ => left

def checkClasses (op : Pervasive) (left right : NumberClass) : Except Fault Unit :=
  if op.demandsOneClass && left != right then
    .error (.mixedTypes op left.name right.name)
  else .ok ()

def indicator (b : Bool) : Number := .int (if b then 1 else 0)

def onInts : Pervasive → Int64 → Int64 → Number
  | add, a, b => .int (a + b)
  | subtract, a, b => .int (a - b)
  | multiply, a, b => .int (a * b)
  | divide, a, b => .float (Decimal.ofInt64 a / Decimal.ofInt64 b)
  | greater, a, b => indicator (decide (b < a))
  | equal, a, b => indicator (a == b)

def onFloats : Pervasive → Float → Float → Number
  | add, x, y => .float (x + y)
  | subtract, x, y => .float (x - y)
  | multiply, x, y => .float (x * y)
  | divide, x, y => .float (x / y)
  | greater, x, y => indicator (decide (y < x))
  | equal, x, y => indicator (x == y)

def onClass (op : Pervasive) (c : NumberClass) (x y : Number) : Number :=
  match c with
  | .int => op.onInts x.toInt64 y.toInt64
  | .float => op.onFloats x.toFloat y.toFloat

/-- The verb on two numbers whose classes it takes. -/
def compute (op : Pervasive) (x y : Number) : Number :=
  (op.onClass (op.operandClass x.cls y.cls) x y).into (op.resultClass x.cls)

def combine (op : Pervasive) (x y : Number) : Except Fault Number := do
  op.checkClasses x.cls y.cls
  return op.compute x y

theorem compute_ints (op : Pervasive) (a b : Int64) :
    op.compute (.int a) (.int b) = op.onInts a b := by cases op <;> rfl

end Pervasive

structure Kernel where
  glyph : String

namespace Kernel

def verb? (k : Kernel) : Option Pervasive := Pervasive.ofGlyph? k.glyph

def isDefined (k : Kernel) : Bool := k.verb?.isSome

/-- The class of the result; without an operation the class of the left operand. -/
def resultClass (k : Kernel) (left : NumberClass) : NumberClass :=
  match k.verb? with
  | some op => op.resultClass left
  | none => left

/-- The class that both operands are taken into; without an operation the smaller that holds
both. -/
def operandClass (k : Kernel) (left right : NumberClass) : NumberClass :=
  match k.verb? with
  | some op => op.operandClass left right
  | none => if left = .int && right = .int then .int else .float

def representation : NumberClass → String
  | .int => "int64"
  | .float => "float64"

def checkClasses (k : Kernel) (left right : NumberClass) : Except Fault Unit :=
  match k.verb? with
  | some op => op.checkClasses left right
  | none => .ok ()

def checkTypes (k : Kernel) (a b : Value) : Outcome Unit :=
  match k.verb? with
  | some op =>
    if op.demandsOneClass && a.typeName != b.typeName then
      fail (.mixedTypes op a.typeName b.typeName)
    else .ok ()
  | none => .ok ()

/-- The operation on two operands. They are looked at before the operation is looked up. -/
def apply (k : Kernel) (a b : Value) : Outcome Value := do
  k.checkTypes a b
  let x ← a.heldNumber
  let y ← b.heldNumber
  match k.verb? with
  | some op => return .number (op.compute x y)
  | none => misuse (.noKernel k.glyph)

end Kernel

end Glyph
