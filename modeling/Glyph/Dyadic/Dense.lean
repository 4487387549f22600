import Glyph.Dyadic.Broadcast

/-!
# Flat arrays at once

Where an operand is a nonempty array of numbers of one class, and the other is a number or an array
of the same length and of one class, a pervasive verb need not take the arrays apart: both are taken
into the common class as a whole and combined place by place, with a number standing at every place.
The shortcut is not taken where the lengths differ or the verb demands one class and meets two, so
that the errors are those of the plain recursion.
-/

namespace Glyph

def ints? : List Value → Option (List Int64)
  | [] => some []
  | .int n :: vs => (ints? vs).map (n :: ·)
  | _ => none

def floats? : List Value → Option (List Float)
  | [] => some []
  | .float x :: vs => (floats? vs).map (x :: ·)
  | _ => none

def uniformClass? (vs : List Value) : Option NumberClass :=
  if vs.isEmpty then none
  else if (ints? vs).isSome then some .int
  else if (floats? vs).isSome then some .float
  else none

inductive Dense where
  | scalar (n : Number)
  | ints (ns : List Int64)
  | floats (xs : List Float)

namespace Dense

def of? : Value → Option Dense
  | .number n => some (.scalar n)
  | .array _ vs =>
    if vs.isEmpty then none
    else
      match ints? vs with
      | some ns => some (.ints ns)
      | none => (floats? vs).map .floats
  | _ => none

def cls : Dense → NumberClass
  | scalar n => n.cls
  | ints _ => .int
  | floats _ => .float

def length? : Dense → Option Nat
  | scalar _ => none
  | ints ns => some ns.length
  | floats xs => some xs.length

def commonLength? (l r : Dense) : Option Nat :=
  match l.length?, r.length? with
  | some m, some n => if m = n then some m else none
  | some m, none => some m
  | none, n => n

def toInts (n : Nat) : Dense → List Int64
  | scalar (.int i) => List.replicate n i
  | ints ns => ns
  | _ => []

def toFloats (n : Nat) : Dense → List Float
  | scalar x => List.replicate n x.toFloat
  | ints ns => ns.map Decimal.ofInt64
  | floats xs => xs

def combine (op : Pervasive) (n : Nat) (l r : Dense) : List Number :=
  match op.operandClass l.cls r.cls with
  | .int => List.zipWith op.onInts (l.toInts n) (r.toInts n)
  | .float => List.zipWith op.onFloats (l.toFloats n) (r.toFloats n)

def shortcut : Shortcut := fun op a b =>
  match of? a, of? b with
  | some l, some r =>
    match commonLength? l r with
    | none => none
    | some n =>
      match op.checkClasses l.cls r.cls with
      | .error _ => none
      | .ok () => some (.vector ((combine op n l r).map Value.number))
  | _, _ => none

end Dense

def Pervasive.apply (op : Pervasive) (a b : Value) : Outcome Value :=
  Pervasive.lockstep Dense.shortcut op a b

end Glyph
