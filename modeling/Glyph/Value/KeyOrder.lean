import Glyph.Error

/-!
# The order of keys

Names are ordered by their code points, the numbers of a host by their values with the infinities at
the ends, its bytes one by one, and tuples by their first items that differ. A NaN comes before
nothing and after nothing. Keys of any other two types have no order. `sorted` puts keys in order,
or says which two of them have none.
-/

namespace Glyph

/-- Whether one list of code points or bytes comes before another: at the first place where they
differ the smaller comes first, and a list comes before its continuations. -/
def codesBefore : List Nat → List Nat → Bool
  | _, [] => false
  | [], _ :: _ => true
  | m :: ms, n :: ns => if m = n then codesBefore ms ns else decide (m < n)

namespace Atom

def isReal : Atom → Bool
  | int _ => true
  | float _ => true
  | bool _ => true
  | _ => false

/-- Where a number of a host stands: below, among or above the finite numbers, and its value in
smallest units if it is one of them. A NaN stands nowhere. -/
def standing? (a : Atom) : Option (Int × Int) :=
  match a, a.units? with
  | _, some n => some (0, n)
  | float x, Option.none =>
    if x.isNaN then Option.none else some (if Decimal.isNegative x then -1 else 1, 0)
  | _, Option.none => Option.none

def realBefore (a b : Atom) : Bool :=
  match a.standing?, b.standing? with
  | some (i, m), some (j, n) => decide (i < j) || i == j && decide (m < n)
  | _, _ => false

/-- Whether one scalar of a host comes before another, if the two have an order. -/
def before? : Atom → Atom → Option Bool
  | string s, string t => some (codesBefore (s.toList.map Char.toNat) (t.toList.map Char.toNat))
  | bytes s, bytes t => some (codesBefore (s.map UInt8.toNat) (t.map UInt8.toNat))
  | a, b => if a.isReal && b.isReal then some (a.realBefore b) else Option.none

end Atom

namespace Key

def isReal : Key → Bool
  | atom a => a.isReal
  | nan .host _ => true
  | _ => false

mutual

/-- Whether one key comes before another, or the types that have no order. -/
def before : Key → Key → Outcome Bool
  | atom a, atom b =>
    match a.before? b with
    | some r => .ok r
    | none => misuse (.unorderedKeys a.typeName b.typeName)
  | tuple ks, tuple ls => itemsBefore ks ls
  | k, l =>
    if k.isReal && l.isReal then .ok false
    else misuse (.unorderedKeys k.typeName l.typeName)

def itemsBefore : List Key → List Key → Outcome Bool
  | [], [] => .ok false
  | [], _ :: _ => .ok true
  | _ :: _, [] => .ok false
  | k :: ks, l :: ls => if k == l then itemsBefore ks ls else k.before l

end

def place (k : Key) : List Key → Outcome (List Key)
  | [] => .ok [k]
  | l :: ls => do
    if ← k.before l then return k :: l :: ls
    else return l :: (← place k ls)

def sorted : List Key → Outcome (List Key)
  | [] => .ok []
  | k :: ks => do place k (← sorted ks)

end Key

end Glyph
