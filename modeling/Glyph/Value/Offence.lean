import Glyph.Error

/-!
# Offences

A value is valid when nothing in it is foreign and all keys of its maps are names. What makes a
value invalid is found in depth-first order, from left to right, and reported with the path that
leads to it; a bad key is reported at its map, before the value under it is looked at.
-/

namespace Glyph

inductive OffenceCause where
  /-- Something foreign, of the named type. -/
  | foreign (typeName : String)
  /-- A map with a key that is no name. -/
  | key (k : Key)

structure Offence where
  path : List Step
  cause : OffenceCause

namespace Offence

def under (s : Step) (o : Offence) : Offence := ⟨s :: o.path, o.cause⟩

/-- The misuse to report for an offence in the value that stands at `place`; there is none for a
key that cannot be shown. -/
def report? (place : String) (o : Offence) : Option Misuse :=
  match o.cause with
  | .foreign typeName => some (.foreignAt place o.path typeName)
  | .key k => k.form?.map (.keyAt place o.path ·)

end Offence

namespace Value

mutual

def offence? : Value → Option Offence
  | number _ => none
  | text _ => none
  | null => none
  | array _ xs => itemsOffence? 0 xs
  | map _ es => entriesOffence? es
  | foreign a => some ⟨[], .foreign a.typeName⟩
  | tuple xs => some ⟨[], .foreign (tuple xs).typeName⟩

/-- The first offence in the items of an array, of which the first has index `i`. -/
def itemsOffence? (i : Nat) : List Value → Option Offence
  | [] => none
  | x :: xs =>
    match x.offence? with
    | some o => some (o.under (.index i))
    | none => itemsOffence? (i + 1) xs

def entriesOffence? : List (Key × Value) → Option Offence
  | [] => none
  | (k, v) :: es =>
    match k.name? with
    | none => some ⟨[], .key k⟩
    | some name =>
      match v.offence? with
      | some o => some (o.under (.key name))
      | none => entriesOffence? es

end

def validate (place : String) (v : Value) : Outcome Unit :=
  match v.offence? with
  | none => .ok ()
  | some o => do misuse (← shown (o.report? place))

end Value

end Glyph
