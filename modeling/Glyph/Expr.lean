import Glyph.Numeral

/-!
# Expressions

The tree of one line of a program. A map literal has each key once, which `ofEntries` sees to where
a tree is built by hand. A block of lines is no expression of the language: it has no value, and no
source text has one inside a line, but a host may build it.
-/

namespace Glyph

inductive Expr where
  | literal (l : Literal)
  | text (s : String)
  | array (items : List Expr)
  | map (entries : List (String × Expr))
  | ref (name : String)
  | assign (name : String) (value : Expr)
  | dyadic (verb : Dyadic) (left right : Expr)
  | monadic (verb : Monadic) (right : Expr)
  | operator (verb : Dyadic) (operator : Operator) (right : Expr)
  | block (lines : List Expr)

namespace Expr

/-- The word for the form of an expression in a log. -/
def label : Expr → String
  | literal _ => "NumericLiteral"
  | text _ => "StringLiteral"
  | array _ => "ArrayLiteral"
  | map _ => "MapLiteral"
  | ref _ => "VariableRef"
  | assign _ _ => "Assignment"
  | dyadic _ _ _ => "DyadicApplication"
  | monadic _ _ => "MonadicApplication"
  | operator _ _ _ => "OperatorApplication"
  | block _ => "Program"

/-- The first name of a list that occurred before in it. -/
def repeated? (seen : List String) : List String → Option String
  | [] => none
  | k :: ks => if seen.contains k then some k else repeated? (k :: seen) ks

/-- The map literal with the given entries, whose keys have to differ. -/
def ofEntries (entries : List (String × Expr)) : Outcome Expr :=
  match repeated? [] (entries.map Prod.fst) with
  | some k => misuse (.duplicateKey k)
  | none => .ok (map entries)

end Expr

def Dyadic.ofGlyph (s : String) : Outcome Dyadic :=
  match Dyadic.ofGlyph? s with
  | some v => .ok v
  | none => misuse (.unknownVerb .dyadic s)

def Monadic.ofGlyph (s : String) : Outcome Monadic :=
  match Monadic.ofGlyph? s with
  | some v => .ok v
  | none => misuse (.unknownVerb .monadic s)

def Operator.ofGlyph (s : String) : Outcome Operator :=
  match Operator.ofGlyph? s with
  | some o => .ok o
  | none => misuse (.unknownVerb .operator s)

end Glyph
