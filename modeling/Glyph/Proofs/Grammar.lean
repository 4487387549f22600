import Glyph.Expr
import Glyph.Token

/-!
# The grammar

The grammar of the language as a relation: `Derives ls p` says that the lexemes `ls`, taken
together, can be read as the phrase `p`. There is one constructor for each rule and nothing in it
follows the order in which a parser looks at the lexemes. Separators are written out where they may
stand: next to the brackets and the commas of a literal, and around the statements of a program.

The two side conditions stand with their rules: a numeral without a point and an exponent has to fit
in 64 bits, and the keys of a map literal have to differ.
-/

namespace Glyph

/-- What lexemes can be read as, with the tree that it stands for. -/
inductive Phrase where
  | term (e : Expr)
  /-- One or more terms in a row. -/
  | row (es : List Expr)
  /-- Terms in a row as one operand. -/
  | terms (e : Expr)
  | expression (e : Expr)
  | statement (e : Expr)
  /-- The items of an array literal. -/
  | items (es : List Expr)
  /-- The entries of a map literal. -/
  | entries (es : List (String × Expr))
  /-- Statements with separators between them. -/
  | lines (es : List Expr)
  | program (es : List Expr)

def separators (n : Nat) : List Lexeme := List.replicate n .separator

/-- The lexemes can be read as the phrase. -/
inductive Derives : List Lexeme → Phrase → Prop where
  | integer {n : Numeral} (hint : n.isInteger = true) (hfit : FitsInt64 n.intValue) :
      Derives [.number n] (.term (.literal (.int n.intValue)))
  | decimal {n : Numeral} (hint : n.isInteger = false) :
      Derives [.number n] (.term (.literal (.float n.floatValue)))
  | string (s : String) : Derives [.string s] (.term (.text s))
  | name (x : String) : Derives [.name x] (.term (.ref x))
  | parens {ls : List Lexeme} {e : Expr} (h : Derives ls (.statement e)) :
      Derives (.leftParen :: ls ++ [.rightParen]) (.term e)
  | emptyArray (n : Nat) :
      Derives (.leftBracket :: separators n ++ [.rightBracket]) (.term (.array []))
  | array {ls : List Lexeme} {es : List Expr} (m n : Nat) (h : Derives ls (.items es)) :
      Derives (.leftBracket :: separators m ++ ls ++ separators n ++ [.rightBracket])
        (.term (.array es))
  | emptyMap (n : Nat) :
      Derives (.leftBrace :: separators n ++ [.rightBrace]) (.term (.map []))
  | map {ls : List Lexeme} {es : List (String × Expr)} (m n : Nat) (h : Derives ls (.entries es))
      (hkeys : (es.map Prod.fst).Nodup) :
      Derives (.leftBrace :: separators m ++ ls ++ separators n ++ [.rightBrace]) (.term (.map es))
  | lastItem {ls : List Lexeme} {e : Expr} (h : Derives ls (.expression e)) :
      Derives ls (.items [e])
  | item {ls ms : List Lexeme} {e : Expr} {es : List Expr} (m n : Nat)
      (h : Derives ls (.expression e)) (hs : Derives ms (.items es)) :
      Derives (ls ++ separators m ++ .comma :: separators n ++ ms) (.items (e :: es))
  | lastEntry {ls : List Lexeme} {e : Expr} (k : String) (h : Derives ls (.expression e)) :
      Derives (.string k :: .colon :: ls) (.entries [(k, e)])
  | entry {ls ms : List Lexeme} {e : Expr} {es : List (String × Expr)} (k : String) (m n : Nat)
      (h : Derives ls (.expression e)) (hs : Derives ms (.entries es)) :
      Derives (.string k :: .colon :: ls ++ separators m ++ .comma :: separators n ++ ms)
        (.entries ((k, e) :: es))
  | lastTerm {ls : List Lexeme} {e : Expr} (h : Derives ls (.term e)) : Derives ls (.row [e])
  | nextTerm {ls ms : List Lexeme} {e : Expr} {es : List Expr} (h : Derives ls (.term e))
      (hs : Derives ms (.row es)) : Derives (ls ++ ms) (.row (e :: es))
  | oneTerm {ls : List Lexeme} {e : Expr} (h : Derives ls (.row [e])) : Derives ls (.terms e)
  | strand {ls : List Lexeme} {e f : Expr} {es : List Expr} (h : Derives ls (.row (e :: f :: es))) :
      Derives ls (.terms (.array (e :: f :: es)))
  | reduction {ls : List Lexeme} {e : Expr} (v : Dyadic) (h : Derives ls (.expression e)) :
      Derives (.dyadic v :: .dyadic .replicate :: ls) (.expression (.operator v .reduce e))
  | monadic {ls : List Lexeme} {e : Expr} (v : Monadic) (h : Derives ls (.expression e)) :
      Derives (.monadic v :: ls) (.expression (.monadic v e))
  | dyadic {ls ms : List Lexeme} {l r : Expr} (v : Dyadic) (hl : Derives ls (.terms l))
      (hr : Derives ms (.expression r)) :
      Derives (ls ++ .dyadic v :: ms) (.expression (.dyadic v l r))
  | operand {ls : List Lexeme} {e : Expr} (h : Derives ls (.terms e)) : Derives ls (.expression e)
  | assignment {ls : List Lexeme} {e : Expr} (x : String) (h : Derives ls (.expression e)) :
      Derives (.name x :: .assign :: ls) (.statement (.assign x e))
  | plain {ls : List Lexeme} {e : Expr} (h : Derives ls (.expression e)) : Derives ls (.statement e)
  | lastLine {ls : List Lexeme} {e : Expr} (h : Derives ls (.statement e)) : Derives ls (.lines [e])
  | line {ls ms : List Lexeme} {e : Expr} {es : List Expr} (n : Nat)
      (h : Derives ls (.statement e)) (hs : Derives ms (.lines es)) :
      Derives (ls ++ separators (n + 1) ++ ms) (.lines (e :: es))
  | emptyProgram (n : Nat) : Derives (separators n) (.program [])
  | program {ls : List Lexeme} {es : List Expr} (m n : Nat) (h : Derives ls (.lines es)) :
      Derives (separators m ++ ls ++ separators n) (.program es)

theorem Derives.lines_ne_nil {ls : List Lexeme} {es : List Expr} (h : Derives ls (.lines es)) :
    es ≠ [] := by
  cases h <;> exact List.cons_ne_nil _ _

theorem Derives.expression_of_term {ls : List Lexeme} {e : Expr} (h : Derives ls (.term e)) :
    Derives ls (.expression e) := .operand (.oneTerm (.lastTerm h))

end Glyph
