import Glyph.Numeral

/-!
# Tokens

A token is a lexeme with its place in the source: the half-open span of code points that it covers.
Lexemes carry what they mean, a numeral, a name, a verb, and not only how they are spelled.
-/

namespace Glyph

/-- The classes of lexemes, with one more for the end of the source. -/
inductive TokenClass where
  | leftParen
  | rightParen
  | leftBracket
  | rightBracket
  | leftBrace
  | rightBrace
  | comma
  | colon
  | separator
  | assign
  | string
  | number
  | dyadic
  | monadic
  | name
  | finish
  deriving DecidableEq, Repr

def TokenClass.word : TokenClass → String
  | .leftParen => "LPAREN"
  | .rightParen => "RPAREN"
  | .leftBracket => "LBRACK"
  | .rightBracket => "RBRACK"
  | .leftBrace => "LBRACE"
  | .rightBrace => "RBRACE"
  | .comma => "COMMA"
  | .colon => "COLON"
  | .separator => "SEP"
  | .assign => "ASSIGN"
  | .string => "STRING"
  | .number => "NUMBER"
  | .dyadic => "DYADIC_VERB"
  | .monadic => "MONADIC_VERB"
  | .name => "NAME"
  | .finish => "EOF"

inductive Lexeme where
  | leftParen
  | rightParen
  | leftBracket
  | rightBracket
  | leftBrace
  | rightBrace
  | comma
  | colon
  | separator
  | assign
  | string (s : String)
  | number (n : Numeral)
  | dyadic (v : Dyadic)
  | monadic (v : Monadic)
  | name (s : String)
  deriving DecidableEq, Repr

namespace Lexeme

def cls : Lexeme → TokenClass
  | leftParen => .leftParen
  | rightParen => .rightParen
  | leftBracket => .leftBracket
  | rightBracket => .rightBracket
  | leftBrace => .leftBrace
  | rightBrace => .rightBrace
  | comma => .comma
  | colon => .colon
  | separator => .separator
  | assign => .assign
  | string _ => .string
  | number _ => .number
  | dyadic _ => .dyadic
  | monadic _ => .monadic
  | name _ => .name

/-- The text of a lexeme: a string without its quotes, a verb by its glyph. -/
def text : Lexeme → String
  | leftParen => "("
  | rightParen => ")"
  | leftBracket => "["
  | rightBracket => "]"
  | leftBrace => "\x7b"
  | rightBrace => "\x7d"
  | comma => ","
  | colon => ":"
  | separator => "⋄"
  | assign => "←"
  | string s => s
  | number n => String.ofList n.spell
  | dyadic v => v.glyph
  | monadic v => v.glyph
  | name s => s

end Lexeme

/-- A lexeme and the span `[start, stop)` of the source that it covers. -/
structure Token where
  lexeme : Lexeme
  start : Nat
  stop : Nat
  deriving DecidableEq, Repr

structure TokenList where
  tokens : List Token
  length : Nat
  deriving DecidableEq, Repr

structure TokenRow where
  word : String
  text : String
  start : Nat
  stop : Nat
  deriving DecidableEq, Repr

/-- The listing of tokens; its last line is the end of the source. -/
def TokenList.rows (ts : TokenList) : List TokenRow :=
  ts.tokens.map (fun t => ⟨t.lexeme.cls.word, t.lexeme.text, t.start, t.stop⟩) ++
    [⟨TokenClass.finish.word, "", ts.length, ts.length⟩]

end Glyph
