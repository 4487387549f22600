import Glyph.Text.Digit
import Glyph.Text.Letter
import Glyph.Token

/-!
# From source text to tokens

`lead` looks at the characters from one position on and says what stands there: something to skip
(a blank, a comment) or a lexeme, and how many characters it takes beyond the first. `scan` repeats
that to the end of the text, counting positions. It ends because every step takes a character.

Separators, that is line ends and the diamond, count as one token for as long as they follow each
other. Strings end on the line they start on, and hold their quotation mark by doubling it.
-/

namespace Glyph

inductive LexCause where
  /-- No lexeme starts with the character. -/
  | unexpected (c : Char)
  /-- A digit that no numeral starts with. -/
  | numeral
  /-- A string without an end. -/
  | openString
  deriving DecidableEq, Repr

structure LexError where
  cause : LexCause
  start : Nat
  stop : Nat
  deriving DecidableEq, Repr

def LexError.message (e : LexError) : String :=
  match e.cause with
  | .unexpected c =>
    "Unexpected character " ++ Text.quote (String.ofList [c]) ++ " at index " ++
      Decimal.natural e.start
  | .numeral => "Invalid numeric literal at index " ++ Decimal.natural e.start
  | .openString => "Unterminated string literal at index " ++ Decimal.natural e.start

namespace Lexer

def isBlank (c : Char) : Bool := c = ' ' || c = '\t' || c = '\x0c' || c = '\x0b'

def isLineEnd (c : Char) : Bool := c = '\n' || c = '\r'

def isSeparator (c : Char) : Bool := isLineEnd c || c = '⋄'

def startsName (c : Char) : Bool := c = '_' || Text.isLetter c

def continuesName (c : Char) : Bool := c = '_' || Text.isLetter c || Text.isNumeric c

def mark? (c : Char) : Option Lexeme :=
  if c = '←' then some .assign
  else if c = '(' then some .leftParen
  else if c = ')' then some .rightParen
  else if c = '[' then some .leftBracket
  else if c = ']' then some .rightBracket
  else if c = '\x7b' then some .leftBrace
  else if c = '\x7d' then some .rightBrace
  else if c = ',' then some .comma
  else if c = ':' then some .colon
  else none

def verb? (c : Char) : Option Lexeme :=
  if c = '*' then some (.dyadic (.pervasive .multiply))
  else
    match Dyadic.ofGlyph? (String.ofList [c]) with
    | some v => some (.dyadic v)
    | none =>
      match Monadic.ofGlyph? (String.ofList [c]) with
      | some v => some (.monadic v)
      | none => none

/-- The lexeme of a word: a verb that is spelled out, or a name. -/
def word (cs : List Char) : Lexeme :=
  let s := String.ofList cs
  if s = "print" then .monadic .print
  else if s = "iota" then .monadic .generate
  else if s = "shape" then .monadic .shape
  else .name s

/-- The body of a string after its opening mark `q`: its characters, and how many are taken with the
closing mark; or how many are taken before the line or the text ends. -/
def stringBody (q : Char) : List Char → Except Nat (List Char × Nat)
  | [] => .error 0
  | c :: cs =>
    if c = q then
      match cs with
      | d :: ds =>
        if d = q then
          match stringBody q ds with
          | .ok (body, n) => .ok (q :: body, n + 2)
          | .error n => .error (n + 2)
        else .ok ([], 1)
      | [] => .ok ([], 1)
    else if isLineEnd c then .error 0
    else
      match stringBody q cs with
      | .ok (body, n) => .ok (c :: body, n + 1)
      | .error n => .error (n + 1)

/-- What stands at a position: nothing but something to skip, or a lexeme; and how many characters
it takes beyond the first. -/
structure Lead where
  lexeme? : Option Lexeme
  extra : Nat

/-- Whether a numeral is due: a digit of any script, maybe after a high minus. -/
def startsNumeral (c : Char) (cs : List Char) : Bool :=
  Text.isDigit c || (c = highMinus && (cs.head?.map Text.isDigit).getD false)

/-- What stands at the front of `c :: cs`, or why nothing can, with the number of characters beyond
the first that are to blame. -/
def lead (c : Char) (cs : List Char) : Except (LexCause × Nat) Lead :=
  if isBlank c then .ok ⟨none, 0⟩
  else if c = '#' then .ok ⟨none, (cs.takeWhile fun d => !isLineEnd d).length⟩
  else if isSeparator c then .ok ⟨some .separator, (cs.takeWhile isSeparator).length⟩
  else if c = '<' && cs.head? = some '-' then .ok ⟨some .assign, 1⟩
  else
    match mark? c with
    | some l => .ok ⟨some l, 0⟩
    | none =>
      if c = '\'' || c = '"' then
        match stringBody c cs with
        | .ok (body, n) => .ok ⟨some (.string (String.ofList body)), n⟩
        | .error n => .error (.openString, n)
      else if startsNumeral c cs then
        match Numeral.scan (c :: cs) with
        | some (n, _) => .ok ⟨some (.number n), n.spell.length - 1⟩
        | none => .error (.numeral, 0)
      else
        match verb? c with
        | some l => .ok ⟨some l, 0⟩
        | none =>
          if startsName c then
            let tail := cs.takeWhile continuesName
            .ok ⟨some (word (c :: tail)), tail.length⟩
          else .error (.unexpected c, 0)

def scan (pos : Nat) (cs : List Char) : Except LexError (List Token) :=
  match cs with
  | [] => .ok []
  | c :: rest =>
    match lead c rest with
    | .error (cause, extra) => .error ⟨cause, pos, pos + 1 + extra⟩
    | .ok l =>
      let stop := pos + 1 + l.extra
      match scan stop (rest.drop l.extra) with
      | .error e => .error e
      | .ok tokens =>
        match l.lexeme? with
        | some lexeme => .ok (⟨lexeme, pos, stop⟩ :: tokens)
        | none => .ok tokens
termination_by cs.length
decreasing_by simp only [List.length_drop, List.length_cons]; omega

end Lexer

def tokenize (source : String) : Except LexError TokenList :=
  match Lexer.scan 0 source.toList with
  | .ok tokens => .ok ⟨tokens, source.length⟩
  | .error e => .error e

end Glyph
