import Glyph.Expr
import Glyph.Token.Lexer

/-!
# From tokens to expressions

A recursive-descent parser for this grammar, in which `SEP` stands for one separator token.

* A program is a sequence of statements with separators between them, and any number around them.
* A statement is `name ← expression`, or an expression.
* An expression is `verb / expression` (reduce), `monadic-verb expression`,
  `terms verb expression`, or `terms`; all verbs have one precedence and take everything to their
  right.
* Terms are one or more terms in a row; two or more make an array.
* A term is a number, a string, a name, a statement in parentheses, an array literal or a map
  literal. In the two literals separators may stand next to the brackets and the commas.

The functions work on the tokens that are left, and return what is left after them together with the
fact that it is less, which is why they end. The end of the source is the empty list of tokens, so
nothing can be read past it.
-/

namespace Glyph

inductive ParseCause where
  /-- A token that cannot stand at its place. -/
  | unexpected
  /-- An integer that does not fit in 64 bits. -/
  | integerRange
  /-- A key that its map literal has already. -/
  | duplicateKey (key : String)
  deriving DecidableEq, Repr

inductive ParseError where
  /-- The source has no tokens. -/
  | lexical (e : LexError)
  /-- A token stands in the way, and which classes of tokens could stand in its place. -/
  | token (cause : ParseCause) (found : Token) (expected : List TokenClass)
  /-- The source ends too early, at position `stop`. -/
  | finish (stop : Nat) (expected : List TokenClass)
  deriving DecidableEq, Repr

namespace ParseError

def start : ParseError → Nat
  | lexical e => e.start
  | token _ t _ => t.start
  | finish stop _ => stop

def stop : ParseError → Nat
  | lexical e => e.stop
  | token _ t _ => t.stop
  | finish stop _ => stop

/-- The words for the classes of tokens that could stand there. -/
def expected : ParseError → List String
  | lexical _ => []
  | token _ _ cs => cs.map TokenClass.word
  | finish _ cs => cs.map TokenClass.word

/-- What stands there instead; nothing is known of a source without tokens. -/
def found? : ParseError → Option String
  | lexical _ => none
  | token _ t _ =>
    if t.lexeme.text.isEmpty then some t.lexeme.cls.word
    else some (t.lexeme.cls.word ++ "(" ++ t.lexeme.text ++ ")")
  | finish _ _ => some TokenClass.finish.word

def reason : ParseError → String
  | lexical e => e.message
  | token .unexpected _ _ => "Unexpected token"
  | token .integerRange _ _ => "Integer literal does not fit in 64 bits"
  | token (.duplicateKey k) _ _ => "Duplicate map key " ++ Text.quote k
  | finish _ _ => "Unexpected token"

def message (e : ParseError) : String :=
  e.reason ++ " at span [" ++ Decimal.natural e.start ++ ", " ++ Decimal.natural e.stop ++ ")" ++
    (if e.expected.isEmpty then "" else "; expected " ++ String.intercalate ", " e.expected) ++
    (match e.found? with
      | some s => "; found " ++ s
      | none => "")

end ParseError

inductive Rejection where
  /-- The text is no program. -/
  | malformed (e : ParseError)
  /-- An integer is written with more digits than are read. -/
  | tooManyDigits (count : Nat)

namespace Parser

/-- What is left of the tokens after at least one of them was taken. -/
abbrev Less (ts : List Token) := { rest : List Token // rest.length < ts.length }

/-- What is left of the tokens after any number of them was taken. -/
abbrev AtMost (ts : List Token) := { rest : List Token // rest.length ≤ ts.length }

def termStart : List TokenClass := [.leftBrace, .leftBracket, .leftParen, .name, .number, .string]

def startsTerm (l : Lexeme) : Bool := termStart.contains l.cls

/-- Refuses the first token that is left, or the end of the source at position `stop`. -/
def refuse {α : Type} (stop : Nat) (ts : List Token) (expected : List TokenClass) :
    Except Rejection α :=
  match ts with
  | [] => .error (.malformed (.finish stop expected))
  | t :: _ => .error (.malformed (.token .unexpected t expected))

def take? (c : TokenClass) (ts : List Token) : Option (Less ts) :=
  match ts with
  | [] => none
  | t :: rest => if t.lexeme.cls = c then some ⟨rest, by simp⟩ else none

def expect (stop : Nat) (c : TokenClass) (ts : List Token) : Except Rejection (Less ts) :=
  match take? c ts with
  | some rest => .ok rest
  | none => refuse stop ts [c]

def target? (ts : List Token) : Option (String × Less ts) :=
  match ts with
  | t :: u :: rest =>
    match t.lexeme, u.lexeme with
    | .name x, .assign => some (x, ⟨rest, by simp only [List.length_cons]; omega⟩)
    | _, _ => none
  | _ => none

def dyadic? (ts : List Token) : Option (Dyadic × Less ts) :=
  match ts with
  | t :: rest =>
    match t.lexeme with
    | .dyadic v => some (v, ⟨rest, by simp⟩)
    | _ => none
  | _ => none

/-- Takes a dyadic verb with the reduce operator after it, which is written like replicate. -/
def reduction? (ts : List Token) : Option (Dyadic × Less ts) :=
  match dyadic? ts with
  | none => none
  | some (v, r) =>
    match dyadic? r.1 with
    | some (.replicate, r') => some (v, ⟨r'.1, Nat.lt_trans r'.2 r.2⟩)
    | _ => none

def monadic? (ts : List Token) : Option (Monadic × Less ts) :=
  match ts with
  | t :: rest =>
    match t.lexeme with
    | .monadic v => some (v, ⟨rest, by simp⟩)
    | _ => none
  | _ => none

def skipSeparators (ts : List Token) : AtMost ts :=
  ⟨ts.dropWhile fun t => t.lexeme.cls = .separator,
    (List.dropWhile_sublist _).length_le⟩

def nextStartsTerm : List Token → Bool
  | [] => false
  | t :: _ => startsTerm t.lexeme

def numberLiteral (t : Token) (n : Numeral) : Except Rejection Expr :=
  match n.value with
  | .error count => .error (.tooManyDigits count)
  | .ok (.int i) =>
    if FitsInt64 i then .ok (.literal (.int i))
    else .error (.malformed (.token .integerRange t []))
  | .ok l => .ok (.literal l)

/-- Takes a key of a map literal, which must not be among the keys `seen`. -/
def key (stop : Nat) (seen : List String) (ts : List Token) :
    Except Rejection (String × Less ts) :=
  match ts with
  | [] => refuse stop [] [.string]
  | t :: rest =>
    match t.lexeme with
    | .string k =>
      if seen.contains k then .error (.malformed (.token (.duplicateKey k) t []))
      else .ok (k, ⟨rest, by simp⟩)
    | _ => refuse stop (t :: rest) [.string]

/-- One term by itself, more than one as an array. -/
def strand (first : Expr) : List Expr → Expr
  | [] => first
  | more => .array (first :: more)

mutual

def statement (stop : Nat) (ts : List Token) : Except Rejection (Expr × Less ts) :=
  match target? ts with
  | some (x, rest) => do
    let (e, r) ← expression stop rest.1
    return (.assign x e, ⟨r.1, Nat.lt_trans r.2 rest.2⟩)
  | none => expression stop ts
termination_by (ts.length, 4)
decreasing_by
  · exact Prod.Lex.left _ _ rest.2
  · exact Prod.Lex.right _ (by omega)

def expression (stop : Nat) (ts : List Token) : Except Rejection (Expr × Less ts) :=
  match reduction? ts with
  | some (v, rest) => do
    let (e, r) ← expression stop rest.1
    return (.operator v .reduce e, ⟨r.1, Nat.lt_trans r.2 rest.2⟩)
  | none =>
    match monadic? ts with
    | some (v, rest) => do
      let (e, r) ← expression stop rest.1
      return (.monadic v e, ⟨r.1, Nat.lt_trans r.2 rest.2⟩)
    | none => do
      let (left, r) ← terms stop ts
      match dyadic? r.1 with
      | some (v, rest) => do
        let (right, r') ← expression stop rest.1
        return (.dyadic v left right, ⟨r'.1, Nat.lt_trans r'.2 (Nat.lt_trans rest.2 r.2)⟩)
      | none => return (left, r)
termination_by (ts.length, 3)
decreasing_by
  · exact Prod.Lex.left _ _ rest.2
  · exact Prod.Lex.left _ _ rest.2
  · exact Prod.Lex.right _ (by omega)
  · exact Prod.Lex.left _ _ (Nat.lt_trans rest.2 r.2)

def terms (stop : Nat) (ts : List Token) : Except Rejection (Expr × Less ts) := do
  let (first, r) ← term stop ts
  let (more, r') ← moreTerms stop r.1
  return (strand first more, ⟨r'.1, Nat.lt_of_le_of_lt r'.2 r.2⟩)
termination_by (ts.length, 2)
decreasing_by
  · exact Prod.Lex.right _ (by omega)
  · exact Prod.Lex.left _ _ r.2

def moreTerms (stop : Nat) (ts : List Token) : Except Rejection (List Expr × AtMost ts) :=
  if nextStartsTerm ts then do
    let (e, r) ← term stop ts
    let (es, r') ← moreTerms stop r.1
    return (e :: es, ⟨r'.1, Nat.le_trans r'.2 (Nat.le_of_lt r.2)⟩)
  else .ok ([], ⟨ts, Nat.le_refl _⟩)
termination_by (ts.length, 1)
decreasing_by
  · exact Prod.Lex.right _ (by omega)
  · exact Prod.Lex.left _ _ r.2

def term (stop : Nat) (ts : List Token) : Except Rejection (Expr × Less ts) :=
  match ts with
  | [] => refuse stop [] termStart
  | t :: rest =>
    match t.lexeme with
    | .number n => do
      let l ← numberLiteral t n
      return (l, ⟨rest, by simp⟩)
    | .string s => .ok (.text s, ⟨rest, by simp⟩)
    | .name x => .ok (.ref x, ⟨rest, by simp⟩)
    | .leftParen => do
      let (e, r) ← statement stop rest
      let r' ← expect stop .rightParen r.1
      return (e, ⟨r'.1, by have := r.2; have := r'.2; simp only [List.length_cons]; omega⟩)
    | .leftBracket =>
      let inner := skipSeparators rest
      match take? .rightBracket inner.1 with
      | some r =>
        .ok (.array [], ⟨r.1, by have := r.2; have := inner.2; simp only [List.length_cons]; omega⟩)
      | none => do
        let (es, r) ← items stop inner.1
        return (.array es,
          ⟨r.1, by have := r.2; have := inner.2; simp only [List.length_cons]; omega⟩)
    | .leftBrace =>
      let inner := skipSeparators rest
      match take? .rightBrace inner.1 with
      | some r =>
        .ok (.map [], ⟨r.1, by have := r.2; have := inner.2; simp only [List.length_cons]; omega⟩)
      | none => do
        let (es, r) ← entries stop [] inner.1
        return (.map es,
          ⟨r.1, by have := r.2; have := inner.2; simp only [List.length_cons]; omega⟩)
    | _ => refuse stop (t :: rest) termStart
termination_by (ts.length, 0)
decreasing_by
  · exact Prod.Lex.left _ _ (by simp)
  · exact Prod.Lex.left _ _ (by
      have := (skipSeparators rest).2; simp only [List.length_cons]; omega)
  · exact Prod.Lex.left _ _ (by
      have := (skipSeparators rest).2; simp only [List.length_cons]; omega)

/-- Parses the items of an array literal and the bracket that closes it. -/
def items (stop : Nat) (ts : List Token) : Except Rejection (List Expr × Less ts) := do
  let (e, r) ← expression stop ts
  let next := skipSeparators r.1
  match take? .rightBracket next.1 with
  | some r' => return ([e], ⟨r'.1, by have := r.2; have := next.2; have := r'.2; omega⟩)
  | none => do
    let afterComma ← expect stop .comma next.1
    let inner := skipSeparators afterComma.1
    let (es, r') ← items stop inner.1
    return (e :: es, ⟨r'.1, by
      have := r.2; have := next.2; have := afterComma.2; have := inner.2; have := r'.2; omega⟩)
termination_by (ts.length, 4)
decreasing_by
  · exact Prod.Lex.right _ (by omega)
  · exact Prod.Lex.left _ _ (by
      have := r.2; have := (skipSeparators r.1).2; have := afterComma.2
      have := (skipSeparators afterComma.1).2; omega)

/-- Parses the entries of a map literal, whose earlier keys are `seen`, and the brace that closes
it. -/
def entries (stop : Nat) (seen : List String) (ts : List Token) :
    Except Rejection (List (String × Expr) × Less ts) := do
  let (k, afterKey) ← key stop seen ts
  let afterColon ← expect stop .colon afterKey.1
  let (v, r) ← expression stop afterColon.1
  let next := skipSeparators r.1
  match take? .rightBrace next.1 with
  | some r' => return ([(k, v)], ⟨r'.1, by
      have := afterKey.2; have := afterColon.2; have := r.2; have := next.2; have := r'.2; omega⟩)
  | none => do
    let afterComma ← expect stop .comma next.1
    let inner := skipSeparators afterComma.1
    let (es, r') ← entries stop (k :: seen) inner.1
    return ((k, v) :: es, ⟨r'.1, by
      have := afterKey.2; have := afterColon.2; have := r.2; have := next.2
      have := afterComma.2; have := inner.2; have := r'.2; omega⟩)
termination_by (ts.length, 4)
decreasing_by
  · exact Prod.Lex.left _ _ (by have := afterKey.2; have := afterColon.2; omega)
  · exact Prod.Lex.left _ _ (by
      have := afterKey.2; have := afterColon.2; have := r.2; have := (skipSeparators r.1).2
      have := afterComma.2; have := (skipSeparators afterComma.1).2; omega)

end

/-- Parses the statements of a program after the separators in front of them. -/
def lines (stop : Nat) (ts : List Token) : Except Rejection (List Expr) :=
  if ts.isEmpty then .ok []
  else do
    let (e, r) ← statement stop ts
    if r.1.isEmpty then return [e]
    else do
      let afterSeparator ← expect stop .separator r.1
      let es ← lines stop (skipSeparators afterSeparator.1).1
      return e :: es
termination_by ts.length
decreasing_by
  have := r.2
  have := afterSeparator.2
  have := (skipSeparators afterSeparator.1).2
  omega

def program (ts : TokenList) : Except Rejection (List Expr) :=
  lines ts.length (skipSeparators ts.tokens).1

def line (ts : TokenList) : Except Rejection Expr := do
  let (e, r) ← statement ts.length (skipSeparators ts.tokens).1
  let rest := skipSeparators r.1
  if rest.1.isEmpty then return e else refuse ts.length rest.1 [.finish]

end Parser

def tokensOf (source : String) : Except Rejection TokenList :=
  match tokenize source with
  | .ok ts => .ok ts
  | .error e => .error (.malformed (.lexical e))

def parseLine (source : String) : Except Rejection Expr := do
  Parser.line (← tokensOf source)

def parseProgram (source : String) : Except Rejection (List Expr) := do
  Parser.program (← tokensOf source)

end Glyph
