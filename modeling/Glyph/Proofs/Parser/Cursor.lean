import Glyph.Proofs.Parser.Steps

/-!
# Reading tokens by their index

The parser works on the tokens that are left, so there is nothing that it could read past the end. A
reader with an index into the list of tokens has no such protection. This module is the parser in
that form: it looks at the entry at its index whether or not there is one, it can move on over the
entry for the end of the source, and its calls and loops only end because their number is limited.

`Mirrors` says that none of this happens. Started where the rest of the tokens begins, the reader
ends as the parser does on that rest, at the place where the parser has left off, and the entries
that it moved over are the tokens up to there (`mirrors_statement` and the theorems beside it). The
limit is five times the number of tokens that are left, and a few more for the depth of the grammar.
-/

namespace Glyph

/-- A place in the list of tokens, and the entries that were passed on the way to it. An entry is a
token, or nothing for the end of the source. -/
structure Cursor where
  index : Nat
  passed : List (Option Token)

inductive Stop where
  | rejected (r : Rejection)
  /-- An entry was asked for that the list does not have. -/
  | outside (index : Nat)
  /-- There were more calls inside each other, or more rounds of a loop, than allowed. -/
  | exhausted

/-- A step of reading: what it comes to from every place, and the place afterwards. -/
structure Reader (α : Type) where
  run : Cursor → Except Stop α × Cursor

namespace Reader

protected def pure {α : Type} (a : α) : Reader α := ⟨fun c => (.ok a, c)⟩

protected def bind {α β : Type} (x : Reader α) (f : α → Reader β) : Reader β where
  run c :=
    match x.run c with
    | (.ok a, next) => (f a).run next
    | (.error s, next) => (.error s, next)

instance : Monad Reader where
  pure := Reader.pure
  bind := Reader.bind

variable {α β : Type} {x : Reader α} {c next : Cursor}

theorem run_bind_of_ok {a : α} (h : x.run c = (.ok a, next)) (f : α → Reader β) :
    (x >>= f).run c = (f a).run next := by
  simp only [bind, Reader.bind, h]

theorem run_bind_of_error {s : Stop} (h : x.run c = (.error s, next)) (f : α → Reader β) :
    (x >>= f).run c = (.error s, next) := by
  simp only [bind, Reader.bind, h]

/-- Of three steps the first two can be taken together, or the last two. -/
theorem bind_assoc {γ : Type} (x : Reader α) (g : α → Reader β) (f : β → Reader γ) :
    (x >>= g) >>= f = x >>= fun a => g a >>= f := by
  refine congrArg Reader.mk (funext fun c => ?_)
  show ((x >>= g) >>= f).run c = (x >>= fun a => g a >>= f).run c
  rcases hx : x.run c with ⟨s | a, next⟩
  · rw [run_bind_of_error hx, run_bind_of_error (run_bind_of_error hx g)]
  · rw [run_bind_of_ok hx]
    rcases hg : (g a).run next with ⟨s | b, last⟩
    · rw [run_bind_of_error hg, run_bind_of_error ((run_bind_of_ok hx g).trans hg)]
    · rw [run_bind_of_ok hg, run_bind_of_ok ((run_bind_of_ok hx g).trans hg)]

def stop (s : Stop) : Reader α := ⟨fun c => (.error s, c)⟩

def give : Except Rejection α → Reader α
  | .ok a => pure a
  | .error r => stop (.rejected r)

end Reader

namespace Cursor

open Reader

def start : Cursor := ⟨0, []⟩

def classOf : Option Token → TokenClass
  | none => .finish
  | some t => t.lexeme.cls

section

variable (ts : TokenList)

/-- The list that the index points into: the tokens, and the end of the source after them. -/
def entries : List (Option Token) := ts.tokens.map some ++ [none]

def entryAt (i : Nat) : Reader (Option Token) :=
  match (entries ts)[i]? with
  | some e => pure e
  | none => stop (.outside i)

def peek : Reader (Option Token) := ⟨fun c => (entryAt ts c.index).run c⟩

/-- The entry after that, or the last one. -/
def peekNext : Reader (Option Token) where
  run c :=
    if c.index + 1 < (entries ts).length then (entryAt ts (c.index + 1)).run c
    else (entryAt ts ((entries ts).length - 1)).run c

def advance : Reader (Option Token) := do
  let e ← peek ts
  ⟨fun c => (.ok e, ⟨c.index + 1, c.passed ++ [e]⟩)⟩

def refuse {α : Type} (e : Option Token) (expected : List TokenClass) : Reader α :=
  give (Parser.refuse ts.length e.toList expected)

def expect (cls : TokenClass) : Reader (Option Token) := do
  let e ← peek ts
  if classOf e = cls then advance ts else refuse ts e [cls]

def accept (cls : TokenClass) : Reader Bool := do
  let e ← peek ts
  if classOf e = cls then do
    let _ ← advance ts
    return true
  else return false

def skip : Nat → Reader Unit
  | 0 => stop .exhausted
  | limit + 1 => do
    let e ← peek ts
    if classOf e = .separator then do
      let _ ← advance ts
      skip limit
    else return ()

/-- Reads a key of a map literal, which must not be among the keys `seen`. -/
def key (seen : List String) : Reader String := do
  let e ← expect ts .string
  match e with
  | none => refuse ts none [.string]
  | some t =>
    if seen.contains t.lexeme.text then
      stop (.rejected (.malformed (.token (.duplicateKey t.lexeme.text) t [])))
    else return t.lexeme.text

mutual

def statement : Nat → Reader Expr
  | 0 => stop .exhausted
  | limit + 1 => do
    let e ← peek ts
    let next ← peekNext ts
    match e.map Token.lexeme, next.map Token.lexeme with
    | some (.name x), some .assign => do
      let _ ← advance ts
      let _ ← advance ts
      let right ← expression limit
      return .assign x right
    | _, _ => expression limit

def expression : Nat → Reader Expr
  | 0 => stop .exhausted
  | limit + 1 => do
    let e ← peek ts
    let next ← peekNext ts
    match e.map Token.lexeme, next.map Token.lexeme with
    | some (.dyadic v), some (.dyadic .replicate) => do
      let _ ← advance ts
      let _ ← advance ts
      let right ← expression limit
      return .operator v .reduce right
    | some (.monadic v), _ => do
      let _ ← advance ts
      let right ← expression limit
      return .monadic v right
    | _, _ => do
      let left ← terms limit
      let verb ← peek ts
      match verb.map Token.lexeme with
      | some (.dyadic v) => do
        let _ ← advance ts
        let right ← expression limit
        return .dyadic v left right
      | _ => return left

def terms : Nat → Reader Expr
  | 0 => stop .exhausted
  | limit + 1 => do
    let first ← term limit
    let more ← moreTerms limit
    return Parser.strand first more

def moreTerms : Nat → Reader (List Expr)
  | 0 => stop .exhausted
  | limit + 1 => do
    let e ← peek ts
    if Parser.termStart.contains (classOf e) then do
      let first ← term limit
      let more ← moreTerms limit
      return first :: more
    else return []

def term : Nat → Reader Expr
  | 0 => stop .exhausted
  | limit + 1 => do
    let e ← peek ts
    match e with
    | none => refuse ts none Parser.termStart
    | some t =>
      match t.lexeme with
      | .number n => do
        let _ ← advance ts
        give (Parser.numberLiteral t n)
      | .string s => do
        let _ ← advance ts
        return .text s
      | .name x => do
        let _ ← advance ts
        return .ref x
      | .leftParen => do
        let _ ← advance ts
        let inner ← statement limit
        let _ ← expect ts .rightParen
        return inner
      | .leftBracket => do
        let _ ← advance ts
        skip ts limit
        let closed ← accept ts .rightBracket
        if closed then return .array []
        else do
          let es ← items limit
          return .array es
      | .leftBrace => do
        let _ ← advance ts
        skip ts limit
        let closed ← accept ts .rightBrace
        if closed then return .map []
        else do
          let es ← pairs [] limit
          return .map es
      | _ => refuse ts (some t) Parser.termStart

def items : Nat → Reader (List Expr)
  | 0 => stop .exhausted
  | limit + 1 => do
    let e ← expression limit
    skip ts limit
    let closed ← accept ts .rightBracket
    if closed then return [e]
    else do
      let _ ← expect ts .comma
      skip ts limit
      let es ← items limit
      return e :: es

/-- Reads the entries of a map literal, whose earlier keys are `seen`, and the brace that closes
it. -/
def pairs (seen : List String) : Nat → Reader (List (String × Expr))
  | 0 => stop .exhausted
  | limit + 1 => do
    let k ← key ts seen
    let _ ← expect ts .colon
    let v ← expression limit
    skip ts limit
    let closed ← accept ts .rightBrace
    if closed then return [(k, v)]
    else do
      let _ ← expect ts .comma
      skip ts limit
      let es ← pairs (k :: seen) limit
      return (k, v) :: es

end

/-- Moves on over the separators behind a statement, of which there has to be one unless the source
ends. -/
def endLine (limit : Nat) : Reader Unit := do
  let e ← peek ts
  if classOf e = .finish then skip ts limit
  else do
    let _ ← expect ts .separator
    skip ts limit

def lines : Nat → Reader (List Expr)
  | 0 => stop .exhausted
  | limit + 1 => do
    let e ← peek ts
    if classOf e = .finish then return []
    else do
      let first ← statement ts limit
      endLine ts limit
      let es ← lines limit
      return first :: es

def program (limit : Nat) : Reader (List Expr) := do
  skip ts limit
  lines ts limit

/-- Reads a single statement with separators around it, and moves on over the end of the source. -/
def line (limit : Nat) : Reader Expr := do
  skip ts limit
  let e ← statement ts limit
  skip ts limit
  let _ ← expect ts .finish
  return e

end

/-! ## Where a reader stands -/

/-- The reader stands where the rest of the tokens starts, and has passed those in front of it. -/
def At (ts : TokenList) (c : Cursor) (rest : List Token) : Prop :=
  ∃ us, ts.tokens = us ++ rest ∧ c = ⟨us.length, us.map some⟩

/-- Started from a place, the reader ends as the result says: with the value of a success, in a
place that is as it should be afterwards, or for the reason of a failure, at one of the tokens or
at the end of the source. -/
def Mirrors {α β : Type} (ts : TokenList) (c : Cursor) (done : β → Cursor → Prop) (value : β → α)
    (x : Reader α) : Except Rejection β → Prop
  | .ok b => ∃ next, done b next ∧ x.run c = (.ok (value b), next)
  | .error r => ∃ next rest, At ts next rest ∧ x.run c = (.error (.rejected r), next)

/-- The reader stands where the result of the parser has left off. -/
def LeftAt {α : Type} {p : List Token → Prop} (ts : TokenList) (b : α × { r // p r })
    (c : Cursor) : Prop := At ts c b.2.1

section Steps

variable {α β γ δ : Type} {ts : TokenList} {c next : Cursor} {rest : List Token} {t : Token}
  {done : β → Cursor → Prop} {value : β → α} {x : Reader γ} {f : γ → Reader α}
  {m : Except Rejection β}

theorem at_start (ts : TokenList) : At ts start ts.tokens := ⟨[], rfl, rfl⟩

theorem At.getElem?_entries (h : At ts c rest) (i : Nat) :
    (entries ts)[c.index + i]? = (rest.map some ++ [none])[i]? := by
  obtain ⟨us, hts, rfl⟩ := h
  rw [entries, hts, List.map_append, List.append_assoc, List.getElem?_append_right (by simp)]
  simp

theorem At.length_entries (h : At ts c rest) :
    (entries ts).length = c.index + rest.length + 1 := by
  obtain ⟨us, hts, rfl⟩ := h
  simp [entries, hts, Nat.add_assoc]

theorem run_entryAt {i : Nat} {e : Option Token} (h : (entries ts)[i]? = some e) :
    (entryAt ts i).run c = (.ok e, c) := by
  rw [entryAt, h]
  rfl

theorem peek_of_at (h : At ts c rest) : (peek ts).run c = (.ok rest.head?, c) := by
  refine run_entryAt ((h.getElem?_entries 0).trans ?_)
  cases rest <;> rfl

/-- Looking one token ahead is safe also at the end of the source, where it looks at the end. -/
theorem peekNext_of_at (h : At ts c rest) : (peekNext ts).run c = (.ok rest.tail.head?, c) := by
  have hrun : (peekNext ts).run c =
      if c.index + 1 < (entries ts).length then (entryAt ts (c.index + 1)).run c
      else (entryAt ts ((entries ts).length - 1)).run c := rfl
  rw [hrun, h.length_entries]
  cases rest with
  | nil =>
      rw [if_neg (by simp)]
      exact run_entryAt (h.getElem?_entries 0)
  | cons t rest =>
      rw [if_pos (by simp only [List.length_cons]; omega)]
      refine run_entryAt ((h.getElem?_entries 1).trans ?_)
      cases rest <;> rfl

theorem advance_of_at (h : At ts c (t :: rest)) :
    ∃ next, At ts next rest ∧ (advance ts).run c = (.ok (some t), next) := by
  rw [advance, run_bind_of_ok (peek_of_at h)]
  obtain ⟨us, hts, rfl⟩ := h
  exact ⟨_, ⟨us ++ [t], by rw [hts, List.append_assoc]; rfl, by simp⟩, rfl⟩

/-! The steps of the reader, in front of whatever comes next. -/

theorem Mirrors.of_ok {a : γ} (hx : x.run c = (.ok a, next))
    (h : Mirrors ts next done value (f a) m) :
    Mirrors ts c done value (x >>= f) m := by
  cases m <;> (rw [Mirrors, run_bind_of_ok hx]; exact h)

theorem mirrors_pure {a : α} {b : β} (h : done b c) (hvalue : value b = a) :
    Mirrors ts c done value (pure a) (pure b) := ⟨c, h, by rw [hvalue]; rfl⟩

theorem mirrors_error {r : Rejection} (h : At ts c rest) :
    Mirrors ts c done value (stop (.rejected r)) (.error r) := ⟨c, rest, h, rfl⟩

theorem mirrors_refuse (h : At ts c rest) (cs : List TokenClass) :
    Mirrors ts c done value (refuse ts rest.head? cs) (Parser.refuse ts.length rest cs) := by
  cases rest <;> exact mirrors_error h

theorem Mirrors.bind {before : δ → Cursor → Prop} {first : δ → γ} {n : Except Rejection δ}
    {g : δ → Except Rejection β} (hx : Mirrors ts c before first x n)
    (hf : ∀ b next, before b next → Mirrors ts next done value (f (first b)) (g b)) :
    Mirrors ts c done value (x >>= f) (n >>= g) := by
  match n, hx with
  | .ok b, ⟨next, hb, hx⟩ => exact (hf b next hb).of_ok hx
  | .error r, ⟨next, rest, hrest, hx⟩ => exact ⟨next, rest, hrest, run_bind_of_error hx f⟩

theorem mirrors_peek {f : Option Token → Reader α} (h : At ts c rest)
    (hf : Mirrors ts c done value (f rest.head?) m) :
    Mirrors ts c done value (peek ts >>= f) m := hf.of_ok (peek_of_at h)

theorem mirrors_peekNext {f : Option Token → Reader α} (h : At ts c rest)
    (hf : Mirrors ts c done value (f rest.tail.head?) m) :
    Mirrors ts c done value (peekNext ts >>= f) m := hf.of_ok (peekNext_of_at h)

theorem mirrors_advance {f : Option Token → Reader α} (h : At ts c (t :: rest))
    (hf : ∀ next, At ts next rest → Mirrors ts next done value (f (some t)) m) :
    Mirrors ts c done value (advance ts >>= f) m := by
  obtain ⟨next, hnext, hadvance⟩ := advance_of_at h
  exact (hf next hnext).of_ok hadvance

theorem skip_of_at {limit : Nat} (h : At ts c rest) (hlimit : rest.length < limit) :
    ∃ next, At ts next (Parser.skipSeparators rest).1 ∧ (skip ts limit).run c = (.ok (), next) := by
  induction limit generalizing c rest with
  | zero => omega
  | succ limit ih =>
      rw [skip, run_bind_of_ok (peek_of_at h)]
      cases rest with
      | nil => exact ⟨c, h, rfl⟩
      | cons t rest =>
          by_cases ht : t.lexeme.cls = .separator
          · have hskip :
                (Parser.skipSeparators (t :: rest)).1 = (Parser.skipSeparators rest).1 := by
              simp [Parser.skipSeparators, ht]
            obtain ⟨c', hc', hadvance⟩ := advance_of_at h
            have hcls : classOf (t :: rest).head? = .separator := ht
            rw [hskip, if_pos hcls, run_bind_of_ok hadvance]
            exact ih hc' (Nat.lt_of_succ_lt_succ hlimit)
          · have hskip : (Parser.skipSeparators (t :: rest)).1 = t :: rest := by
              simp [Parser.skipSeparators, ht]
            have hcls : classOf (t :: rest).head? ≠ .separator := ht
            rw [hskip, if_neg hcls]
            exact ⟨c, h, rfl⟩

theorem mirrors_skip {f : Unit → Reader α} {limit : Nat} (h : At ts c rest)
    (hlimit : rest.length < limit)
    (hf : ∀ next, At ts next (Parser.skipSeparators rest).1 →
      Mirrors ts next done value (f ()) m) :
    Mirrors ts c done value (skip ts limit >>= f) m := by
  obtain ⟨next, hnext, hskip⟩ := skip_of_at h hlimit
  exact (hf next hnext).of_ok hskip

theorem classOf_of_take? {cls : TokenClass} {s : Parser.Less rest}
    (hs : Parser.take? cls rest = some s) : classOf rest.head? = cls := by
  obtain ⟨t, hrest, ht⟩ := Parser.take?_eq_some_iff.mp hs
  rw [hrest]
  exact ht

theorem classOf_ne_of_take? {cls : TokenClass} (hcls : cls ≠ .finish)
    (hs : Parser.take? cls rest = none) : classOf rest.head? ≠ cls := by
  cases rest with
  | nil => exact hcls.symm
  | cons t rest =>
      intro heq
      have ht : t.lexeme.cls = cls := heq
      simp [Parser.take?, ht] at hs

theorem mirrors_accept {f : Bool → Reader α} {cls : TokenClass} (hcls : cls ≠ .finish)
    (h : At ts c rest)
    (htrue : ∀ s, Parser.take? cls rest = some s → ∀ next, At ts next s.1 →
      Mirrors ts next done value (f true) m)
    (hfalse : Parser.take? cls rest = none → Mirrors ts c done value (f false) m) :
    Mirrors ts c done value (accept ts cls >>= f) m := by
  rw [accept, Reader.bind_assoc]
  refine mirrors_peek h ?_
  cases hs : Parser.take? cls rest with
  | none =>
      rw [if_neg (classOf_ne_of_take? hcls hs)]
      exact (hfalse hs).of_ok rfl
  | some s =>
      obtain ⟨t, hrest, -⟩ := Parser.take?_eq_some_iff.mp hs
      rw [if_pos (classOf_of_take? hs), Reader.bind_assoc]
      rw [hrest] at h
      exact mirrors_advance h fun next hnext => (htrue s hs next hnext).of_ok rfl

theorem mirrors_refuse_bind {f : γ → Reader α} (h : At ts c rest) (cs : List TokenClass) :
    Mirrors ts c done value (refuse ts rest.head? cs >>= f) (Parser.refuse ts.length rest cs) := by
  cases rest <;> exact ⟨c, _, h, run_bind_of_error rfl f⟩

theorem mirrors_expect {f : Option Token → Reader α} {cls : TokenClass} (hcls : cls ≠ .finish)
    {g : Parser.Less rest → Except Rejection β} (h : At ts c rest)
    (hf : ∀ s next, At ts next s.1 → Mirrors ts next done value (f rest.head?) (g s)) :
    Mirrors ts c done value (expect ts cls >>= f) (Parser.expect ts.length cls rest >>= g) := by
  rw [expect, Reader.bind_assoc, Parser.expect]
  refine mirrors_peek h ?_
  cases hs : Parser.take? cls rest with
  | none =>
      have hrefuse : (Parser.refuse ts.length rest [cls] >>= g) =
          Parser.refuse ts.length rest [cls] := by cases rest <;> rfl
      rw [if_neg (classOf_ne_of_take? hcls hs)]
      dsimp only
      rw [hrefuse]
      exact mirrors_refuse_bind h [cls]
  | some s =>
      obtain ⟨t, hrest, -⟩ := Parser.take?_eq_some_iff.mp hs
      rw [if_pos (classOf_of_take? hs)]
      have hhead : rest.head? = some t := by rw [hrest]; rfl
      rw [hrest] at h
      exact mirrors_advance h fun next hnext => hhead ▸ hf s next hnext

theorem mirrors_key (h : At ts c rest) (seen : List String) :
    Mirrors ts c (LeftAt ts) Prod.fst (key ts seen) (Parser.key ts.length seen rest) := by
  rw [key, expect, Reader.bind_assoc]
  refine mirrors_peek h ?_
  match rest with
  | [] => exact ⟨c, [], h, rfl⟩
  | t :: rest =>
      cases ht : t.lexeme with
      | string k =>
          have hcls : classOf (t :: rest).head? = .string := congrArg Lexeme.cls ht
          have htext : t.lexeme.text = k := congrArg Lexeme.text ht
          rw [if_pos hcls]
          refine mirrors_advance h fun next hnext => ?_
          simp only [Parser.key, ht, Lexeme.text]
          split
          · exact mirrors_error hnext
          · exact mirrors_pure hnext rfl
      | _ =>
          have hcls : classOf (t :: rest).head? ≠ .string := by
            simp [classOf, ht, Lexeme.cls]
          rw [if_neg hcls]
          simp only [Parser.key, ht]
          exact ⟨c, _, h, rfl⟩

theorem mirrors_give {m : Except Rejection α} {g : α → β} (h : At ts c rest)
    (hdone : ∀ a, done (g a) c) (hvalue : ∀ a, value (g a) = a) :
    Mirrors ts c done value (give m) (m >>= fun a => pure (g a)) := by
  cases m with
  | ok a => exact mirrors_pure (hdone a) (hvalue a)
  | error r => exact mirrors_error h

end Steps

/-! ## The functions -/

variable {ts : TokenList} {c : Cursor} {rest : List Token}

theorem exists_cons_cons_of_head? {l m : Lexeme} (hl : rest.head?.map Token.lexeme = some l)
    (hm : rest.tail.head?.map Token.lexeme = some m) :
    ∃ t u us, rest = t :: u :: us ∧ t.lexeme = l ∧ u.lexeme = m := by
  match rest, hl, hm with
  | t :: u :: us, hl, hm => exact ⟨t, u, us, rfl, Option.some.inj hl, Option.some.inj hm⟩

theorem exists_cons_of_head? {l : Lexeme} (hl : rest.head?.map Token.lexeme = some l) :
    ∃ t us, rest = t :: us ∧ t.lexeme = l := by
  match rest, hl with
  | t :: us, hl => exact ⟨t, us, rfl, Option.some.inj hl⟩

theorem contains_classOf_head? (rest : List Token) :
    Parser.termStart.contains (classOf rest.head?) = Parser.nextStartsTerm rest := by
  cases rest <;> rfl

theorem target?_eq_none (h : ∀ x, rest.head?.map Token.lexeme = some (.name x) →
    rest.tail.head?.map Token.lexeme = some .assign → False) : Parser.target? rest = none := by
  refine Option.eq_none_iff_forall_ne_some.mpr fun ⟨x, s⟩ hs => ?_
  obtain ⟨t, u, hrest, ht, hu⟩ := Parser.target?_eq_some_iff.mp hs
  refine h x ?_ ?_ <;> (rw [hrest]; simp [ht, hu])

theorem reduction?_eq_none (h : ∀ v, rest.head?.map Token.lexeme = some (.dyadic v) →
    rest.tail.head?.map Token.lexeme = some (.dyadic .replicate) → False) :
    Parser.reduction? rest = none := by
  refine Option.eq_none_iff_forall_ne_some.mpr fun ⟨v, s⟩ hs => ?_
  obtain ⟨t, u, hrest, ht, hu⟩ := Parser.reduction?_eq_some_iff.mp hs
  refine h v ?_ ?_ <;> (rw [hrest]; simp [ht, hu])

theorem monadic?_eq_none (h : ∀ v, rest.head?.map Token.lexeme = some (.monadic v) → False) :
    Parser.monadic? rest = none := by
  refine Option.eq_none_iff_forall_ne_some.mpr fun ⟨v, s⟩ hs => ?_
  obtain ⟨t, hrest, ht⟩ := Parser.monadic?_eq_some_iff.mp hs
  exact h v (by rw [hrest]; simp [ht])

theorem dyadic?_eq_none (h : ∀ v, rest.head?.map Token.lexeme = some (.dyadic v) → False) :
    Parser.dyadic? rest = none := by
  refine Option.eq_none_iff_forall_ne_some.mpr fun ⟨v, s⟩ hs => ?_
  obtain ⟨t, hrest, ht⟩ := Parser.dyadic?_eq_some_iff.mp hs
  exact h v (by rw [hrest]; simp [ht])

-- The induction is on the limit, which every call makes smaller by one. A call in the same place
-- goes down in the grammar, whose functions are at the depths from 0 to 4, and every other call has
-- at least one token less; so the limit stays above five times the number of tokens plus the depth.
mutual

theorem mirrors_statement {c : Cursor} {rest : List Token} {limit : Nat} (h : At ts c rest)
    (hlimit : 5 * rest.length + 4 < limit) :
    Mirrors ts c (LeftAt ts) Prod.fst (statement ts limit) (Parser.statement ts.length rest) := by
  obtain ⟨limit, rfl⟩ := Nat.exists_eq_add_one.mpr (Nat.zero_lt_of_lt hlimit)
  rw [statement, Parser.statement]
  refine mirrors_peek h (mirrors_peekNext h ?_)
  split
  · rename_i x hx hassign
    obtain ⟨t, u, us, rfl, ht, hu⟩ := exists_cons_cons_of_head? hx hassign
    rw [List.length_cons, List.length_cons] at hlimit
    have hless : us.length < (t :: u :: us).length := by
      simp only [List.length_cons]
      omega
    have htarget : Parser.target? (t :: u :: us) = some (x, ⟨us, hless⟩) :=
      Parser.target?_eq_some_iff.mpr ⟨t, u, rfl, ht, hu⟩
    rw [htarget]
    refine mirrors_advance h fun c h => mirrors_advance h fun c h => ?_
    exact (mirrors_expression h (by omega)).bind fun ⟨e, r⟩ _ hr => mirrors_pure hr rfl
  · rename_i hne
    rw [target?_eq_none hne]
    exact mirrors_expression h (by omega)
termination_by limit

theorem mirrors_expression {c : Cursor} {rest : List Token} {limit : Nat} (h : At ts c rest)
    (hlimit : 5 * rest.length + 3 < limit) :
    Mirrors ts c (LeftAt ts) Prod.fst (expression ts limit) (Parser.expression ts.length rest) := by
  obtain ⟨limit, rfl⟩ := Nat.exists_eq_add_one.mpr (Nat.zero_lt_of_lt hlimit)
  rw [expression, Parser.expression]
  refine mirrors_peek h (mirrors_peekNext h ?_)
  split
  · rename_i v hv hreduce
    obtain ⟨t, u, us, rfl, ht, hu⟩ := exists_cons_cons_of_head? hv hreduce
    rw [List.length_cons, List.length_cons] at hlimit
    have hless : us.length < (t :: u :: us).length := by
      simp only [List.length_cons]
      omega
    have hreduction : Parser.reduction? (t :: u :: us) = some (v, ⟨us, hless⟩) :=
      Parser.reduction?_eq_some_iff.mpr ⟨t, u, rfl, ht, hu⟩
    rw [hreduction]
    refine mirrors_advance h fun c h => mirrors_advance h fun c h => ?_
    exact (mirrors_expression h (by omega)).bind fun ⟨e, r⟩ _ hr => mirrors_pure hr rfl
  · rename_i v hv
    obtain ⟨t, us, rfl, ht⟩ := exists_cons_of_head? hv
    rw [List.length_cons] at hlimit
    have hmonadic : Parser.monadic? (t :: us) = some (v, ⟨us, by simp⟩) :=
      Parser.monadic?_eq_some_iff.mpr ⟨t, rfl, ht⟩
    rw [reduction?_eq_none (by simp [ht]), hmonadic]
    refine mirrors_advance h fun c h => ?_
    exact (mirrors_expression h (by omega)).bind fun ⟨e, r⟩ _ hr => mirrors_pure hr rfl
  · rename_i hmonadic hreduce
    rw [reduction?_eq_none hreduce, monadic?_eq_none fun v hv => hmonadic v hv]
    refine (mirrors_terms h (by omega)).bind fun ⟨left, r⟩ c hr => ?_
    replace hr : At ts c r.1 := hr
    refine mirrors_peek hr ?_
    have hless := r.2
    split
    · rename_i v hv
      obtain ⟨t, us, hus, ht⟩ := exists_cons_of_head? hv
      have hdyadic : Parser.dyadic? r.1 = some (v, ⟨us, by rw [hus]; simp⟩) :=
        Parser.dyadic?_eq_some_iff.mpr ⟨t, hus, ht⟩
      rw [hus] at hr
      rw [hus, List.length_cons] at hless
      simp only [hdyadic]
      refine mirrors_advance hr fun c h => ?_
      exact (mirrors_expression h (by omega)).bind fun ⟨e, r'⟩ _ hr' => mirrors_pure hr' rfl
    · rename_i hdyadic
      simp only [dyadic?_eq_none hdyadic]
      exact mirrors_pure hr rfl
termination_by limit

theorem mirrors_terms {c : Cursor} {rest : List Token} {limit : Nat} (h : At ts c rest)
    (hlimit : 5 * rest.length + 2 < limit) :
    Mirrors ts c (LeftAt ts) Prod.fst (terms ts limit) (Parser.terms ts.length rest) := by
  obtain ⟨limit, rfl⟩ := Nat.exists_eq_add_one.mpr (Nat.zero_lt_of_lt hlimit)
  rw [terms, Parser.terms]
  refine (mirrors_term h (by omega)).bind fun ⟨first, r⟩ c hr => ?_
  replace hr : At ts c r.1 := hr
  have hless := r.2
  exact (mirrors_moreTerms hr (by omega)).bind fun ⟨more, r'⟩ _ hr' => mirrors_pure hr' rfl
termination_by limit

theorem mirrors_moreTerms {c : Cursor} {rest : List Token} {limit : Nat} (h : At ts c rest)
    (hlimit : 5 * rest.length + 1 < limit) :
    Mirrors ts c (LeftAt ts) Prod.fst (moreTerms ts limit) (Parser.moreTerms ts.length rest) := by
  obtain ⟨limit, rfl⟩ := Nat.exists_eq_add_one.mpr (Nat.zero_lt_of_lt hlimit)
  rw [moreTerms, Parser.moreTerms]
  refine mirrors_peek h ?_
  rw [contains_classOf_head?]
  split
  · refine (mirrors_term h (by omega)).bind fun ⟨first, r⟩ c hr => ?_
    replace hr : At ts c r.1 := hr
    have hless := r.2
    exact (mirrors_moreTerms hr (by omega)).bind fun ⟨more, r'⟩ _ hr' => mirrors_pure hr' rfl
  · exact mirrors_pure h rfl
termination_by limit

theorem mirrors_term {c : Cursor} {rest : List Token} {limit : Nat} (h : At ts c rest)
    (hlimit : 5 * rest.length < limit) :
    Mirrors ts c (LeftAt ts) Prod.fst (term ts limit) (Parser.term ts.length rest) := by
  obtain ⟨limit, rfl⟩ := Nat.exists_eq_add_one.mpr (Nat.zero_lt_of_lt hlimit)
  match rest with
  | [] =>
      rw [term, Parser.term]
      exact mirrors_peek h (mirrors_refuse h _)
  | t :: rest =>
      rw [List.length_cons] at hlimit
      rw [term, Parser.term]
      refine mirrors_peek h ?_
      dsimp only [List.head?_cons]
      cases ht : t.lexeme with
      | number n =>
          refine mirrors_advance h fun c h => ?_
          exact mirrors_give h (fun _ => h) fun _ => rfl
      | string s => exact mirrors_advance h fun c h => mirrors_pure h rfl
      | name x => exact mirrors_advance h fun c h => mirrors_pure h rfl
      | leftParen =>
          refine mirrors_advance h fun c h => ?_
          refine (mirrors_statement h (by omega)).bind fun ⟨e, r⟩ c hr => ?_
          exact mirrors_expect (by decide) hr fun r' c hr' => mirrors_pure hr' rfl
      | leftBracket =>
          refine mirrors_advance h fun c h => mirrors_skip h (by omega) fun c h => ?_
          have hskip := (Parser.skipSeparators rest).2
          refine mirrors_accept (by decide) h (fun s hs c h => ?_) fun hs => ?_
          · simp only [hs]
            exact mirrors_pure h rfl
          · simp only [hs]
            exact (mirrors_items h (by omega)).bind fun ⟨es, r⟩ _ hr => mirrors_pure hr rfl
      | leftBrace =>
          refine mirrors_advance h fun c h => mirrors_skip h (by omega) fun c h => ?_
          have hskip := (Parser.skipSeparators rest).2
          refine mirrors_accept (by decide) h (fun s hs c h => ?_) fun hs => ?_
          · simp only [hs]
            exact mirrors_pure h rfl
          · simp only [hs]
            exact (mirrors_pairs h [] (by omega)).bind fun ⟨es, r⟩ _ hr => mirrors_pure hr rfl
      | _ => exact mirrors_refuse h _
termination_by limit

theorem mirrors_items {c : Cursor} {rest : List Token} {limit : Nat} (h : At ts c rest)
    (hlimit : 5 * rest.length + 4 < limit) :
    Mirrors ts c (LeftAt ts) Prod.fst (items ts limit) (Parser.items ts.length rest) := by
  obtain ⟨limit, rfl⟩ := Nat.exists_eq_add_one.mpr (Nat.zero_lt_of_lt hlimit)
  rw [items, Parser.items]
  refine (mirrors_expression h (by omega)).bind fun ⟨e, r⟩ c hr => ?_
  replace hr : At ts c r.1 := hr
  have hless := r.2
  refine mirrors_skip hr (by omega) fun c h => ?_
  have hskip := (Parser.skipSeparators r.1).2
  refine mirrors_accept (by decide) h (fun s hs c h => ?_) fun hs => ?_
  · simp only [hs]
    exact mirrors_pure h rfl
  · simp only [hs]
    refine mirrors_expect (by decide) h fun s c h => ?_
    have hcomma := s.2
    refine mirrors_skip h (by omega) fun c h => ?_
    have hskip' := (Parser.skipSeparators s.1).2
    exact (mirrors_items h (by omega)).bind fun ⟨es, r'⟩ _ hr' => mirrors_pure hr' rfl
termination_by limit

theorem mirrors_pairs {c : Cursor} {rest : List Token} {limit : Nat} (h : At ts c rest)
    (seen : List String) (hlimit : 5 * rest.length + 4 < limit) :
    Mirrors ts c (LeftAt ts) Prod.fst (pairs ts seen limit)
      (Parser.entries ts.length seen rest) := by
  obtain ⟨limit, rfl⟩ := Nat.exists_eq_add_one.mpr (Nat.zero_lt_of_lt hlimit)
  rw [pairs, Parser.entries]
  refine (mirrors_key h seen).bind fun ⟨k, afterKey⟩ c hr => ?_
  replace hr : At ts c afterKey.1 := hr
  have hkey := afterKey.2
  refine mirrors_expect (by decide) hr fun afterColon c h => ?_
  have hcolon := afterColon.2
  refine (mirrors_expression h (by omega)).bind fun ⟨v, r⟩ c hr => ?_
  replace hr : At ts c r.1 := hr
  have hless := r.2
  refine mirrors_skip hr (by omega) fun c h => ?_
  have hskip := (Parser.skipSeparators r.1).2
  refine mirrors_accept (by decide) h (fun s hs c h => ?_) fun hs => ?_
  · simp only [hs]
    exact mirrors_pure h rfl
  · simp only [hs]
    refine mirrors_expect (by decide) h fun s c h => ?_
    have hcomma := s.2
    refine mirrors_skip h (by omega) fun c h => ?_
    have hskip' := (Parser.skipSeparators s.1).2
    exact (mirrors_pairs h (k :: seen) (by omega)).bind fun ⟨es, r'⟩ _ hr' => mirrors_pure hr' rfl
termination_by limit

end

/-! ## Programs and lines -/

/-- The end of the source is at the place exactly where no tokens are left. -/
theorem classOf_head?_eq_finish_iff : classOf rest.head? = .finish ↔ rest.isEmpty = true := by
  cases rest with
  | nil => simp [classOf]
  | cons t rest =>
      rw [List.head?_cons, classOf]
      cases t.lexeme <;> simp [Lexeme.cls]

theorem lines_of_at_nil {limit : Nat} (h : At ts c []) (hlimit : 0 < limit) :
    (lines ts limit).run c = (.ok [], c) := by
  obtain ⟨limit, rfl⟩ := Nat.exists_eq_add_one.mpr hlimit
  rw [lines, run_bind_of_ok (peek_of_at h)]
  rfl

/-- Over the end of the source the reader leaves the list. -/
theorem advance_of_at_nil (h : At ts c []) :
    (advance ts).run c = (.ok none, ⟨(entries ts).length, entries ts⟩) := by
  rw [advance, run_bind_of_ok (peek_of_at h)]
  obtain ⟨us, hts, rfl⟩ := h
  simp [entries, hts]

/-- A program ends at the end of the tokens. -/
theorem mirrors_lines {c : Cursor} {rest : List Token} {limit : Nat} (h : At ts c rest)
    (hlimit : 5 * rest.length + 5 < limit) :
    Mirrors ts c (fun _ c => At ts c []) id (lines ts limit) (Parser.lines ts.length rest) := by
  obtain ⟨limit, rfl⟩ := Nat.exists_eq_add_one.mpr (Nat.zero_lt_of_lt hlimit)
  rw [lines, Parser.lines]
  refine mirrors_peek h ?_
  simp only [classOf_head?_eq_finish_iff]
  split
  · rename_i hnil
    rw [List.isEmpty_iff.mp hnil] at h
    exact mirrors_pure h rfl
  · refine (mirrors_statement h (by omega)).bind fun ⟨e, r⟩ c hr => ?_
    replace hr : At ts c r.1 := hr
    have hless := r.2
    rw [endLine, Reader.bind_assoc]
    refine mirrors_peek hr ?_
    simp only [classOf_head?_eq_finish_iff]
    split
    -- The source ends behind the statement, and the last round finds nothing more.
    · rename_i hnil
      rw [List.isEmpty_iff.mp hnil] at hr
      refine mirrors_skip hr (by simp only [List.length_nil]; omega) fun c h => ?_
      exact Mirrors.of_ok (lines_of_at_nil h (show 0 < limit by omega)) (mirrors_pure h rfl)
    · rw [Reader.bind_assoc]
      refine mirrors_expect (by decide) hr fun s c h => ?_
      have hseparator := s.2
      refine mirrors_skip h (by omega) fun c h => ?_
      have hskip := (Parser.skipSeparators s.1).2
      exact (mirrors_lines h (by omega)).bind fun es _ hes => mirrors_pure hes rfl
termination_by limit

theorem mirrors_program (ts : TokenList) {limit : Nat} (hlimit : 5 * ts.tokens.length + 5 < limit) :
    Mirrors ts start (fun _ c => At ts c []) id (program ts limit) (Parser.program ts) := by
  rw [program, Parser.program]
  refine mirrors_skip (at_start ts) (by omega) fun c h => ?_
  have hskip := (Parser.skipSeparators ts.tokens).2
  exact mirrors_lines h (by omega)

theorem mirrors_line (ts : TokenList) {limit : Nat} (hlimit : 5 * ts.tokens.length + 5 < limit) :
    Mirrors ts start (fun _ c => c = ⟨(entries ts).length, entries ts⟩) id (line ts limit)
      (Parser.line ts) := by
  rw [line, Parser.line]
  refine mirrors_skip (at_start ts) (by omega) fun c h => ?_
  have hskip := (Parser.skipSeparators ts.tokens).2
  refine (mirrors_statement h (by omega)).bind fun read c hr => ?_
  obtain ⟨e, r⟩ := read
  replace hr : At ts c r.1 := hr
  have hless := r.2
  refine mirrors_skip hr (by omega) fun c h => ?_
  rw [expect, Reader.bind_assoc]
  refine mirrors_peek h ?_
  simp only [classOf_head?_eq_finish_iff]
  split
  · rename_i hnil
    rw [List.isEmpty_iff.mp hnil] at h
    exact Mirrors.of_ok (advance_of_at_nil h) (mirrors_pure rfl rfl)
  · exact mirrors_refuse_bind h [.finish]

end Cursor

end Glyph
