import Mathlib.Control.Monad.Basic
import Glyph.Proofs.Literal.Numeral
import Glyph.Proofs.Parser.Completeness
import Glyph.Run

/-!
# What the parser rejects, and why

`Accounts` says of a result of the parser what it tells about the tokens: a success took readable
tokens off the front, and a failure is about one of the tokens, or about the end of the source. All
functions of the parser give such results, by one induction along their recursion. In particular an
integer with too many digits is only ever reported where there is one, and never in a source that is
accepted.

So a source whose integers are readable is accepted or malformed, and nothing else can become of it.
The digits of an integer are counted before its size is looked at: one with too many of them does
not fit in 64 bits either, but that is not what is reported.
-/

namespace Glyph

/-- The error is about one of the tokens, or about the end of the source at `stop`. -/
def ParseError.Within (stop : Nat) (ts : List Token) : ParseError → Prop
  | .lexical _ => False
  | .token _ t _ => t ∈ ts
  | .finish s _ => s = stop

def Rejection.Within (stop : Nat) (ts : List Token) : Rejection → Prop
  | .malformed e => e.Within stop ts
  | .tooManyDigits count => ∃ t ∈ ts, ∃ n, t.lexeme = .number n ∧ n.isInteger = true ∧
      n.whole.length = count ∧ Numeral.maxDigits < count

theorem Rejection.Within.append_left {stop : Nat} {ts : List Token} {r : Rejection}
    (h : r.Within stop ts) (us : List Token) : r.Within stop (us ++ ts) := by
  match r, h with
  | .malformed (.token _ t _), h => exact List.mem_append_right us h
  | .malformed (.finish _ _), h => exact h
  | .tooManyDigits _, ⟨t, ht, hn⟩ => exact ⟨t, List.mem_append_right us ht, hn⟩

namespace Parser

/-- A success left what it did not take, and took readable tokens; a failure is about the tokens. -/
def Accounts {α : Type} (left : α → List Token) (stop : Nat) (ts : List Token) :
    Except Rejection α → Prop
  | .ok a => ∃ us, ts = us ++ left a ∧ Readable (lexemesOf us)
  | .error r => r.Within stop ts

def remaining {α : Type} {p : List Token → Prop} (x : α × { r // p r }) : List Token := x.2.1

section Accounts

variable {α β : Type} {left : α → List Token} {next : β → List Token} {stop : Nat}
  {ts us : List Token}

theorem accounts_ok {a : α} (h : left a = ts) :
    Accounts left stop ts (.ok a : Except Rejection α) :=
  ⟨[], by rw [h]; rfl, by simp [Readable]⟩

theorem accounts_pure {a : α} (h : left a = ts) :
    Accounts left stop ts (pure a : Except Rejection α) := accounts_ok h

theorem accounts_refuse (cs : List TokenClass) :
    Accounts left stop ts (refuse stop ts cs : Except Rejection α) := by
  cases ts with
  | nil => exact rfl
  | cons t rest => exact List.mem_cons_self ..

theorem Accounts.append_left {m : Except Rejection α} (h : Accounts left stop ts m)
    (hus : Readable (lexemesOf us)) : Accounts left stop (us ++ ts) m := by
  match m, h with
  | .ok a, ⟨vs, hts, hvs⟩ =>
      refine ⟨us ++ vs, by rw [hts, List.append_assoc], ?_⟩
      rw [lexemesOf_append]
      exact fun n hn => (List.mem_append.mp hn).elim (hus n) (hvs n)
  | .error r, h => exact Rejection.Within.append_left h us

theorem Accounts.bind {m : Except Rejection α} {f : α → Except Rejection β}
    (hm : Accounts left stop ts m) (hf : ∀ a, m = .ok a → Accounts next stop (left a) (f a)) :
    Accounts next stop ts (m >>= f) := by
  match m, hm with
  | .ok a, ⟨us, hts, hus⟩ =>
      rw [hts]
      exact (hf a rfl).append_left hus
  | .error r, h => exact h

theorem readable_of_forall_ne {ls : List Lexeme} (h : ∀ n, Lexeme.number n ∉ ls) : Readable ls :=
  fun n hn => absurd hn (h n)

theorem Accounts.cons {m : Except Rejection α} (h : Accounts left stop ts m) {t : Token}
    (ht : ∀ n, t.lexeme ≠ .number n) : Accounts left stop (t :: ts) m := by
  refine @Accounts.append_left _ _ _ _ [t] m h (readable_of_forall_ne fun n hn => ?_)
  exact ht n (List.mem_singleton.mp hn).symm

theorem Accounts.skipSeparators {m : Except Rejection α}
    (h : Accounts left stop (skipSeparators ts).1 m) : Accounts left stop ts m := by
  obtain ⟨ss, hss, hts⟩ := exists_skipSeparators ts
  rw [hts]
  refine h.append_left (readable_of_forall_ne fun n hn => ?_)
  rw [hss.lexemesOf_eq] at hn
  cases List.eq_of_mem_replicate hn

/-! Each function that may take tokens takes none that is a number. -/

theorem Accounts.take? {m : Except Rejection α} {c : TokenClass} {s : Less ts}
    (hs : Parser.take? c ts = some s) (hc : c ≠ .number) (h : Accounts left stop s.1 m) :
    Accounts left stop ts m := by
  obtain ⟨t, hts, ht⟩ := take?_eq_some_iff.mp hs
  rw [hts]
  refine h.cons fun n hn => hc ?_
  rw [← ht, hn]
  rfl

theorem Accounts.target? {m : Except Rejection α} {x : String} {s : Less ts}
    (hs : Parser.target? ts = some (x, s)) (h : Accounts left stop s.1 m) :
    Accounts left stop ts m := by
  obtain ⟨t, u, hts, ht, hu⟩ := target?_eq_some_iff.mp hs
  rw [hts]
  exact (h.cons (by simp [hu])).cons (by simp [ht])

theorem Accounts.dyadic? {m : Except Rejection α} {v : Dyadic} {s : Less ts}
    (hs : Parser.dyadic? ts = some (v, s)) (h : Accounts left stop s.1 m) :
    Accounts left stop ts m := by
  obtain ⟨t, hts, ht⟩ := dyadic?_eq_some_iff.mp hs
  rw [hts]
  exact h.cons (by simp [ht])

theorem Accounts.reduction? {m : Except Rejection α} {v : Dyadic} {s : Less ts}
    (hs : Parser.reduction? ts = some (v, s)) (h : Accounts left stop s.1 m) :
    Accounts left stop ts m := by
  obtain ⟨t, u, hts, ht, hu⟩ := reduction?_eq_some_iff.mp hs
  rw [hts]
  exact (h.cons (by simp [hu])).cons (by simp [ht])

theorem Accounts.monadic? {m : Except Rejection α} {v : Monadic} {s : Less ts}
    (hs : Parser.monadic? ts = some (v, s)) (h : Accounts left stop s.1 m) :
    Accounts left stop ts m := by
  obtain ⟨t, hts, ht⟩ := monadic?_eq_some_iff.mp hs
  rw [hts]
  exact h.cons (by simp [ht])

theorem accounts_expect {c : TokenClass} (hc : c ≠ .number) :
    Accounts Subtype.val stop ts (expect stop c ts) := by
  rw [expect]
  cases hs : Parser.take? c ts with
  | none => exact accounts_refuse [c]
  | some s => exact Accounts.take? hs hc (accounts_ok rfl)

theorem accounts_key (seen : List String) :
    Accounts remaining stop ts (key stop seen ts) := by
  cases ts with
  | nil => exact accounts_refuse [.string]
  | cons t rest =>
      cases ht : t.lexeme with
      | string k =>
          simp only [key, ht]
          split
          · exact List.mem_cons_self ..
          · refine Accounts.cons ?_ (by simp [ht])
            exact accounts_ok rfl
      | _ =>
          simp only [key, ht]
          exact accounts_refuse [.string]

/-- A number is read, or its digits are too many, or it does not fit. -/
theorem accounts_number {t : Token} {n : Numeral} (ht : t.lexeme = .number n) (rest : List Token) :
    Accounts (fun _ => rest) stop (t :: rest) (numberLiteral t n) := by
  cases h : numberLiteral t n with
  | ok e =>
      refine ⟨[t], rfl, fun m hm hint => ?_⟩
      cases ht.symm.trans (List.mem_singleton.mp hm).symm
      rcases numberLiteral_eq_ok_iff.mp h with ⟨-, hlen, -⟩ | ⟨hfloat, -⟩
      · exact hlen
      · rw [hint] at hfloat
        cases hfloat
  | error r =>
      cases hint : n.isInteger with
      | false => simp [numberLiteral, Numeral.value, hint] at h
      | true =>
          by_cases hlen : Numeral.maxDigits < n.whole.length
          · simp only [numberLiteral, Numeral.value, hint, hlen, if_true, Except.error.injEq] at h
            subst h
            exact ⟨t, List.mem_cons_self .., n, ht, hint, rfl, hlen⟩
          · simp only [numberLiteral, Numeral.value, hint, hlen, if_true, if_false] at h
            split at h
            · cases h
            · cases h
              exact List.mem_cons_self ..

end Accounts

-- The induction is along the parser: the same calls, with the same measure of the tokens that are
-- left and of the depth in the grammar. Each step but the one at a number takes readable tokens off
-- the front and hands over what is left.
mutual

theorem accounts_statement (stop : Nat) (ts : List Token) :
    Accounts remaining stop ts (statement stop ts) := by
  rw [statement]
  rcases hx : target? ts with _ | ⟨x, s⟩
  · exact accounts_expression stop ts
  · refine Accounts.target? hx ?_
    exact (accounts_expression stop s.1).bind fun ⟨e, r⟩ _ => accounts_pure rfl
termination_by (ts.length, 4)
decreasing_by
  · exact Prod.Lex.right _ (by omega)
  · exact Prod.Lex.left _ _ s.2

theorem accounts_expression (stop : Nat) (ts : List Token) :
    Accounts remaining stop ts (expression stop ts) := by
  rw [expression]
  rcases hv : reduction? ts with _ | ⟨v, s⟩
  · rcases hv : monadic? ts with _ | ⟨v, s⟩
    · refine (accounts_terms stop ts).bind fun ⟨left, r⟩ _ => ?_
      dsimp only
      rcases hv : dyadic? r.1 with _ | ⟨v, s⟩
      · exact accounts_pure rfl
      · refine Accounts.dyadic? hv ?_
        exact (accounts_expression stop s.1).bind fun ⟨e, r⟩ _ => accounts_pure rfl
    · refine Accounts.monadic? hv ?_
      exact (accounts_expression stop s.1).bind fun ⟨e, r⟩ _ => accounts_pure rfl
  · refine Accounts.reduction? hv ?_
    exact (accounts_expression stop s.1).bind fun ⟨e, r⟩ _ => accounts_pure rfl
termination_by (ts.length, 3)
decreasing_by
  · exact Prod.Lex.right _ (by omega)
  · exact Prod.Lex.left _ _ (Nat.lt_trans s.2 r.2)
  · exact Prod.Lex.left _ _ s.2
  · exact Prod.Lex.left _ _ s.2

theorem accounts_terms (stop : Nat) (ts : List Token) :
    Accounts remaining stop ts (terms stop ts) := by
  rw [terms]
  refine (accounts_term stop ts).bind fun ⟨first, r⟩ _ => ?_
  exact (accounts_moreTerms stop r.1).bind fun ⟨more, r'⟩ _ => accounts_pure rfl
termination_by (ts.length, 2)
decreasing_by
  · exact Prod.Lex.right _ (by omega)
  · exact Prod.Lex.left _ _ r.2

theorem accounts_moreTerms (stop : Nat) (ts : List Token) :
    Accounts remaining stop ts (moreTerms stop ts) := by
  rw [moreTerms]
  split
  · refine (accounts_term stop ts).bind fun ⟨e, r⟩ _ => ?_
    exact (accounts_moreTerms stop r.1).bind fun ⟨es, r'⟩ _ => accounts_pure rfl
  · exact accounts_ok rfl
termination_by (ts.length, 1)
decreasing_by
  · exact Prod.Lex.right _ (by omega)
  · exact Prod.Lex.left _ _ r.2

theorem accounts_term (stop : Nat) (ts : List Token) :
    Accounts remaining stop ts (term stop ts) := by
  match ts with
  | [] =>
      rw [term]
      exact accounts_refuse termStart
  | t :: rest =>
      rw [term]
      cases ht : t.lexeme with
      | number n => exact (accounts_number ht rest).bind fun l _ => accounts_pure rfl
      | string s =>
          refine Accounts.cons ?_ (by simp [ht])
          exact accounts_ok rfl
      | name x =>
          refine Accounts.cons ?_ (by simp [ht])
          exact accounts_ok rfl
      | leftParen =>
          refine Accounts.cons ?_ (by simp [ht])
          refine (accounts_statement stop rest).bind fun ⟨e, r⟩ _ => ?_
          exact (accounts_expect (by decide)).bind fun r' _ => accounts_pure rfl
      | leftBracket =>
          refine Accounts.cons ?_ (by simp [ht])
          refine Accounts.skipSeparators ?_
          dsimp only
          split
          · rename_i s hs
            exact Accounts.take? hs (by decide) (accounts_ok rfl)
          · refine (accounts_items stop _).bind fun ⟨es, r⟩ _ => ?_
            exact accounts_pure rfl
      | leftBrace =>
          refine Accounts.cons ?_ (by simp [ht])
          refine Accounts.skipSeparators ?_
          dsimp only
          split
          · rename_i s hs
            exact Accounts.take? hs (by decide) (accounts_ok rfl)
          · refine (accounts_entries stop [] _).bind fun ⟨es, r⟩ _ => ?_
            exact accounts_pure rfl
      | _ => exact accounts_refuse termStart
termination_by (ts.length, 0)
decreasing_by
  · exact Prod.Lex.left _ _ (by simp)
  · have := (skipSeparators rest).2
    exact Prod.Lex.left _ _ (by simp only [List.length_cons]; omega)
  · have := (skipSeparators rest).2
    exact Prod.Lex.left _ _ (by simp only [List.length_cons]; omega)

theorem accounts_items (stop : Nat) (ts : List Token) :
    Accounts remaining stop ts (items stop ts) := by
  rw [items]
  refine (accounts_expression stop ts).bind fun ⟨e, r⟩ _ => Accounts.skipSeparators ?_
  dsimp only
  split
  · rename_i s hs
    exact Accounts.take? hs (by decide) (accounts_pure rfl)
  · refine (accounts_expect (by decide)).bind fun s _ => Accounts.skipSeparators ?_
    exact (accounts_items stop _).bind fun ⟨es, r'⟩ _ => accounts_pure rfl
termination_by (ts.length, 4)
decreasing_by
  · exact Prod.Lex.right _ (by omega)
  · have := r.2
    have := (skipSeparators r.1).2
    have : s.1.length < (skipSeparators r.1).1.length := s.2
    have := (skipSeparators s.1).2
    exact Prod.Lex.left _ _ (by omega)

theorem accounts_entries (stop : Nat) (seen : List String) (ts : List Token) :
    Accounts remaining stop ts (entries stop seen ts) := by
  rw [entries]
  refine (accounts_key seen).bind fun ⟨k, afterKey⟩ _ => ?_
  refine (accounts_expect (by decide)).bind fun inner _ => ?_
  refine (accounts_expression stop inner.1).bind fun ⟨v, r⟩ _ => Accounts.skipSeparators ?_
  dsimp only
  split
  · rename_i s hs
    exact Accounts.take? hs (by decide) (accounts_pure rfl)
  · refine (accounts_expect (by decide)).bind fun s _ => Accounts.skipSeparators ?_
    exact (accounts_entries stop (k :: seen) _).bind fun ⟨es, r'⟩ _ => accounts_pure rfl
termination_by (ts.length, 4)
decreasing_by
  · have := afterKey.2
    have : inner.1.length < afterKey.1.length := inner.2
    exact Prod.Lex.left _ _ (by omega)
  · have := afterKey.2
    have : inner.1.length < afterKey.1.length := inner.2
    have := r.2
    have := (skipSeparators r.1).2
    have : s.1.length < (skipSeparators r.1).1.length := s.2
    have := (skipSeparators s.1).2
    exact Prod.Lex.left _ _ (by omega)

end

theorem accounts_lines (stop : Nat) (ts : List Token) :
    Accounts (fun _ => []) stop ts (lines stop ts) := by
  rw [lines]
  split
  · rename_i hnil
    exact accounts_ok (List.isEmpty_iff.mp hnil).symm
  · refine (accounts_statement stop ts).bind fun ⟨e, r⟩ _ => ?_
    dsimp only
    split
    · rename_i hnil
      exact accounts_pure (List.isEmpty_iff.mp hnil).symm
    · refine (accounts_expect (by decide)).bind fun s _ => Accounts.skipSeparators ?_
      exact (accounts_lines stop _).bind fun es _ => accounts_pure rfl
termination_by ts.length
decreasing_by
  have := r.2
  have : s.1.length < r.1.length := s.2
  have := (skipSeparators s.1).2
  omega

theorem accounts_program (ts : TokenList) :
    Accounts (fun _ => []) ts.length ts.tokens (program ts) :=
  (accounts_lines ts.length _).skipSeparators

theorem accounts_line (ts : TokenList) :
    Accounts (fun _ => []) ts.length ts.tokens (line ts) := by
  rw [line]
  refine Accounts.skipSeparators ?_
  refine (accounts_statement ts.length _).bind fun read _ => ?_
  obtain ⟨e, r⟩ := read
  refine Accounts.skipSeparators ?_
  dsimp only
  split
  · rename_i hnil
    exact accounts_pure (List.isEmpty_iff.mp hnil).symm
  · exact accounts_refuse [.finish]

theorem readable_of_program {ts : TokenList} {es : List Expr} (h : program ts = .ok es) :
    Readable (lexemesOf ts.tokens) := by
  have hts := accounts_program ts
  rw [h] at hts
  obtain ⟨us, htokens, hus⟩ := hts
  rwa [htokens, List.append_nil]

/-- Readable tokens are rejected only for a place that is malformed. -/
theorem Accounts.malformed {α : Type} {left : α → List Token} {stop : Nat} {ts : List Token}
    {m : Except Rejection α} (h : Accounts left stop ts m) (hread : Readable (lexemesOf ts)) :
    (∃ a, m = .ok a) ∨ ∃ e, e.Within stop ts ∧ m = .error (.malformed e) := by
  match m, h with
  | .ok a, _ => exact .inl ⟨a, rfl⟩
  | .error (.malformed e), he => exact .inr ⟨e, he, rfl⟩
  | .error (.tooManyDigits _), ⟨t, ht, n, hn, hint, rfl, hlong⟩ =>
      have hmem : Lexeme.number n ∈ lexemesOf ts := List.mem_map.mpr ⟨t, ht, hn⟩
      exact absurd (hread n hmem hint) (Nat.not_le.mpr hlong)

/-! ## Failing at once -/

section First

variable {t : Token} {rest : List Token} {r : Rejection}

theorem statement_of_term_error (htarget : target? ts = none) (hdyadic : dyadic? ts = none)
    (hmonadic : monadic? ts = none) (hterm : term stop ts = .error r) :
    statement stop ts = .error r := by
  have hreduction : reduction? ts = none := by rw [reduction?, hdyadic]
  have hterms : terms stop ts = .error r := by
    rw [terms, hterm]
    rfl
  rw [statement, htarget]
  simp only
  rw [expression, hreduction]
  simp only
  rw [hmonadic, hterms]
  rfl

/-- Entries that start with a key that came before are refused at that key. -/
theorem entries_of_mem {seen : List String} {k : String} (ht : t.lexeme = .string k)
    (hk : k ∈ seen) :
    entries stop seen (t :: rest) = .error (.malformed (.token (.duplicateKey k) t [])) := by
  rw [entries, key]
  simp only [ht, List.contains_iff_mem, hk, if_true]
  rfl

/-- The second entry of a map literal must not have the key of the first. -/
theorem statement_of_repeated_key {b u w x : Token} {vs : List Token} {k : String} {v : Expr}
    (hb : b.lexeme = .leftBrace) (ht : t.lexeme = .string k) (hu : u.lexeme = .colon)
    (hv : Accepts stop (.expression v) vs) (hw : w.lexeme = .comma) (hx : x.lexeme = .string k) :
    statement stop (b :: t :: u :: (vs ++ w :: x :: rest)) =
      .error (.malformed (.token (.duplicateKey k) x [])) := by
  obtain ⟨hless, hfirst⟩ := hv (w :: x :: rest) (ended_cons.mpr (by rw [hw]; rfl))
  have hsecond : entries stop [k] (x :: rest) = _ := entries_of_mem hx (List.mem_singleton_self k)
  -- Once the lexemes stand in the tokens, all steps but the two calls compute.
  cases b; cases hb; cases t; cases ht; cases u; cases hu; cases w; cases hw; cases x; cases hx
  refine statement_of_term_error rfl rfl rfl ?_
  rw [term]
  show (entries stop [] (_ :: _) >>= _) = _
  rw [entries]
  show ((expression stop (vs ++ _) >>= _) >>= _) = _
  rw [hfirst]
  show ((entries stop [k] (_ :: rest) >>= _) >>= _) = _
  rw [hsecond]
  rfl

end First

end Parser

/-! ## Source texts -/

/-- The error is about the text: it is what the lexer reports, or it is about one of the tokens or
about the end. -/
def ParseError.About (source : String) (e : ParseError) : Prop :=
  match tokenize source with
  | .error l => e = .lexical l
  | .ok ts => e.Within ts.length ts.tokens

/-- No integer in the text is written with more digits than are read. -/
def ReadableSource (source : String) : Prop :=
  ∀ ts, tokenize source = .ok ts → Readable (lexemesOf ts.tokens)

theorem ReadableSource.malformed {α : Type} {source : String} (h : ReadableSource source)
    {m : TokenList → Except Rejection α}
    (hm : ∀ ts, Parser.Accounts (fun _ => []) ts.length ts.tokens (m ts)) :
    (∃ a, (tokensOf source >>= m) = .ok a) ∨
      ∃ e, ParseError.About source e ∧ (tokensOf source >>= m) = .error (.malformed e) := by
  cases hts : tokenize source with
  | error l =>
      refine .inr ⟨.lexical l, ?_, by rw [tokensOf, hts]; rfl⟩
      rw [ParseError.About, hts]
  | ok ts =>
      rw [tokensOf_bind hts]
      refine ((hm ts).malformed (h ts hts)).imp_right fun hrejected => ?_
      obtain ⟨e, he, heq⟩ := hrejected
      exact ⟨e, by rwa [ParseError.About, hts], heq⟩

theorem evaluateSource_of_error {source : String} {r : Rejection}
    (h : parseProgram source = .error r) (env : Env) :
    evaluateSource source env = ⟨.error (.rejected r), env, []⟩ := by
  rw [evaluateSource, h]

/-- A text whose integers are readable is accepted, or rejected with an error about a place in it,
be it read as a line or as a program; and evaluating a text that is no program reports the error of
the parser, and does nothing else. -/
theorem rejected_only_as_malformed {source : String} (h : ReadableSource source) :
    ((∃ e, parseLine source = .ok e) ∨
      ∃ e, ParseError.About source e ∧ parseLine source = .error (.malformed e)) ∧
    ((∃ es, parseProgram source = .ok es) ∨
      ∃ e, ParseError.About source e ∧ parseProgram source = .error (.malformed e) ∧
        ∀ env, evaluateSource source env = ⟨.error (.rejected (.malformed e)), env, []⟩) := by
  refine ⟨h.malformed Parser.accounts_line, ?_⟩
  refine (h.malformed Parser.accounts_program).imp_right fun ⟨e, he, heq⟩ => ?_
  exact ⟨e, he, heq, evaluateSource_of_error heq⟩

/-- A map literal with one key twice is an error at the second of them. -/
theorem rejected_only_as_malformed_duplicate :
    ReadableSource "\x7b'k': 1, 'k': 2\x7d" ∧
      ∃ e, ParseError.About "\x7b'k': 1, 'k': 2\x7d" e ∧
        parseProgram "\x7b'k': 1, 'k': 2\x7d" = .error (.malformed e) ∧
        evaluateSource "\x7b'k': 1, 'k': 2\x7d" ⟨[("x", .int 1)]⟩ =
          ⟨.error (.rejected (.malformed e)), ⟨[("x", .int 1)]⟩, []⟩ := by
  have htokens : tokenize "\x7b'k': 1, 'k': 2\x7d" = .ok ⟨[⟨.leftBrace, 0, 1⟩, ⟨.string "k", 1, 4⟩,
      ⟨.colon, 4, 5⟩, ⟨.number ⟨false, ['1'], none, none⟩, 6, 7⟩, ⟨.comma, 7, 8⟩,
      ⟨.string "k", 9, 12⟩, ⟨.colon, 12, 13⟩, ⟨.number ⟨false, ['2'], none, none⟩, 14, 15⟩,
      ⟨.rightBrace, 15, 16⟩], 16⟩ := by decide +kernel
  have hread : ReadableSource "\x7b'k': 1, 'k': 2\x7d" := by
    intro ts hts
    cases htokens.symm.trans hts
    simp [Readable, Numeral.maxDigits, Decimal.maxDigits]
  have hprogram : parseProgram "\x7b'k': 1, 'k': 2\x7d" =
      .error (.malformed (.token (.duplicateKey "k") ⟨.string "k", 9, 12⟩ [])) := by
    have hone : Parser.Accepts 16 (.expression (.literal (.int 1)))
        [⟨.number ⟨false, ['1'], none, none⟩, 6, 7⟩] :=
      Parser.accepts_of_derives
        (@Derives.integer ⟨false, ['1'], none, none⟩ rfl (by decide)).expression_of_term
        (by simp [Readable, Numeral.maxDigits, Decimal.maxDigits]) rfl
    refine (tokensOf_bind htokens _).trans ?_
    show Parser.lines 16 (_ :: _) = _
    rw [Parser.lines]
    show (Parser.statement 16 (_ :: _ :: _ :: ([_] ++ _ :: _ :: _)) >>= _) = _
    rw [Parser.statement_of_repeated_key rfl rfl rfl hone rfl rfl]
    rfl
  rcases (rejected_only_as_malformed hread).2 with ⟨es, hes⟩ | ⟨e, he, herror, heval⟩
  · cases hprogram.symm.trans hes
  · exact ⟨hread, e, he, herror, heval _⟩

/-! ## Integers with too many digits -/

namespace Parser

variable {stop : Nat} {t : Token} {n : Numeral} {rest : List Token}

theorem numberLiteral_of_long (hint : n.isInteger = true)
    (hlong : Numeral.maxDigits < n.whole.length) :
    numberLiteral t n = .error (.tooManyDigits n.whole.length) := by
  simp only [numberLiteral, Numeral.value, hint, hlong, if_true]

theorem statement_of_number (ht : t.lexeme = .number n) {r : Rejection}
    (hn : numberLiteral t n = .error r) : statement stop (t :: rest) = .error r := by
  have htarget : target? (t :: rest) = none := by
    cases rest <;> simp [target?, ht]
  refine statement_of_term_error htarget (by simp [dyadic?, ht]) (by simp [monadic?, ht]) ?_
  rw [term]
  simp only [ht, hn]
  rfl

end Parser

theorem isDigits_replicate {k : Nat} (hk : 0 < k) {c : Char} (hc : c.isDigit = true) :
    IsDigits (List.replicate k c) := by
  refine ⟨List.ne_nil_of_length_pos (by rwa [List.length_replicate]), fun d hd => ?_⟩
  rwa [List.eq_of_mem_replicate hd]

/-- A text of nothing but too many digits is rejected for their number, although the integer that
they write does not fit in 64 bits either. -/
theorem parse_digits_of_long {ds : List Char} (hds : IsDigits ds)
    (hlong : Numeral.maxDigits < ds.length) :
    parseLine (String.ofList ds) = .error (.tooManyDigits ds.length) ∧
      parseProgram (String.ofList ds) = .error (.tooManyDigits ds.length) := by
  have hn : Numeral.WellFormed ⟨false, ds, none, none⟩ := ⟨hds, by simp, by simp⟩
  have hspell : (String.ofList ds).toList = Numeral.spell ⟨false, ds, none, none⟩ := by
    simp [Numeral.spell]
  have htokens := hn.tokenize hspell
  generalize (String.ofList ds).length = stop at htokens
  -- There is no separator in front of the one token, and the statement fails on it at once.
  have hstatement :
      Parser.statement stop (Parser.skipSeparators [⟨.number ⟨false, ds, none, none⟩, 0, stop⟩]).1 =
        .error (.tooManyDigits ds.length) :=
    Parser.statement_of_number rfl (Parser.numberLiteral_of_long rfl hlong)
  rw [parseLine, parseProgram, tokensOf, htokens]
  constructor
  · show Parser.line _ = _
    rw [Parser.line, hstatement]
    rfl
  · show Parser.lines stop _ = _
    rw [Parser.lines, hstatement]
    rfl

/-- An integer of 4301 digits is no error about a place in the text. -/
theorem long_integer_not_malformed :
    let source := String.ofList (List.replicate 4301 '1')
    parseLine source = .error (.tooManyDigits 4301) ∧
      parseProgram source = .error (.tooManyDigits 4301) ∧
      ∀ env, evaluateSource source env = ⟨.error (.rejected (.tooManyDigits 4301)), env, []⟩ := by
  have hlong : Numeral.maxDigits < (List.replicate 4301 '1').length := by
    rw [List.length_replicate]
    decide
  obtain ⟨hline, hprogram⟩ := parse_digits_of_long (isDigits_replicate (by decide) rfl) hlong
  rw [List.length_replicate] at hline hprogram
  exact ⟨hline, hprogram, evaluateSource_of_error hprogram⟩

end Glyph
