import Glyph.Proofs.Parser.Soundness

/-!
# What the grammar derives, the parser takes

The other direction. A parser that looks one token ahead takes a phrase only where the token after
it does not prolong the phrase, so each kind of phrase has its own condition on what follows:
nothing for a term, no further term for terms in a row, and for expressions and statements a token
that ends them (`Ended`). `Accepts` states what taking a phrase means, and the proof is one
induction over the derivation.

The grammar has no bound on the digits of an integer, but the parser reads no more than
`Numeral.maxDigits` of them; `Readable` is that bound. Under it the parser takes exactly what the
grammar derives, and every list of tokens has at most one reading. So what a source text is parsed
to can be read off a derivation of its lexemes (`parseProgram_of_derives`).
-/

namespace Glyph

/-- No integer among the lexemes is written with more digits than are read. -/
def Readable (ls : List Lexeme) : Prop :=
  ∀ n, .number n ∈ ls → n.isInteger = true → n.whole.length ≤ Numeral.maxDigits

theorem Readable.left {ls ms : List Lexeme} (h : Readable (ls ++ ms)) : Readable ls :=
  fun n hn => h n (List.mem_append_left ms hn)

theorem Readable.right {ls ms : List Lexeme} (h : Readable (ls ++ ms)) : Readable ms :=
  fun n hn => h n (List.mem_append_right ls hn)

theorem Readable.tail {l : Lexeme} {ls : List Lexeme} (h : Readable (l :: ls)) : Readable ls :=
  fun n hn => h n (List.mem_cons_of_mem l hn)

namespace Parser

def closes : Lexeme → Bool
  | .rightParen => true
  | .rightBracket => true
  | .rightBrace => true
  | .comma => true
  | .separator => true
  | _ => false

/-- The tokens are at an end, or start with one that ends a statement. -/
def Ended (ts : List Token) : Prop := ∀ t ∈ ts.head?, closes t.lexeme = true

theorem ended_nil : Ended [] := by simp [Ended]

theorem ended_cons {t : Token} {ts : List Token} : Ended (t :: ts) ↔ closes t.lexeme = true := by
  simp [Ended]

theorem AllSeparators.ended {ss rest : List Token} (hss : AllSeparators ss) (h : Ended rest) :
    Ended (ss ++ rest) := by
  cases ss with
  | nil => exact h
  | cons s ss =>
      have hs : s.lexeme = .separator := hss s (List.mem_cons_self ..)
      exact ended_cons.mpr (by rw [hs]; rfl)

theorem nextStartsTerm_of_ended {ts : List Token} (h : Ended ts) : nextStartsTerm ts = false := by
  cases ts with
  | nil => rfl
  | cons t ts =>
      have ht := ended_cons.mp h
      rw [nextStartsTerm]
      cases hl : t.lexeme <;> first | rfl | simp [hl, closes] at ht

theorem dyadic?_of_ended {ts : List Token} (h : Ended ts) : dyadic? ts = none := by
  cases ts with
  | nil => rfl
  | cons t ts =>
      have ht := ended_cons.mp h
      cases hl : t.lexeme <;> simp [hl, closes] at ht <;> simp [dyadic?, hl]

/-! ## The first token of a phrase -/

/-- The tokens start with one that ends no statement. -/
def Opens (ts : List Token) : Prop := ∃ t rest, ts = t :: rest ∧ closes t.lexeme = false

theorem Opens.skipSeparators {ss ts : List Token} (h : Opens ts) (hss : AllSeparators ss) :
    (skipSeparators (ss ++ ts)).1 = ts := by
  refine skipSeparators_append hss ?_
  obtain ⟨t, rest, rfl, ht⟩ := h
  rintro _ ⟨⟩ hsep
  rw [hsep] at ht
  cases ht

theorem Opens.take? {ts : List Token} (h : Opens ts) {c : TokenClass} {m : Lexeme}
    (hc : mark? c = some m) (hm : closes m = true) : take? c ts = none := by
  obtain ⟨t, rest, rfl, ht⟩ := h
  rw [Parser.take?]
  refine if_neg fun hcls => ?_
  rw [eq_of_cls_eq hcls hc, hm] at ht
  cases ht

variable {stop : Nat} {ts r : List Token} {e : Expr}

theorem nextStartsTerm_of_term (h : Yields (term stop ts) e r) : nextStartsTerm ts = true := by
  cases ts with
  | nil => simp [term] at h
  | cons t rest => exact startsTerm_of_yields_term h

theorem nextStartsTerm_of_terms (h : Yields (terms stop ts) e r) : nextStartsTerm ts = true := by
  obtain ⟨first, s, more, hfirst, -, -⟩ := yields_terms_iff.mp h
  exact nextStartsTerm_of_term hfirst

/-- A token that starts a term ends no statement, and is no verb. -/
theorem opens_of_nextStartsTerm (h : nextStartsTerm ts = true) :
    Opens ts ∧ dyadic? ts = none ∧ monadic? ts = none := by
  cases ts with
  | nil => cases h
  | cons t rest =>
      rw [nextStartsTerm] at h
      cases ht : t.lexeme <;> simp [ht, startsTerm, termStart, Lexeme.cls] at h <;>
        simp [Opens, closes, dyadic?, monadic?, ht]

theorem opens_of_expression (h : Yields (expression stop ts) e r) : Opens ts := by
  rcases yields_expression_iff.mp h with ⟨v, s, e', hv, -, -⟩ | ⟨v, s, e', -, hv, -, -⟩ |
    ⟨left, s, v, s', right, -, -, hl, -, -, -⟩ | ⟨-, -, hl, -⟩
  · obtain ⟨t, u, hts, ht, -⟩ := reduction?_eq_some_iff.mp hv
    exact ⟨t, u :: s.1, hts, by rw [ht]; rfl⟩
  · obtain ⟨t, hts, ht⟩ := monadic?_eq_some_iff.mp hv
    exact ⟨t, s.1, hts, by rw [ht]; rfl⟩
  · exact (opens_of_nextStartsTerm (nextStartsTerm_of_terms hl)).1
  · exact (opens_of_nextStartsTerm (nextStartsTerm_of_terms hl)).1

theorem opens_of_statement (h : Yields (statement stop ts) e r) : Opens ts := by
  rcases yields_statement_iff.mp h with ⟨x, s, e', hx, -, -⟩ | ⟨-, he⟩
  · obtain ⟨t, u, hts, ht, -⟩ := target?_eq_some_iff.mp hx
    exact ⟨t, u :: s.1, hts, by rw [ht]; rfl⟩
  · exact opens_of_expression he

theorem opens_of_items {es : List Expr} (h : Yields (items stop ts) es r) : Opens ts := by
  obtain ⟨e, s, he, -⟩ := yields_items_iff.mp h
  exact opens_of_expression he

theorem opens_of_entries {seen : List String} {es : List (String × Expr)}
    (h : Yields (entries stop seen ts) es r) : Opens ts := by
  obtain ⟨k, rest, hk, -⟩ := yields_entries_iff.mp h
  obtain ⟨t, hts, ht, -⟩ := yields_key_iff.mp hk
  exact ⟨t, rest, hts, by rw [ht]; rfl⟩

theorem opens_of_lines {es : List Expr} (h : lines stop ts = .ok es) (hes : es ≠ []) :
    Opens ts := by
  rcases lines_eq_ok_iff.mp h with ⟨-, heq⟩ | ⟨-, e, he, -⟩ | ⟨-, e, u, s, es', he, -⟩
  · exact absurd heq.symm hes
  · exact opens_of_statement he
  · exact opens_of_statement he

/-! ## Phrase by phrase -/

/-- A name is read as an operand up to whatever follows it, if that is neither a term nor a verb. -/
theorem yields_expression_name {t : Token} {x : String} {rest : List Token}
    (ht : t.lexeme = .name x) (hterm : nextStartsTerm rest = false) (hverb : dyadic? rest = none) :
    Yields (expression stop (t :: rest)) (.ref x) rest := by
  have hfirst : Yields (term stop (t :: rest)) (.ref x) rest :=
    (yields_term_name ht).mpr ⟨rfl, rfl⟩
  have hmore : Yields (moreTerms stop rest) [] rest :=
    yields_moreTerms_iff.mpr (.inr ⟨hterm, rfl, rfl⟩)
  have hterms : Yields (terms stop (t :: rest)) (.ref x) rest :=
    yields_terms_iff.mpr ⟨.ref x, rest, [], hfirst, hmore, rfl⟩
  obtain ⟨-, hd, hm⟩ := opens_of_nextStartsTerm (nextStartsTerm_of_terms hterms)
  exact yields_expression_iff.mpr
    (.inr (.inr (.inr ⟨by simp [reduction?, hd], hm, hterms, hverb⟩)))

/-- An expression that is followed by the end of a statement is no assignment. -/
theorem target?_of_expression (h : Yields (expression stop ts) e r) (hr : Ended r) :
    target? ts = none := by
  cases hx : target? ts with
  | none => rfl
  | some p =>
      obtain ⟨x, s, hs⟩ := p
      obtain ⟨t, u, hts, ht, hu⟩ := target?_eq_some_iff.mp hx
      dsimp only at hts
      subst hts
      -- The parser would stop in front of the arrow, which ends no statement.
      have hname : Yields (expression stop (t :: u :: s)) (.ref x) (u :: s) := by
        refine yields_expression_name ht ?_ ?_
        · rw [nextStartsTerm, hu]; rfl
        · simp [dyadic?, hu]
      obtain ⟨-, rfl⟩ := h.unique hname
      rw [ended_cons, hu] at hr
      cases hr

/-- What it means that the parser takes tokens as a phrase. -/
def Accepts (stop : Nat) : Phrase → List Token → Prop
  | .term e, ts => ∀ rest, Yields (term stop (ts ++ rest)) e rest
  | .row es, ts => ∀ rest, nextStartsTerm rest = false →
      Yields (moreTerms stop (ts ++ rest)) es rest
  | .terms e, ts => ∀ rest, nextStartsTerm rest = false → Yields (terms stop (ts ++ rest)) e rest
  | .expression e, ts => ∀ rest, Ended rest → Yields (expression stop (ts ++ rest)) e rest
  | .statement e, ts => ∀ rest, Ended rest → Yields (statement stop (ts ++ rest)) e rest
  | .items es, ts => ∀ ss u rest, AllSeparators ss → u.lexeme = .rightBracket →
      Yields (items stop (ts ++ (ss ++ u :: rest))) es rest
  | .entries es, ts => ∀ seen ss u rest, (es.map Prod.fst).Nodup →
      (∀ k ∈ es.map Prod.fst, k ∉ seen) → AllSeparators ss → u.lexeme = .rightBrace →
      Yields (entries stop seen (ts ++ (ss ++ u :: rest))) es rest
  | .lines es, ts => ∀ ss, AllSeparators ss → lines stop (ts ++ ss) = .ok es
  | .program es, ts => program ⟨ts, stop⟩ = .ok es

theorem exists_of_lexemesOf_append {ls ms : List Lexeme} (h : lexemesOf ts = ls ++ ms) :
    ∃ us vs, ts = us ++ vs ∧ lexemesOf us = ls ∧ lexemesOf vs = ms := List.map_eq_append_iff.mp h

theorem exists_of_lexemesOf_cons {l : Lexeme} {ls : List Lexeme} (h : lexemesOf ts = l :: ls) :
    ∃ t us, ts = t :: us ∧ t.lexeme = l ∧ lexemesOf us = ls := List.map_eq_cons_iff.mp h

theorem exists_of_lexemesOf_bracket {l m : Lexeme} {ls : List Lexeme}
    (h : lexemesOf ts = l :: ls ++ [m]) :
    ∃ t us u, ts = t :: us ++ [u] ∧ t.lexeme = l ∧ lexemesOf us = ls ∧ u.lexeme = m := by
  obtain ⟨us, vs, rfl, hus, hvs⟩ := exists_of_lexemesOf_append h
  obtain ⟨t, us, rfl, ht, hus⟩ := exists_of_lexemesOf_cons hus
  obtain ⟨u, _, rfl, hu, hnil⟩ := exists_of_lexemesOf_cons hvs
  obtain rfl := List.map_eq_nil_iff.mp hnil
  exact ⟨t, us, u, rfl, ht, hus, hu⟩

theorem allSeparators_of_lexemesOf {n : Nat} (h : lexemesOf ts = separators n) :
    AllSeparators ts := by
  intro t ht
  have hmem : t.lexeme ∈ separators n := h ▸ List.mem_map_of_mem ht
  exact List.eq_of_mem_replicate hmem

theorem exists_of_lexemesOf_literal {l m : Lexeme} {ls : List Lexeme} {i j : Nat}
    (h : lexemesOf ts = l :: separators i ++ ls ++ separators j ++ [m]) :
    ∃ t ss us ss' u, ts = t :: ss ++ us ++ ss' ++ [u] ∧ t.lexeme = l ∧ AllSeparators ss ∧
      lexemesOf us = ls ∧ AllSeparators ss' ∧ u.lexeme = m := by
  obtain ⟨t, vs, u, rfl, ht, hvs, hu⟩ := exists_of_lexemesOf_bracket h
  obtain ⟨vs, ss', rfl, hvs, hss'⟩ := exists_of_lexemesOf_append hvs
  obtain ⟨ss, us, rfl, hss, hus⟩ := exists_of_lexemesOf_append hvs
  exact ⟨t, ss, us, ss', u, rfl, ht, allSeparators_of_lexemesOf hss, hus,
    allSeparators_of_lexemesOf hss', hu⟩

theorem exists_of_lexemesOf_comma {ls ms : List Lexeme} {i j : Nat}
    (h : lexemesOf ts = ls ++ separators i ++ .comma :: separators j ++ ms) :
    ∃ us ss c ss' vs, ts = us ++ ss ++ c :: ss' ++ vs ∧ lexemesOf us = ls ∧ AllSeparators ss ∧
      c.lexeme = .comma ∧ AllSeparators ss' ∧ lexemesOf vs = ms := by
  obtain ⟨ws, vs, rfl, hws, hvs⟩ := exists_of_lexemesOf_append h
  obtain ⟨zs, cs, rfl, hzs, hcs⟩ := exists_of_lexemesOf_append hws
  obtain ⟨us, ss, rfl, hus, hss⟩ := exists_of_lexemesOf_append hzs
  obtain ⟨c, ss', rfl, hc, hss'⟩ := exists_of_lexemesOf_cons hcs
  exact ⟨us, ss, c, ss', vs, rfl, hus, allSeparators_of_lexemesOf hss, hc,
    allSeparators_of_lexemesOf hss', hvs⟩

section Rules

variable {t u : Token} {us vs ss ss' : List Token} {es : List Expr}
  {fs : List (String × Expr)}

theorem accepts_parens (ht : t.lexeme = .leftParen) (h : Accepts stop (.statement e) us)
    (hu : u.lexeme = .rightParen) : Accepts stop (.term e) (t :: us ++ [u]) := by
  intro rest
  have he := h (u :: rest) (ended_cons.mpr (by rw [hu]; rfl))
  rw [List.cons_append, List.cons_append, List.append_assoc]
  exact (yields_term_leftParen ht).mpr ⟨u, he, by rw [hu]; rfl⟩

theorem accepts_emptyArray (ht : t.lexeme = .leftBracket) (hss : AllSeparators ss)
    (hu : u.lexeme = .rightBracket) : Accepts stop (.term (.array [])) (t :: ss ++ [u]) := by
  intro rest
  rw [List.cons_append, List.cons_append, List.append_assoc]
  refine (yields_term_leftBracket ht).mpr (.inl ⟨u, ?_, by rw [hu]; rfl, rfl⟩)
  exact skipSeparators_append hss (by simp [hu])

theorem accepts_array (ht : t.lexeme = .leftBracket) (hss : AllSeparators ss)
    (h : Accepts stop (.items es) us) (hss' : AllSeparators ss') (hu : u.lexeme = .rightBracket) :
    Accepts stop (.term (.array es)) (t :: ss ++ us ++ ss' ++ [u]) := by
  intro rest
  have hes := h ss' u rest hss' hu
  have hopen := opens_of_items hes
  rw [show t :: ss ++ us ++ ss' ++ [u] ++ rest = t :: (ss ++ (us ++ (ss' ++ u :: rest))) by simp]
  refine (yields_term_leftBracket ht).mpr (.inr ?_)
  rw [hopen.skipSeparators hss]
  exact ⟨hopen.take? rfl rfl, es, hes, rfl⟩

theorem accepts_emptyMap (ht : t.lexeme = .leftBrace) (hss : AllSeparators ss)
    (hu : u.lexeme = .rightBrace) : Accepts stop (.term (.map [])) (t :: ss ++ [u]) := by
  intro rest
  rw [List.cons_append, List.cons_append, List.append_assoc]
  refine (yields_term_leftBrace ht).mpr (.inl ⟨u, ?_, by rw [hu]; rfl, rfl⟩)
  exact skipSeparators_append hss (by simp [hu])

theorem accepts_map (ht : t.lexeme = .leftBrace) (hss : AllSeparators ss)
    (h : Accepts stop (.entries fs) us) (hkeys : (fs.map Prod.fst).Nodup)
    (hss' : AllSeparators ss') (hu : u.lexeme = .rightBrace) :
    Accepts stop (.term (.map fs)) (t :: ss ++ us ++ ss' ++ [u]) := by
  intro rest
  have hfs := h [] ss' u rest hkeys (by simp) hss' hu
  have hopen := opens_of_entries hfs
  rw [show t :: ss ++ us ++ ss' ++ [u] ++ rest = t :: (ss ++ (us ++ (ss' ++ u :: rest))) by simp]
  refine (yields_term_leftBrace ht).mpr (.inr ?_)
  rw [hopen.skipSeparators hss]
  exact ⟨hopen.take? rfl rfl, fs, hfs, rfl⟩

theorem accepts_lastItem (h : Accepts stop (.expression e) us) : Accepts stop (.items [e]) us := by
  intro ss u rest hss hu
  have he := h (ss ++ u :: rest) (hss.ended (ended_cons.mpr (by rw [hu]; rfl)))
  refine yields_items_iff.mpr ⟨e, _, he, .inl ⟨u, ?_, by rw [hu]; rfl, rfl⟩⟩
  exact skipSeparators_append hss (by simp [hu])

theorem accepts_item (h : Accepts stop (.expression e) us) (hss : AllSeparators ss)
    (ht : t.lexeme = .comma) (hss' : AllSeparators ss') (hs : Accepts stop (.items es) vs) :
    Accepts stop (.items (e :: es)) (us ++ ss ++ t :: ss' ++ vs) := by
  intro zs u rest hzs hu
  have hes := hs zs u rest hzs hu
  have hnext : Ended (ss ++ t :: (ss' ++ (vs ++ (zs ++ u :: rest)))) :=
    hss.ended (ended_cons.mpr (by rw [ht]; rfl))
  rw [show us ++ ss ++ t :: ss' ++ vs ++ (zs ++ u :: rest) =
    us ++ (ss ++ t :: (ss' ++ (vs ++ (zs ++ u :: rest)))) by simp]
  refine yields_items_iff.mpr ⟨e, _, h _ hnext, .inr ?_⟩
  rw [skipSeparators_append hss (by simp [ht])]
  refine ⟨by simp [take?, ht, Lexeme.cls], t, _, es, rfl, by rw [ht]; rfl, ?_, rfl⟩
  rw [(opens_of_items hes).skipSeparators hss']
  exact hes

theorem accepts_lastEntry {k : String} (ht : t.lexeme = .string k) (hu : u.lexeme = .colon)
    (h : Accepts stop (.expression e) us) : Accepts stop (.entries [(k, e)]) (t :: u :: us) := by
  intro seen ss w rest _ hseen hss hw
  have he := h (ss ++ w :: rest) (hss.ended (ended_cons.mpr (by rw [hw]; rfl)))
  have hk : k ∉ seen := hseen k (by simp)
  refine yields_entries_iff.mpr ⟨k, _, yields_key_iff.mpr ⟨t, rfl, ht, hk⟩, ?_⟩
  refine ⟨⟨us ++ (ss ++ w :: rest), by simp⟩, expect_eq_ok_iff.mpr ⟨u, rfl, by rw [hu]; rfl⟩, ?_⟩
  refine ⟨e, _, he, .inl ⟨w, ?_, by rw [hw]; rfl, rfl⟩⟩
  exact skipSeparators_append hss (by simp [hw])

theorem accepts_entry {k : String} {c : Token} (ht : t.lexeme = .string k)
    (hu : u.lexeme = .colon) (h : Accepts stop (.expression e) us) (hss : AllSeparators ss)
    (hc : c.lexeme = .comma) (hss' : AllSeparators ss') (hs : Accepts stop (.entries fs) vs) :
    Accepts stop (.entries ((k, e) :: fs)) (t :: u :: us ++ ss ++ c :: ss' ++ vs) := by
  intro seen zs w rest hkeys hseen hzs hw
  rw [List.map_cons, List.nodup_cons] at hkeys
  have hk : k ∉ seen := hseen k (by simp)
  have hfresh : ∀ l ∈ fs.map Prod.fst, l ∉ k :: seen := by
    intro l hl hmem
    rcases List.mem_cons.mp hmem with rfl | hmem
    · exact hkeys.1 hl
    · exact hseen l (List.mem_cons_of_mem _ hl) hmem
  have hfs := hs (k :: seen) zs w rest hkeys.2 hfresh hzs hw
  have hnext : Ended (ss ++ c :: (ss' ++ (vs ++ (zs ++ w :: rest)))) :=
    hss.ended (ended_cons.mpr (by rw [hc]; rfl))
  rw [show t :: u :: us ++ ss ++ c :: ss' ++ vs ++ (zs ++ w :: rest) =
    t :: u :: (us ++ (ss ++ c :: (ss' ++ (vs ++ (zs ++ w :: rest))))) by simp]
  refine yields_entries_iff.mpr ⟨k, _, yields_key_iff.mpr ⟨t, rfl, ht, hk⟩, ?_⟩
  refine ⟨⟨us ++ (ss ++ c :: (ss' ++ (vs ++ (zs ++ w :: rest)))), by simp⟩,
    expect_eq_ok_iff.mpr ⟨u, rfl, by rw [hu]; rfl⟩, e, _, h _ hnext, .inr ?_⟩
  rw [skipSeparators_append hss (by simp [hc])]
  refine ⟨by simp [take?, hc, Lexeme.cls], c, _, fs, rfl, by rw [hc]; rfl, ?_, rfl⟩
  rw [(opens_of_entries hfs).skipSeparators hss']
  exact hfs

theorem accepts_lastTerm (h : Accepts stop (.term e) us) : Accepts stop (.row [e]) us := by
  intro rest hrest
  have he := h rest
  refine yields_moreTerms_iff.mpr (.inl ⟨e, rest, [], nextStartsTerm_of_term he, he, ?_, rfl⟩)
  exact yields_moreTerms_iff.mpr (.inr ⟨hrest, rfl, rfl⟩)

theorem accepts_nextTerm (h : Accepts stop (.term e) us) (hs : Accepts stop (.row es) vs) :
    Accepts stop (.row (e :: es)) (us ++ vs) := by
  intro rest hrest
  have he := h (vs ++ rest)
  rw [List.append_assoc]
  exact yields_moreTerms_iff.mpr
    (.inl ⟨e, _, es, nextStartsTerm_of_term he, he, hs rest hrest, rfl⟩)

theorem accepts_terms (h : Accepts stop (.row (e :: es)) us) :
    Accepts stop (.terms (strand e es)) us := by
  intro rest hrest
  rcases yields_moreTerms_iff.mp (h rest hrest) with ⟨e', s, es', -, he, hes, heq⟩ | ⟨-, heq, -⟩
  · cases heq
    exact yields_terms_iff.mpr ⟨e, s, es, he, hes, rfl⟩
  · cases heq

theorem accepts_reduction {v : Dyadic} (ht : t.lexeme = .dyadic v)
    (hu : u.lexeme = .dyadic .replicate) (h : Accepts stop (.expression e) us) :
    Accepts stop (.expression (.operator v .reduce e)) (t :: u :: us) := by
  intro rest hrest
  refine yields_expression_iff.mpr (.inl ⟨v, ⟨us ++ rest, ?_⟩, e, ?_, h rest hrest, rfl⟩)
  · simp only [List.cons_append, List.length_cons]
    omega
  · exact reduction?_eq_some_iff.mpr ⟨t, u, rfl, ht, hu⟩

theorem accepts_monadic {v : Monadic} (ht : t.lexeme = .monadic v)
    (h : Accepts stop (.expression e) us) :
    Accepts stop (.expression (.monadic v e)) (t :: us) := by
  intro rest hrest
  refine yields_expression_iff.mpr
    (.inr (.inl ⟨v, ⟨us ++ rest, by simp⟩, e, ?_, ?_, h rest hrest, rfl⟩))
  · simp [reduction?, dyadic?, ht]
  · exact monadic?_eq_some_iff.mpr ⟨t, rfl, ht⟩

theorem accepts_dyadic {v : Dyadic} {l : Expr} (hl : Accepts stop (.terms l) us)
    (ht : t.lexeme = .dyadic v) (hr : Accepts stop (.expression e) vs) :
    Accepts stop (.expression (.dyadic v l e)) (us ++ t :: vs) := by
  intro rest hrest
  rw [List.append_assoc, List.cons_append]
  have hleft := hl (t :: (vs ++ rest)) (by rw [nextStartsTerm, ht]; rfl)
  obtain ⟨-, hd, hm⟩ := opens_of_nextStartsTerm (nextStartsTerm_of_terms hleft)
  refine yields_expression_iff.mpr (.inr (.inr (.inl ⟨l, _, v, ⟨vs ++ rest, by simp⟩, e,
    by simp [reduction?, hd], hm, hleft, ?_, hr rest hrest, rfl⟩)))
  exact dyadic?_eq_some_iff.mpr ⟨t, rfl, ht⟩

theorem accepts_operand (h : Accepts stop (.terms e) us) : Accepts stop (.expression e) us := by
  intro rest hrest
  have he := h rest (nextStartsTerm_of_ended hrest)
  obtain ⟨-, hd, hm⟩ := opens_of_nextStartsTerm (nextStartsTerm_of_terms he)
  exact yields_expression_iff.mpr
    (.inr (.inr (.inr ⟨by simp [reduction?, hd], hm, he, dyadic?_of_ended hrest⟩)))

theorem accepts_assignment {x : String} (ht : t.lexeme = .name x) (hu : u.lexeme = .assign)
    (h : Accepts stop (.expression e) us) :
    Accepts stop (.statement (.assign x e)) (t :: u :: us) := by
  intro rest hrest
  refine yields_statement_iff.mpr (.inl ⟨x, ⟨us ++ rest, ?_⟩, e, ?_, h rest hrest, rfl⟩)
  · simp only [List.cons_append, List.length_cons]
    omega
  · exact target?_eq_some_iff.mpr ⟨t, u, rfl, ht, hu⟩

theorem accepts_plain (h : Accepts stop (.expression e) us) : Accepts stop (.statement e) us := by
  intro rest hrest
  have he := h rest hrest
  exact yields_statement_iff.mpr (.inr ⟨target?_of_expression he hrest, he⟩)

theorem accepts_lastLine (h : Accepts stop (.statement e) us) : Accepts stop (.lines [e]) us := by
  intro ss hss
  have hrest : Ended ss := by simpa using hss.ended ended_nil
  have he := h ss hrest
  obtain ⟨t, rest, hts, -⟩ := opens_of_statement he
  cases ss with
  | nil => exact lines_eq_ok_iff.mpr (.inr (.inl ⟨by simp [hts], e, he, rfl⟩))
  | cons s ss =>
      have hs : s.lexeme = .separator := hss s (List.mem_cons_self ..)
      have hskip : (skipSeparators ss).1 = [] :=
        skipSeparators_eq_nil fun t ht => hss t (List.mem_cons_of_mem s ht)
      refine lines_eq_ok_iff.mpr (.inr (.inr ⟨by simp [hts], e, s, ss, [], he, ?_, ?_, rfl⟩))
      · rw [hs]; rfl
      · rw [hskip]
        exact lines_eq_ok_iff.mpr (.inl ⟨rfl, rfl⟩)

theorem accepts_line (h : Accepts stop (.statement e) us) (ht : t.lexeme = .separator)
    (hss : AllSeparators ss) (hs : Accepts stop (.lines es) vs) (hes : es ≠ []) :
    Accepts stop (.lines (e :: es)) (us ++ (t :: ss) ++ vs) := by
  intro zs hzs
  have he := h (t :: (ss ++ (vs ++ zs))) (ended_cons.mpr (by rw [ht]; rfl))
  obtain ⟨w, rest, hw, -⟩ := opens_of_statement he
  rw [show us ++ (t :: ss) ++ vs ++ zs = us ++ t :: (ss ++ (vs ++ zs)) by simp]
  refine lines_eq_ok_iff.mpr (.inr (.inr ⟨by simp [hw], e, t, _, es, he, ?_, ?_, rfl⟩))
  · rw [ht]; rfl
  · have hlines := hs zs hzs
    rw [(opens_of_lines hlines hes).skipSeparators hss]
    exact hlines

theorem accepts_program (hss : AllSeparators ss) (h : Accepts stop (.lines es) us) (hes : es ≠ [])
    (hss' : AllSeparators ss') : Accepts stop (.program es) (ss ++ us ++ ss') := by
  have hlines := h ss' hss'
  rw [Accepts, program, List.append_assoc, (opens_of_lines hlines hes).skipSeparators hss]
  exact hlines

end Rules

/-- The parser takes every phrase that the grammar derives. -/
theorem accepts_of_derives {ls : List Lexeme} {p : Phrase} (h : Derives ls p)
    (hread : Readable ls) {ts : List Token} (hts : lexemesOf ts = ls) : Accepts stop p ts := by
  -- In each case the tokens are cut into the parts of the rule, and the lemma of the rule applies.
  induction h generalizing ts with
  | @integer n hint hfit =>
      obtain ⟨t, us, rfl, ht, hus⟩ := exists_of_lexemesOf_cons hts
      obtain rfl := List.map_eq_nil_iff.mp hus
      have hlen := hread n (List.mem_cons_self ..) hint
      have hn : numberLiteral t n = .ok _ :=
        numberLiteral_eq_ok_iff.mpr (.inl ⟨hint, hlen, hfit, rfl⟩)
      exact fun rest => (yields_term_number ht).mpr ⟨hn, rfl⟩
  | @decimal n hint =>
      obtain ⟨t, us, rfl, ht, hus⟩ := exists_of_lexemesOf_cons hts
      obtain rfl := List.map_eq_nil_iff.mp hus
      have hn : numberLiteral t n = .ok _ := numberLiteral_eq_ok_iff.mpr (.inr ⟨hint, rfl⟩)
      exact fun rest => (yields_term_number ht).mpr ⟨hn, rfl⟩
  | string s =>
      obtain ⟨t, us, rfl, ht, hus⟩ := exists_of_lexemesOf_cons hts
      obtain rfl := List.map_eq_nil_iff.mp hus
      exact fun rest => (yields_term_string ht).mpr ⟨rfl, rfl⟩
  | name x =>
      obtain ⟨t, us, rfl, ht, hus⟩ := exists_of_lexemesOf_cons hts
      obtain rfl := List.map_eq_nil_iff.mp hus
      exact fun rest => (yields_term_name ht).mpr ⟨rfl, rfl⟩
  | parens h ih =>
      obtain ⟨t, us, u, rfl, ht, hus, hu⟩ := exists_of_lexemesOf_bracket hts
      exact accepts_parens ht (ih hread.left.tail hus) hu
  | emptyArray n =>
      obtain ⟨t, ss, u, rfl, ht, hss, hu⟩ := exists_of_lexemesOf_bracket hts
      exact accepts_emptyArray ht (allSeparators_of_lexemesOf hss) hu
  | array m n h ih =>
      obtain ⟨t, ss, us, ss', u, rfl, ht, hss, hus, hss', hu⟩ := exists_of_lexemesOf_literal hts
      exact accepts_array ht hss (ih hread.left.left.right hus) hss' hu
  | emptyMap n =>
      obtain ⟨t, ss, u, rfl, ht, hss, hu⟩ := exists_of_lexemesOf_bracket hts
      exact accepts_emptyMap ht (allSeparators_of_lexemesOf hss) hu
  | map m n h hkeys ih =>
      obtain ⟨t, ss, us, ss', u, rfl, ht, hss, hus, hss', hu⟩ := exists_of_lexemesOf_literal hts
      exact accepts_map ht hss (ih hread.left.left.right hus) hkeys hss' hu
  | lastItem h ih => exact accepts_lastItem (ih hread hts)
  | item m n h hs ih ihs =>
      obtain ⟨us, ss, c, ss', vs, rfl, hus, hss, hc, hss', hvs⟩ := exists_of_lexemesOf_comma hts
      exact accepts_item (ih hread.left.left.left hus) hss hc hss' (ihs hread.right hvs)
  | lastEntry k h ih =>
      obtain ⟨t, us, rfl, ht, hus⟩ := exists_of_lexemesOf_cons hts
      obtain ⟨u, us, rfl, hu, hus⟩ := exists_of_lexemesOf_cons hus
      exact accepts_lastEntry ht hu (ih hread.tail.tail hus)
  | entry k m n h hs ih ihs =>
      obtain ⟨us, ss, c, ss', vs, rfl, hus, hss, hc, hss', hvs⟩ := exists_of_lexemesOf_comma hts
      obtain ⟨t, us, rfl, ht, hus⟩ := exists_of_lexemesOf_cons hus
      obtain ⟨u, us, rfl, hu, hus⟩ := exists_of_lexemesOf_cons hus
      exact accepts_entry ht hu (ih hread.left.left.left.tail.tail hus) hss hc hss'
        (ihs hread.right hvs)
  | lastTerm h ih => exact accepts_lastTerm (ih hread hts)
  | nextTerm h hs ih ihs =>
      obtain ⟨us, vs, rfl, hus, hvs⟩ := exists_of_lexemesOf_append hts
      exact accepts_nextTerm (ih hread.left hus) (ihs hread.right hvs)
  | oneTerm h ih => exact accepts_terms (ih hread hts)
  | strand h ih => exact accepts_terms (ih hread hts)
  | reduction v h ih =>
      obtain ⟨t, us, rfl, ht, hus⟩ := exists_of_lexemesOf_cons hts
      obtain ⟨u, us, rfl, hu, hus⟩ := exists_of_lexemesOf_cons hus
      exact accepts_reduction ht hu (ih hread.tail.tail hus)
  | monadic v h ih =>
      obtain ⟨t, us, rfl, ht, hus⟩ := exists_of_lexemesOf_cons hts
      exact accepts_monadic ht (ih hread.tail hus)
  | dyadic v hl hr ihl ihr =>
      obtain ⟨us, vs, rfl, hus, hvs⟩ := exists_of_lexemesOf_append hts
      obtain ⟨t, vs, rfl, ht, hvs⟩ := exists_of_lexemesOf_cons hvs
      exact accepts_dyadic (ihl hread.left hus) ht (ihr hread.right.tail hvs)
  | operand h ih => exact accepts_operand (ih hread hts)
  | assignment x h ih =>
      obtain ⟨t, us, rfl, ht, hus⟩ := exists_of_lexemesOf_cons hts
      obtain ⟨u, us, rfl, hu, hus⟩ := exists_of_lexemesOf_cons hus
      exact accepts_assignment ht hu (ih hread.tail.tail hus)
  | plain h ih => exact accepts_plain (ih hread hts)
  | lastLine h ih => exact accepts_lastLine (ih hread hts)
  | line n h hs ih ihs =>
      obtain ⟨ws, vs, rfl, hws, hvs⟩ := exists_of_lexemesOf_append hts
      obtain ⟨us, zs, rfl, hus, hzs⟩ := exists_of_lexemesOf_append hws
      obtain ⟨t, ss, rfl, ht, hss⟩ := exists_of_lexemesOf_cons hzs
      exact accepts_line (ih hread.left.left hus) ht (allSeparators_of_lexemesOf hss)
        (ihs hread.right hvs) hs.lines_ne_nil
  | emptyProgram n =>
      have hss := allSeparators_of_lexemesOf hts
      rw [Accepts, program, skipSeparators_eq_nil hss]
      exact lines_eq_ok_iff.mpr (.inl ⟨rfl, rfl⟩)
  | program m n h ih =>
      obtain ⟨us, ss', rfl, hus, hss'⟩ := exists_of_lexemesOf_append hts
      obtain ⟨ss, us, rfl, hss, hus⟩ := exists_of_lexemesOf_append hus
      exact accepts_program (allSeparators_of_lexemesOf hss) (ih hread.left.right hus)
        h.lines_ne_nil (allSeparators_of_lexemesOf hss')

theorem program_eq_ok_iff {ts : TokenList} (hread : Readable (lexemesOf ts.tokens))
    {es : List Expr} : program ts = .ok es ↔ Derives (lexemesOf ts.tokens) (.program es) :=
  ⟨derives_of_program, fun h => accepts_of_derives h hread rfl⟩

/-! ## Single lines -/

theorem skipSeparators_cons_eq_nil_iff {t : Token} :
    (skipSeparators (t :: r)).1 = [] ↔ t.lexeme.cls = .separator ∧ (skipSeparators r).1 = [] := by
  by_cases ht : t.lexeme.cls = .separator <;> simp [skipSeparators, ht]

theorem lines_eq_ok_nil_iff : lines stop ts = .ok [] ↔ ts = [] := by
  rw [lines_eq_ok_iff]
  simp

theorem line_eq_ok_iff_program {ts : TokenList} : line ts = .ok e ↔ program ts = .ok [e] := by
  rw [line_eq_ok_iff, program, lines_eq_ok_iff]
  constructor
  · rintro ⟨r, he, hr⟩
    obtain ⟨t, rest, hts, -⟩ := opens_of_statement he
    cases r with
    | nil => exact .inr (.inl ⟨by simp [hts], e, he, rfl⟩)
    | cons u s =>
        obtain ⟨hu, hs⟩ := skipSeparators_cons_eq_nil_iff.mp hr
        exact .inr (.inr ⟨by simp [hts], e, u, s, [], he, hu, lines_eq_ok_nil_iff.mpr hs, rfl⟩)
  · rintro (⟨-, heq⟩ | ⟨-, e', he, heq⟩ | ⟨-, e', u, s, es, he, hu, hs, heq⟩)
    · cases heq
    · cases heq
      exact ⟨[], he, rfl⟩
    · cases heq
      exact ⟨u :: s, he, skipSeparators_cons_eq_nil_iff.mpr ⟨hu, lines_eq_ok_nil_iff.mp hs⟩⟩

/-- The parser takes exactly the programs of the grammar, tokens have no two readings as a program,
and a single line is what is a program with one line. -/
theorem takes_exactly_grammar {ts : TokenList} (hread : Readable (lexemesOf ts.tokens)) :
    (∀ es, program ts = .ok es ↔ Derives (lexemesOf ts.tokens) (.program es)) ∧
      (∀ es fs, Derives (lexemesOf ts.tokens) (.program es) →
        Derives (lexemesOf ts.tokens) (.program fs) → es = fs) ∧
      ∀ e, line ts = .ok e ↔ program ts = .ok [e] := by
  refine ⟨fun es => program_eq_ok_iff hread, ?_, fun e => line_eq_ok_iff_program⟩
  intro es fs hes hfs
  have heq := (program_eq_ok_iff hread).mpr hes
  rw [(program_eq_ok_iff hread).mpr hfs] at heq
  cases heq
  rfl

/-- The solidus after the verb in front is no verb itself. -/
theorem takes_exactly_grammar_reduction :
    ∃ ts, tokenize "+/1 2" = .ok ts ∧ Readable (lexemesOf ts.tokens) ∧
      program ts = .ok [.operator (.pervasive .add) .reduce
        (.array [.literal (.int 1), .literal (.int 2)])] := by
  have hread : Readable [.dyadic (.pervasive .add), .dyadic .replicate,
      .number ⟨false, ['1'], none, none⟩, .number ⟨false, ['2'], none, none⟩] := by
    simp [Readable, Numeral.maxDigits, Decimal.maxDigits]
  have hone := @Derives.integer ⟨false, ['1'], none, none⟩ rfl (by decide)
  have htwo := @Derives.integer ⟨false, ['2'], none, none⟩ rfl (by decide)
  have hrow := Derives.operand (.strand (.nextTerm hone (.lastTerm htwo)))
  have hline := Derives.plain (.reduction (.pervasive .add) hrow)
  refine ⟨⟨[⟨.dyadic (.pervasive .add), 0, 1⟩, ⟨.dyadic .replicate, 1, 2⟩,
    ⟨.number ⟨false, ['1'], none, none⟩, 2, 3⟩, ⟨.number ⟨false, ['2'], none, none⟩, 4, 5⟩], 5⟩,
    by with_unfolding_all rfl, hread, ?_⟩
  refine ((takes_exactly_grammar ?_).1 _).mpr ?_
  · exact hread
  · exact .program 0 0 (.lastLine hline)

end Parser

/-! ## Source texts -/

def lexemes? (source : String) : Option (List Lexeme) :=
  (tokenize source).toOption.map fun ts => lexemesOf ts.tokens

section Source

variable {source : String} {ls : List Lexeme}

theorem lexemes?_eq_some_iff :
    lexemes? source = some ls ↔ ∃ ts, tokenize source = .ok ts ∧ lexemesOf ts.tokens = ls := by
  rw [lexemes?]
  cases tokenize source with
  | error e => exact iff_of_false nofun nofun
  | ok ts =>
      constructor
      · intro h
        exact ⟨ts, rfl, Option.some.inj h⟩
      · rintro ⟨us, hus, h⟩
        cases hus
        exact congrArg some h

theorem parseProgram_of_derives {es : List Expr} (hls : lexemes? source = some ls)
    (hread : Readable ls) (h : Derives ls (.program es)) : parseProgram source = .ok es := by
  obtain ⟨ts, hts, rfl⟩ := lexemes?_eq_some_iff.mp hls
  exact (tokensOf_bind hts _).trans ((Parser.program_eq_ok_iff hread).mpr h)

theorem parseLine_of_derives {e : Expr} (hls : lexemes? source = some ls) (hread : Readable ls)
    (h : Derives ls (.program [e])) : parseLine source = .ok e := by
  obtain ⟨ts, hts, rfl⟩ := lexemes?_eq_some_iff.mp hls
  refine (tokensOf_bind hts _).trans (Parser.line_eq_ok_iff_program.mpr ?_)
  exact (Parser.program_eq_ok_iff hread).mpr h

end Source

end Glyph
