import Glyph.Proofs.Grammar
import Glyph.Proofs.Parser.Steps

/-!
# What the parser takes, the grammar derives

`Covers p ts r` says that the tokens `ts` up to `r` derive the phrase `p`. Whatever a function of
the parser yields is covered in this sense by a phrase of its kind. The proof follows the recursion
of the parser: the theorems are mutual like its functions, and they end for the same reason.
-/

namespace Glyph

def lexemesOf (ts : List Token) : List Lexeme := ts.map Token.lexeme

@[simp] theorem lexemesOf_nil : lexemesOf [] = [] := rfl

@[simp] theorem lexemesOf_cons (t : Token) (ts : List Token) :
    lexemesOf (t :: ts) = t.lexeme :: lexemesOf ts := rfl

@[simp] theorem lexemesOf_append (ts us : List Token) :
    lexemesOf (ts ++ us) = lexemesOf ts ++ lexemesOf us := List.map_append

namespace Parser

theorem AllSeparators.lexemesOf_eq {ss : List Token} (h : AllSeparators ss) :
    lexemesOf ss = separators ss.length := by
  refine List.eq_replicate_iff.mpr ⟨by simp [lexemesOf], ?_⟩
  intro l hl
  obtain ⟨t, ht, rfl⟩ := List.mem_map.mp hl
  exact h t ht

/-- The tokens up to the given rest derive the phrase. -/
def Covers (p : Phrase) (ts r : List Token) : Prop :=
  ∃ us, ts = us ++ r ∧ Derives (lexemesOf us) p

theorem Covers.imp {p q : Phrase} {ts r : List Token} (h : Covers p ts r)
    (hpq : ∀ ls, Derives ls p → Derives ls q) : Covers q ts r := by
  obtain ⟨us, hts, hus⟩ := h
  exact ⟨us, hts, hpq _ hus⟩

/-- What stands between brackets, with the separators before the closing one. -/
def CoversClosed (p : Phrase) (c : TokenClass) (ts r : List Token) : Prop :=
  ∃ us ss u, ts = us ++ ss ++ u :: r ∧ AllSeparators ss ∧ u.lexeme.cls = c ∧
    Derives (lexemesOf us) p

section Closed

variable {p q : Phrase} {c : TokenClass} {l m : Lexeme} {t u : Token}
  {ts us rest s s' r : List Token}

theorem covers_empty (ht : t.lexeme = l) (hs : (skipSeparators rest).1 = u :: r)
    (hu : u.lexeme.cls = c) (hm : mark? c = some m)
    (hq : ∀ n, Derives (l :: separators n ++ [m]) q) : Covers q (t :: rest) r := by
  obtain ⟨ss, hss, hrest⟩ := exists_skipSeparators rest
  refine ⟨t :: ss ++ [u], by rw [hrest, hs]; simp, ?_⟩
  rw [lexemesOf_append, lexemesOf_cons, lexemesOf_cons, ht, eq_of_cls_eq hu hm, hss.lexemesOf_eq]
  exact hq ss.length

theorem CoversClosed.bracketed (h : CoversClosed p c (skipSeparators rest).1 r)
    (ht : t.lexeme = l) (hm : mark? c = some m)
    (hq : ∀ ls i j, Derives ls p → Derives (l :: separators i ++ ls ++ separators j ++ [m]) q) :
    Covers q (t :: rest) r := by
  obtain ⟨ss, hss, hrest⟩ := exists_skipSeparators rest
  obtain ⟨us, ss', u, hs, hss', hu, hus⟩ := h
  refine ⟨t :: ss ++ us ++ ss' ++ [u], by rw [hrest, hs]; simp, ?_⟩
  simp only [lexemesOf_append, lexemesOf_cons, lexemesOf_nil, ht, eq_of_cls_eq hu hm,
    hss.lexemesOf_eq, hss'.lexemesOf_eq]
  exact hq _ ss.length ss'.length hus

theorem coversClosed_last (hts : ts = us ++ s) (hs : (skipSeparators s).1 = u :: r)
    (hu : u.lexeme.cls = c) (hus : Derives (lexemesOf us) p) : CoversClosed p c ts r := by
  obtain ⟨ss, hss, hrest⟩ := exists_skipSeparators s
  exact ⟨us, ss, u, by rw [hts, hrest, hs, List.append_assoc], hss, hu, hus⟩

theorem CoversClosed.cons (h : CoversClosed p c (skipSeparators s').1 r) (hts : ts = us ++ s)
    (hs : (skipSeparators s).1 = u :: s') (hu : u.lexeme.cls = .comma)
    (hq : ∀ ms i j, Derives ms p →
      Derives (lexemesOf us ++ separators i ++ .comma :: separators j ++ ms) q) :
    CoversClosed q c ts r := by
  obtain ⟨ss, hss, hrest⟩ := exists_skipSeparators s
  obtain ⟨ss', hss', hrest'⟩ := exists_skipSeparators s'
  obtain ⟨vs, ss'', w, hvs, hss'', hw, hp⟩ := h
  refine ⟨us ++ ss ++ u :: ss' ++ vs, ss'', w, ?_, hss'', hw, ?_⟩
  · rw [hts, hrest, hs, hrest', hvs]
    simp only [List.append_assoc, List.cons_append]
  · simp only [lexemesOf_append, lexemesOf_cons, eq_of_cls_eq hu rfl, hss.lexemesOf_eq,
      hss'.lexemesOf_eq]
    exact hq _ ss.length ss'.length hp

end Closed

mutual

theorem covers_of_statement {stop : Nat} {ts r : List Token} {e : Expr}
    (h : Yields (statement stop ts) e r) : Covers (.statement e) ts r := by
  rcases yields_statement_iff.mp h with ⟨x, s, e', hx, he, rfl⟩ | ⟨-, he⟩
  · obtain ⟨t, u, hts, ht, hu⟩ := target?_eq_some_iff.mp hx
    obtain ⟨us, hs, hus⟩ := covers_of_expression he
    refine ⟨t :: u :: us, ?_, ?_⟩
    · rw [hts, hs, List.cons_append, List.cons_append]
    · rw [lexemesOf_cons, lexemesOf_cons, ht, hu]
      exact .assignment x hus
  · exact (covers_of_expression he).imp fun _ => .plain
termination_by (ts.length, 4)
decreasing_by
  · exact Prod.Lex.left _ _ s.2
  · exact Prod.Lex.right _ (by omega)

theorem covers_of_expression {stop : Nat} {ts r : List Token} {e : Expr}
    (h : Yields (expression stop ts) e r) : Covers (.expression e) ts r := by
  rcases yields_expression_iff.mp h with ⟨v, s, e', hv, he, rfl⟩ | ⟨v, s, e', -, hv, he, rfl⟩ |
    ⟨left, s, v, s', right, -, -, hl, hv, hr, rfl⟩ | ⟨-, -, he, -⟩
  · obtain ⟨t, u, hts, ht, hu⟩ := reduction?_eq_some_iff.mp hv
    obtain ⟨us, hs, hus⟩ := covers_of_expression he
    refine ⟨t :: u :: us, ?_, ?_⟩
    · rw [hts, hs, List.cons_append, List.cons_append]
    · rw [lexemesOf_cons, lexemesOf_cons, ht, hu]
      exact .reduction v hus
  · obtain ⟨t, hts, ht⟩ := monadic?_eq_some_iff.mp hv
    obtain ⟨us, hs, hus⟩ := covers_of_expression he
    refine ⟨t :: us, ?_, ?_⟩
    · rw [hts, hs, List.cons_append]
    · rw [lexemesOf_cons, ht]
      exact .monadic v hus
  · obtain ⟨us, hts, hus⟩ := covers_of_terms hl
    obtain ⟨t, hs, ht⟩ := dyadic?_eq_some_iff.mp hv
    obtain ⟨vs, hs', hvs⟩ := covers_of_expression hr
    refine ⟨us ++ t :: vs, ?_, ?_⟩
    · rw [hts, hs, hs', List.append_assoc, List.cons_append]
    · rw [lexemesOf_append, lexemesOf_cons, ht]
      exact .dyadic v hus hvs
  · exact (covers_of_terms he).imp fun _ => .operand
termination_by (ts.length, 3)
decreasing_by
  · exact Prod.Lex.left _ _ s.2
  · exact Prod.Lex.left _ _ s.2
  · exact Prod.Lex.right _ (by omega)
  · exact Prod.Lex.left _ _ (Nat.lt_trans s'.2 hl.rest)
  · exact Prod.Lex.right _ (by omega)

theorem covers_of_terms {stop : Nat} {ts r : List Token} {e : Expr}
    (h : Yields (terms stop ts) e r) : Covers (.terms e) ts r := by
  obtain ⟨first, s, more, hfirst, hmore, rfl⟩ := yields_terms_iff.mp h
  obtain ⟨us, hts, hus⟩ := covers_of_term hfirst
  rcases covers_of_moreTerms hmore with ⟨rfl, rfl⟩ | ⟨vs, hs, hvs⟩
  · exact ⟨us, hts, .oneTerm (.lastTerm hus)⟩
  · refine ⟨us ++ vs, by rw [hts, hs, List.append_assoc], ?_⟩
    have hrow : Derives (lexemesOf (us ++ vs)) (.row (first :: more)) := by
      rw [lexemesOf_append]
      exact .nextTerm hus hvs
    cases more with
    | nil => exact .oneTerm hrow
    | cons f more => exact .strand hrow
termination_by (ts.length, 2)
decreasing_by
  · exact Prod.Lex.right _ (by omega)
  · exact Prod.Lex.left _ _ hfirst.rest

theorem covers_of_moreTerms {stop : Nat} {ts r : List Token} {es : List Expr}
    (h : Yields (moreTerms stop ts) es r) : (es = [] ∧ ts = r) ∨ Covers (.row es) ts r := by
  rcases yields_moreTerms_iff.mp h with ⟨e, s, es', -, he, hes, rfl⟩ | ⟨-, hes, hts⟩
  · obtain ⟨us, hts, hus⟩ := covers_of_term he
    rcases covers_of_moreTerms hes with ⟨rfl, rfl⟩ | ⟨vs, hs, hvs⟩
    · exact .inr ⟨us, hts, .lastTerm hus⟩
    · refine .inr ⟨us ++ vs, by rw [hts, hs, List.append_assoc], ?_⟩
      rw [lexemesOf_append]
      exact .nextTerm hus hvs
  · exact .inl ⟨hes, hts⟩
termination_by (ts.length, 1)
decreasing_by
  · exact Prod.Lex.right _ (by omega)
  · exact Prod.Lex.left _ _ he.rest

theorem covers_of_term {stop : Nat} {ts r : List Token} {e : Expr}
    (h : Yields (term stop ts) e r) : Covers (.term e) ts r := by
  match ts, h with
  | [], h => simp [term] at h
  | t :: rest, h =>
      have hterm := startsTerm_of_yields_term h
      cases ht : t.lexeme with
      | number n =>
          obtain ⟨hn, rfl⟩ := (yields_term_number ht).mp h
          refine ⟨[t], rfl, ?_⟩
          rw [lexemesOf_cons, lexemesOf_nil, ht]
          rcases numberLiteral_eq_ok_iff.mp hn with ⟨hint, -, hfit, rfl⟩ | ⟨hint, rfl⟩
          · exact .integer hint hfit
          · exact .decimal hint
      | string s =>
          obtain ⟨rfl, rfl⟩ := (yields_term_string ht).mp h
          exact ⟨[t], rfl, by rw [lexemesOf_cons, lexemesOf_nil, ht]; exact .string s⟩
      | name x =>
          obtain ⟨rfl, rfl⟩ := (yields_term_name ht).mp h
          exact ⟨[t], rfl, by rw [lexemesOf_cons, lexemesOf_nil, ht]; exact .name x⟩
      | leftParen =>
          obtain ⟨u, he, hu⟩ := (yields_term_leftParen ht).mp h
          obtain ⟨us, hrest, hus⟩ := covers_of_statement he
          refine ⟨t :: us ++ [u], by rw [hrest]; simp, ?_⟩
          rw [lexemesOf_append, lexemesOf_cons, lexemesOf_cons, ht, eq_of_cls_eq hu rfl]
          exact .parens hus
      | leftBracket =>
          rcases (yields_term_leftBracket ht).mp h with ⟨u, hs, hu, rfl⟩ | ⟨-, es, hes, rfl⟩
          · exact covers_empty ht hs hu rfl .emptyArray
          · exact (covers_of_items hes).bracketed ht rfl fun _ => .array
      | leftBrace =>
          rcases (yields_term_leftBrace ht).mp h with ⟨u, hs, hu, rfl⟩ | ⟨-, es, hes, rfl⟩
          · exact covers_empty ht hs hu rfl .emptyMap
          · obtain ⟨hclosed, hkeys, -⟩ := covers_of_entries hes
            exact hclosed.bracketed ht rfl fun _ i j hes => .map i j hes hkeys
      | _ => simp [ht, startsTerm, termStart, Lexeme.cls] at hterm
termination_by (ts.length, 0)
decreasing_by
  · exact Prod.Lex.left _ _ (by simp)
  · have := (skipSeparators rest).2
    exact Prod.Lex.left _ _ (by simp only [List.length_cons]; omega)
  · have := (skipSeparators rest).2
    exact Prod.Lex.left _ _ (by simp only [List.length_cons]; omega)

theorem covers_of_items {stop : Nat} {ts r : List Token} {es : List Expr}
    (h : Yields (items stop ts) es r) : CoversClosed (.items es) .rightBracket ts r := by
  obtain ⟨e, s, he, h⟩ := yields_items_iff.mp h
  obtain ⟨us, hts, hus⟩ := covers_of_expression he
  rcases h with ⟨u, hs, hu, rfl⟩ | ⟨-, u, s', es', hs, hu, hes, rfl⟩
  · exact coversClosed_last hts hs hu (.lastItem hus)
  · exact (covers_of_items hes).cons hts hs hu fun _ i j => .item i j hus
termination_by (ts.length, 4)
decreasing_by
  · exact Prod.Lex.right _ (by omega)
  · have := he.rest
    have hnext := (skipSeparators s).2
    have := (skipSeparators s').2
    rw [hs, List.length_cons] at hnext
    exact Prod.Lex.left _ _ (by omega)

theorem covers_of_entries {stop : Nat} {seen : List String} {ts r : List Token}
    {es : List (String × Expr)} (h : Yields (entries stop seen ts) es r) :
    CoversClosed (.entries es) .rightBrace ts r ∧ (es.map Prod.fst).Nodup ∧
      ∀ k ∈ es.map Prod.fst, k ∉ seen := by
  obtain ⟨k, rest, hk, inner, hinner, v, s, hv, h⟩ := yields_entries_iff.mp h
  obtain ⟨t, hts, ht, hseen⟩ := yields_key_iff.mp hk
  obtain ⟨c, hrest, hcolon⟩ := expect_eq_ok_iff.mp hinner
  obtain ⟨us, hin, hus⟩ := covers_of_expression hv
  have hall : ts = t :: c :: us ++ s := by rw [hts, hrest, hin]; rfl
  have hlexemes : lexemesOf (t :: c :: us) = .string k :: .colon :: lexemesOf us := by
    rw [lexemesOf_cons, lexemesOf_cons, ht, eq_of_cls_eq hcolon rfl]
  rcases h with ⟨u, hs, hu, rfl⟩ | ⟨-, u, s', es', hs, hu, hes, rfl⟩
  · refine ⟨coversClosed_last hall hs hu ?_, by simp, by simpa using hseen⟩
    rw [hlexemes]
    exact .lastEntry k hus
  · obtain ⟨hclosed, hnodup, hfresh⟩ := covers_of_entries hes
    refine ⟨hclosed.cons hall hs hu fun ms i j hms => ?_, ?_, ?_⟩
    · rw [hlexemes]
      exact .entry k i j hus hms
    · rw [List.map_cons, List.nodup_cons]
      exact ⟨fun hmem => hfresh k hmem (List.mem_cons_self ..), hnodup⟩
    · intro k' hk'
      rcases List.mem_cons.mp hk' with rfl | hk'
      · exact hseen
      · exact fun hmem => hfresh k' hk' (List.mem_cons_of_mem _ hmem)
termination_by (ts.length, 4)
decreasing_by
  · have := hk.rest
    have := inner.2
    exact Prod.Lex.left _ _ (by omega)
  · have := hk.rest
    have := inner.2
    have := hv.rest
    have hnext := (skipSeparators s).2
    have := (skipSeparators s').2
    rw [hs, List.length_cons] at hnext
    exact Prod.Lex.left _ _ (by omega)

end

/-- The statements of a program, with the separators after the last of them. -/
theorem covers_of_lines {stop : Nat} {ts : List Token} {es : List Expr}
    (h : lines stop ts = .ok es) :
    (ts = [] ∧ es = []) ∨
      ∃ us ss, ts = us ++ ss ∧ AllSeparators ss ∧ Derives (lexemesOf us) (.lines es) := by
  rcases lines_eq_ok_iff.mp h with ⟨rfl, rfl⟩ | ⟨-, e, he, rfl⟩ |
    ⟨-, e, u, s, es', he, hu, hes, rfl⟩
  · exact .inl ⟨rfl, rfl⟩
  · obtain ⟨us, hts, hus⟩ := covers_of_statement he
    exact .inr ⟨us, [], hts, by simp [AllSeparators], .lastLine hus⟩
  · obtain ⟨us, hts, hus⟩ := covers_of_statement he
    obtain ⟨ss, hss, hs⟩ := exists_skipSeparators s
    have hline : u.lexeme = .separator := eq_of_cls_eq hu rfl
    have huss : AllSeparators (u :: ss) := by
      intro t ht
      rcases List.mem_cons.mp ht with rfl | ht
      · exact hline
      · exact hss t ht
    rcases covers_of_lines hes with ⟨hnil, rfl⟩ | ⟨vs, ss', hvs, hss', hlines⟩
    · exact .inr ⟨us, u :: ss, by rw [hts, hs, hnil, List.append_nil], huss, .lastLine hus⟩
    · refine .inr ⟨us ++ (u :: ss) ++ vs, ss', ?_, hss', ?_⟩
      · rw [hts, hs, hvs]
        simp only [List.append_assoc, List.cons_append]
      · rw [lexemesOf_append, lexemesOf_append, huss.lexemesOf_eq, List.length_cons]
        exact .line ss.length hus hlines
termination_by ts.length
decreasing_by
  have := he.rest
  have := (skipSeparators s).2
  simp only [List.length_cons] at *
  omega

/-- What the parser takes for a program, the grammar derives as one. -/
theorem derives_of_program {ts : TokenList} {es : List Expr} (h : program ts = .ok es) :
    Derives (lexemesOf ts.tokens) (.program es) := by
  obtain ⟨ss, hss, hts⟩ := exists_skipSeparators ts.tokens
  rcases covers_of_lines h with ⟨hnil, rfl⟩ | ⟨us, ss', hus, hss', hlines⟩
  · rw [hts, hnil, List.append_nil, hss.lexemesOf_eq]
    exact .emptyProgram ss.length
  · rw [hts, hus, lexemesOf_append, lexemesOf_append, hss.lexemesOf_eq, hss'.lexemesOf_eq,
      ← List.append_assoc]
    exact .program ss.length ss'.length hlines

end Parser

end Glyph
