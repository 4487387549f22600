import Glyph.Proofs.Parser.Rejection
import Glyph.Proofs.Token.Tiling

/-!
# Lexemes with blanks between them

The characters of each token of a text are taken as the same lexeme wherever a blank or nothing
follows. So the text can be written anew, with any blanks between its tokens and none of its
comments, and is read as the same lexemes. The parser looks at nothing else, so it finds the same
tree in both texts, or in neither.
-/

namespace Glyph

def Blanks (cs : List Char) : Prop := ∀ c ∈ cs, Lexer.isBlank c = true

instance (cs : List Char) : Decidable (Blanks cs) :=
  List.decidableBAll _ cs

/-- The pieces follow each other, with blanks between them and maybe behind the last one. -/
inductive Joined : List (List Char) → List Char → Prop where
  | nil {after : List Char} (hafter : Blanks after) : Joined [] after
  | last {piece after : List Char} (hafter : Blanks after) : Joined [piece] (piece ++ after)
  | cons {piece next gap text : List Char} {pieces : List (List Char)} (hgap : Blanks gap)
      (hne : gap ≠ []) (h : Joined (next :: pieces) text) :
      Joined (piece :: next :: pieces) (piece ++ (gap ++ text))

/-- The pieces follow each other, with blanks between them and maybe around them. -/
def Spaced (pieces : List (List Char)) (text : List Char) : Prop :=
  ∃ before rest, Blanks before ∧ Joined pieces rest ∧ before ++ rest = text

namespace Lexer

variable {P : List Char → Prop} {cs gap rest text : List Char} {ts : List Token}

theorem scans_of_takes {o : Option Lexeme} (hne : cs ≠ [])
    (h : ∀ rest, P rest → Takes cs rest o) : Scans P cs o.toList := by
  cases cs with
  | nil => exact absurd rfl hne
  | cons c cs =>
      refine scans_of_lead? fun rest hrest => ?_
      obtain ⟨d, ds, heq, hlead⟩ := (h rest hrest).lead
      cases heq
      exact hlead

theorem scans_blanks (h : Blanks gap) : Scans Anything gap [] := by
  induction gap with
  | nil => exact scans_nil
  | cons c gap ih =>
      obtain ⟨hc, hgap⟩ := List.forall_mem_cons.mp h
      have hfirst : Scans Anything [c] [] :=
        @scans_of_takes _ _ none (List.cons_ne_nil _ _) fun _ _ => .blank hc
      exact hfirst.append (ih hgap) fun _ _ => trivial

theorem endsOrBlank_append (hgap : Blanks gap) (h : gap = [] → EndsOrBlank rest) :
    EndsOrBlank (gap ++ rest) := by
  cases gap with
  | nil => exact h rfl
  | cons c gap =>
      rintro d ⟨⟩
      exact hgap c (List.mem_cons_self ..)

theorem Takes.scans {l : Lexeme} (h : Takes cs rest (some l)) : Scans EndsOrBlank cs [l] := by
  have hne : cs ≠ [] := List.ne_nil_of_length_pos h.length_pos
  exact scans_of_takes hne fun _ hrest => h.of_endsOrBlank hrest

/-- The characters of tokens with blanks between them are read as their lexemes. -/
theorem scans_of_joined (hts : ∀ t ∈ ts, ∃ rest, Takes (t.slice cs) rest (some t.lexeme))
    (h : Joined (ts.map (Token.slice cs)) text) : Scans EndsOrBlank text (lexemesOf ts) := by
  induction ts generalizing text with
  | nil =>
      cases h with
      | nil hafter => exact (scans_blanks hafter).imp fun _ _ => trivial
  | cons t ts ih =>
      obtain ⟨⟨rest, ht⟩, hts⟩ := List.forall_mem_cons.mp hts
      cases ts with
      | nil =>
          cases h with
          | @last _ after hafter =>
              have hblanks : Scans EndsOrBlank after [] :=
                (scans_blanks hafter).imp fun _ _ => trivial
              exact ht.scans.append hblanks fun _ hrest =>
                endsOrBlank_append hafter fun _ => hrest
      | cons u ts =>
          cases h with
          | cons hgap hne h =>
              have hrest := (scans_blanks hgap).append (ih hts h) fun _ _ => trivial
              refine ht.scans.append hrest fun rest _ => ?_
              rw [List.append_assoc]
              exact endsOrBlank_append hgap fun hnil => absurd hnil hne

/-- The text with other blanks, and without its comments, has the same lexemes. -/
theorem exists_tokenize_of_spaced {source text : String} {ts : TokenList}
    (h : tokenize source = .ok ts)
    (htext : Spaced (ts.tokens.map (Token.slice source.toList)) text.toList) :
    ∃ us, tokenize text = .ok us ∧ lexemesOf us.tokens = lexemesOf ts.tokens := by
  obtain ⟨before, rest, hbefore, hjoined, htext⟩ := htext
  have htiles := (tiles_of_tokenize h).1
  have hrest := scans_of_joined (fun t ht => ⟨_, htiles.takes_slice ht⟩) hjoined
  have hscans := (scans_blanks hbefore).append hrest fun _ _ => trivial
  rw [htext] at hscans
  exact hscans.tokenize (by simp [EndsOrBlank])

end Lexer

/-! ## Reading the same lexemes -/

namespace Parser

variable {ts us : TokenList}

theorem program_eq_ok_of_lexemesOf (h : lexemesOf us.tokens = lexemesOf ts.tokens)
    {es : List Expr} (hes : program ts = .ok es) : program us = .ok es := by
  have hread := readable_of_program hes
  have hderives := derives_of_program hes
  rw [← h] at hread hderives
  exact (program_eq_ok_iff hread).mpr hderives

theorem program_eq_ok_iff_of_lexemesOf (h : lexemesOf us.tokens = lexemesOf ts.tokens)
    (es : List Expr) : program us = .ok es ↔ program ts = .ok es :=
  ⟨program_eq_ok_of_lexemesOf h.symm, program_eq_ok_of_lexemesOf h⟩

theorem line_eq_ok_iff_of_lexemesOf (h : lexemesOf us.tokens = lexemesOf ts.tokens) (e : Expr) :
    line us = .ok e ↔ line ts = .ok e := by
  rw [line_eq_ok_iff_program, line_eq_ok_iff_program]
  exact program_eq_ok_iff_of_lexemesOf h [e]

end Parser

theorem toOption_eq_of_forall {ε α : Type} {x y : Except ε α} (h : ∀ a, x = .ok a ↔ y = .ok a) :
    x.toOption = y.toOption := by
  cases x with
  | ok a => rw [(h a).mp rfl]
  | error e =>
      cases y with
      | ok b => cases (h b).mpr rfl
      | error e' => rfl

/-- A text that is written anew from the characters of its tokens, with any blanks between and
around them, has tokens of the same classes with the same texts, and is parsed to the same tree, or
not at all if the first is not. -/
theorem tokenize_spaced {source text : String} {ts : TokenList} (h : tokenize source = .ok ts)
    (htext : Spaced (ts.tokens.map (Token.slice source.toList)) text.toList) :
    (∃ us, tokenize text = .ok us ∧ lexemesOf us.tokens = lexemesOf ts.tokens ∧
      us.rows.map (fun r => (r.word, r.text)) = ts.rows.map fun r => (r.word, r.text)) ∧
    (parseLine text).toOption = (parseLine source).toOption ∧
    (parseProgram text).toOption = (parseProgram source).toOption := by
  obtain ⟨us, hus, hlexemes⟩ := Lexer.exists_tokenize_of_spaced h htext
  refine ⟨⟨us, hus, hlexemes, ?_⟩, ?_, ?_⟩
  · have hrows : ∀ vs : TokenList, vs.rows.map (fun r => (r.word, r.text)) =
        (lexemesOf vs.tokens).map (fun l => (l.cls.word, l.text)) ++ [("EOF", "")] := by
      intro vs
      rw [TokenList.rows, lexemesOf, List.map_append, List.map_map, List.map_map]
      rfl
    rw [hrows, hrows, hlexemes]
  · rw [parseLine, parseLine, tokensOf_bind hus, tokensOf_bind h]
    exact toOption_eq_of_forall (Parser.line_eq_ok_iff_of_lexemesOf hlexemes)
  · rw [parseProgram, parseProgram, tokensOf_bind hus, tokensOf_bind h]
    exact toOption_eq_of_forall (Parser.program_eq_ok_iff_of_lexemesOf hlexemes)

/-- A comment is left out, and blanks of all kinds stand between the tokens. -/
theorem tokenize_spaced_comment :
    ∃ ts, tokenize "x<-1.5 # half\n'it''s'" = .ok ts ∧
      Spaced (ts.tokens.map (Token.slice "x<-1.5 # half\n'it''s'".toList))
        " x\t<- 1.5\x0b\n\x0c  'it''s' ".toList ∧
      (∃ us, tokenize " x\t<- 1.5\x0b\n\x0c  'it''s' " = .ok us ∧
        lexemesOf us.tokens = lexemesOf ts.tokens) ∧
      (parseProgram " x\t<- 1.5\x0b\n\x0c  'it''s' ").toOption =
        (parseProgram "x<-1.5 # half\n'it''s'").toOption := by
  have htokens : tokenize "x<-1.5 # half\n'it''s'" = .ok ⟨[⟨.name "x", 0, 1⟩, ⟨.assign, 1, 3⟩,
      ⟨.number ⟨false, ['1'], some ['5'], none⟩, 3, 6⟩, ⟨.separator, 13, 14⟩,
      ⟨.string "it's", 14, 21⟩], 21⟩ := by decide +kernel
  have hquoted : Joined [['\'', 'i', 't', '\'', '\'', 's', '\'']]
      ['\'', 'i', 't', '\'', '\'', 's', '\'', ' '] := @Joined.last _ [' '] (by decide)
  have hjoined : Joined [['x'], ['<', '-'], ['1', '.', '5'], ['\n'],
      ['\'', 'i', 't', '\'', '\'', 's', '\'']] _ :=
    @Joined.cons _ _ ['\t'] _ _ (by decide) (by decide) <|
    @Joined.cons _ _ [' '] _ _ (by decide) (by decide) <|
    @Joined.cons _ _ ['\x0b'] _ _ (by decide) (by decide) <|
    @Joined.cons _ _ ['\x0c', ' ', ' '] _ _ (by decide) (by decide) hquoted
  have hspaced : Spaced _ " x\t<- 1.5\x0b\n\x0c  'it''s' ".toList :=
    ⟨[' '], _, by decide, hjoined, by simp⟩
  obtain ⟨⟨us, hus, hlexemes, -⟩, -, hprogram⟩ := tokenize_spaced htokens hspaced
  exact ⟨_, htokens, hspaced, ⟨us, hus, hlexemes⟩, hprogram⟩

end Glyph
