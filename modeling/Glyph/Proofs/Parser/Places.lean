import Glyph.Proofs.Parser.Cursor
import Glyph.Proofs.Parser.Rejection
import Glyph.Proofs.Token.Tiling

/-!
# The places that the parser reads and reports

Reading by an index comes to the same as parsing, for every source and whatever the limit, as long
as it is large enough: no entry is looked at outside the list, and the entry for the end of the
source is passed only by the last step of reading a line. The errors of the parser are about places
of the source: about a token, about what the lexer could not take, or about the end.
-/

namespace Glyph

/-- The span of an error lies in the source. It is empty only for an error that found the end there,
and any other is that of a token or of what the lexer reports. -/
structure ParseError.PointsInto (source : String) (e : ParseError) : Prop where
  inside : e.start ≤ e.stop ∧ e.stop ≤ source.length
  finish : e.start = e.stop → e.start = source.length ∧ e.found? = some "EOF"
  place : e.start < e.stop →
    (∃ l, tokenize source = .error l ∧ l.start = e.start ∧ l.stop = e.stop) ∨
      ∃ ts, tokenize source = .ok ts ∧ ∃ t ∈ ts.tokens, t.start = e.start ∧ t.stop = e.stop

theorem ParseError.pointsInto_of_span {source : String} {e : ParseError} (hlt : e.start < e.stop)
    (hle : e.stop ≤ source.length)
    (h : (∃ l, tokenize source = .error l ∧ l.start = e.start ∧ l.stop = e.stop) ∨
      ∃ ts, tokenize source = .ok ts ∧ ∃ t ∈ ts.tokens, t.start = e.start ∧ t.stop = e.stop) :
    e.PointsInto source :=
  ⟨⟨Nat.le_of_lt hlt, hle⟩, fun heq => absurd heq (Nat.ne_of_lt hlt), fun _ => h⟩

theorem ParseError.About.pointsInto {source : String} {e : ParseError} (h : e.About source) :
    e.PointsInto source := by
  rw [ParseError.About] at h
  split at h
  · rename_i l hl
    subst h
    obtain ⟨-, hlt, hle, -⟩ := Lexer.exists_tiles_of_scan_error (Lexer.scan_of_tokenize_error hl)
    rw [String.length_toList, Nat.zero_add] at hle
    exact pointsInto_of_span hlt hle (.inl ⟨l, hl, rfl, rfl⟩)
  · rename_i ts hts
    obtain ⟨htiles, hlength⟩ := Lexer.tiles_of_tokenize hts
    cases e with
    | lexical l => exact h.elim
    | token cause t expected =>
        obtain ⟨hlt, hle⟩ := htiles.inside h
        rw [String.length_toList] at hle
        exact pointsInto_of_span hlt hle (.inr ⟨ts, hts, t, h, rfl, rfl⟩)
    | finish stop expected =>
        have hstop : stop = source.length := h.trans hlength
        exact ⟨⟨Nat.le_refl _, Nat.le_of_eq hstop⟩, fun _ => ⟨hstop, rfl⟩,
          fun hlt => absurd hlt (Nat.lt_irrefl _)⟩

theorem Parser.about_of_accounts {α : Type} {source : String} {m : TokenList → Except Rejection α}
    (hm : ∀ ts, Accounts (fun _ => []) ts.length ts.tokens (m ts)) {e : ParseError}
    (h : (tokensOf source >>= m) = .error (.malformed e)) : e.About source := by
  rw [ParseError.About]
  cases hts : tokenize source with
  | error l =>
      rw [tokensOf, hts] at h
      cases h
      rfl
  | ok ts =>
      rw [tokensOf_bind hts] at h
      have haccounts := hm ts
      rw [h] at haccounts
      exact haccounts

namespace Cursor

def behind (us : List Token) : Cursor := ⟨us.length, us.map some⟩

/-- What mirrors a reader of all tokens stays in front of the end of the source. -/
theorem Mirrors.run_start {α : Type} {ts : TokenList} {x : Reader α} {m : Except Rejection α}
    (h : Mirrors ts start (fun _ c => At ts c []) id x m) :
    ∃ us, us <+: ts.tokens ∧ x.run start = (m.mapError Stop.rejected, behind us) := by
  match m, h with
  | .ok a, ⟨_, ⟨us, hts, rfl⟩, hrun⟩ => exact ⟨us, ⟨[], hts.symm⟩, hrun⟩
  | .error r, ⟨_, rest, ⟨us, hts, rfl⟩, hrun⟩ => exact ⟨us, ⟨rest, hts.symm⟩, hrun⟩

end Cursor

/-- The errors of a source that is no line or no program point into it. If it has tokens, then
reading them by their index comes to the same as parsing it, with any limit that is large enough.
Reading a program, or a line that is refused, passes some of the tokens and nothing more; reading a
line that is accepted passes all of them, and at last the end of the source. -/
theorem parse_stays_inside (source : String) :
    (∀ e, parseLine source = .error (.malformed e) → e.PointsInto source) ∧
    (∀ e, parseProgram source = .error (.malformed e) → e.PointsInto source) ∧
    ∀ ts, tokenize source = .ok ts → ∀ limit, 5 * ts.tokens.length + 5 < limit →
      (∃ us, us <+: ts.tokens ∧ (Cursor.program ts limit).run Cursor.start =
        ((parseProgram source).mapError Stop.rejected, Cursor.behind us)) ∧
      match parseLine source with
      | .ok e => (Cursor.line ts limit).run Cursor.start =
          (.ok e, ⟨(Cursor.entries ts).length, Cursor.entries ts⟩)
      | .error r => ∃ us, us <+: ts.tokens ∧
          (Cursor.line ts limit).run Cursor.start = (.error (.rejected r), Cursor.behind us) := by
  refine ⟨fun e he => ?_, fun e he => ?_, fun ts hts limit hlimit => ⟨?_, ?_⟩⟩
  · exact (Parser.about_of_accounts Parser.accounts_line he).pointsInto
  · exact (Parser.about_of_accounts Parser.accounts_program he).pointsInto
  · rw [parseProgram, tokensOf_bind hts]
    exact (Cursor.mirrors_program ts hlimit).run_start
  · have hline := Cursor.mirrors_line ts hlimit
    rw [parseLine, tokensOf_bind hts]
    cases hm : Parser.line ts with
    | ok e =>
        rw [hm] at hline
        obtain ⟨_, rfl, hrun⟩ := hline
        exact hrun
    | error r =>
        rw [hm] at hline
        obtain ⟨_, rest, ⟨us, hts', rfl⟩, hrun⟩ := hline
        exact ⟨us, ⟨rest, hts'.symm⟩, hrun⟩

end Glyph
