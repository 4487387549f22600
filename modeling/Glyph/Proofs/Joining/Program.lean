import Glyph.Proofs.Joining.Scanning
import Glyph.Proofs.Parser.Rejection
import Glyph.Proofs.Safety.Run

/-!
# Programs one after the other

Two texts with a line end between them are read as the lines of the first and then those of the
second, and running them is running the first and then the second in the environment that the first
left. Three facts carry this. A phrase neither starts nor ends with a separator (`Solid`), so the
separators around a program are not part of its lines and can be changed. The scanner takes the two
texts apart at the line end. And a run over lines in a row is a run over the first of them that goes
on with the others, unless it has stopped (`linesFrom_append`).
-/

namespace Glyph

/-! ## The grammar -/

/-- The lexemes start and end with one that is no separator. -/
structure Solid (ls : List Lexeme) : Prop where
  first : ∃ l ms, ls = l :: ms ∧ l ≠ .separator
  last : ∃ ms l, ls = ms ++ [l] ∧ l ≠ .separator

theorem solid_singleton {l : Lexeme} (h : l ≠ .separator) : Solid [l] :=
  ⟨⟨l, [], rfl, h⟩, [], l, rfl, h⟩

theorem Solid.append {ls ms : List Lexeme} (hls : Solid ls) (hms : Solid ms) (xs : List Lexeme) :
    Solid (ls ++ xs ++ ms) := by
  obtain ⟨l, ls', hl, hne⟩ := hls.first
  obtain ⟨ms', m, hm, hme⟩ := hms.last
  refine ⟨⟨l, ls' ++ xs ++ ms, by rw [hl]; rfl, hne⟩, ls ++ xs ++ ms', m, ?_, hme⟩
  rw [hm, ← List.append_assoc]

theorem Solid.cons {ms : List Lexeme} (h : Solid ms) {l : Lexeme} (hl : l ≠ .separator) :
    Solid (l :: ms) := (solid_singleton hl).append h []

theorem solid_bracketed (l r : Lexeme) (xs : List Lexeme) (hl : l ≠ .separator)
    (hr : r ≠ .separator) : Solid (l :: xs ++ [r]) :=
  (solid_singleton hl).append (solid_singleton hr) xs

def Phrase.isProgram : Phrase → Bool
  | .program _ => true
  | _ => false

/-- A phrase neither starts nor ends with a separator, unless it is a whole program. -/
theorem Derives.solid {ls : List Lexeme} {p : Phrase} (h : Derives ls p)
    (hp : p.isProgram = false) : Solid ls := by
  induction h with
  | integer | decimal | string | name => exact solid_singleton (by simp)
  | parens | emptyArray | emptyMap => exact solid_bracketed _ _ _ (by simp) (by simp)
  | @array ls _ m n =>
      exact solid_bracketed .leftBracket .rightBracket (separators m ++ ls ++ separators n)
        (by simp) (by simp)
  | @map ls _ m n =>
      exact solid_bracketed .leftBrace .rightBrace (separators m ++ ls ++ separators n)
        (by simp) (by simp)
  | lastItem h ih | lastTerm h ih | oneTerm h ih | strand h ih | operand h ih | plain h ih
  | lastLine h ih => exact ih rfl
  | @item ls _ _ _ m n h hs ih ihs =>
      rw [List.append_assoc ls]
      exact (ih rfl).append (ihs rfl) _
  | lastEntry k h ih => exact ((ih rfl).cons (by simp)).cons (by simp)
  | @entry ls _ _ _ k m n h hs ih ihs =>
      have hfirst : Solid (.string k :: .colon :: ls) := ((ih rfl).cons (by simp)).cons (by simp)
      rw [List.append_assoc (.string k :: .colon :: ls)]
      exact hfirst.append (ihs rfl) _
  | @nextTerm ls _ _ _ h hs ih ihs =>
      have happend := (ih rfl).append (ihs rfl) []
      rwa [List.append_nil] at happend
  | reduction v h ih => exact ((ih rfl).cons (by simp)).cons (by simp)
  | monadic v h ih => exact (ih rfl).cons (by simp)
  | dyadic v hl hr ihl ihr =>
      have happend := (ihl rfl).append (ihr rfl) [.dyadic v]
      rwa [List.append_assoc] at happend
  | assignment x h ih => exact ((ih rfl).cons (by simp)).cons (by simp)
  | line n h hs ih ihs => exact (ih rfl).append (ihs rfl) _
  | emptyProgram | program => cases hp

theorem separators_succ (n : Nat) : separators (n + 1) = separators n ++ [.separator] :=
  List.replicate_succ'

theorem separators_add (m n : Nat) : separators (m + n) = separators m ++ separators n :=
  (List.replicate_append_replicate ..).symm

/-- A separator in front of a program is not part of its lines. -/
theorem Derives.program_tail {ls : List Lexeme} {es : List Expr}
    (h : Derives (.separator :: ls) (.program es)) : Derives ls (.program es) := by
  generalize hls : .separator :: ls = xs at h
  cases h with
  | emptyProgram n =>
      cases n with
      | zero => cases hls
      | succ n =>
          cases hls
          exact .emptyProgram n
  | @program ms _ m n h =>
      cases m with
      | zero =>
          obtain ⟨l, ms', rfl, hl⟩ := (h.solid rfl).first
          cases hls
          exact absurd rfl hl
      | succ m =>
          cases hls
          exact .program m n h

/-- A separator at the end of a program is not part of its lines. -/
theorem Derives.program_init {ls : List Lexeme} {es : List Expr}
    (h : Derives (ls ++ [.separator]) (.program es)) : Derives ls (.program es) := by
  generalize hls : ls ++ [.separator] = xs at h
  cases h with
  | emptyProgram n =>
      cases n with
      | zero => simp [separators] at hls
      | succ n =>
          rw [separators_succ] at hls
          rw [List.append_cancel_right hls]
          exact .emptyProgram n
  | @program ms _ m n h =>
      cases n with
      | zero =>
          obtain ⟨ms', l, rfl, hl⟩ := (h.solid rfl).last
          rw [← List.append_assoc, separators, separators, List.replicate_zero,
            List.append_nil] at hls
          exact absurd (List.singleton_inj.mp (List.append_inj' hls rfl).2).symm hl
      | succ n =>
          rw [separators_succ, ← List.append_assoc] at hls
          rw [List.append_cancel_right hls]
          exact .program m n h

theorem Derives.program_of_separators_append {ls : List Lexeme} {es : List Expr} {n : Nat}
    (h : Derives (separators n ++ ls) (.program es)) : Derives ls (.program es) := by
  induction n with
  | zero => exact h
  | succ n ih => exact ih h.program_tail

theorem Derives.program_of_append_separators {ls : List Lexeme} {es : List Expr} {n : Nat}
    (h : Derives (ls ++ separators n) (.program es)) : Derives ls (.program es) := by
  induction n with
  | zero => rwa [separators, List.replicate_zero, List.append_nil] at h
  | succ n ih =>
      rw [separators_succ, ← List.append_assoc] at h
      exact ih h.program_init

theorem Derives.lines_append {ls ms : List Lexeme} {es fs : List Expr}
    (hls : Derives ls (.lines es)) (hms : Derives ms (.lines fs)) (n : Nat) :
    Derives (ls ++ separators (n + 1) ++ ms) (.lines (es ++ fs)) := by
  induction es generalizing ls with
  | nil => exact absurd rfl hls.lines_ne_nil
  | cons e es ih =>
      cases hls with
      | lastLine h => exact .line n h hms
      | @line xs ys _ _ k h hs =>
          have hrest := Derives.line k h (ih hs)
          simpa only [List.append_assoc, List.cons_append] using hrest

/-- One program, a separator and another program make a program. -/
theorem Derives.program_append {ls ms : List Lexeme} {es fs : List Expr}
    (hls : Derives ls (.program es)) (hms : Derives ms (.program fs)) :
    Derives (ls ++ .separator :: ms) (.program (es ++ fs)) := by
  cases hls with
  | emptyProgram n =>
      cases hms with
      | emptyProgram m =>
          have hall := Derives.emptyProgram (n + (m + 1))
          rwa [separators_add] at hall
      | @program xs _ i j hx =>
          have hall := Derives.program (n + (i + 1)) j hx
          rw [separators_add] at hall
          simp only [List.append_assoc] at hall ⊢
          exact hall
  | @program xs _ i j hx =>
      cases hms with
      | emptyProgram m =>
          have hall := Derives.program i (j + (m + 1)) hx
          rwa [separators_add, ← List.append_assoc, ← List.append_nil es] at hall
      | @program ys _ k l hy =>
          have hall := Derives.program i l (hx.lines_append hy (j + k))
          rw [Nat.add_assoc, separators_add] at hall
          simp only [List.append_assoc] at hall ⊢
          exact hall

/-! ## Reading -/

theorem Readable.append_cons {ls ms : List Lexeme} (hls : Readable ls) (hms : Readable ms)
    {l : Lexeme} (hl : ∀ n, l ≠ .number n) : Readable (ls ++ l :: ms) := by
  intro n hn
  rcases List.mem_append.mp hn with hn | hn
  · exact hls n hn
  · exact hms n ((List.mem_cons.mp hn).resolve_left fun heq => hl n heq.symm)

/-- Two texts that are programs make one with the lines of both. -/
theorem parseProgram_append_newline {a b : String} {es fs : List Expr}
    (ha : parseProgram a = .ok es) (hb : parseProgram b = .ok fs) :
    parseProgram (a ++ "\n" ++ b) = .ok (es ++ fs) := by
  obtain ⟨ts, hts, hes⟩ := exists_tokenize_of_parseProgram ha
  obtain ⟨us, hus, hfs⟩ := exists_tokenize_of_parseProgram hb
  obtain ⟨ts, hscana, rfl⟩ := tokenize_eq_ok_iff.mp hts
  obtain ⟨us, hscanb, rfl⟩ := tokenize_eq_ok_iff.mp hus
  obtain ⟨vs, ls, ms, m, n, hvs, hls, hms, hwhole⟩ := Lexer.exists_scan_append_newline hscana hscanb
  have hreada : Readable (ls ++ separators m) := hls ▸ Parser.readable_of_program hes
  have hreadb : Readable (separators n ++ ms) := hms ▸ Parser.readable_of_program hfs
  have hderivea : Derives (ls ++ separators m) (.program es) := hls ▸ Parser.derives_of_program hes
  have hderiveb : Derives (separators n ++ ms) (.program fs) := hms ▸ Parser.derives_of_program hfs
  have hderive := hderivea.program_of_append_separators.program_append
    hderiveb.program_of_separators_append
  have htokens : tokenize (a ++ "\n" ++ b) = .ok ⟨vs, (a ++ "\n" ++ b).length⟩ := by
    refine tokenize_eq_ok_iff.mpr ⟨vs, ?_, rfl⟩
    rw [String.toList_append, String.toList_append, List.append_assoc]
    exact hvs
  refine parseProgram_of_derives (lexemes?_eq_some_iff.mpr ⟨_, htokens, hwhole⟩) ?_ hderive
  exact hreada.left.append_cons hreadb.right (by simp)

/-! ## Running -/

theorem Event.output_append (es fs : List Event) :
    Event.output (es ++ fs) = Event.output es ++ Event.output fs := by
  rw [Event.output, List.map_append, String.join_append]
  rfl

namespace Run

def append (r s : Run) : Run := ⟨r.lines ++ s.lines, s.env, s.halt⟩

/-- The same run with its lines numbered further on. -/
def shift (n : Nat) (r : Run) : Run :=
  ⟨r.lines.map fun l => { l with index := n + l.index }, r.env, r.halt⟩

theorem events_shift (n : Nat) (r : Run) : (r.shift n).events = r.events := by
  simp [events, shift, List.flatMap_map]

theorem events_append {r : Run} (h : r.halt = none) (s : Run) :
    (r.append s).events = r.events ++ s.events := by
  simp [events, append, h]

theorem linesFrom_add (keepGoing : Bool) (n index : Nat) (es : List Expr) (env : Env) :
    linesFrom keepGoing (n + index) es env = (linesFrom keepGoing index es env).shift n := by
  induction es generalizing index env with
  | nil => rfl
  | cons e es ih =>
      rw [linesFrom, linesFrom]
      cases (e.eval env).outcome with
      | ok v =>
          simp only
          rw [Nat.add_assoc, ih]
          rfl
      | error failure =>
          cases failure with
          | fault f =>
              cases keepGoing with
              | true =>
                  simp only [if_true]
                  rw [Nat.add_assoc, ih]
                  rfl
              | false => rfl
          | misuse m => rfl

/-- Whether the run would go on with further lines: no misuse has ended it, and no failure where it
does not keep going. -/
def GoesOn (keepGoing : Bool) (r : Run) : Prop :=
  r.halt = none ∧ (keepGoing = true ∨ r.ok = true)

theorem goesOn_push_ok {keepGoing : Bool} {r : Run} {index : Nat} {e : Expr} {v : Value}
    {events : List Event} :
    (r.push ⟨index, e, .ok v, events⟩).GoesOn keepGoing ↔ r.GoesOn keepGoing := Iff.rfl

theorem goesOn_push_true {r : Run} {l : LineResult} : (r.push l).GoesOn true ↔ r.GoesOn true := by
  simp [GoesOn, push]

/-- A run over lines in a row goes on where the run over the first of them would. -/
theorem linesFrom_append (keepGoing : Bool) (index : Nat) (es fs : List Expr) (env : Env) :
    let first := linesFrom keepGoing index es env
    (first.GoesOn keepGoing → linesFrom keepGoing index (es ++ fs) env =
        first.append (linesFrom keepGoing (index + es.length) fs first.env)) ∧
      (¬first.GoesOn keepGoing → linesFrom keepGoing index (es ++ fs) env = first) := by
  induction es generalizing index env with
  | nil =>
      refine ⟨fun _ => rfl, fun hstop => ?_⟩
      exact absurd ⟨rfl, .inr rfl⟩ hstop
  | cons e es ih =>
      -- The line in front is pushed on both sides, so all depends on whether the rest goes on.
      dsimp only at ih ⊢
      rw [List.cons_append, linesFrom, linesFrom, List.length_cons, ← Nat.add_assoc,
        Nat.add_right_comm]
      cases (e.eval env).outcome with
      | ok v =>
          obtain ⟨hgo, hstop⟩ := ih (index + 1) (e.eval env).env
          refine ⟨fun h => ?_, fun h => ?_⟩
          · exact congrArg (push _) (hgo (goesOn_push_ok.mp h))
          · exact congrArg (push _) (hstop fun hrest => h (goesOn_push_ok.mpr hrest))
      | error failure =>
          cases failure with
          | fault f =>
              cases keepGoing with
              | true =>
                  obtain ⟨hgo, hstop⟩ := ih (index + 1) (e.eval env).env
                  refine ⟨fun h => ?_, fun h => ?_⟩
                  · exact congrArg (push _) (hgo (goesOn_push_true.mp h))
                  · exact congrArg (push _) (hstop fun hrest => h (goesOn_push_true.mpr hrest))
              | false =>
                  refine ⟨fun h => ?_, fun _ => rfl⟩
                  rcases h.2 with h | h <;> cases h
          | misuse m =>
              refine ⟨fun h => ?_, fun _ => rfl⟩
              cases h.1

theorem program_append {keepGoing : Bool} {es : List Expr} {env : Env}
    (h : (program keepGoing es env).GoesOn keepGoing) (fs : List Expr) :
    program keepGoing (es ++ fs) env = (program keepGoing es env).append
      ((program keepGoing fs (program keepGoing es env).env).shift es.length) := by
  have hwhole := (linesFrom_append keepGoing 0 es fs env).1 h
  rwa [Nat.add_comm, linesFrom_add] at hwhole

/-- Two texts that are programs, with a line end between them, are a program with the lines of the
first and then those of the second. It runs like the first and then, in the environment that the
first left, the second, whose lines are numbered further on: line by line, in what it leaves and in
what it prints. If the first fails and the run does not keep going, or if a misuse ends it, the
second is not run at all; in an environment of valid values no misuse does. -/
theorem program_append_newline {a b : String} {es fs : List Expr}
    (ha : parseProgram a = .ok es) (hb : parseProgram b = .ok fs) :
    parseProgram (a ++ "\n" ++ b) = .ok (es ++ fs) ∧
      ∀ keepGoing env,
        let first := program keepGoing es env
        let second := program keepGoing fs first.env
        let whole := program keepGoing (es ++ fs) env
        (first.halt = none ∧ (keepGoing = true ∨ first.ok = true) →
          whole.lines =
              first.lines ++ second.lines.map (fun l => { l with index := es.length + l.index }) ∧
            whole.env = second.env ∧ whole.halt = second.halt ∧
            Event.output whole.events = Event.output first.events ++ Event.output second.events) ∧
        (¬(first.halt = none ∧ (keepGoing = true ∨ first.ok = true)) → whole = first) ∧
        (env.Valid → first.halt = none ∧ second.halt = none) := by
  refine ⟨parseProgram_append_newline ha hb, fun keepGoing env => ?_⟩
  refine ⟨fun h => ?_, (linesFrom_append keepGoing 0 es fs env).2, fun henv => ?_⟩
  · rw [program_append h fs, events_append h.1, events_shift, Event.output_append]
    exact ⟨rfl, rfl, rfl, rfl⟩
  · have hfirst := safe_linesFrom keepGoing 0 (sourced_of_parseProgram ha) henv
    exact ⟨hfirst.halt, (safe_linesFrom keepGoing 0 (sourced_of_parseProgram hb) hfirst.env).halt⟩

/-- The first text fails in its last line and ends in a comment; the second one starts with
separators of its own and uses what the first has bound. -/
theorem program_append_newline_comment :
    ∃ es fs, parseProgram "x ← 2 ⋄ y # z" = .ok es ∧ parseProgram "\n⋄ x" = .ok fs ∧
      parseProgram ("x ← 2 ⋄ y # z" ++ "\n" ++ "\n⋄ x") = .ok (es ++ fs) ∧
      (program true es Env.empty).ok = false ∧
      (program true (es ++ fs) Env.empty).lines = (program true es Env.empty).lines ++
        (program true fs (program true es Env.empty).env).lines.map
          (fun l => { l with index := 2 + l.index }) := by
  obtain ⟨ha, hb⟩ : parseProgram "x ← 2 ⋄ y # z" =
        .ok [.assign "x" (.literal (.int 2)), .ref "y"] ∧
      parseProgram "\n⋄ x" = .ok [.ref "x"] := by
    have hlexemes : lexemes? "x ← 2 ⋄ y # z" = some [.name "x", .assign,
        .number ⟨false, ['2'], none, none⟩, .separator, .name "y"] := by decide +kernel
    have hlexemes' : lexemes? "\n⋄ x" = some [.separator, .name "x"] := by decide +kernel
    have htwo := @Derives.integer ⟨false, ['2'], none, none⟩ rfl (by decide)
    have hlines := Derives.line 0 (.assignment "x" htwo.expression_of_term)
      (.lastLine (.plain (Derives.name "y").expression_of_term))
    have hlast := Derives.lastLine (.plain (Derives.name "x").expression_of_term)
    constructor
    · refine parseProgram_of_derives hlexemes ?_ (.program 0 0 hlines)
      simp [Readable, Numeral.maxDigits, Decimal.maxDigits]
    · exact parseProgram_of_derives hlexemes' (by simp [Readable]) (.program 1 0 hlast)
  have henv : Env.empty.Valid := fun b hb => absurd hb List.not_mem_nil
  obtain ⟨hparse, hrun⟩ := program_append_newline ha hb
  obtain ⟨hgo, -, hvalid⟩ := hrun true Env.empty
  exact ⟨_, _, ha, hb, hparse, rfl, (hgo ⟨(hvalid henv).1, .inl rfl⟩).1⟩

end Run

end Glyph
