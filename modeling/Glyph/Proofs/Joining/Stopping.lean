import Glyph.Proofs.Joining.Program

/-!
# Stopping at a failure and going on after it

A run that stops at the first failure and one that keeps going take the same steps as long as no
line fails. The run that stops is therefore the run that keeps going over the first lines only, up
to and including the one that fails (`linesFrom_false`); the other lines of the run that keeps going
come behind it, in the environment that it left, whatever the failed line had printed or stored.
-/

namespace Glyph.Run

/-- The results up to the first that is a failure, and this one. -/
def uptoFailure (ls : List LineResult) : List LineResult :=
  ls.takeWhile LineResult.ok ++ (ls.dropWhile LineResult.ok).take 1

theorem uptoFailure_cons_of_ok {l : LineResult} (h : l.ok = true) (ls : List LineResult) :
    uptoFailure (l :: ls) = l :: uptoFailure ls := by
  rw [uptoFailure, List.takeWhile_cons_of_pos h, List.dropWhile_cons_of_pos h, uptoFailure,
    List.cons_append]

theorem uptoFailure_cons_of_not_ok {l : LineResult} (h : ¬l.ok = true) (ls : List LineResult) :
    uptoFailure (l :: ls) = [l] := by
  rw [uptoFailure, List.takeWhile_cons_of_neg h, List.dropWhile_cons_of_neg h, List.nil_append,
    List.take_succ_cons, List.take_zero]

theorem all_ok_uptoFailure (ls : List LineResult) :
    (uptoFailure ls).all LineResult.ok = ls.all LineResult.ok := by
  induction ls with
  | nil => rfl
  | cons l ls ih =>
      by_cases h : l.ok = true
      · rw [uptoFailure_cons_of_ok h, List.all_cons, List.all_cons, ih]
      · rw [uptoFailure_cons_of_not_ok h, List.all_cons, List.all_cons, Bool.eq_false_iff.mpr h,
          Bool.false_and, Bool.false_and]

/-- The run that stops is the run that keeps going over the lines that were run, and its results are
those of the run that keeps going over all lines, up to the first failure. -/
theorem linesFrom_false {index : Nat} {lines : List Expr} {env : Env}
    (h : (linesFrom true index lines env).halt = none) :
    let stopped := linesFrom false index lines env
    stopped.halt = none ∧ stopped.lines = uptoFailure (linesFrom true index lines env).lines ∧
      linesFrom true index (lines.take stopped.lines.length) env = stopped := by
  induction lines generalizing index env with
  | nil => exact ⟨rfl, rfl, rfl⟩
  | cons e es ih =>
      -- Both runs evaluate the line in front; only after a fault do they part.
      dsimp only at ih ⊢
      rw [linesFrom] at h
      rw [linesFrom, linesFrom]
      cases hs : (e.eval env).outcome with
      | ok v =>
          simp only [hs] at h ⊢
          obtain ⟨hhalt, hlines, hrun⟩ := ih h
          refine ⟨hhalt, ?_, ?_⟩
          · rw [push, push, uptoFailure_cons_of_ok rfl, hlines]
          · rw [push, List.length_cons, List.take_succ_cons, linesFrom]
            simp only [hs, hrun]
            rfl
      | error failure =>
          cases failure with
          | fault f =>
              simp only [if_true, Bool.false_eq_true, if_false, true_and]
              refine ⟨?_, ?_⟩
              · have hfailed : ¬LineResult.ok ⟨index, e, .error f, (e.eval env).events⟩ = true :=
                  Bool.false_ne_true
                rw [push, uptoFailure_cons_of_not_ok hfailed]
              · rw [List.length_singleton, List.take_succ_cons, List.take_zero, linesFrom,
                  linesFrom]
                simp only [hs, if_true]
                rfl
          | misuse m => simp [hs] at h

theorem map_index_linesFrom (keepGoing : Bool) (index : Nat) (lines : List Expr) (env : Env) :
    (linesFrom keepGoing index lines env).lines.map LineResult.index =
      List.range' index (linesFrom keepGoing index lines env).lines.length := by
  induction lines generalizing index env with
  | nil => rfl
  | cons e es ih =>
      rw [linesFrom]
      cases (e.eval env).outcome with
      | ok v => exact congrArg (index :: ·) (ih (index + 1) _)
      | error failure =>
          cases failure with
          | fault f =>
              cases keepGoing with
              | true => exact congrArg (index :: ·) (ih (index + 1) _)
              | false => rfl
          | misuse m => rfl

theorem map_index_program (keepGoing : Bool) (lines : List Expr) (env : Env) :
    (program keepGoing lines env).lines.map LineResult.index =
      List.range (program keepGoing lines env).lines.length := by
  rw [program, map_index_linesFrom, List.range_eq_range']

theorem toOption_eq_none {l : LineResult} (h : l.ok = false) : l.result.toOption = none := by
  rw [LineResult.ok] at h
  cases hr : l.result with
  | ok v => simp [hr, Except.isOk, Except.toBool] at h
  | error f => rfl

/-- Failures do not count for the last value. -/
theorem filterMap_toOption_eq_nil {ls : List LineResult} (h : ∀ l ∈ ls, l.ok = false) :
    (ls.filterMap fun l => l.result.toOption) = [] :=
  List.filterMap_eq_nil_iff.mpr fun l hl => toOption_eq_none (h l hl)

theorem lastValue_eq_null {r : Run} (h : ∀ l ∈ r.lines, l.ok = false) : r.lastValue = .null := by
  rw [lastValue, filterMap_toOption_eq_nil h]
  rfl

theorem lastValue_eq {r : Run} {before after : List LineResult} {l : LineResult} {v : Value}
    (hlines : r.lines = before ++ l :: after) (hl : l.result = .ok v)
    (hafter : ∀ m ∈ after, m.ok = false) : r.lastValue = v := by
  have hv : l.result.toOption = some v := by rw [hl]; rfl
  rw [lastValue, hlines, List.filterMap_append, List.filterMap_cons, hv,
    filterMap_toOption_eq_nil hafter]
  simp

/-- Where a run that keeps going is not ended by a misuse, the run that stops at the first failure
is not either. It comes to the results of the other up to and including the first failure, and it
leaves the environment in which the other went on: the other is this run with a run over the
remaining lines behind it. So what it prints is the first part of what the other prints, and both or
neither have a failure. Its last value is that of its last line that succeeded, or null if none did;
and the results of both are numbered from zero. -/
theorem stops_at_first_failure {lines : List Expr} {env : Env}
    (h : (program true lines env).halt = none) :
    let going := program true lines env
    let stopped := program false lines env
    let count := stopped.lines.length
    stopped.halt = none ∧
      stopped.lines = going.lines.takeWhile LineResult.ok ++
        (going.lines.dropWhile LineResult.ok).take 1 ∧
      (∃ rest, Event.output going.events = Event.output stopped.events ++ rest) ∧
      program true (lines.take count) env = stopped ∧
      going = stopped.append ((program true (lines.drop count) stopped.env).shift count) ∧
      stopped.ok = going.ok ∧
      (∀ before l after v, stopped.lines = before ++ l :: after → l.result = .ok v →
        (∀ m ∈ after, m.ok = false) → stopped.lastValue = v) ∧
      ((∀ l ∈ stopped.lines, l.ok = false) → stopped.lastValue = .null) ∧
      going.lines.map LineResult.index = List.range going.lines.length ∧
      stopped.lines.map LineResult.index = List.range count := by
  intro going stopped count
  obtain ⟨hhalt, hlines, hrun⟩ :
    stopped.halt = none ∧ stopped.lines = uptoFailure going.lines ∧
      program true (lines.take count) env = stopped := linesFrom_false h
  have hcount : (lines.take count).length = count := by
    have hmap := @map_line_linesFrom true 0 (lines.take count) env
      ((congrArg halt hrun).trans hhalt) (.inl rfl)
    rw [← hmap, List.length_map]
    exact congrArg (fun r => r.lines.length) hrun
  have hgoing : going =
      stopped.append ((program true (lines.drop count) stopped.env).shift count) := by
    have happend := @program_append true (lines.take count) env
      ⟨(congrArg halt hrun).trans hhalt, .inl rfl⟩ (lines.drop count)
    rwa [List.take_append_drop, hrun, hcount] at happend
  refine ⟨hhalt, hlines, ?_, hrun, hgoing, ?_, fun before l after v => lastValue_eq,
    lastValue_eq_null, map_index_program true lines env, map_index_program false lines env⟩
  · rw [hgoing, events_append hhalt, Event.output_append]
    exact ⟨_, rfl⟩
  · rw [ok, ok, hlines, all_ok_uptoFailure]

/-- The line in the middle stores a value and prints another before it fails. -/
theorem stops_at_first_failure_written :
    ∃ lines, parseProgram "print 1\n[(q ← 2), print 3, zz]\nprint q" = .ok lines ∧
      (program true lines Env.empty).halt = none ∧
      (program true lines Env.empty).events =
        [.printed (.int 1), .assigned "q" (.int 2), .printed (.int 3), .printed (.int 2)] ∧
      (program false lines Env.empty).lines = (program true lines Env.empty).lines.take 2 ∧
      program true (lines.take 2) Env.empty = program false lines Env.empty ∧
      (program false lines Env.empty).env = ⟨[("q", .int 2)]⟩ := by
  have hparse : parseProgram "print 1\n[(q ← 2), print 3, zz]\nprint q" =
      .ok [.monadic .print (.literal (.int 1)),
        .array [.assign "q" (.literal (.int 2)), .monadic .print (.literal (.int 3)), .ref "zz"],
        .monadic .print (.ref "q")] := by
    have hlexemes : lexemes? "print 1\n[(q ← 2), print 3, zz]\nprint q" = some [.monadic .print,
        .number ⟨false, ['1'], none, none⟩, .separator, .leftBracket, .leftParen, .name "q",
        .assign, .number ⟨false, ['2'], none, none⟩, .rightParen, .comma, .monadic .print,
        .number ⟨false, ['3'], none, none⟩, .comma, .name "zz", .rightBracket, .separator,
        .monadic .print, .name "q"] := by decide +kernel
    have hone := @Derives.integer ⟨false, ['1'], none, none⟩ rfl (by decide)
    have htwo := @Derives.integer ⟨false, ['2'], none, none⟩ rfl (by decide)
    have hthree := @Derives.integer ⟨false, ['3'], none, none⟩ rfl (by decide)
    have hq := (Derives.assignment "q" htwo.expression_of_term).parens.expression_of_term
    have hrest := Derives.item 0 0 (.monadic .print hthree.expression_of_term)
      (.lastItem (Derives.name "zz").expression_of_term)
    have harray := Derives.array 0 0 (.item 0 0 hq hrest)
    have hlast := Derives.lastLine
      (.plain (.monadic .print (Derives.name "q").expression_of_term))
    have hlines := Derives.line 0 (.plain (.monadic .print hone.expression_of_term))
      (.line 0 (.plain harray.expression_of_term) hlast)
    refine parseProgram_of_derives hlexemes ?_ (.program 0 0 hlines)
    simp [Readable, Numeral.maxDigits, Decimal.maxDigits]
  obtain ⟨-, hlines, -, hrun, -⟩ := @stops_at_first_failure
    [.monadic .print (.literal (.int 1)),
      .array [.assign "q" (.literal (.int 2)), .monadic .print (.literal (.int 3)), .ref "zz"],
      .monadic .print (.ref "q")] Env.empty rfl
  exact ⟨_, hparse, rfl, rfl, hlines, hrun, rfl⟩

end Glyph.Run
