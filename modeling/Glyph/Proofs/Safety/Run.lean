import Glyph.Proofs.Parser.Completeness
import Glyph.Proofs.Parser.Trees
import Glyph.Proofs.Safety.Operations
import Glyph.Run

/-!
# Parsed programs do not go wrong

Evaluation of an expression that could stand in a source text, in an environment that binds valid
values only, gives a valid value or a fault, and leaves such an environment. Line by line, this is
carried through a whole run: no run of a parsed program ends with a misuse, whether it keeps going
after a failed line or not.
-/

namespace Glyph

open Outcome

/-- From every valid environment the step is safe and leaves a valid environment. -/
def Action.Safe {α : Type} (P : α → Prop) (m : Action α) : Prop :=
  ∀ env : Env, env.Valid → Outcome.Safe P (m env).outcome ∧ (m env).env.Valid

namespace Action

variable {α β : Type} {P : α → Prop} {Q : β → Prop}

theorem safe_pure {a : α} (ha : P a) : Safe P (pure a : Action α) := fun _ henv => ⟨ha, henv⟩

theorem safe_give {o : Outcome α} (ho : Outcome.Safe P o) : Safe P (give o) :=
  fun _ henv => ⟨ho, henv⟩

theorem Safe.bind {m : Action α} {f : α → Action β} (hm : Safe P m)
    (hf : ∀ a, P a → Safe Q (f a)) : Safe Q (m >>= f) := by
  intro env henv
  obtain ⟨hout, hnext⟩ := hm env henv
  cases hs : m env with
  | mk outcome next events =>
      rw [hs] at hout hnext
      match outcome, hout with
      | .ok a, ha =>
          rw [bind_apply_of_ok hs]
          exact hf a ha next hnext
      | .error (.fault e), _ =>
          rw [bind_apply_of_error hs]
          exact ⟨trivial, hnext⟩

theorem safe_lookup (name : String) : Safe Value.Valid (lookup name) := by
  intro env henv
  refine ⟨?_, henv⟩
  rw [lookup, Env.lookup]
  cases hv : env.get? name with
  | none => trivial
  | some v => exact (henv.get? hv).copy

theorem safe_print (v : Value) : Safe (fun _ => True) (print v) := fun _ henv => ⟨trivial, henv⟩

theorem Safe.assign {m : Action Value} {name : String} (hm : Safe Value.Valid m)
    (hname : name ≠ "") : Safe Value.Valid (assign name m) := by
  intro env henv
  -- What the right side leaves in its snapshot is dropped, so only its outcome counts.
  obtain ⟨hout, -⟩ := hm env.snapshot henv.snapshot
  rw [Action.assign]
  match hs : (m env.snapshot).outcome, hout with
  | .error (.fault e), _ => exact ⟨trivial, henv⟩
  | .ok v, hv =>
      have hstore : env.store name v = .ok ⟨Entries.insert name v.copy env.bindings⟩ :=
        Env.store_eq_ok_iff.mpr
          ⟨by simpa using hname, Value.validate_eq_ok_iff.mpr hv, rfl⟩
      simp only [hstore]
      exact ⟨Value.valid_null, henv.insert hv name⟩

theorem safe_monadic (verb : Monadic) {v : Value} (hv : v.Valid) :
    Safe Value.Valid (monadic verb v) := by
  refine (safe_give (Monadic.safe_apply verb hv)).bind fun r hr => ?_
  obtain ⟨value, printed⟩ := r
  cases printed with
  | none => exact safe_pure hr
  | some w => exact (safe_print w).bind fun _ _ => safe_pure hr

end Action

namespace Expr

theorem safe_evalItems {es : List Expr} (h : ∀ e ∈ es, Action.Safe Value.Valid e.eval) :
    Action.Safe (fun vs => ∀ v ∈ vs, v.Valid) (evalItems es) := by
  induction es with
  | nil => exact Action.safe_pure (by simp)
  | cons e es ih =>
      obtain ⟨he, hes⟩ := List.forall_mem_cons.mp h
      rw [evalItems]
      refine he.bind fun v hv => (ih hes).bind fun vs hvs => ?_
      exact Action.safe_pure (List.forall_mem_cons.mpr ⟨hv, hvs⟩)

theorem safe_evalEntries {es : List (String × Expr)}
    (h : ∀ p ∈ es, Action.Safe Value.Valid p.2.eval) :
    Action.Safe (fun vs => ∀ e ∈ vs, Value.ValidEntry e) (evalEntries es) := by
  induction es with
  | nil => exact Action.safe_pure (by simp)
  | cons p es ih =>
      obtain ⟨k, e⟩ := p
      obtain ⟨he, hes⟩ := List.forall_mem_cons.mp h
      rw [evalEntries]
      refine he.bind fun v hv => (ih hes).bind fun vs hvs => ?_
      exact Action.safe_pure (List.forall_mem_cons.mpr ⟨⟨⟨k, rfl⟩, hv⟩, hvs⟩)

theorem safe_literal_int {n : Int} (h : FitsInt64 n) :
    Outcome.Safe Value.Valid (Literal.int n).value := by
  rw [Literal.value, Value.ofInt, int64?, if_pos h]
  exact Value.valid_number _

/-- Evaluation of what could stand in a source text is safe. -/
theorem Sourced.safe_eval {e : Expr} (h : e.Sourced) : Action.Safe Value.Valid e.eval := by
  induction h with
  | int hfit =>
      rw [eval]
      exact Action.safe_give (safe_literal_int hfit)
  | float x =>
      rw [eval]
      exact Action.safe_give (Value.valid_number _)
  | text s =>
      rw [eval]
      exact Action.safe_pure (Value.valid_text s)
  | array h ih =>
      rw [eval]
      exact (safe_evalItems ih).bind fun vs hvs =>
        Action.safe_pure (Value.valid_array_iff.mpr hvs)
  | map h ih =>
      rw [eval]
      refine (safe_evalEntries ih).bind fun es hes => Action.safe_pure ?_
      exact Value.valid_map_iff.mpr
        (Entries.forall_mem_ofPairs (fun k => ∃ name, k = Key.name name) Value.Valid hes)
  | ref x =>
      rw [eval]
      exact Action.safe_lookup x
  | assign hx h ih =>
      rw [eval]
      exact ih.assign hx
  | dyadic v hl hr ihl ihr =>
      rw [eval]
      refine ihl.bind fun a ha => ihr.bind fun b hb => ?_
      exact Action.safe_give (v.safe_apply ha hb)
  | monadic v h ih =>
      rw [eval]
      exact ih.bind fun a ha => Action.safe_monadic v ha
  | operator v o h ih =>
      rw [eval]
      refine ih.bind fun a ha => Action.safe_give ?_
      cases o
      exact safe_reduce v ha

end Expr

/-- All integers in the value fit in 64 bits. -/
def Value.InRange (v : Value) : Prop :=
  ∀ path n, v.at? path = some (.int n) → FitsInt64 n.toInt

theorem Value.inRange (v : Value) : v.InRange :=
  fun _ n _ => ⟨n.le_toInt, n.toInt_lt⟩

namespace Run

/-- The run was not ended by a misuse, and what it leaves is valid. -/
structure Safe (r : Run) : Prop where
  halt : r.halt = none
  value : ∀ l ∈ r.lines, ∀ v, l.result = .ok v → v.Valid
  env : r.env.Valid

theorem Safe.push {r : Run} (h : r.Safe) {l : LineResult} (hl : ∀ v, l.result = .ok v → v.Valid) :
    (r.push l).Safe := ⟨h.halt, List.forall_mem_cons.mpr ⟨hl, h.value⟩, h.env⟩

theorem safe_linesFrom (keepGoing : Bool) (index : Nat) {lines : List Expr} {env : Env}
    (hlines : ∀ e ∈ lines, e.Sourced) (henv : env.Valid) :
    (linesFrom keepGoing index lines env).Safe := by
  -- The environment changes from line to line, and is valid in front of each of them.
  induction lines generalizing index env with
  | nil => exact ⟨rfl, by simp [linesFrom], henv⟩
  | cons e es ih =>
      obtain ⟨he, hes⟩ := List.forall_mem_cons.mp hlines
      obtain ⟨hout, hnext⟩ := he.safe_eval env henv
      rw [linesFrom]
      match hs : (e.eval env).outcome, hout with
      | .ok v, hv =>
          refine (ih (index + 1) hes hnext).push ?_
          rintro _ ⟨⟩
          exact hv
      | .error (.fault f), _ =>
          cases keepGoing with
          | true =>
              refine (ih (index + 1) hes hnext).push ?_
              rintro _ ⟨⟩
          | false => exact ⟨rfl, by simp, hnext⟩

theorem ok_of_push {r : Run} {l : LineResult} (h : (r.push l).ok = true) : r.ok = true :=
  (Bool.and_eq_true_iff.mp h).2

/-- A run that is not ended by a misuse goes through all lines, unless it stops at one that
failed. -/
theorem map_line_linesFrom {keepGoing : Bool} {index : Nat} {lines : List Expr} {env : Env}
    (hhalt : (linesFrom keepGoing index lines env).halt = none)
    (hok : keepGoing = true ∨ (linesFrom keepGoing index lines env).ok = true) :
    (linesFrom keepGoing index lines env).lines.map LineResult.line = lines := by
  induction lines generalizing index env with
  | nil => rfl
  | cons e es ih =>
      rw [linesFrom] at hhalt hok ⊢
      match hs : (e.eval env).outcome with
      | .ok v =>
          simp only [hs] at hhalt hok ⊢
          rw [push, List.map_cons, ih hhalt (hok.imp_right ok_of_push)]
      | .error (.fault f) =>
          cases keepGoing with
          | true =>
              simp only [hs, if_true] at hhalt hok ⊢
              rw [push, List.map_cons, ih hhalt (.inl rfl)]
          | false => simp [hs, ok, LineResult.ok, Except.isOk, Except.toBool] at hok
      | .error (.misuse m) => simp [hs] at hhalt

/-- A program that was parsed runs without a misuse in every environment of valid values, whether it
keeps going or not: all its lines are run, up to the first that fails where it does not keep going;
a line that fails does so with a fault; the values of the others and the values that are bound in
the end are valid, and all integers in them fit in 64 bits. -/
theorem safe_of_parseProgram {source : String} {lines : List Expr}
    (hparse : parseProgram source = .ok lines) {env : Env} (henv : env.Valid) (keepGoing : Bool) :
    (program keepGoing lines env).halt = none ∧
      (keepGoing = true ∨ (program keepGoing lines env).ok = true →
        (program keepGoing lines env).lines.map LineResult.line = lines) ∧
      (∀ l ∈ (program keepGoing lines env).lines, ∀ v, l.result = .ok v → v.Valid ∧ v.InRange) ∧
      ∀ b ∈ (program keepGoing lines env).env.bindings, b.2.Valid ∧ b.2.InRange := by
  have hsafe := safe_linesFrom keepGoing 0 (sourced_of_parseProgram hparse) henv
  refine ⟨hsafe.halt, map_line_linesFrom hsafe.halt, ?_, ?_⟩
  · exact fun l hl v hv => ⟨hsafe.value l hl v hv, v.inRange⟩
  · exact fun b hb => ⟨hsafe.env b hb, b.2.inRange⟩

/-- A program that goes on after its first line has failed. -/
theorem safe_of_parseProgram_shape :
    ∃ lines, parseProgram "⍴5\n7" = .ok lines ∧
      (program true lines ⟨[("y", .int 2)]⟩).halt = none ∧
      (program true lines ⟨[("y", .int 2)]⟩).lines.map LineResult.line = lines := by
  have hlexemes : lexemes? "⍴5\n7" = some [.monadic .shape,
      .number ⟨false, ['5'], none, none⟩, .separator,
      .number ⟨false, ['7'], none, none⟩] := by decide +kernel
  have hfive := (@Derives.integer ⟨false, ['5'], none, none⟩ rfl (by decide)).expression_of_term
  have hseven := (@Derives.integer ⟨false, ['7'], none, none⟩ rfl (by decide)).expression_of_term
  have hlines := Derives.line 0 (.plain (.monadic .shape hfive)) (.lastLine (.plain hseven))
  have hparse : parseProgram "⍴5\n7" =
      .ok [.monadic .shape (.literal (.int 5)), .literal (.int 7)] := by
    refine parseProgram_of_derives hlexemes ?_ (.program 0 0 hlines)
    simp [Readable, Numeral.maxDigits, Decimal.maxDigits]
  have henv : Env.Valid ⟨[("y", .int 2)]⟩ := List.forall_mem_singleton.mpr (Value.valid_number _)
  obtain ⟨hhalt, hall, -⟩ := safe_of_parseProgram hparse henv true
  exact ⟨_, hparse, hhalt, hall (.inl rfl)⟩

end Run

end Glyph
