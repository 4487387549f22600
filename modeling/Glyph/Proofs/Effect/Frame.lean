import Glyph.Env.Command
import Glyph.Proofs.Effect.Writes
import Glyph.Proofs.Value.Native

/-!
# What evaluation leaves alone

Evaluation stores under the names that an expression writes, and does nothing else to the
environment: other names keep their values, no name is lost, the names that were there keep their
places and new ones come behind them. This holds where evaluation fails as well.

An assignment is either carried out or leaves no trace. It is carried out whenever its right side
has a value, because in an environment of valid values everything that evaluation gives is valid and
its own copy (`Expr.gives_eval`), so that it is accepted as it is.
-/

namespace Glyph

open Outcome

namespace Env

/-- What is bound before stays in its place, and what is new comes behind it. -/
theorem names_prefix_bindAll (env : Env) (ws : List (String × Value)) :
    env.names <+: (env.bindAll ws).names := by
  induction ws generalizing env with
  | nil => exact List.prefix_refl _
  | cons w ws ih =>
      obtain ⟨name, v⟩ := w
      refine List.IsPrefix.trans ?_ (ih ⟨Entries.insert name v env.bindings⟩)
      rw [names, names]
      by_cases hmem : name ∈ Entries.keys env.bindings
      · simp [Entries.keys_insert_of_mem hmem]
      · rw [Entries.keys_insert_of_not_mem hmem]
        exact List.prefix_append _ _

theorem get?_bindAll_of_not_mem {name : String} {ws : List (String × Value)}
    (h : name ∉ Entries.keys ws) (env : Env) : (env.bindAll ws).get? name = env.get? name := by
  induction ws generalizing env with
  | nil => rfl
  | cons w ws ih =>
      rw [Entries.keys_cons, List.mem_cons, not_or] at h
      rw [bindAll_cons, ih h.2]
      exact Entries.lookup_insert_of_ne h.1 w.2 env.bindings

end Env

namespace Action

variable {α β : Type} {P : α → Prop} {Q : β → Prop}

/-- In every valid environment the result of the step, if there is one, has the property, and the
environment stays valid. -/
def Gives (P : α → Prop) (m : Action α) : Prop :=
  ∀ env : Env, env.Valid → Outcome.Gives P (m env).outcome ∧ (m env).env.Valid

theorem gives_give {o : Outcome α} (h : Outcome.Gives P o) : Gives P (give o) :=
  fun _ henv => ⟨h, henv⟩

theorem gives_pure {a : α} (h : P a) : Gives P (pure a : Action α) := gives_give (gives_ok h)

theorem Gives.bind {m : Action α} {f : α → Action β} (hm : Gives P m)
    (hf : ∀ a, P a → Gives Q (f a)) : Gives Q (m >>= f) := by
  intro env henv
  obtain ⟨hout, hnext⟩ := hm env henv
  cases hs : m env with
  | mk outcome next events =>
      rw [hs] at hout hnext
      cases outcome with
      | error e =>
          rw [bind_apply_of_error hs]
          exact ⟨gives_error e, hnext⟩
      | ok a =>
          rw [bind_apply_of_ok hs]
          exact hf a (hout a rfl) next hnext

theorem gives_lookup (name : String) : Gives Value.Proper (lookup name) := by
  intro env henv
  refine ⟨?_, henv⟩
  rw [lookup, Env.lookup]
  cases hv : env.get? name with
  | none => exact gives_error _
  | some v => exact gives_ok (henv.get? hv).proper_copy

theorem gives_print (v : Value) : Gives (fun _ => True) (print v) :=
  fun _ henv => ⟨fun _ _ => trivial, henv⟩

theorem gives_assign (name : String) (m : Action Value) : Gives Value.Proper (assign name m) := by
  intro env henv
  rw [assign]
  cases hs : (m env.snapshot).outcome with
  | error e => exact ⟨gives_error e, henv⟩
  | ok v =>
      cases hstore : env.store name v with
      | error e =>
          simp only [hstore]
          exact ⟨gives_error e, henv⟩
      | ok next =>
          obtain ⟨-, hv, rfl⟩ := Env.store_eq_ok_iff.mp hstore
          simp only [hstore]
          exact ⟨gives_ok Value.proper_null, henv.insert (Value.validate_eq_ok_iff.mp hv) name⟩

theorem gives_monadic (verb : Monadic) {v : Value} (hv : v.Valid) :
    Gives Value.Proper (monadic verb v) := by
  have hout : Outcome.Gives (fun r => r.value.Proper) (verb.apply v) := fun r hr =>
    ⟨(Monadic.safe_apply verb hv).gives r hr, Monadic.native_apply verb v r hr⟩
  refine (gives_give hout).bind fun r hr => ?_
  cases r.printed with
  | none => exact gives_pure hr
  | some w => exact (gives_print w).bind fun _ _ => gives_pure hr

end Action

theorem Literal.gives_value (l : Literal) : Gives Value.Proper l.value := by
  cases l with
  | int n => exact gives_bind _ fun x => gives_ok (Value.proper_number x)
  | float x => exact gives_ok (Value.proper_number _)
  | other v => exact gives_error _

namespace Expr

mutual

/-- In an environment of valid values an expression has a proper value, if it has one. -/
theorem gives_eval (e : Expr) : Action.Gives Value.Proper e.eval := by
  match e with
  | literal l =>
      rw [eval]
      exact Action.gives_give l.gives_value
  | text s =>
      rw [eval]
      exact Action.gives_pure ⟨Value.valid_text s, .text s⟩
  | array items =>
      rw [eval]
      exact (gives_evalItems items).bind fun vs hvs => Action.gives_pure (Value.proper_vector hvs)
  | map entries =>
      rw [eval]
      refine (gives_evalEntries entries).bind fun es hes => Action.gives_pure ?_
      exact Value.proper_record
        (Entries.forall_mem_ofPairs (fun k => ∃ name, k = Key.name name) Value.Proper hes)
  | ref name =>
      rw [eval]
      exact Action.gives_lookup name
  | assign name r =>
      rw [eval]
      exact Action.gives_assign name r.eval
  | dyadic verb l r =>
      rw [eval]
      refine (gives_eval l).bind fun a ha => (gives_eval r).bind fun b hb => ?_
      refine Action.gives_give fun v hv => ?_
      exact ⟨(verb.safe_apply ha.valid hb.valid).gives v hv, verb.native_apply a b v hv⟩
  | monadic verb r =>
      rw [eval]
      exact (gives_eval r).bind fun a ha => Action.gives_monadic verb ha.valid
  | operator verb o r =>
      rw [eval]
      refine (gives_eval r).bind fun a ha => Action.gives_give fun v hv => ?_
      cases o
      exact ⟨(safe_reduce verb ha.valid).gives v hv, native_reduce verb a v hv⟩
  | block lines =>
      rw [eval]
      exact Action.gives_give (gives_error _)

theorem gives_evalItems (es : List Expr) :
    Action.Gives (fun vs => ∀ v ∈ vs, v.Proper) (evalItems es) := by
  match es with
  | [] =>
      rw [evalItems]
      exact Action.gives_pure (by simp)
  | e :: es =>
      rw [evalItems]
      refine (gives_eval e).bind fun v hv => (gives_evalItems es).bind fun vs hvs => ?_
      exact Action.gives_pure (List.forall_mem_cons.mpr ⟨hv, hvs⟩)

theorem gives_evalEntries (es : List (String × Expr)) :
    Action.Gives (fun fs => ∀ f ∈ fs, (∃ name, f.1 = Key.name name) ∧ f.2.Proper)
      (evalEntries es) := by
  match es with
  | [] =>
      rw [evalEntries]
      exact Action.gives_pure (by simp)
  | (k, e) :: es =>
      rw [evalEntries]
      refine (gives_eval e).bind fun v hv => (gives_evalEntries es).bind fun fs hfs => ?_
      exact Action.gives_pure (List.forall_mem_cons.mpr ⟨⟨⟨k, rfl⟩, hv⟩, hfs⟩)

end

end Expr

namespace Workspace

theorem printedValues_append (es fs : List Event) :
    printedValues (es ++ fs) = printedValues es ++ printedValues fs := List.filterMap_append

end Workspace

namespace Expr

theorem eval_assign_of_error {name : String} {r : Expr} {env : Env} {cause : Failure}
    (h : (r.eval env.snapshot).outcome = .error cause) :
    (assign name r).eval env = ⟨.error cause, env, (r.eval env.snapshot).events⟩ := by
  rw [eval, Action.assign, h]

/-- The value of the right side is accepted, and stored as it is. -/
theorem eval_assign_of_ok {name : String} {r : Expr} {env : Env} {v : Value} (hname : name ≠ "")
    (henv : env.Valid) (h : (r.eval env.snapshot).outcome = .ok v) :
    (assign name r).eval env = ⟨.ok .null, ⟨Entries.insert name v env.bindings⟩,
      (r.eval env.snapshot).events ++ [.assigned name v]⟩ := by
  have hv : v.Proper := (gives_eval r env.snapshot henv.snapshot).1 v h
  have hstore : env.store name v = .ok ⟨Entries.insert name v.copy env.bindings⟩ :=
    Env.store_eq_ok_iff.mpr ⟨by simpa using hname, Value.validate_eq_ok_iff.mpr hv.valid, rfl⟩
  rw [hv.native.copy_eq] at hstore
  rw [eval, Action.assign, h]
  simp only [hstore]

theorem printedValues_eval_assign (name : String) (r : Expr) (env : Env) :
    Workspace.printedValues ((assign name r).eval env).events =
      Workspace.printedValues (r.eval env.snapshot).events := by
  rw [eval, Action.assign]
  cases (r.eval env.snapshot).outcome with
  | error cause => rfl
  | ok v =>
      cases hstore : env.store name v with
      | error cause => simp only [hstore]
      | ok next =>
          simp only [hstore]
          rw [Workspace.printedValues_append]
          exact List.append_nil _

/-- Evaluation changes nothing but the names that the expression writes, also where it fails: every
other name has the same value as before or is still unbound, and the names that were bound stand
where they stood, in front of those that are new. An assignment as a whole fails as its right side
does in a copy of the environment, and then nothing has changed. Where the right side has a value,
the name is not empty and the environment has valid values only, as all environments do, the
assignment gives null and binds the name to that very value. In either case it prints what its right
side prints. -/
theorem eval_frame (e : Expr) (env : Env) :
    (∀ name ∉ e.writes, (e.eval env).env.get? name = env.get? name) ∧
      env.names <+: (e.eval env).env.names ∧
      ∀ x r, e = assign x r →
        (∀ cause, (r.eval env.snapshot).outcome = .error cause →
          (e.eval env).outcome = .error cause ∧ (e.eval env).env = env) ∧
        (∀ v, x ≠ "" → env.Valid → (r.eval env.snapshot).outcome = .ok v →
          (e.eval env).outcome = .ok .null ∧
            (e.eval env).env = ⟨Entries.insert x v env.bindings⟩) ∧
        Workspace.printedValues (e.eval env).events =
          Workspace.printedValues (r.eval env.snapshot).events := by
  obtain ⟨hstored, hkeys, -⟩ := writes_eval e env
  refine ⟨fun name hname => ?_, ?_, ?_⟩
  · rw [hstored]
    exact Env.get?_bindAll_of_not_mem (fun hmem => hname (hkeys.subset hmem)) env
  · rw [hstored]
    exact env.names_prefix_bindAll _
  · rintro x r rfl
    refine ⟨fun cause hr => ?_, fun v hx henv hr => ?_, printedValues_eval_assign x r env⟩
    · rw [eval_assign_of_error hr]
      exact ⟨rfl, rfl⟩
    · rw [eval_assign_of_ok hx henv hr]
      exact ⟨rfl, rfl⟩

/-- The right side assigns a name of its own and reads another one. -/
theorem eval_frame_nested :
    ∃ line, parseLine "x ← [(q ← 1), y]" = .ok line ∧
      Env.Valid ⟨[("x", .int 0), ("y", .int 5)]⟩ ∧
      (line.eval ⟨[("x", .int 0), ("y", .int 5)]⟩).outcome = .ok .null ∧
      (line.eval ⟨[("x", .int 0), ("y", .int 5)]⟩).env =
        ⟨[("x", .vector [.null, .int 5]), ("y", .int 5)]⟩ ∧
      (line.eval ⟨[("x", .int 0), ("y", .int 5)]⟩).env.get? "q" = none := by
  have hparse : parseLine "x ← [(q ← 1), y]" =
      .ok (assign "x" (array [assign "q" (literal (.int 1)), ref "y"])) := by
    have hlexemes : lexemes? "x ← [(q ← 1), y]" = some [.name "x", .assign, .leftBracket,
        .leftParen, .name "q", .assign, .number ⟨false, ['1'], none, none⟩, .rightParen, .comma,
        .name "y", .rightBracket] := by decide +kernel
    refine parseLine_of_derives hlexemes ?_
      (.program 0 0 (.lastLine (.assignment "x" (Run.derives_binding_array "y"))))
    simp [Readable, Numeral.maxDigits, Decimal.maxDigits]
  have henv : Env.Valid ⟨[("x", .int 0), ("y", .int 5)]⟩ :=
    List.forall_mem_cons.mpr ⟨Value.valid_number _, List.forall_mem_singleton.mpr
      (Value.valid_number _)⟩
  obtain ⟨hother, -, hassign⟩ := eval_frame
    (assign "x" (array [assign "q" (literal (.int 1)), ref "y"]))
    ⟨[("x", .int 0), ("y", .int 5)]⟩
  obtain ⟨-, hdone, -⟩ := hassign _ _ rfl
  obtain ⟨hnull, hbound⟩ := hdone _ (by decide) henv rfl
  exact ⟨_, hparse, henv, hnull, hbound, hother "q" (by decide)⟩

end Expr

end Glyph
