import Glyph.Proofs.Parser.Completeness
import Glyph.Run

/-!
# What a line writes

An assignment may stand in parentheses anywhere in a line. Inside the right side of another one it
acts on a snapshot and leaves no trace; everywhere else it writes to the environment of the line at
once, also if the line fails later on. `Expr.writes` lists the names of these assignments in the
order of evaluation, and `Expr.stores` what those of them that are carried out store. A line that
succeeds stores under all of its names, and one that fails under the first of them, as many as were
evaluated before the failure.

So a line that fails leaves its environment alone if it is an assignment as a whole, or has no
assignment that writes (`Expr.Atomic`). In a program of such lines only those that succeed matter:
without the others, a run that keeps going comes to the same.
-/

namespace Glyph

def Env.bindAll (env : Env) (ws : List (String × Value)) : Env :=
  ws.foldl (fun env w => ⟨Entries.insert w.1 w.2 env.bindings⟩) env

@[simp] theorem Env.bindAll_nil (env : Env) : env.bindAll [] = env := rfl

theorem Env.bindAll_cons (env : Env) (w : String × Value) (ws : List (String × Value)) :
    env.bindAll (w :: ws) = Env.bindAll ⟨Entries.insert w.1 w.2 env.bindings⟩ ws := rfl

theorem Env.bindAll_append (env : Env) (ws zs : List (String × Value)) :
    env.bindAll (ws ++ zs) = (env.bindAll ws).bindAll zs := List.foldl_append

theorem Entries.keys_append {κ ν : Type} (es fs : List (κ × ν)) :
    keys (es ++ fs) = keys es ++ keys fs := List.map_append

/-- What a step stores in each environment, in order. -/
abbrev Log := Env → List (String × Value)

namespace Log

def none : Log := fun _ => []

/-- The log of an assignment: the value of its right side, where there is one and it is accepted. -/
def assign (name : String) (m : Action Value) : Log := fun env =>
  match (m env.snapshot).outcome with
  | .error _ => []
  | .ok v =>
    match env.store name v with
    | .error _ => []
    | .ok _ => [(name, v.copy)]

/-- The log of a step and of the one behind it, which is taken only if the first succeeds. -/
def after {α : Type} (m : Action α) (log next : Log) : Log := fun env =>
  match (m env).outcome with
  | .ok _ => log env ++ next (m env).env
  | .error _ => log env

theorem after_of_ok {α : Type} {m : Action α} {env other : Env} {a : α} {es : List Event}
    (h : m env = ⟨.ok a, other, es⟩) (log next : Log) :
    after m log next env = log env ++ next other := by
  simp only [after, h]

theorem after_of_error {α : Type} {m : Action α} {env other : Env} {e : Failure}
    {es : List Event} (h : m env = ⟨.error e, other, es⟩) (log next : Log) :
    after m log next env = log env := by
  simp only [after, h]

@[simp] theorem after_none {α : Type} (m : Action α) (log : Log) : after m log none = log := by
  funext env
  rw [after]
  cases (m env).outcome with
  | ok a => exact List.append_nil (log env)
  | error e => rfl

end Log

namespace Expr

mutual

/-- The names that an expression assigns outside the right sides of other assignments. -/
def writes : Expr → List String
  | literal _ => []
  | text _ => []
  | array items => itemWrites items
  | map entries => entryWrites entries
  | ref _ => []
  | assign name _ => [name]
  | dyadic _ l r => l.writes ++ r.writes
  | monadic _ r => r.writes
  | operator _ _ r => r.writes
  | block _ => []

def itemWrites : List Expr → List String
  | [] => []
  | e :: es => e.writes ++ itemWrites es

def entryWrites : List (String × Expr) → List String
  | [] => []
  | (_, e) :: es => e.writes ++ entryWrites es

end

mutual

/-- What an expression stores in an environment outside the right sides of other assignments. -/
def stores : Expr → Log
  | literal _ => .none
  | text _ => .none
  | array items => itemStores items
  | map entries => entryStores entries
  | ref _ => .none
  | assign name r => .assign name r.eval
  | dyadic _ l r => .after l.eval l.stores r.stores
  | monadic _ r => r.stores
  | operator _ _ r => r.stores
  | block _ => .none

def itemStores : List Expr → Log
  | [] => .none
  | e :: es => .after e.eval e.stores (itemStores es)

def entryStores : List (String × Expr) → Log
  | [] => .none
  | (_, e) :: es => .after e.eval e.stores (entryStores es)

end

end Expr

/-- The step stores what the log says, under the given names: all of them where it succeeds, and the
first of them where it fails. -/
def Action.Writes {α : Type} (log : Log) (names : List String) (m : Action α) : Prop :=
  ∀ env, (m env).env = env.bindAll (log env) ∧ Entries.keys (log env) <+: names ∧
    ∀ a, (m env).outcome = .ok a → Entries.keys (log env) = names

namespace Action

variable {α β : Type} {log next : Log} {names more : List String}

theorem writes_give (o : Outcome α) : Writes .none [] (give o) :=
  fun _ => ⟨rfl, List.prefix_refl _, fun _ _ => rfl⟩

theorem writes_pure (a : α) : Writes .none [] (pure a : Action α) := writes_give (.ok a)

theorem writes_lookup (name : String) : Writes .none [] (lookup name) :=
  fun _ => ⟨rfl, List.prefix_refl _, fun _ _ => rfl⟩

theorem writes_print (v : Value) : Writes .none [] (print v) :=
  fun _ => ⟨rfl, List.prefix_refl _, fun _ _ => rfl⟩

/-- The names of one step come before those of the next, which is not taken if the first fails. -/
theorem Writes.bind {m : Action α} {f : α → Action β} (hm : Writes log names m)
    (hf : ∀ a, Writes next more (f a)) :
    Writes (.after m log next) (names ++ more) (m >>= f) := by
  intro env
  obtain ⟨henv, hnames, hall⟩ := hm env
  cases hs : m env with
  | mk outcome other events =>
      rw [hs] at henv hall
      cases outcome with
      | error e =>
          rw [bind_apply_of_error hs, Log.after_of_error hs]
          refine ⟨henv, hnames.trans (List.prefix_append names more), ?_⟩
          rintro _ ⟨⟩
      | ok a =>
          obtain ⟨hnext, hmore, hrest⟩ := hf a other
          have hkeys := hall a rfl
          rw [bind_apply_of_ok hs, Log.after_of_ok hs]
          refine ⟨?_, ?_, ?_⟩
          · rw [Env.bindAll_append, ← henv]
            exact hnext
          · rw [Entries.keys_append, hkeys]
            exact (List.prefix_append_right_inj names).mpr hmore
          · intro b hb
            rw [Entries.keys_append, hkeys, hrest b hb]

theorem Writes.bind_pure {m : Action α} (hm : Writes log names m) (f : α → β) :
    Writes log names (m >>= fun a => (pure (f a) : Action β)) := by
  have h := hm.bind fun a => writes_pure (f a)
  rwa [List.append_nil, Log.after_none] at h

theorem Writes.bind_give {m : Action α} (hm : Writes log names m) (f : α → Outcome β) :
    Writes log names (m >>= fun a => give (f a)) := by
  have h := hm.bind fun a => writes_give (f a)
  rwa [List.append_nil, Log.after_none] at h

/-- An assignment binds its own name, and none that its right side binds. -/
theorem writes_assign (name : String) (m : Action Value) :
    Writes (.assign name m) [name] (assign name m) := by
  intro env
  rw [assign, Log.assign]
  cases hs : (m env.snapshot).outcome with
  | error e => exact ⟨rfl, List.nil_prefix, by rintro _ ⟨⟩⟩
  | ok v =>
      cases hstore : env.store name v with
      | error e => exact ⟨by simp [hstore], by simp [hstore], by simp [hstore]⟩
      | ok next =>
          obtain ⟨-, -, rfl⟩ := Env.store_eq_ok_iff.mp hstore
          simp only [hstore]
          exact ⟨rfl, List.prefix_refl _, fun _ _ => rfl⟩

theorem env_assign_of_error {name : String} {m : Action Value} {env : Env} {cause : Failure}
    (h : (assign name m env).outcome = .error cause) : (assign name m env).env = env := by
  rw [assign] at h ⊢
  cases hs : (m env.snapshot).outcome with
  | error e => rfl
  | ok v =>
      cases hstore : env.store name v with
      | error e => simp [hstore]
      | ok next => simp [hs, hstore] at h

theorem writes_monadic (verb : Monadic) (v : Value) : Writes .none [] (monadic verb v) := by
  rw [← Log.after_none (give (verb.apply v)) .none]
  refine (writes_give (verb.apply v)).bind fun r => ?_
  cases r.printed with
  | none => exact writes_pure r.value
  | some w => exact (writes_print w).bind_pure fun _ => r.value

end Action

namespace Expr

mutual

theorem writes_eval (e : Expr) : Action.Writes e.stores e.writes e.eval := by
  match e with
  | literal l => exact Action.writes_give l.value
  | text s => exact Action.writes_pure _
  | array items =>
      rw [writes, stores, eval]
      exact (writes_evalItems items).bind_pure _
  | map entries =>
      rw [writes, stores, eval]
      exact (writes_evalEntries entries).bind_pure _
  | ref name => exact Action.writes_lookup name
  | assign name r => exact Action.writes_assign name r.eval
  | dyadic verb l r =>
      rw [writes, stores, eval]
      exact (writes_eval l).bind fun a => (writes_eval r).bind_give _
  | monadic verb r =>
      rw [writes, stores, eval, ← List.append_nil r.writes, ← Log.after_none r.eval r.stores]
      exact (writes_eval r).bind fun a => Action.writes_monadic verb a
  | operator verb o r =>
      rw [writes, stores, eval]
      exact (writes_eval r).bind_give _
  | block lines => exact Action.writes_give _

theorem writes_evalItems (es : List Expr) :
    Action.Writes (itemStores es) (itemWrites es) (evalItems es) := by
  match es with
  | [] => exact Action.writes_pure []
  | e :: es =>
      rw [itemWrites, itemStores, evalItems]
      exact (writes_eval e).bind fun v => (writes_evalItems es).bind_pure _

theorem writes_evalEntries (es : List (String × Expr)) :
    Action.Writes (entryStores es) (entryWrites es) (evalEntries es) := by
  match es with
  | [] => exact Action.writes_pure []
  | (k, e) :: es =>
      rw [entryWrites, entryStores, evalEntries]
      exact (writes_eval e).bind fun v => (writes_evalEntries es).bind_pure _

end

/-- The expression is an assignment, or assigns no name outside the right side of an assignment. -/
def Atomic (e : Expr) : Prop := e.writes = [] ∨ ∃ name r, e = assign name r

/-- A line of this kind that fails leaves the environment as it was. -/
theorem Atomic.env_eval_of_error {e : Expr} (h : e.Atomic) {env : Env} {cause : Failure}
    (herr : (e.eval env).outcome = .error cause) : (e.eval env).env = env := by
  rcases h with hnone | ⟨name, r, rfl⟩
  · obtain ⟨hstored, hkeys, -⟩ := writes_eval e env
    rw [hnone] at hkeys
    have hnil : e.stores env = [] := List.map_eq_nil_iff.mp (List.prefix_nil.mp hkeys)
    rw [hstored, hnil, Env.bindAll_nil]
  · exact Action.env_assign_of_error herr

end Expr

/-- What came of a line, wherever it stood. -/
def LineResult.content (l : LineResult) : Expr × Except Fault Value × List Event :=
  (l.line, l.result, l.events)

namespace Run

def kept (r : Run) : List LineResult := r.lines.filter LineResult.ok

theorem kept_push_ok (r : Run) (index : Nat) (e : Expr) (v : Value) (es : List Event) :
    (r.push ⟨index, e, .ok v, es⟩).kept = ⟨index, e, .ok v, es⟩ :: r.kept := rfl

theorem kept_push_error (r : Run) (index : Nat) (e : Expr) (f : Fault) (es : List Event) :
    (r.push ⟨index, e, .error f, es⟩).kept = r.kept := rfl

/-- Without the lines that failed, a run of atomic lines comes to the same. -/
theorem linesFrom_kept {lines : List Expr} (h : ∀ e ∈ lines, e.Atomic) {index : Nat} {env : Env}
    (hhalt : (linesFrom true index lines env).halt = none) (start : Nat) :
    let run := linesFrom true index lines env
    let again := linesFrom true start (run.kept.map LineResult.line) env
    again.lines.map LineResult.content = run.kept.map LineResult.content ∧
      again.env = run.env := by
  -- A line that failed handed on the environment that it was given, so leaving it out changes
  -- nothing for the lines behind it.
  induction lines generalizing index env start with
  | nil => exact ⟨rfl, rfl⟩
  | cons e es ih =>
      obtain ⟨he, hes⟩ := List.forall_mem_cons.mp h
      dsimp only at ih ⊢
      rw [linesFrom] at hhalt ⊢
      cases hs : (e.eval env).outcome with
      | ok v =>
          simp only [hs] at hhalt ⊢
          obtain ⟨hlines, henv⟩ := ih hes hhalt (start + 1)
          rw [kept_push_ok, List.map_cons, linesFrom]
          simp only [hs]
          rw [push, List.map_cons, List.map_cons, hlines]
          exact ⟨rfl, henv⟩
      | error cause =>
          have hkeep := he.env_eval_of_error hs
          cases cause with
          | misuse m => simp [hs] at hhalt
          | fault f =>
              simp only [hs, if_true, hkeep] at hhalt ⊢
              rw [kept_push_error]
              exact ih hes hhalt start

/-- In a program of lines that are assignments, or assign no name outside the right side of one, a
line that fails leaves the environment as it was, bindings and order. So where a run of it keeps
going, what later lines see is bound by lines that succeeded: without the lines that failed the run
is the same, line by line and in what it leaves. -/
theorem failed_lines_leave_no_trace {lines : List Expr} (h : ∀ e ∈ lines, e.Atomic) :
    (∀ e ∈ lines, ∀ env cause, (e.eval env).outcome = .error cause → (e.eval env).env = env) ∧
      ∀ env, (program true lines env).halt = none →
        let again := program true ((program true lines env).kept.map LineResult.line) env
        again.lines.map LineResult.content =
            (program true lines env).kept.map LineResult.content ∧
          again.env = (program true lines env).env := by
  refine ⟨fun e he env cause => (h e he).env_eval_of_error, fun env hhalt => ?_⟩
  exact linesFrom_kept h hhalt 0

/-- An array whose first item binds a name before its second item is looked at. -/
theorem derives_binding_array (name : String) :
    Derives [.leftBracket, .leftParen, .name "q", .assign, .number ⟨false, ['1'], none, none⟩,
        .rightParen, .comma, .name name, .rightBracket]
      (.expression (.array [.assign "q" (.literal (.int 1)), .ref name])) := by
  have hone := @Derives.integer ⟨false, ['1'], none, none⟩ rfl (by decide)
  have hbinding := (Derives.assignment "q" hone.expression_of_term).parens.expression_of_term
  have hitems := Derives.item 0 0 hbinding (.lastItem (Derives.name name).expression_of_term)
  exact (Derives.array 0 0 hitems).expression_of_term

/-- The right side of an assignment fails after an assignment in it was carried out. -/
theorem failed_lines_leave_no_trace_nested :
    ∃ lines, parseProgram "x ← [(q ← 1), zz]\n7" = .ok lines ∧
      (program true lines Env.empty).ok = false ∧
        (program true lines Env.empty).env = Env.empty := by
  have hparse : parseProgram "x ← [(q ← 1), zz]\n7" =
      .ok [.assign "x" (.array [.assign "q" (.literal (.int 1)), .ref "zz"]),
        .literal (.int 7)] := by
    have hlexemes : lexemes? "x ← [(q ← 1), zz]\n7" = some [.name "x", .assign, .leftBracket,
        .leftParen, .name "q", .assign, .number ⟨false, ['1'], none, none⟩, .rightParen, .comma,
        .name "zz", .rightBracket, .separator,
        .number ⟨false, ['7'], none, none⟩] := by decide +kernel
    have hseven := @Derives.integer ⟨false, ['7'], none, none⟩ rfl (by decide)
    have hlines := Derives.line 0 (.assignment "x" (derives_binding_array "zz"))
      (.lastLine (.plain hseven.expression_of_term))
    refine parseProgram_of_derives hlexemes ?_ (.program 0 0 hlines)
    simp [Readable, Numeral.maxDigits, Decimal.maxDigits]
  refine ⟨_, hparse, rfl, ?_⟩
  have hatomic := @failed_lines_leave_no_trace
    [.assign "x" (.array [.assign "q" (.literal (.int 1)), .ref "zz"]), .literal (.int 7)]
    (List.forall_mem_cons.mpr ⟨.inr ⟨_, _, rfl⟩, List.forall_mem_singleton.mpr (.inl rfl)⟩)
  obtain ⟨-, henv⟩ := hatomic.2 Env.empty rfl
  exact henv.symm

/-- An item of an array fails after an assignment in an item before it was carried out: the name
stays bound. -/
theorem failed_line_leaves_binding :
    ∃ line, parseLine "[(q ← 1), zz]" = .ok line ∧
      (line.eval Env.empty).outcome = fail (.unbound "zz") ∧
      (line.eval Env.empty).env = ⟨[("q", .int 1)]⟩ := by
  have hparse : parseLine "[(q ← 1), zz]" =
      .ok (.array [.assign "q" (.literal (.int 1)), .ref "zz"]) := by
    have hlexemes : lexemes? "[(q ← 1), zz]" = some [.leftBracket, .leftParen, .name "q", .assign,
        .number ⟨false, ['1'], none, none⟩, .rightParen, .comma, .name "zz",
        .rightBracket] := by decide +kernel
    refine parseLine_of_derives hlexemes ?_
      (.program 0 0 (.lastLine (.plain (derives_binding_array "zz"))))
    simp [Readable, Numeral.maxDigits, Decimal.maxDigits]
  exact ⟨_, hparse, rfl, rfl⟩

end Run

end Glyph
