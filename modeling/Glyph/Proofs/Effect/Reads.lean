import Glyph.Proofs.Effect.Frame

/-!
# What a line depends on

Evaluation looks at an environment through the variables of the expression only. In two environments
that agree on these, it takes the same steps: it comes to the same value or failure, prints the same
and stores the same under the same names, so that the environments still agree afterwards.

The step lemma is `Reads.bind`. Both runs have stored the same when the second step starts, and
storing the same in two environments keeps what they agree on (`Env.Agree.bindAll`). An assignment
hands a snapshot to its right side, and snapshots of environments that agree do so as well.
-/

namespace Glyph

/-- The environments bind each of the names to the same value, or both do not bind it. -/
def Env.Agree (names : List String) (env other : Env) : Prop :=
  ∀ name ∈ names, env.get? name = other.get? name

namespace Env

theorem Agree.left {names more : List String} {env other : Env}
    (h : Agree (names ++ more) env other) : Agree names env other :=
  fun name hname => h name (List.mem_append_left more hname)

theorem Agree.right {names more : List String} {env other : Env}
    (h : Agree (names ++ more) env other) : Agree more env other :=
  fun name hname => h name (List.mem_append_right names hname)

theorem get?_snapshot (env : Env) (name : String) :
    env.snapshot.get? name = (env.get? name).map Value.copy := by
  obtain ⟨bindings⟩ := env
  rw [snapshot, get?, get?]
  induction bindings with
  | nil => rfl
  | cons b bs ih =>
      obtain ⟨other, v⟩ := b
      rw [List.map_cons, List.lookup_cons, List.lookup_cons]
      cases name == other with
      | true => rfl
      | false => exact ih

theorem Agree.snapshot {names : List String} {env other : Env} (h : Agree names env other) :
    Agree names env.snapshot other.snapshot := by
  intro name hname
  rw [get?_snapshot, get?_snapshot, h name hname]

/-- What a name that was stored under is bound to does not depend on what was bound before. -/
theorem exists_get?_bindAll {name : String} {ws : List (String × Value)}
    (h : name ∈ Entries.keys ws) : ∃ v, ∀ env : Env, (env.bindAll ws).get? name = some v := by
  induction ws with
  | nil => cases h
  | cons w ws ih =>
      by_cases hlater : name ∈ Entries.keys ws
      · obtain ⟨v, hv⟩ := ih hlater
        exact ⟨v, fun env => hv _⟩
      · obtain rfl : name = w.1 := (List.mem_cons.mp h).resolve_right hlater
        refine ⟨w.2, fun env => ?_⟩
        rw [bindAll_cons, get?_bindAll_of_not_mem hlater]
        exact Entries.lookup_insert_self w.1 w.2 env.bindings

theorem Agree.bindAll {names : List String} {env other : Env} (h : Agree names env other)
    (ws : List (String × Value)) : Agree names (env.bindAll ws) (other.bindAll ws) := by
  intro name hname
  by_cases hmem : name ∈ Entries.keys ws
  · obtain ⟨v, hv⟩ := exists_get?_bindAll hmem
    rw [hv env, hv other]
  · rw [get?_bindAll_of_not_mem hmem, get?_bindAll_of_not_mem hmem, h name hname]

end Env

namespace Expr

mutual

def mentions : Expr → List String
  | literal _ => []
  | text _ => []
  | array items => itemMentions items
  | map entries => entryMentions entries
  | ref name => [name]
  | assign _ r => r.mentions
  | dyadic _ l r => l.mentions ++ r.mentions
  | monadic _ r => r.mentions
  | operator _ _ r => r.mentions
  | block lines => itemMentions lines

def itemMentions : List Expr → List String
  | [] => []
  | e :: es => e.mentions ++ itemMentions es

def entryMentions : List (String × Expr) → List String
  | [] => []
  | (_, e) :: es => e.mentions ++ entryMentions es

end

end Expr

/-- In environments that agree on the names, the step comes to the same, with the same events, and
stores the same. -/
def Action.Reads {α : Type} (names : List String) (log : Log) (m : Action α) : Prop :=
  ∀ env other, Env.Agree names env other →
    (m env).outcome = (m other).outcome ∧ (m env).events = (m other).events ∧ log env = log other

namespace Action

variable {α β : Type} {log next : Log} {names more written : List String}

theorem reads_give (names : List String) (o : Outcome α) : Reads names .none (give o) :=
  fun _ _ _ => ⟨rfl, rfl, rfl⟩

theorem reads_pure (names : List String) (a : α) : Reads names .none (pure a : Action α) :=
  reads_give names (.ok a)

theorem reads_print (names : List String) (v : Value) : Reads names .none (print v) :=
  fun _ _ _ => ⟨rfl, rfl, rfl⟩

theorem reads_lookup (name : String) : Reads [name] .none (lookup name) := by
  intro env other h
  refine ⟨?_, rfl, rfl⟩
  rw [lookup, lookup, Env.lookup, Env.lookup, h name (List.mem_singleton_self name)]

theorem Reads.bind {m : Action α} {f : α → Action β} (hm : Reads names log m)
    (hw : Writes log written m) (hf : ∀ a, Reads more next (f a)) :
    Reads (names ++ more) (.after m log next) (m >>= f) := by
  intro env other h
  obtain ⟨hout, hevents, hlog⟩ := hm env other h.left
  -- The second step starts in what the same writes have made of the two environments.
  have hnext : Env.Agree more (m env).env (m other).env := by
    rw [(hw env).1, (hw other).1, hlog]
    exact h.right.bindAll _
  cases hs : m env with
  | mk outcome env' events =>
      cases ht : m other with
      | mk outcome' other' events' =>
          rw [hs, ht] at hout hevents hnext
          obtain rfl : outcome = outcome' := hout
          obtain rfl : events = events' := hevents
          cases outcome with
          | error e =>
              rw [bind_apply_of_error hs, bind_apply_of_error ht, Log.after_of_error hs,
                Log.after_of_error ht, hlog]
              exact ⟨rfl, rfl, rfl⟩
          | ok a =>
              obtain ⟨hout, hevents, hlog'⟩ := hf a env' other' hnext
              rw [bind_apply_of_ok hs, bind_apply_of_ok ht, Log.after_of_ok hs,
                Log.after_of_ok ht, hlog, hlog', hout, hevents]
              exact ⟨rfl, rfl, rfl⟩

/-- A step behind which nothing more is read or stored. -/
theorem Reads.bind_silent {m : Action α} {f : α → Action β} (hm : Reads names log m)
    (hw : Writes log written m) (hf : ∀ a, Reads [] .none (f a)) : Reads names log (m >>= f) := by
  have h := hm.bind hw hf
  rwa [List.append_nil, Log.after_none] at h

theorem Reads.assign {m : Action Value} (hm : Reads names log m) (name : String) :
    Reads names (.assign name m) (assign name m) := by
  intro env other h
  obtain ⟨hout, hevents, -⟩ := hm env.snapshot other.snapshot h.snapshot
  rw [Action.assign, Action.assign, Log.assign, Log.assign, hout, hevents]
  cases (m other.snapshot).outcome with
  | error e => exact ⟨rfl, rfl, rfl⟩
  | ok v =>
      obtain ⟨e, hstore⟩ | hstore := Env.store_uniform name v
      · simp only [hstore, and_self]
      · simp only [hstore, and_self]

theorem reads_monadic (verb : Monadic) (v : Value) : Reads [] .none (monadic verb v) := by
  refine (reads_give [] (verb.apply v)).bind_silent (writes_give _) fun r => ?_
  cases r.printed with
  | none => exact reads_pure [] r.value
  | some w => exact (reads_print [] w).bind_silent (writes_print w) fun _ => reads_pure [] r.value

end Action

namespace Expr

mutual

/-- Evaluation depends on the variables of the expression only. -/
theorem reads_eval (e : Expr) : Action.Reads e.mentions e.stores e.eval := by
  match e with
  | literal l => exact Action.reads_give [] l.value
  | text s => exact Action.reads_pure [] _
  | array items =>
      rw [mentions, stores, eval]
      exact (reads_evalItems items).bind_silent (writes_evalItems items)
        fun _ => Action.reads_pure [] _
  | map entries =>
      rw [mentions, stores, eval]
      exact (reads_evalEntries entries).bind_silent (writes_evalEntries entries)
        fun _ => Action.reads_pure [] _
  | ref name => exact Action.reads_lookup name
  | assign name r => exact (reads_eval r).assign name
  | dyadic verb l r =>
      rw [mentions, stores, eval]
      exact (reads_eval l).bind (writes_eval l) fun a =>
        (reads_eval r).bind_silent (writes_eval r) fun b => Action.reads_give [] _
  | monadic verb r =>
      rw [mentions, stores, eval]
      exact (reads_eval r).bind_silent (writes_eval r) fun a => Action.reads_monadic verb a
  | operator verb o r =>
      rw [mentions, stores, eval]
      exact (reads_eval r).bind_silent (writes_eval r) fun a => Action.reads_give [] _
  | block lines => exact Action.reads_give _ _

theorem reads_evalItems (es : List Expr) :
    Action.Reads (itemMentions es) (itemStores es) (evalItems es) := by
  match es with
  | [] => exact Action.reads_pure [] _
  | e :: es =>
      rw [itemMentions, itemStores, evalItems]
      exact (reads_eval e).bind (writes_eval e) fun v =>
        (reads_evalItems es).bind_silent (writes_evalItems es) fun _ => Action.reads_pure [] _

theorem reads_evalEntries (es : List (String × Expr)) :
    Action.Reads (entryMentions es) (entryStores es) (evalEntries es) := by
  match es with
  | [] => exact Action.reads_pure [] _
  | (k, e) :: es =>
      rw [entryMentions, entryStores, evalEntries]
      exact (reads_eval e).bind (writes_eval e) fun v =>
        (reads_evalEntries es).bind_silent (writes_evalEntries es) fun _ => Action.reads_pure [] _

end

/-- In two environments that agree on the variables of an expression, evaluation comes to the same
value or fails in the same way. It prints and assigns the same in the same order, and stores the
same in both: the environments still agree on the variables, and every name is either one that both
runs have stored under, with the same value, or one that neither of them has touched. -/
theorem eval_eq_of_agree {e : Expr} {env other : Env}
    (h : ∀ name ∈ e.mentions, env.get? name = other.get? name) :
    (e.eval env).outcome = (e.eval other).outcome ∧
      (e.eval env).events = (e.eval other).events ∧
      (∀ name ∈ e.mentions, (e.eval env).env.get? name = (e.eval other).env.get? name) ∧
      e.stores env = e.stores other ∧
      ∀ name,
        (name ∈ Entries.keys (e.stores env) ∧ ∃ v, (e.eval env).env.get? name = some v ∧
          (e.eval other).env.get? name = some v) ∨
        (name ∉ Entries.keys (e.stores env) ∧ (e.eval env).env.get? name = env.get? name ∧
          (e.eval other).env.get? name = other.get? name) := by
  obtain ⟨hout, hevents, hlog⟩ := reads_eval e env other h
  rw [(writes_eval e env).1, (writes_eval e other).1, ← hlog]
  refine ⟨hout, hevents, Env.Agree.bindAll h _, rfl, fun name => ?_⟩
  by_cases hmem : name ∈ Entries.keys (e.stores env)
  · obtain ⟨v, hv⟩ := Env.exists_get?_bindAll hmem
    exact .inl ⟨hmem, v, hv env, hv other⟩
  · exact .inr ⟨hmem, Env.get?_bindAll_of_not_mem hmem env, Env.get?_bindAll_of_not_mem hmem other⟩

/-- The line stores under a name between two uses of another one, and fails at the end; the two
environments differ in the order of their names and in a name that does not occur in the line. -/
theorem eval_eq_of_agree_reordered :
    ∃ line, parseLine "[print x, (y ← x), (z ← (x ← 3)), w]" = .ok line ∧
      (line.eval ⟨[("x", .int 1), ("u", .int 2)]⟩).outcome =
        (line.eval ⟨[("u", .int 5), ("x", .int 1)]⟩).outcome ∧
      (line.eval ⟨[("x", .int 1), ("u", .int 2)]⟩).events =
        (line.eval ⟨[("u", .int 5), ("x", .int 1)]⟩).events ∧
      line.stores ⟨[("u", .int 5), ("x", .int 1)]⟩ = [("y", .int 1), ("z", .null)] := by
  have hparse : parseLine "[print x, (y ← x), (z ← (x ← 3)), w]" =
      .ok (array [monadic .print (ref "x"), assign "y" (ref "x"),
        assign "z" (assign "x" (literal (.int 3))), ref "w"]) := by
    have hlexemes : lexemes? "[print x, (y ← x), (z ← (x ← 3)), w]" = some [.leftBracket,
        .monadic .print, .name "x", .comma, .leftParen, .name "y", .assign, .name "x", .rightParen,
        .comma, .leftParen, .name "z", .assign, .leftParen, .name "x", .assign,
        .number ⟨false, ['3'], none, none⟩, .rightParen, .rightParen, .comma, .name "w",
        .rightBracket] := by decide +kernel
    have hx := (Derives.name "x").expression_of_term
    have hy := (Derives.assignment "y" hx).parens.expression_of_term
    have hthree := @Derives.integer ⟨false, ['3'], none, none⟩ rfl (by decide)
    have hinner := (Derives.assignment "x" hthree.expression_of_term).parens.expression_of_term
    have hz := (Derives.assignment "z" hinner).parens.expression_of_term
    have hlast := Derives.item 0 0 hz (.lastItem (Derives.name "w").expression_of_term)
    have harray := Derives.array 0 0 (.item 0 0 (.monadic .print hx) (.item 0 0 hy hlast))
    refine parseLine_of_derives hlexemes ?_
      (.program 0 0 (.lastLine (.plain harray.expression_of_term)))
    simp [Readable, Numeral.maxDigits, Decimal.maxDigits]
  have hagree : ∀ name ∈ ["x", "x", "w"],
      Env.get? ⟨[("x", .int 1), ("u", .int 2)]⟩ name =
        Env.get? ⟨[("u", .int 5), ("x", .int 1)]⟩ name :=
    List.forall_mem_cons.mpr ⟨rfl, List.forall_mem_cons.mpr ⟨rfl,
      List.forall_mem_singleton.mpr rfl⟩⟩
  obtain ⟨hout, hevents, -, hlog, -⟩ := eval_eq_of_agree (e := array [monadic .print (ref "x"),
    assign "y" (ref "x"), assign "z" (assign "x" (literal (.int 3))), ref "w"]) hagree
  exact ⟨_, hparse, hout, hevents, hlog.symm⟩

end Expr

end Glyph
