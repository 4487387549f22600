import Glyph.Env.Command
import Glyph.Proofs.Effect.Writes
import Glyph.Proofs.Store.History
import Glyph.Proofs.Value.Native

/-!
# What happens to the names of an environment

Every operation of an environment makes changes to its names and keeps it sound: no name is empty,
and every stored value is proper (`Env.Becomes`). There is one lemma for each operation, and
`Command.changes` puts them together: what a command stores and removes, in order. A source text
stores what the assignments in its lines do, as far as they are carried out.
-/

namespace Glyph

namespace Entries

theorem keys_insert {ν : Type} (name : String) (v : ν) (es : List (String × ν)) :
    keys (insert name v es) = Change.apply (keys es) (.stored name) := by
  rw [Change.apply]
  split
  · exact keys_insert_of_mem ‹_› v
  · exact keys_insert_of_not_mem ‹_› v

theorem keys_erase {ν : Type} (name : String) (es : List (String × ν)) :
    keys (erase name es) = Change.apply (keys es) (.removed name) := by
  rw [Change.apply, keys, keys, List.filter_map, erase]
  refine congrArg _ (List.filter_congr fun e _ => ?_)
  rw [Function.comp_apply, Bool.eq_iff_iff]
  simp [@eq_comm _ name]

end Entries

namespace Env

/-- No name is empty, and every value is proper. -/
def Sound (env : Env) : Prop := ∀ b ∈ env.bindings, b.1 ≠ "" ∧ b.2.Proper

/-- The changes lead from the names of an environment to those of the next, which is sound if the
first one is. -/
structure Becomes (env : Env) (cs : List Change) (next : Env) : Prop where
  names_eq : next.names = Change.applyAll env.names cs
  sound : env.Sound → next.Sound

theorem Becomes.refl (env : Env) : env.Becomes [] env := ⟨rfl, id⟩

theorem Becomes.trans {env next last : Env} {cs ds : List Change} (h : env.Becomes cs next)
    (h' : next.Becomes ds last) : env.Becomes (cs ++ ds) last := by
  refine ⟨?_, h'.sound ∘ h.sound⟩
  rw [Change.applyAll_append, ← h.names_eq]
  exact h'.names_eq

theorem becomes_insert (env : Env) {name : String} {v : Value} (hname : name ≠ "")
    (hv : v.Proper) : env.Becomes [.stored name] ⟨Entries.insert name v env.bindings⟩ :=
  ⟨Entries.keys_insert name v env.bindings,
    Entries.forall_mem_insert (fun name => name ≠ "") Value.Proper hname hv⟩

theorem becomes_erase (env : Env) (name : String) :
    env.Becomes [.removed name] ⟨Entries.erase name env.bindings⟩ :=
  ⟨Entries.keys_erase name env.bindings, fun hsound b hb => hsound b (List.mem_filter.mp hb).1⟩

/-- What is stored has a name, and is proper as it is copied. -/
theorem sound_of_store {env next : Env} {name : String} {v : Value}
    (h : env.store name v = .ok next) : name ≠ "" ∧ v.copy.Proper := by
  obtain ⟨hname, hv, -⟩ := store_eq_ok_iff.mp h
  refine ⟨?_, (Value.validate_eq_ok_iff.mp hv).proper_copy⟩
  rintro rfl
  cases hname

theorem becomes_store {env next : Env} {name : String} {v : Value}
    (h : env.store name v = .ok next) : env.Becomes [.stored name] next := by
  obtain ⟨hname, hv⟩ := sound_of_store h
  obtain ⟨-, -, rfl⟩ := store_eq_ok_iff.mp h
  exact env.becomes_insert hname hv

theorem becomes_bindAll (env : Env) {ws : List (String × Value)}
    (h : ∀ w ∈ ws, w.1 ≠ "" ∧ w.2.Proper) :
    env.Becomes ((Entries.keys ws).map .stored) (env.bindAll ws) := by
  induction ws generalizing env with
  | nil => exact .refl env
  | cons w ws ih =>
      obtain ⟨hw, hws⟩ := List.forall_mem_cons.mp h
      exact (env.becomes_insert hw.1 hw.2).trans (ih _ hws)

theorem becomes_storeHost {env next : Env} {data : List (String × Value)}
    (h : env.storeHost data = .ok next) :
    env.Becomes ((Entries.keys data).map .stored) next := by
  induction data generalizing env with
  | nil =>
      cases h
      exact .refl _
  | cons d data ih =>
      obtain ⟨name, v⟩ := d
      obtain ⟨w, -, h⟩ := Outcome.bind_eq_ok_iff.mp h
      obtain ⟨middle, hstore, h⟩ := Outcome.bind_eq_ok_iff.mp h
      exact (becomes_store hstore).trans (ih h)

theorem becomes_empty (env : Env) : env.Becomes (env.names.map .removed) empty := by
  refine ⟨?_, fun _ b hb => (nomatch hb)⟩
  rw [Change.applyAll_removed]
  exact (List.filter_eq_nil_iff.mpr (by simp)).symm

theorem names_snapshot (env : Env) : env.snapshot.names = env.names := by
  rw [names, names, snapshot, Entries.keys, Entries.keys, List.map_map]
  rfl

theorem Sound.snapshot {env : Env} (h : env.Sound) : env.snapshot.Sound := by
  intro b hb
  obtain ⟨c, hc, rfl⟩ := List.mem_map.mp hb
  exact ⟨(h c hc).1, (h c hc).2.valid.proper_copy⟩

end Env

/-! ## Evaluation -/

/-- What the log stores has a name and is proper. -/
def Log.Sound (log : Log) : Prop := ∀ env, ∀ w ∈ log env, w.1 ≠ "" ∧ w.2.Proper

namespace Log

theorem sound_none : none.Sound := fun _ _ hw => (nomatch hw)

theorem sound_assign (name : String) (m : Action Value) : (assign name m).Sound := by
  intro env w hw
  rw [assign] at hw
  split at hw
  · cases hw
  · split at hw
    · cases hw
    · obtain rfl := List.mem_singleton.mp hw
      exact Env.sound_of_store ‹_›

theorem Sound.after {α : Type} {log next : Log} (h : log.Sound) (h' : next.Sound) (m : Action α) :
    (after m log next).Sound := by
  intro env
  rw [Log.after]
  split
  · exact List.forall_mem_append.mpr ⟨h env, h' _⟩
  · exact h env

end Log

namespace Expr

mutual

theorem sound_stores (e : Expr) : e.stores.Sound := by
  match e with
  | literal _ | text _ | ref _ | block _ => exact Log.sound_none
  | array items =>
      rw [stores]
      exact sound_itemStores items
  | map entries =>
      rw [stores]
      exact sound_entryStores entries
  | assign name r =>
      rw [stores]
      exact Log.sound_assign name r.eval
  | dyadic _ l r =>
      rw [stores]
      exact (sound_stores l).after (sound_stores r) l.eval
  | monadic _ r =>
      rw [stores]
      exact sound_stores r
  | operator _ _ r =>
      rw [stores]
      exact sound_stores r

theorem sound_itemStores (es : List Expr) : (itemStores es).Sound := by
  match es with
  | [] => exact Log.sound_none
  | e :: es =>
      rw [itemStores]
      exact (sound_stores e).after (sound_itemStores es) e.eval

theorem sound_entryStores (es : List (String × Expr)) : (entryStores es).Sound := by
  match es with
  | [] => exact Log.sound_none
  | (_, e) :: es =>
      rw [entryStores]
      exact (sound_stores e).after (sound_entryStores es) e.eval

end

end Expr

/-- What the lines of a source text store, up to the first that fails. -/
def sourceStores (source : String) : Log :=
  match parseProgram source with
  | .error _ => .none
  | .ok lines => Expr.itemStores lines

namespace Run

theorem env_linesFrom_false (index : Nat) (lines : List Expr) (env : Env) :
    (linesFrom false index lines env).env = env.bindAll (Expr.itemStores lines env) := by
  induction lines generalizing index env with
  | nil => rfl
  | cons e es ih =>
      obtain ⟨henv, -⟩ := Expr.writes_eval e env
      rw [linesFrom, Expr.itemStores]
      rcases hs : e.eval env with ⟨outcome, next, events⟩
      rw [hs] at henv
      cases outcome with
      | ok v =>
          rw [Log.after_of_ok hs, Env.bindAll_append, ← henv]
          exact ih (index + 1) next
      | error failure =>
          rw [Log.after_of_error hs]
          cases failure with
          | fault f => exact henv
          | misuse m => exact henv

theorem env_reply (r : Run) : r.reply.env = r.env := by
  rw [reply]
  split
  · rfl
  · split <;> rfl
  · rfl

end Run

theorem becomes_evaluateSource (source : String) (env : Env) :
    env.Becomes ((Entries.keys (sourceStores source env)).map .stored)
      (evaluateSource source env).env := by
  rw [sourceStores, evaluateSource]
  cases parseProgram source with
  | error r => exact .refl env
  | ok lines =>
      dsimp only
      rw [Run.env_reply, Run.program, Run.env_linesFrom_false]
      exact env.becomes_bindAll (Expr.sound_itemStores lines env)

/-! ## Commands -/

def Value.names : Value → List String
  | .foreign (.string name) => [name]
  | _ => []

namespace Env

/-- The names that storing under objects binds, up to the first object or value that is refused. -/
def accepted (env : Env) : List (Value × Value) → List String
  | [] => []
  | (o, v) :: items =>
    match env.storeUnder o v with
    | .ok next => o.names ++ next.accepted items
    | .error _ => []

theorem storeUnder_eq_ok_iff {env next : Env} {o v : Value} :
    env.storeUnder o v = .ok next ↔
      ∃ name, o = .foreign (.string name) ∧ env.store name v = .ok next := by
  constructor
  · intro h
    unfold storeUnder at h
    split at h
    · exact ⟨_, rfl, h⟩
    · obtain ⟨m, hm⟩ := exists_misuse_of_shown o.form? .notAName
      cases hm.symm.trans h
  · rintro ⟨name, rfl, h⟩
    exact h

theorem becomes_storeAll (env : Env) (items : List (Value × Value)) :
    env.Becomes ((env.accepted items).map .stored) (env.storeAll items).2 := by
  fun_induction storeAll env items with
  | case1 env => exact .refl env
  | case2 env o v items next hstore ih =>
      rw [accepted, hstore]
      obtain ⟨name, rfl, hname⟩ := storeUnder_eq_ok_iff.mp hstore
      exact (becomes_store hname).trans ih
  | case3 env o v items cause hstore =>
      rw [accepted, hstore]
      exact .refl env

/-- The environment after an operation, which is the old one if the operation fails. -/
def past {α : Type} (env : Env) (get : α → Env) : Outcome α → Env
  | .ok a => get a
  | .error _ => env

@[simp] theorem past_ok {α : Type} (env : Env) (get : α → Env) (a : α) :
    env.past get (.ok a) = get a := rfl

@[simp] theorem past_error {α : Type} (env : Env) (get : α → Env) (cause : Failure) :
    env.past get (.error cause) = env := rfl

theorem becomes_past_storeUnder (env : Env) (o v : Value) :
    env.Becomes ((env.accepted [(o, v)]).map .stored) (env.past id (env.storeUnder o v)) := by
  have h := env.becomes_storeAll [(o, v)]
  rw [storeAll] at h
  cases hstore : env.storeUnder o v with
  | ok next => rwa [hstore] at h
  | error cause => rwa [hstore] at h

/-- An operation on what an environment has under an object is one on the name that the object is.
Under an object that is no name there is nothing to change. -/
theorem becomes_asking {α : Type} {env : Env} {cs : List Change} {get : α → Env} {o : Value}
    {found : String → Outcome α} {missing : Outcome α}
    (hname : ∀ name, o = .foreign (.string name) → env.Becomes cs (env.past get (found name)))
    (hnone : o.names = [] → cs = []) (hmissing : env.past get missing = env) :
    env.Becomes cs (env.past get (asking o found missing)) := by
  unfold asking
  split
  · exact hname _ rfl
  · have hempty : o.names = [] := by
      unfold Value.names
      split
      · rename_i hother
        exact (hother _ rfl).elim
      · rfl
    rw [hnone hempty]
    cases o.toKey 0 with
    | ok k =>
        change env.Becomes [] (env.past get missing)
        rw [hmissing]
        exact .refl env
    | error cause => exact .refl env

end Env

def Command.changes (env : Env) : Command → List Change
  | .store o v => (env.accepted [(o, v)]).map .stored
  | .remove o => (o.names.filter env.contains).map .removed
  | .pop o _ => (o.names.filter env.contains).map .removed
  | .popFirst => (env.names.take 1).map .removed
  | .setDefault o v =>
    if o.names.any env.contains then [] else (env.accepted [(o, v)]).map .stored
  | .update items => (env.accepted items).map .stored
  | .clear => env.names.map .removed
  | .eval source => (Entries.keys (sourceStores source env)).map .stored
  | _ => []

namespace Env

theorem becomes_remove (env : Env) (o : Value) (cause : Failure) :
    env.Becomes (Command.changes env (.remove o))
      (env.past id (asking o env.remove (.error cause))) := by
  refine becomes_asking ?_ (fun hnone => ?_) rfl
  · rintro name rfl
    rw [Command.changes, Value.names, remove]
    cases hbound : env.contains name with
    | true => simpa [hbound] using env.becomes_erase name
    | false => simpa [hbound] using Becomes.refl env
  · rw [Command.changes, hnone]
    rfl

theorem becomes_pop (env : Env) (o : Value) (fallback : Option Value) :
    env.Becomes (Command.changes env (.pop o fallback))
      (env.past Prod.snd (asking o (env.pop · fallback) (env.popMissing o fallback))) := by
  refine becomes_asking ?_ (fun hnone => ?_) ?_
  · rintro name rfl
    unfold pop
    rw [Command.changes, Value.names]
    cases hv : env.get? name with
    | some v => simpa [contains, hv] using env.becomes_erase name
    | none => cases fallback with
      | some v => simpa [contains, hv] using Becomes.refl env
      | none => simpa [contains, hv] using Becomes.refl env
  · rw [Command.changes, hnone]
    rfl
  · cases fallback with
    | some v => rfl
    | none => rfl

theorem becomes_popFirst (env : Env) :
    env.Becomes (Command.changes env .popFirst) (env.past Prod.snd env.popFirst) := by
  rw [Command.changes, popFirst, names]
  cases hb : env.bindings with
  | nil => exact .refl env
  | cons b bs =>
      have h := env.becomes_erase b.1
      rw [hb] at h
      exact h

theorem becomes_setDefault (env : Env) (o v : Value) :
    env.Becomes (Command.changes env (.setDefault o v))
      (env.past Prod.snd (asking o (env.setDefault · v)
        (do misuse (.notAName (← shown o.form?))))) := by
  obtain ⟨m, hm⟩ := exists_misuse_of_shown (β := Value × Env) o.form? .notAName
  rw [hm]
  refine becomes_asking ?_ (fun hnone => ?_) rfl
  · rintro name rfl
    rw [Command.changes, Value.names, setDefault]
    cases hw : env.get? name with
    | some w => simpa [contains, hw] using Becomes.refl env
    | none =>
        have h := env.becomes_past_storeUnder (.foreign (.string name)) v
        have hfree : ¬[name].any env.contains = true := by simp [contains, hw]
        rw [storeUnder] at h
        rw [if_neg hfree]
        dsimp only
        cases hstore : env.store name v with
        | ok next => rwa [hstore] at h
        | error cause => rwa [hstore] at h
  · rw [Command.changes, hnone, List.any_nil, accepted, hnone]
    cases env.storeUnder o v with
    | ok next => rfl
    | error cause => rfl

end Env

end Glyph
