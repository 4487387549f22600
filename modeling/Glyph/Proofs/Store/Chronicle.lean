import Mathlib.Data.List.Forall2
import Glyph.Proofs.Store.Changes

/-!
# What every environment of a workspace keeps

Whatever a host does to the environments of a workspace, their names stay in order, none of them is
empty, and everything stored is a proper value. A command replaces one environment by one that its
changes lead to (`Workspace.exists_becomes`), so this follows for any sequence of commands: a
`Chronicle` carries the workspace along with the history of each environment. A snapshot starts with
the history of the environment that it was taken of.

A command that is refused makes no change, an update apart: it keeps the entries in front of the one
that is refused.
-/

namespace Glyph

section Pairs

variable {α β : Type} {R : α → β → Prop} {xs : List α} {ys : List β}

theorem forall₂_set (h : List.Forall₂ R xs ys) {x : α} {y : β} (hxy : R x y) (n : Nat) :
    List.Forall₂ R (xs.set n x) (ys.set n y) := by
  induction h generalizing n with
  | nil => exact .nil
  | cons h hs ih => cases n with
    | zero => exact .cons hxy hs
    | succ n => exact .cons h (ih n)

theorem forall₂_getD (h : List.Forall₂ R xs ys) {x : α} {y : β} (hxy : R x y) (n : Nat) :
    R (xs[n]?.getD x) (ys[n]?.getD y) := by
  induction h generalizing n with
  | nil => exact hxy
  | cons h hs ih => cases n with
    | zero => exact h
    | succ n => exact ih n

end Pairs

/-- What a command adds to a list of things of which each environment has one, where a new
environment gets the one that is given. -/
def Command.opened {α : Type} (a : α) : Command → List α
  | .snapshot => [a]
  | _ => []

theorem Command.forall₂_opened {α β : Type} {R : α → β → Prop} {a : α} {b : β} (h : R a b)
    (c : Command) : List.Forall₂ R (c.opened a) (c.opened b) := by
  cases c with
  | snapshot => exact .cons h .nil
  | _ => exact .nil

namespace Workspace

theorem set_env (w : Workspace) (n : Nat) : w.envs.set n (w.env n) = w.envs := by
  rw [env]
  by_cases hn : n < w.envs.length
  · rw [List.getElem?_eq_getElem hn, Option.getD_some, List.set_getElem_self]
  · rw [List.set_eq_of_length_le (Nat.le_of_not_lt hn)]

theorem workspace_answering (w : Workspace) (o : Outcome Answer) :
    (w.answering o).workspace = w := by
  cases o with
  | ok a => rfl
  | error e => rfl

theorem envs_answering (w : Workspace) (n : Nat) (o : Outcome Answer) :
    (w.answering o).workspace.envs = w.envs.set n (w.env n) ++ [] := by
  rw [workspace_answering, List.append_nil, set_env]

theorem envs_changing {α : Type} (w : Workspace) (n : Nat) (f : α → Answer × Env) (o : Outcome α) :
    (w.changing n (o.map f)).workspace.envs =
      w.envs.set n ((w.env n).past (Prod.snd ∘ f) o) ++ [] := by
  rw [List.append_nil]
  cases o with
  | ok a => rfl
  | error e => exact (w.set_env n).symm

theorem run_update_of_ok {w : Workspace} {n : Nat} {items : List (Value × Value)} {next : Env}
    (h : (w.env n).storeAll items = (.ok (), next)) :
    w.run n (.update items) = ⟨.ok .done, w.withEnv n next, []⟩ := by
  simp only [run, h]

theorem run_update_of_error {w : Workspace} {n : Nat} {items : List (Value × Value)} {next : Env}
    {cause : Failure} (h : (w.env n).storeAll items = (.error cause, next)) :
    w.run n (.update items) = ⟨.error (.failed cause), w.withEnv n next, []⟩ := by
  simp only [run, h]

/-- A command replaces its environment by one that its changes lead to, and a snapshot adds a copy
to the others. -/
theorem exists_becomes (w : Workspace) (n : Nat) (c : Command) :
    ∃ next, (w.env n).Becomes (c.changes (w.env n)) next ∧
      (w.run n c).workspace.envs = w.envs.set n next ++ c.opened (w.env n).snapshot := by
  cases c with
  | store o v =>
      exact ⟨_, (w.env n).becomes_past_storeUnder o v, w.envs_changing n _ _⟩
  | remove o => exact ⟨_, (w.env n).becomes_remove o _, w.envs_changing n _ _⟩
  | pop o fallback => exact ⟨_, (w.env n).becomes_pop o fallback, w.envs_changing n _ _⟩
  | popFirst => exact ⟨_, (w.env n).becomes_popFirst, w.envs_changing n _ _⟩
  | setDefault o v => exact ⟨_, (w.env n).becomes_setDefault o v, w.envs_changing n _ _⟩
  | update items =>
      refine ⟨_, (w.env n).becomes_storeAll items, ?_⟩
      cases h : (w.env n).storeAll items with
      | mk outcome next => cases outcome with
        | ok u =>
            rw [run_update_of_ok h]
            exact (List.append_nil _).symm
        | error cause =>
            rw [run_update_of_error h]
            exact (List.append_nil _).symm
  | clear => exact ⟨_, (w.env n).becomes_empty, (List.append_nil _).symm⟩
  | eval source => exact ⟨_, becomes_evaluateSource source (w.env n), (List.append_nil _).symm⟩
  | snapshot =>
      refine ⟨w.env n, .refl _, ?_⟩
      rw [set_env]
      rfl
  | emit v =>
      refine ⟨w.env n, .refl _, ?_⟩
      rw [set_env]
      exact (List.append_nil _).symm
  | lookup | fetch | contains | size | names | describe | get | same =>
      exact ⟨w.env n, .refl _, w.envs_answering n _⟩

end Workspace

/-! ## Sequences of commands -/

/-- A workspace, with what has happened to the names of each environment. -/
structure Chronicle where
  workspace : Workspace
  histories : List (List Change)

namespace Chronicle

def history (t : Chronicle) (n : Nat) : List Change := t.histories[n]?.getD []

/-- The environment with the data of a host, in which the names were stored one after the other. -/
def start (data : List (String × Value)) (env : Env) : Chronicle :=
  ⟨⟨[env]⟩, [(Entries.keys (Entries.ofPairs data)).map .stored]⟩

def next (t : Chronicle) (n : Nat) (c : Command) : Chronicle where
  workspace := (t.workspace.run n c).workspace
  histories :=
    t.histories.set n (t.history n ++ c.changes (t.workspace.env n)) ++ c.opened (t.history n)

def after (t : Chronicle) (steps : List (Nat × Command)) : Chronicle :=
  steps.foldl (fun t step => t.next step.1 step.2) t

/-- Every environment is sound, and its names are in the order of its history. -/
def Kept (t : Chronicle) : Prop :=
  List.Forall₂ (fun env h => InOrder env.names h ∧ env.Sound) t.workspace.envs t.histories

theorem Kept.start {data : List (String × Value)} {env : Env} (h : Env.ofHost data = .ok env) :
    (start data env).Kept := by
  have hdata := Env.becomes_storeHost h
  refine .cons ⟨?_, hdata.sound fun b hb => (nomatch hb)⟩ .nil
  rw [hdata.names_eq]
  exact InOrder.nil.changes _

theorem Kept.at {t : Chronicle} (ht : t.Kept) (n : Nat) :
    InOrder (t.workspace.env n).names (t.history n) ∧ (t.workspace.env n).Sound := by
  have hempty : InOrder Env.empty.names [] ∧ Env.empty.Sound :=
    ⟨InOrder.nil, fun b hb => (nomatch hb)⟩
  exact forall₂_getD ht hempty n

/-- A command to any environment keeps all of them. -/
theorem Kept.next {t : Chronicle} (ht : t.Kept) (n : Nat) (c : Command) : (t.next n c).Kept := by
  obtain ⟨horder, hsound⟩ := ht.at n
  obtain ⟨env, hbecomes, henvs⟩ := t.workspace.exists_becomes n c
  rw [Kept, Chronicle.next, henvs]
  refine List.rel_append (forall₂_set ht ⟨?_, hbecomes.sound hsound⟩ n) ?_
  · rw [hbecomes.names_eq]
    exact horder.changes _
  · exact c.forall₂_opened ⟨(t.workspace.env n).names_snapshot ▸ horder, hsound.snapshot⟩

theorem Kept.after {t : Chronicle} (ht : t.Kept) (steps : List (Nat × Command)) :
    (t.after steps).Kept := by
  induction steps generalizing t with
  | nil => exact ht
  | cons step steps ih => exact ih (ht.next step.1 step.2)

end Chronicle

end Glyph
