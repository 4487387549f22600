import Glyph.Env

/-!
# Names in the order in which they came

What happens to the names of an environment is a history of changes, oldest first: a value is stored
under a name, or a name is removed. A name that a history holds has entered at some point, where it
was stored for the first time since it was last removed. Names are in order (`InOrder`) when they
are those that the history holds, sorted by the points at which they have entered.

Each change keeps names in order if it puts a new name behind the others, leaves the names alone
when one of them is stored again, and takes out a name that is removed (`InOrder.change`).
-/

namespace Glyph

inductive Change where
  | stored (name : String)
  | removed (name : String)

def Change.apply (names : List String) : Change → List String
  | .stored name => if name ∈ names then names else names ++ [name]
  | .removed name => names.filter fun other => other ≠ name

def Change.applyAll (names : List String) (cs : List Change) : List String :=
  cs.foldl Change.apply names

namespace Change

theorem applyAll_append (names : List String) (cs ds : List Change) :
    applyAll names (cs ++ ds) = applyAll (applyAll names cs) ds := List.foldl_append

theorem applyAll_removed (names gone : List String) :
    applyAll names (gone.map removed) = names.filter fun name => name ∉ gone := by
  induction gone generalizing names with
  | nil => exact (List.filter_eq_self.mpr (by simp)).symm
  | cons name gone ih =>
      rw [List.map_cons, applyAll, List.foldl_cons, apply]
      refine (ih _).trans ?_
      rw [List.filter_filter]
      refine List.filter_congr fun other _ => ?_
      simp [Bool.and_comm]

end Change

/-- A value was stored under the name, which has not been removed since. -/
def Holds (h : List Change) (name : String) : Prop :=
  ∃ before after, h = before ++ .stored name :: after ∧ .removed name ∉ after

/-- The name enters behind the first part of the history: there a value was stored under it for the
first time since it was last removed. -/
def Enters (h : List Change) (name : String) (before : List Change) : Prop :=
  ∃ after, h = before ++ .stored name :: after ∧ .removed name ∉ after ∧ ¬Holds before name

/-- The names are those that the history holds, in the order in which they have entered. -/
structure InOrder (names : List String) (h : List Change) : Prop where
  mem_iff : ∀ name, name ∈ names ↔ ∃ before, Enters h name before
  sorted : names.Pairwise fun a b =>
    ∀ before later, Enters h a before → Enters h b later → before.length < later.length

theorem append_singleton_eq_iff {h before after : List Change} {c d : Change} :
    h ++ [c] = before ++ d :: after ↔
      (c = d ∧ h = before ∧ after = []) ∨
        ∃ rest, after = rest ++ [c] ∧ h = before ++ d :: rest := by
  constructor
  · intro heq
    obtain rfl | ⟨rest, e, rfl⟩ := List.eq_nil_or_concat after
    · obtain ⟨rfl, hlast⟩ := List.append_inj' heq rfl
      exact .inl ⟨List.singleton_inj.mp hlast, rfl, rfl⟩
    · rw [List.concat_eq_append, ← List.cons_append, ← List.append_assoc] at heq
      obtain ⟨rfl, hlast⟩ := List.append_inj' heq rfl
      rw [List.concat_eq_append, List.singleton_inj.mp hlast]
      exact .inr ⟨rest, rfl, rfl⟩
  · rintro (⟨rfl, rfl, rfl⟩ | ⟨rest, rfl, rfl⟩)
    · rfl
    · rw [List.append_assoc, List.cons_append]

/-- What a history holds has entered at some point. -/
theorem Holds.exists_enters {h : List Change} {name : String} (hold : Holds h name) :
    ∃ before, Enters h name before := by
  obtain ⟨before, after, heq, hafter⟩ := hold
  -- While the name was held before, the point at which it entered lies further back.
  induction hn : before.length using Nat.strongRecOn generalizing before after with
  | ind n ih =>
      by_cases hbefore : Holds before name
      · obtain ⟨first, rest, rfl, hrest⟩ := hbefore
        refine ih first.length ?_ first (rest ++ .stored name :: after) ?_ ?_ rfl
        · rw [← hn, List.length_append, List.length_cons]
          omega
        · rw [heq, List.append_assoc, List.cons_append]
        · simp [hrest, hafter]
      · exact ⟨before, after, heq, hafter, hbefore⟩

theorem Enters.holds {h before : List Change} {name : String} (henters : Enters h name before) :
    Holds h name := by
  obtain ⟨after, heq, hafter, -⟩ := henters
  exact ⟨before, after, heq, hafter⟩

theorem Enters.length_lt {h before : List Change} {name : String}
    (henters : Enters h name before) : before.length < h.length := by
  obtain ⟨after, rfl, -⟩ := henters
  rw [List.length_append, List.length_cons]
  omega

theorem enters_append_stored {h before : List Change} {name other : String} :
    Enters (h ++ [.stored name]) other before ↔
      Enters h other before ∨ (other = name ∧ before = h ∧ ¬Holds h name) := by
  constructor
  · rintro ⟨after, heq, hafter, hbefore⟩
    obtain ⟨hname, rfl, rfl⟩ | ⟨rest, rfl, rfl⟩ := append_singleton_eq_iff.mp heq
    · obtain rfl := Change.stored.inj hname
      exact .inr ⟨rfl, rfl, hbefore⟩
    · exact .inl ⟨rest, rfl, fun hrest => hafter (List.mem_append_left _ hrest), hbefore⟩
  · rintro (⟨after, rfl, hafter, hbefore⟩ | ⟨rfl, rfl, hnew⟩)
    · refine ⟨after ++ [.stored name], ?_, ?_, hbefore⟩
      · rw [List.append_assoc, List.cons_append]
      · simp [hafter]
    · exact ⟨[], rfl, by simp, hnew⟩

theorem enters_append_removed {h before : List Change} {name other : String} :
    Enters (h ++ [.removed name]) other before ↔ other ≠ name ∧ Enters h other before := by
  constructor
  · rintro ⟨after, heq, hafter, hbefore⟩
    obtain ⟨hne, -⟩ | ⟨rest, rfl, rfl⟩ := append_singleton_eq_iff.mp heq
    · cases hne
    · refine ⟨?_, rest, rfl, fun hrest => hafter (List.mem_append_left _ hrest), hbefore⟩
      rintro rfl
      exact hafter (List.mem_append_right _ (List.mem_singleton_self _))
  · rintro ⟨hne, after, rfl, hafter, hbefore⟩
    refine ⟨after ++ [.removed name], ?_, ?_, hbefore⟩
    · rw [List.append_assoc, List.cons_append]
    · simp [hafter, hne]

namespace InOrder

variable {names : List String} {h : List Change}

theorem nil : InOrder [] [] := by
  refine ⟨fun name => ⟨fun hmem => (nomatch hmem), ?_⟩, List.Pairwise.nil⟩
  rintro ⟨before, hbefore⟩
  exact absurd hbefore.length_lt (Nat.not_lt_zero _)

theorem mem_iff_holds (ho : InOrder names h) {name : String} : name ∈ names ↔ Holds h name := by
  rw [ho.mem_iff]
  exact ⟨fun ⟨_, hbefore⟩ => hbefore.holds, Holds.exists_enters⟩

theorem stored_of_mem (ho : InOrder names h) {name : String} (hmem : name ∈ names) :
    InOrder names (h ++ [.stored name]) := by
  have hsame : ∀ other before,
      Enters (h ++ [.stored name]) other before ↔ Enters h other before := by
    intro other before
    rw [enters_append_stored]
    exact or_iff_left fun hnew => hnew.2.2 (ho.mem_iff_holds.mp hmem)
  exact ⟨by simpa only [hsame] using ho.mem_iff, by simpa only [hsame] using ho.sorted⟩

theorem stored_of_not_mem (ho : InOrder names h) {name : String} (hnew : name ∉ names) :
    InOrder (names ++ [name]) (h ++ [.stored name]) := by
  have hfree : ¬Holds h name := fun hold => hnew (ho.mem_iff_holds.mpr hold)
  have hkept : ∀ {other before}, other ∈ names → Enters (h ++ [.stored name]) other before →
      Enters h other before := by
    intro other before hother hbefore
    refine (enters_append_stored.mp hbefore).resolve_right ?_
    rintro ⟨rfl, -⟩
    exact hnew hother
  refine ⟨fun other => ?_, List.pairwise_append.mpr ⟨?_, List.pairwise_singleton _ _, ?_⟩⟩
  · simp only [List.mem_append, List.mem_singleton, ho.mem_iff other, enters_append_stored]
    constructor
    · rintro (⟨before, hbefore⟩ | rfl)
      · exact ⟨before, .inl hbefore⟩
      · exact ⟨h, .inr ⟨rfl, rfl, hfree⟩⟩
    · rintro ⟨before, hbefore | ⟨rfl, -⟩⟩
      · exact .inl ⟨before, hbefore⟩
      · exact .inr rfl
  · refine ho.sorted.imp_of_mem fun ha hb hlt before later hbefore hlater => ?_
    exact hlt before later (hkept ha hbefore) (hkept hb hlater)
  · -- The new name enters behind the whole history, and all others within it.
    intro a ha b hb before later hbefore hlater
    obtain rfl := List.mem_singleton.mp hb
    obtain hlater | ⟨-, rfl, -⟩ := enters_append_stored.mp hlater
    · exact absurd hlater.holds hfree
    · exact (hkept ha hbefore).length_lt

theorem removed (ho : InOrder names h) (name : String) :
    InOrder (names.filter fun other => other ≠ name) (h ++ [.removed name]) := by
  refine ⟨fun other => ?_, ?_⟩
  · simp only [List.mem_filter, decide_eq_true_eq, ho.mem_iff other, enters_append_removed]
    constructor
    · rintro ⟨⟨before, hbefore⟩, hne⟩
      exact ⟨before, hne, hbefore⟩
    · rintro ⟨before, hne, hbefore⟩
      exact ⟨⟨before, hbefore⟩, hne⟩
  · refine (ho.sorted.filter _).imp fun hlt before later hbefore hlater => ?_
    exact hlt before later (enters_append_removed.mp hbefore).2 (enters_append_removed.mp hlater).2

theorem change (ho : InOrder names h) (c : Change) : InOrder (c.apply names) (h ++ [c]) := by
  cases c with
  | stored name =>
      rw [Change.apply]
      split
      · exact ho.stored_of_mem ‹_›
      · exact ho.stored_of_not_mem ‹_›
  | removed name => exact ho.removed name

theorem changes (ho : InOrder names h) (cs : List Change) :
    InOrder (Change.applyAll names cs) (h ++ cs) := by
  induction cs generalizing names h with
  | nil => rwa [List.append_nil]
  | cons c cs ih =>
      rw [List.append_cons]
      exact ih (ho.change c)

/-- Names in order differ from each other, as a name enters before no later point than it does. -/
theorem nodup (ho : InOrder names h) : names.Nodup := by
  refine ho.sorted.imp_of_mem fun {a b} ha _ hlt => ?_
  rintro rfl
  obtain ⟨before, hbefore⟩ := (ho.mem_iff a).mp ha
  exact absurd (hlt before before hbefore hbefore) (Nat.lt_irrefl _)

end InOrder

end Glyph
