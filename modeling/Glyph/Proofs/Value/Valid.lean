import Glyph.Env

/-!
# Valid values

A value is valid when it has no offence. The lemmas here say so part by part: an array is valid when
its items are, a map when its keys are names and its values are valid, and what is foreign never is.
With `Value.induct`, induction over a value with one hypothesis for all of its parts, this is all
that the safety of the operations needs.
-/

namespace Glyph

theorem Key.eq_name_of_name? {k : Key} {name : String} (h : k.name? = some name) :
    k = .name name := by
  fun_cases Key.name? k with
  | case1 s =>
      cases h
      rfl
  | case2 => simp_all [Key.name?]

namespace Value

/-- Induction over the containers of a value. What is foreign is a leaf, also where it is a
sequence. -/
@[elab_as_elim]
theorem induct {motive : Value → Prop} (number : ∀ n, motive (.number n))
    (text : ∀ s, motive (.text s)) (null : motive .null)
    (array : ∀ o xs, (∀ x ∈ xs, motive x) → motive (.array o xs))
    (map : ∀ o es, (∀ e ∈ es, motive e.2) → motive (.map o es))
    (foreign : ∀ a, motive (.foreign a)) (tuple : ∀ xs, motive (.tuple xs)) (v : Value) :
    motive v := by
  cases v with
  | number n => exact number n
  | text s => exact text s
  | null => exact null
  | array o xs =>
      exact array o xs fun x _ => induct number text null array map foreign tuple x
  | map o es =>
      exact map o es fun e _ => induct number text null array map foreign tuple e.2
  | foreign a => exact foreign a
  | tuple xs => exact tuple xs
termination_by sizeOf v
decreasing_by
  · have := List.sizeOf_lt_of_mem ‹x ∈ xs›
    simp only [Value.array.sizeOf_spec]
    omega
  · have := List.sizeOf_lt_of_mem ‹e ∈ es›
    obtain ⟨k, v⟩ := e
    simp only [Value.map.sizeOf_spec, Prod.mk.sizeOf_spec] at *
    omega

/-- Nothing in the value is foreign and all keys of its maps are names. -/
def Valid (v : Value) : Prop := v.offence? = none

/-- The entry of a valid map: a valid value under a name. -/
def ValidEntry (e : Key × Value) : Prop := (∃ name, e.1 = .name name) ∧ e.2.Valid

@[simp] theorem valid_number (n : Number) : (number n).Valid := rfl

@[simp] theorem valid_text (s : String) : (text s).Valid := rfl

@[simp] theorem valid_null : null.Valid := rfl

@[simp] theorem not_valid_foreign (a : Atom) : ¬(foreign a).Valid := by simp [Valid, offence?]

@[simp] theorem not_valid_tuple (xs : List Value) : ¬(tuple xs).Valid := by simp [Valid, offence?]

theorem itemsOffence?_eq_none_iff {i : Nat} {xs : List Value} :
    itemsOffence? i xs = none ↔ ∀ x ∈ xs, x.Valid := by
  induction xs generalizing i with
  | nil => simp [itemsOffence?]
  | cons x xs ih =>
      rw [itemsOffence?, List.forall_mem_cons, ← @ih (i + 1), Valid]
      cases x.offence? <;> simp

theorem entriesOffence?_eq_none_iff {es : List (Key × Value)} :
    entriesOffence? es = none ↔ ∀ e ∈ es, ValidEntry e := by
  induction es with
  | nil => simp [entriesOffence?]
  | cons e es ih =>
      obtain ⟨k, v⟩ := e
      rw [entriesOffence?, List.forall_mem_cons, ← ih, ValidEntry, Valid]
      cases hk : k.name? with
      | none =>
          have hname : ¬∃ name, k = .name name := by
            rintro ⟨name, rfl⟩
            cases hk
          simp [hname]
      | some name =>
          obtain rfl := Key.eq_name_of_name? hk
          cases v.offence? <;> simp

@[simp] theorem valid_array_iff {o : Origin} {xs : List Value} :
    (array o xs).Valid ↔ ∀ x ∈ xs, x.Valid := by
  rw [Valid, offence?, itemsOffence?_eq_none_iff]

@[simp] theorem valid_map_iff {o : Origin} {es : List (Key × Value)} :
    (map o es).Valid ↔ ∀ e ∈ es, ValidEntry e := by
  rw [Valid, offence?, entriesOffence?_eq_none_iff]

theorem validate_eq_ok_iff {place : String} {v : Value} : v.validate place = .ok () ↔ v.Valid := by
  rw [validate, Valid]
  cases v.offence? <;> simp [Outcome.bind_eq_ok_iff]

theorem Valid.exists_kind {v : Value} (h : v.Valid) : ∃ k, v.kind = .ok k := by
  cases v with
  | number n => exact ⟨.numeric, rfl⟩
  | text s => exact ⟨.text, rfl⟩
  | null => exact ⟨.null, rfl⟩
  | array o xs => exact ⟨.array, rfl⟩
  | map o es => exact ⟨.map, rfl⟩
  | foreign a => exact absurd h (not_valid_foreign a)
  | tuple xs => exact absurd h (not_valid_tuple xs)

theorem Valid.copy {v : Value} (h : v.Valid) : v.copy.Valid := by
  induction v using induct with
  | array o xs ih =>
      rw [Value.copy, copyItems_eq_map, valid_array_iff]
      rw [valid_array_iff] at h
      intro y hy
      obtain ⟨x, hx, rfl⟩ := List.mem_map.mp hy
      exact ih x hx (h x hx)
  | map o es ih =>
      rw [Value.copy, copyEntries_eq_map, valid_map_iff]
      rw [valid_map_iff] at h
      intro f hf
      obtain ⟨e, he, rfl⟩ := List.mem_map.mp hf
      exact ⟨(h e he).1, ih e he (h e he).2⟩
  | number n => exact h
  | text s => exact h
  | null => exact h
  | foreign a => exact h
  | tuple xs => exact h

theorem unwritableItem?_eq_none {xs : List Value} (h : ∀ x ∈ xs, x.unwritable? = none) :
    unwritableItem? xs = none := by
  induction xs with
  | nil => rfl
  | cons x xs ih =>
      obtain ⟨hx, hxs⟩ := List.forall_mem_cons.mp h
      rw [unwritableItem?, hx]
      exact ih hxs

theorem unwritablePair?_eq_none {es : List (Key × Value)}
    (h : ∀ e ∈ es, (∃ name, e.1 = .name name) ∧ e.2.unwritable? = none) :
    unwritablePair? es = none := by
  induction es with
  | nil => rfl
  | cons e es ih =>
      obtain ⟨k, v⟩ := e
      obtain ⟨⟨⟨name, rfl⟩, hv⟩, hes⟩ := List.forall_mem_cons.mp h
      simp only at hv
      rw [unwritablePair?, unwritableKey?]
      simp only [hv]
      exact ih hes

theorem Valid.format {v : Value} (h : v.Valid) : v.format = .ok v.render := by
  have hv : v.unwritable? = none := by
    induction v using induct with
    | array o xs ih =>
        rw [valid_array_iff] at h
        exact unwritableItem?_eq_none fun x hx => ih x hx (h x hx)
    | map o es ih =>
        rw [valid_map_iff] at h
        exact unwritablePair?_eq_none fun e he => ⟨(h e he).1, ih e he (h e he).2⟩
    | number n => rfl
    | text s => rfl
    | null => rfl
    | foreign a => exact absurd h (not_valid_foreign a)
    | tuple xs => exact absurd h (not_valid_tuple xs)
  rw [Value.format, hv]

end Value

namespace Entries

variable {κ ν : Type} [BEq κ]

theorem exists_mem_of_lookup {k : κ} {v : ν} {es : List (κ × ν)} (h : es.lookup k = some v) :
    ∃ l, (l, v) ∈ es := by
  rw [List.lookup_eq_findSome?] at h
  obtain ⟨⟨l, w⟩, hmem, hw⟩ := List.exists_of_findSome?_eq_some h
  simp only [Option.ite_none_right_eq_some, Option.some.injEq] at hw
  exact ⟨l, hw.2 ▸ hmem⟩

theorem forall_mem_insert (P : κ → Prop) (Q : ν → Prop) {k : κ} {v : ν} {es : List (κ × ν)}
    (hk : P k) (hv : Q v) (hes : ∀ e ∈ es, P e.1 ∧ Q e.2) :
    ∀ e ∈ insert k v es, P e.1 ∧ Q e.2 := by
  induction es with
  | nil =>
      intro e he
      obtain rfl := List.mem_singleton.mp he
      exact ⟨hk, hv⟩
  | cons f es ih =>
      obtain ⟨l, w⟩ := f
      obtain ⟨hf, hes⟩ := List.forall_mem_cons.mp hes
      rw [insert]
      by_cases h : k == l
      · rw [if_pos h]
        exact List.forall_mem_cons.mpr ⟨⟨hf.1, hv⟩, hes⟩
      · rw [if_neg h]
        exact List.forall_mem_cons.mpr ⟨hf, ih hes⟩

theorem forall_mem_ofPairs (P : κ → Prop) (Q : ν → Prop) {ps : List (κ × ν)}
    (h : ∀ p ∈ ps, P p.1 ∧ Q p.2) : ∀ e ∈ ofPairs ps, P e.1 ∧ Q e.2 := by
  suffices ∀ es : List (κ × ν), (∀ e ∈ es, P e.1 ∧ Q e.2) →
      ∀ e ∈ ps.foldl (fun es p => insert p.1 p.2 es) es, P e.1 ∧ Q e.2 from this [] (by simp)
  induction ps with
  | nil => exact fun es hes => hes
  | cons p ps ih =>
      obtain ⟨hp, hps⟩ := List.forall_mem_cons.mp h
      exact fun es hes => ih hps _ (forall_mem_insert P Q hp.1 hp.2 hes)

end Entries

namespace Env

def Valid (env : Env) : Prop := ∀ b ∈ env.bindings, b.2.Valid

theorem Valid.snapshot {env : Env} (h : env.Valid) : env.snapshot.Valid := by
  intro b hb
  obtain ⟨c, hc, rfl⟩ := List.mem_map.mp hb
  exact (h c hc).copy

theorem Valid.get? {env : Env} (h : env.Valid) {name : String} {v : Value}
    (hv : env.get? name = some v) : v.Valid := by
  obtain ⟨l, hl⟩ := Entries.exists_mem_of_lookup hv
  exact h _ hl

theorem Valid.insert {env : Env} (h : env.Valid) {v : Value} (hv : v.Valid) (name : String) :
    Valid ⟨Entries.insert name v.copy env.bindings⟩ := by
  intro b hb
  exact (Entries.forall_mem_insert (fun _ => True) Value.Valid trivial hv.copy
    (fun c hc => ⟨trivial, h c hc⟩) b hb).2

end Env

end Glyph
