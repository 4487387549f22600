import Glyph.Proofs.Value.Valid

/-!
# Values of running programs

`Runtime` says what a value of a running program is, whoever made its containers: it is valid, and
no map in it has a name twice. Under distinct names looking up is the same as being an entry, so a
value is known by its parts: `Value.step?` reaches all of them, keeps the predicates of this module,
and carries induction over a value (`Value.step_induct`) without telling arrays and maps apart.
-/

namespace Glyph

/-- The keys are names, and no two of them are equal. -/
structure DistinctNames (ks : List Key) : Prop where
  names : ∀ k ∈ ks, ∃ name, k = .name name
  nodup : ks.Nodup

theorem distinctNames_iff {ks : List Key} :
    DistinctNames ks ↔ (∀ k ∈ ks, ∃ name, k = .name name) ∧ ks.Nodup :=
  ⟨fun h => ⟨h.names, h.nodup⟩, fun h => ⟨h.1, h.2⟩⟩

/-- The name that a key is; a key that is none counts as the empty one. -/
def Key.asName (k : Key) : String := k.name?.getD ""

namespace Value

/-- Nothing in the value is foreign, and the keys of its maps are distinct names. -/
inductive Runtime : Value → Prop
  | number (n : Number) : Runtime (.number n)
  | text (s : String) : Runtime (.text s)
  | null : Runtime .null
  | array {o : Origin} {xs : List Value} (h : ∀ x ∈ xs, Runtime x) : Runtime (.array o xs)
  | map {o : Origin} {es : List (Key × Value)} (hkeys : DistinctNames (Entries.keys es))
      (h : ∀ e ∈ es, Runtime e.2) : Runtime (.map o es)

/-- No number in the value is a double. -/
inductive FloatFree : Value → Prop
  | int (n : Int64) : FloatFree (.int n)
  | text (s : String) : FloatFree (.text s)
  | null : FloatFree .null
  | array {o : Origin} {xs : List Value} (h : ∀ x ∈ xs, FloatFree x) : FloatFree (.array o xs)
  | map {o : Origin} {es : List (Key × Value)} (h : ∀ e ∈ es, FloatFree e.2) :
      FloatFree (.map o es)

@[simp] theorem runtime_number (n : Number) : (number n).Runtime := .number n

@[simp] theorem runtime_text (s : String) : (text s).Runtime := .text s

@[simp] theorem runtime_null : null.Runtime := .null

@[simp] theorem runtime_array_iff {o : Origin} {xs : List Value} :
    (array o xs).Runtime ↔ ∀ x ∈ xs, x.Runtime := by
  refine ⟨fun h => ?_, .array⟩
  cases h with
  | array h => exact h

@[simp] theorem runtime_map_iff {o : Origin} {es : List (Key × Value)} :
    (map o es).Runtime ↔ DistinctNames (Entries.keys es) ∧ ∀ e ∈ es, e.2.Runtime := by
  refine ⟨fun h => ?_, fun h => .map h.1 h.2⟩
  cases h with
  | map hkeys h => exact ⟨hkeys, h⟩

@[simp] theorem floatFree_int (n : Int64) : (int n).FloatFree := .int n

@[simp] theorem floatFree_array_iff {o : Origin} {xs : List Value} :
    (array o xs).FloatFree ↔ ∀ x ∈ xs, x.FloatFree := by
  refine ⟨fun h => ?_, .array⟩
  cases h with
  | array h => exact h

@[simp] theorem floatFree_map_iff {o : Origin} {es : List (Key × Value)} :
    (map o es).FloatFree ↔ ∀ e ∈ es, e.2.FloatFree := by
  refine ⟨fun h => ?_, .map⟩
  cases h with
  | map h => exact h

theorem FloatFree.exists_int {n : Number} (h : (Value.number n).FloatFree) : ∃ m, n = .int m := by
  cases h with
  | int m => exact ⟨m, rfl⟩

theorem Runtime.valid {v : Value} (h : v.Runtime) : v.Valid := by
  induction h with
  | number | text | null => rfl
  | array _ ih => exact valid_array_iff.mpr ih
  | map hkeys _ ih =>
      exact valid_map_iff.mpr fun e he => ⟨hkeys.names e.1 (List.mem_map_of_mem he), ih e he⟩

theorem Runtime.keys {o : Origin} {es : List (Key × Value)} (h : (Value.map o es).Runtime) :
    DistinctNames (Entries.keys es) := (runtime_map_iff.mp h).1

/-! ## The parts of a value -/

/-- A part of an array is one of its items, and a part of a map the value of one of its entries. -/
theorem mem_of_step? {v w : Value} {s : Step} (h : v.step? s = some w) :
    (∃ o xs, v = .array o xs ∧ w ∈ xs) ∨ ∃ o es k, v = .map o es ∧ (k, w) ∈ es := by
  unfold step? at h
  split at h
  · exact .inl ⟨_, _, rfl, List.mem_of_getElem? h⟩
  · obtain ⟨k, hk⟩ := Entries.exists_mem_of_lookup h
    exact .inr ⟨_, _, k, rfl, hk⟩
  · cases h

theorem sizeOf_lt_of_step? {v w : Value} {s : Step} (h : v.step? s = some w) :
    sizeOf w < sizeOf v := by
  rcases mem_of_step? h with ⟨o, xs, rfl, hmem⟩ | ⟨o, es, k, rfl, hmem⟩
  · have := List.sizeOf_lt_of_mem hmem
    simp only [Value.array.sizeOf_spec]
    omega
  · have := List.sizeOf_lt_of_mem hmem
    simp only [Value.map.sizeOf_spec, Prod.mk.sizeOf_spec] at *
    omega

/-- Induction over a value with one hypothesis for all of its parts. -/
@[elab_as_elim]
theorem step_induct {motive : Value → Prop}
    (h : ∀ v, (∀ s w, v.step? s = some w → motive w) → motive v) (v : Value) : motive v :=
  h v fun _ w _ => step_induct h w
termination_by sizeOf v
decreasing_by exact sizeOf_lt_of_step? ‹_›

theorem Runtime.step? {v w : Value} {s : Step} (hv : v.Runtime) (h : v.step? s = some w) :
    w.Runtime := by
  rcases mem_of_step? h with ⟨o, xs, rfl, hmem⟩ | ⟨o, es, k, rfl, hmem⟩
  · exact runtime_array_iff.mp hv w hmem
  · exact (runtime_map_iff.mp hv).2 _ hmem

theorem FloatFree.step? {v w : Value} {s : Step} (hv : v.FloatFree) (h : v.step? s = some w) :
    w.FloatFree := by
  rcases mem_of_step? h with ⟨o, xs, rfl, hmem⟩ | ⟨o, es, k, rfl, hmem⟩
  · exact floatFree_array_iff.mp hv w hmem
  · exact floatFree_map_iff.mp hv _ hmem

end Value

/-! ## Maps with distinct names -/

namespace Entries

variable {es fs : List (Key × Value)}

theorem lookup_name_eq_some_iff (hes : DistinctNames (keys es)) {name : String} {v : Value} :
    es.lookup (.name name) = some v ↔ (Key.name name, v) ∈ es := by
  induction es with
  | nil => simp
  | cons e es ih =>
      obtain ⟨k, w⟩ := e
      obtain ⟨hnames, hnodup⟩ := hes
      obtain ⟨⟨other, rfl⟩, hrest⟩ := List.forall_mem_cons.mp hnames
      obtain ⟨hfresh, hnodup⟩ := List.nodup_cons.mp hnodup
      rw [List.lookup_cons, Key.name_beq_name]
      by_cases hname : name = other
      · subst hname
        have hnone : (Key.name name, v) ∉ es := fun hmem =>
          hfresh (List.mem_map.mpr ⟨_, hmem, rfl⟩)
        simp [hnone, eq_comm]
      · rw [beq_eq_false_iff_ne.mpr hname]
        simp [hname, ih ⟨hrest, hnodup⟩]

theorem has_name_iff (hes : DistinctNames (keys es)) {name : String} :
    has (.name name) es = true ↔ Key.name name ∈ keys es := by
  rw [has, Option.isSome_iff_exists]
  simp only [lookup_name_eq_some_iff hes, keys, List.mem_map, Prod.exists]
  constructor
  · rintro ⟨v, hv⟩
    exact ⟨_, v, hv, rfl⟩
  · rintro ⟨k, v, hv, rfl⟩
    exact ⟨v, hv⟩

theorem filter_not_has_eq_nil_iff (hes : DistinctNames (keys es))
    (hfs : DistinctNames (keys fs)) :
    (keys es).filter (fun k => !has k fs) = [] ↔ keys es ⊆ keys fs := by
  rw [List.filter_eq_nil_iff]
  refine forall₂_congr fun k hk => ?_
  obtain ⟨name, rfl⟩ := hes.names k hk
  rw [← has_name_iff hfs]
  simp

/-- A map is known by its keys, in order, and what is looked up under them. -/
theorem eq_of_lookup_eq (hes : DistinctNames (keys es)) (h : keys fs = keys es)
    (hlookup : ∀ name v, es.lookup (.name name) = some v → fs.lookup (.name name) = some v) :
    es = fs := by
  refine List.ext_getElem? fun i => ?_
  have hi : (keys fs)[i]? = (keys es)[i]? := by rw [h]
  rw [keys, keys, List.getElem?_map, List.getElem?_map] at hi
  cases he : es[i]? with
  | none =>
      rw [he, Option.map_none, Option.map_eq_none_iff] at hi
      exact hi.symm
  | some e =>
      obtain ⟨k, v⟩ := e
      rw [he, Option.map_some, Option.map_eq_some_iff] at hi
      obtain ⟨⟨l, w⟩, hf, rfl : l = k⟩ := hi
      have he := List.mem_of_getElem? he
      obtain ⟨name, rfl : l = .name name⟩ := hes.names l (List.mem_map_of_mem he)
      have hv := (lookup_name_eq_some_iff hes).mpr he
      have hw := (lookup_name_eq_some_iff (h ▸ hes)).mpr (List.mem_of_getElem? hf)
      cases (hlookup name v hv).symm.trans hw
      exact hf.symm

end Entries

namespace Value

variable {o p : Origin} {xs ys : List Value} {es fs : List (Key × Value)} {s : Step}

theorem exists_step?_array (h : xs.length = ys.length) {x : Value}
    (hx : (array o xs).step? s = some x) : ∃ y, (array p ys).step? s = some y := by
  cases s with
  | index i =>
      have hi : i < xs.length := (List.getElem?_eq_some_iff.mp hx).1
      exact ⟨_, List.getElem?_eq_getElem (h ▸ hi)⟩
  | key name => cases hx

theorem exists_step?_map (hes : DistinctNames (Entries.keys es))
    (hfs : DistinctNames (Entries.keys fs)) (h : ∀ k ∈ Entries.keys es, k ∈ Entries.keys fs)
    {x : Value} (hx : (map o es).step? s = some x) : ∃ y, (map p fs).step? s = some y := by
  cases s with
  | index i => cases hx
  | key name =>
      have hmem := (Entries.has_name_iff hes).mp (Option.isSome_of_eq_some hx)
      exact Option.isSome_iff_exists.mp ((Entries.has_name_iff hfs).mpr (h _ hmem))

/-- An array is known by its length and its parts. -/
theorem items_ext (hlen : xs.length = ys.length)
    (h : ∀ s x, (array o xs).step? s = some x → (array p ys).step? s = some x) : xs = ys := by
  refine List.ext_getElem? fun i => ?_
  cases hx : xs[i]? with
  | none =>
      rw [List.getElem?_eq_none_iff] at hx
      rw [List.getElem?_eq_none (by omega)]
  | some x => exact (h (.index i) x hx).symm

/-- A map is known by its names, in order, and its parts. -/
theorem entries_ext (hes : DistinctNames (Entries.keys es))
    (hkeys : Entries.keys fs = Entries.keys es)
    (h : ∀ s x, (map o es).step? s = some x → (map p fs).step? s = some x) : es = fs :=
  Entries.eq_of_lookup_eq hes hkeys fun name => h (.key name)

theorem runtime_array (h : ∀ s x, (array o xs).step? s = some x → x.Runtime) :
    (array o xs).Runtime := by
  refine .array fun x hx => ?_
  obtain ⟨i, hi⟩ := List.mem_iff_getElem?.mp hx
  exact h (.index i) x hi

theorem runtime_map (hes : DistinctNames (Entries.keys es))
    (h : ∀ s x, (map o es).step? s = some x → x.Runtime) : (map o es).Runtime := by
  refine .map hes ?_
  rintro ⟨k, x⟩ he
  obtain ⟨name, rfl : k = .name name⟩ := hes.names k (List.mem_map_of_mem he)
  exact h (.key name) x ((Entries.lookup_name_eq_some_iff hes).mpr he)

end Value

end Glyph
