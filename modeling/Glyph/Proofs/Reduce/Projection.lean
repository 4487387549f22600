import Glyph.Proofs.Reduce.Identity
import Glyph.Proofs.Selection.Access

/-!
# Reducing along a path

Reducing commutes with descending along a path that is valid in every item: the identity of the
first item has there the identity of its part, each step of the fold makes of the parts there what
it makes of them alone, and so the result has there the reduction of the parts. The two folds apply
the verb to the same numbers in the same order, so doubles need no exception. Projecting a name out
of rows is a case of this.
-/

namespace Glyph

/-- The parts at a path of the items of an array, where all of them have one. -/
def column? (path : List Step) (xs : List Value) : Option (List Value) :=
  xs.mapM fun x => x.at? path

theorem column?_cons_eq_some_iff {path : List Step} {x : Value} {xs zs : List Value} :
    column? path (x :: xs) = some zs ↔
      ∃ y ys, x.at? path = some y ∧ column? path xs = some ys ∧ y :: ys = zs := by
  simp [column?, List.mapM_cons, Option.bind_eq_some_iff]

theorem Value.at?_singleton (v : Value) (s : Step) : v.at? [s] = v.step? s := by
  rw [at?_cons]
  cases v.step? s with
  | none => rfl
  | some w => exact w.at?_nil

theorem Value.step?_key_eq_none {o : Origin} {es : List (Key × Value)} {name : String}
    (hes : DistinctNames (Entries.keys es)) (h : Key.name name ∉ Entries.keys es) :
    (map o es).step? (.key name) = none := by
  rw [← Entries.has_name_iff hes, Entries.has, Option.not_isSome_iff_eq_none] at h
  exact h

theorem Meets.of_at? {a b x y : Value} {path : List Step} (hx : a.at? path = some x)
    (hy : b.at? path = some y) : Meets a b path x y := by
  induction path generalizing a b with
  | nil =>
      rw [Value.at?_nil] at hx hy
      cases hx
      cases hy
      exact .here _ _
  | cons s path ih =>
      rw [Value.at?_cons] at hx hy
      obtain ⟨v, hv, hx⟩ := Option.bind_eq_some_iff.mp hx
      obtain ⟨w, hw, hy⟩ := Option.bind_eq_some_iff.mp hy
      exact .there (.both hv hw) (ih hx hy)

namespace Fold

variable {f : Fold} {a e r v x : Value} {vs xs : List Value} {path : List Step}

/-! ## Along a path -/

theorem at?_identityLike (hv : v.Runtime) (h : f.identityLike v = .ok e)
    (hx : v.at? path = some x) : ∃ z, e.at? path = some z ∧ f.identityLike x = .ok z := by
  induction path generalizing v e with
  | nil =>
      rw [Value.at?_nil] at hx
      cases hx
      exact ⟨e, Value.at?_nil e, h⟩
  | cons s path ih =>
      rw [Value.at?_cons] at hx
      obtain ⟨u, hu, hx⟩ := Option.bind_eq_some_iff.mp hx
      obtain ⟨k, -, -, hparts⟩ := resolves_identityLike hv h
      obtain ⟨z, hz, hid⟩ := hparts s u hu
      obtain ⟨y, hy, hidy⟩ := ih (hv.step? hu) hid hx
      exact ⟨y, by rw [Value.at?_cons, hz]; exact hy, hidy⟩

theorem at?_run (ha : a.Runtime) (hvs : ∀ v ∈ vs, v.Runtime) (h : f.run a vs = .ok r)
    (hx : a.at? path = some x) (hxs : column? path vs = some xs) :
    ∃ z, r.at? path = some z ∧ f.run x xs = .ok z := by
  induction vs generalizing a x xs with
  | nil =>
      cases h
      cases hxs
      exact ⟨x, hx, rfl⟩
  | cons v vs ih =>
      obtain ⟨hv, hvs⟩ := List.forall_mem_cons.mp hvs
      obtain ⟨y, ys, hy, hys, rfl⟩ := column?_cons_eq_some_iff.mp hxs
      obtain ⟨b, hb, h⟩ := run_cons_eq_ok_iff.mp h
      obtain ⟨w, hw, happly⟩ := Pervasive.at?_of_meets ha hv hb (.of_at? hx hy)
      obtain ⟨z, hz, hrun⟩ := ih (Pervasive.runtime_of_apply ha hv hb) hvs h hw hys
      exact ⟨z, hz, run_cons_eq_ok_iff.mpr ⟨w, happly, hrun⟩⟩

theorem at?_plain (hv : v.Runtime) (hvs : ∀ v ∈ vs, v.Runtime) (h : f.plain v vs = .ok r)
    (hx : v.at? path = some x) (hxs : column? path vs = some xs) :
    ∃ z, r.at? path = some z ∧ f.plain x xs = .ok z := by
  obtain ⟨e, he, h⟩ := Outcome.bind_eq_ok_iff.mp h
  obtain ⟨y, hy, hid⟩ := at?_identityLike hv he hx
  have hcolumn := column?_cons_eq_some_iff.mpr ⟨x, xs, hx, hxs, rfl⟩
  obtain ⟨z, hz, hrun⟩ := at?_run (runtime_identityLike hv he)
    (List.forall_mem_cons.mpr ⟨hv, hvs⟩) h hy hcolumn
  exact ⟨z, hz, Outcome.bind_eq_ok_iff.mpr ⟨y, hid, hrun⟩⟩

/-! ## Rows of maps -/

/-- All rows that are added to a map have its names, and so has the result, in their order. -/
theorem frame?_run {ks : List Key} (ha : a.Runtime) (hvs : ∀ v ∈ vs, v.Runtime)
    (hk : a.frame? = some (.map ks)) (h : f.run a vs = .ok r) :
    r.frame? = some (.map ks) ∧
      ∀ v ∈ vs, ∃ ls, v.frame? = some (.map ls) ∧ ∀ k, k ∈ ks ↔ k ∈ ls := by
  induction vs generalizing a with
  | nil =>
      cases h
      exact ⟨hk, by simp⟩
  | cons v vs ih =>
      obtain ⟨hv, hvs⟩ := List.forall_mem_cons.mp hvs
      obtain ⟨b, hb, h⟩ := run_cons_eq_ok_iff.mp h
      obtain ⟨k, l, m, hk', hl, hm, hjoins⟩ := joins_of_apply ha hv hb
      cases hk.symm.trans hk'
      cases hjoins with
      | maps hkeys =>
          obtain ⟨hr, hrows⟩ := ih (Pervasive.runtime_of_apply ha hv hb) hvs hm h
          exact ⟨hr, List.forall_mem_cons.mpr ⟨⟨_, hl, hkeys⟩, hrows⟩⟩

end Fold

section Reduced

variable {f : Fold} {o : Origin} {r : Value} {xs vs : List Value}

theorem exists_plain_of_reduce (h : reduce (.pervasive f.verb) (.array o xs) = .ok r) :
    ∃ y ys, xs = y :: ys ∧ f.plain y ys = .ok r := by
  cases xs with
  | nil => cases f <;> cases h
  | cons y ys => exact ⟨y, ys, rfl, (reduce_eq_plain f o y ys).symm.trans h⟩

theorem reduce_copies (f : Fold) (o : Origin) (xs : List Value) :
    reduce (.pervasive f.verb) (.array o (xs.map Value.copy)) =
      reduce (.pervasive f.verb) (.array o xs) := by
  cases xs with
  | nil => rfl
  | cons x xs => rw [List.map_cons, reduce_eq_plain, reduce_eq_plain, Fold.plain_copies]

/-- The result has at a path the reduction of what the items have there. -/
theorem at?_of_reduce (hxs : ∀ x ∈ xs, x.Runtime)
    (h : reduce (.pervasive f.verb) (.array o xs) = .ok r) {path : List Step}
    (hcolumn : column? path xs = some vs) (p : Origin) :
    ∃ z, r.at? path = some z ∧ reduce (.pervasive f.verb) (.array p vs) = .ok z := by
  obtain ⟨y, ys, rfl, hplain⟩ := exists_plain_of_reduce h
  obtain ⟨hy, hys⟩ := List.forall_mem_cons.mp hxs
  obtain ⟨v, ws, hv, hws, rfl⟩ := column?_cons_eq_some_iff.mp hcolumn
  obtain ⟨z, hz, hpart⟩ := Fold.at?_plain hy hys hplain hv hws
  exact ⟨z, hz, (reduce_eq_plain f p v ws).trans hpart⟩

/-- Rows that have a sum or product have the names of the result, and no others. -/
theorem names_of_reduce (hxs : ∀ x ∈ xs, x.Runtime) (hmaps : ∀ x ∈ xs, ∃ p es, x = .map p es)
    (h : reduce (.pervasive f.verb) (.array o xs) = .ok r) :
    ∃ gs, r = .record gs ∧ DistinctNames (Entries.keys gs) ∧
      ∀ x ∈ xs, ∃ ls, x.frame? = some (.map ls) ∧ ∀ k, k ∈ Entries.keys gs ↔ k ∈ ls := by
  obtain ⟨y, ys, rfl, hplain⟩ := exists_plain_of_reduce h
  obtain ⟨e, he, hrun⟩ := Outcome.bind_eq_ok_iff.mp hplain
  obtain ⟨⟨p, es, rfl⟩, -⟩ := List.forall_mem_cons.mp hmaps
  obtain ⟨hy, -⟩ := List.forall_mem_cons.mp hxs
  obtain ⟨k, hk, hframe, -⟩ := Fold.resolves_identityLike hy he
  cases hk
  obtain ⟨hr, hrows⟩ := Fold.frame?_run (Fold.runtime_identityLike hy he) hxs hframe hrun
  obtain ⟨q, gs, rfl, hgs⟩ := Value.eq_map_of_frame? hr
  cases native_reduce _ _ _ h
  exact ⟨gs, rfl, hgs ▸ hy.keys, hgs ▸ hrows⟩

theorem exists_column? {path : List Step} (h : ∀ x ∈ xs, ∃ v, x.at? path = some v) :
    ∃ vs, column? path xs = some vs := by
  induction xs with
  | nil => exact ⟨[], rfl⟩
  | cons x xs ih =>
      obtain ⟨⟨v, hv⟩, hxs⟩ := List.forall_mem_cons.mp h
      obtain ⟨vs, hvs⟩ := ih hxs
      exact ⟨v :: vs, column?_cons_eq_some_iff.mpr ⟨v, vs, hv, hvs, rfl⟩⟩

/-- The cells of rows are copies of what they have under the name. -/
theorem cells_of_column? {name : String} (h : column? [.key name] xs = some vs) :
    xs.mapM (Access.cell name) = .ok (vs.map Value.copy) := by
  induction xs generalizing vs with
  | nil =>
      cases h
      rfl
  | cons x xs ih =>
      obtain ⟨v, ws, hv, hws, rfl⟩ := column?_cons_eq_some_iff.mp h
      rw [Value.at?_singleton] at hv
      rw [List.mapM_cons, Access.cell_eq_ok_iff.mpr ⟨v, hv, rfl⟩, ih hws]
      rfl

/-- A name is projected out of reduced rows, or missed in them, as it is in the rows. -/
theorem access_of_reduce (hxs : ∀ x ∈ xs, x.Runtime) (hmaps : ∀ x ∈ xs, ∃ p es, x = .map p es)
    (h : reduce (.pervasive f.verb) (.array o xs) = .ok r) (name : String) :
    Dyadic.apply .access r (.text name) = (do
      reduce (.pervasive f.verb) (← Dyadic.apply .access (.array o xs) (.text name))) := by
  obtain ⟨gs, rfl, hgs, hrows⟩ := names_of_reduce hxs hmaps h
  have haccess : Dyadic.apply .access (.array o xs) (.text name) =
      (do return .vector (← xs.mapM (Access.cell name))) := by
    rw [← Access.project_eq_mapM hmaps]
    rfl
  change Access.cell name (.record gs) = _
  rw [haccess]
  by_cases hname : Key.name name ∈ Entries.keys gs
  · have hparts : ∀ x ∈ xs, ∃ v, x.at? [.key name] = some v := by
      intro x hx
      obtain ⟨ls, hls, hkeys⟩ := hrows x hx
      rw [Value.at?_singleton]
      exact (Value.exists_step?_iff (s := .key name) (hxs x hx) hls).mpr ((hkeys _).mp hname)
    obtain ⟨vs, hvs⟩ := exists_column? hparts
    obtain ⟨z, hz, hreduce⟩ := at?_of_reduce hxs h hvs .native
    rw [Value.at?_singleton] at hz
    have hcopy := Value.Native.copy_eq (native_reduce _ _ _ hreduce)
    rw [cells_of_column? hvs, Access.cell_eq_ok_iff.mpr ⟨z, hz, hcopy.symm⟩, ← hreduce,
      ← reduce_copies]
    rfl
  · -- The first row misses the name as well, so nothing is reduced.
    obtain ⟨y, ys, rfl, -⟩ := exists_plain_of_reduce h
    obtain ⟨⟨p, es, rfl⟩, -⟩ := List.forall_mem_cons.mp hmaps
    obtain ⟨hy, -⟩ := List.forall_mem_cons.mp hxs
    obtain ⟨⟨ls, hls, hkeys⟩, -⟩ := List.forall_mem_cons.mp hrows
    cases hls
    have hrow : Key.name name ∉ Entries.keys es := fun hmem => hname ((hkeys _).mpr hmem)
    rw [Access.cell_of_step?_eq_none (Value.step?_key_eq_none hgs hname), List.mapM_cons,
      Access.cell_of_step?_eq_none (Value.step?_key_eq_none hy.keys hrow)]
    rfl

end Reduced

/-- Reducing commutes with descending along a path that leads to a part of every item: it leads to a
part of the result, which is the reduction of these parts. In particular a name is projected out of
reduced rows as the rows are reduced after the projection, missing names included. -/
theorem reduce_column (f : Fold) (o : Origin) {xs : List Value} {r : Value}
    (hxs : ∀ x ∈ xs, x.Runtime) (h : reduce (.pervasive f.verb) (.array o xs) = .ok r) :
    (∀ path vs p, column? path xs = some vs →
        ∃ z, r.at? path = some z ∧ reduce (.pervasive f.verb) (.array p vs) = .ok z) ∧
      ((∀ x ∈ xs, ∃ p es, x = .map p es) → ∀ name,
        Dyadic.apply .access r (.text name) = (do
          reduce (.pervasive f.verb) (← Dyadic.apply .access (.array o xs) (.text name)))) :=
  ⟨fun _ _ p hcolumn => at?_of_reduce hxs h hcolumn p,
    fun hmaps name => access_of_reduce hxs hmaps h name⟩

/-- Rows with their names in different orders and a number next to an array in one of them; the path
to the doubles leads through a map and an array, and their sum depends on the order. -/
theorem reduce_column_doubles :
    let rows := [
      Value.record
        [(.name "a", .vector [.float 9007199254740992.0, .vector [.int 1]]), (.name "b", .int 1)],
      .record [(.name "b", .int 2), (.name "a", .vector [.float 1.0, .int 7])],
      .record [(.name "a", .vector [.float 1.0, .vector [.int 5]]), (.name "b", .int 4)]]
    ∃ r, reduce (.pervasive .add) (.vector rows) = .ok r ∧
      r.at? [.key "a", .index 0] = some (.float 9007199254740992.0) ∧
      reduce (.pervasive .add) (.vector [.float 9007199254740992.0, .float 1.0, .float 1.0]) =
        .ok (.float 9007199254740992.0) ∧
      Dyadic.apply .access r (.text "b") = .ok (.int 7) ∧
      Dyadic.apply .access r (.text "c") = fail (.missingKey "c") := by
  intro rows
  have hrows : ∀ x ∈ rows, x.Runtime := by simp [rows, distinctNames_iff]
  have hmaps : ∀ x ∈ rows, ∃ p es, x = .map p es := by simp [rows]
  have h : reduce (.pervasive .add) (.vector rows) = .ok (.record
      [(.name "a", .vector [.float 9007199254740992.0, .vector [.int 13]]), (.name "b", .int 7)]) :=
    rfl
  obtain ⟨hcolumn, hnames⟩ := reduce_column .sum .native hrows h
  obtain ⟨z, hz, hsum⟩ := hcolumn [.key "a", .index 0]
    [.float 9007199254740992.0, .float 1.0, .float 1.0] .native rfl
  cases hz
  exact ⟨_, h, rfl, hsum, (hnames hmaps "b").trans rfl, (hnames hmaps "c").trans rfl⟩

end Glyph
