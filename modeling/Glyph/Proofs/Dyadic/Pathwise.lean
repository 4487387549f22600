import Glyph.Proofs.Dyadic.Level

/-!
# Broadcasting path by path

A path leads from two operands, taken in step, to the parts of them that meet at its end (`Meets`).
A pervasive verb has a result exactly where it admits all parts that meet, and the result has at
each path what the verb makes of the parts that meet there, and nothing at any other path.
-/

namespace Glyph

/-- A path leads from two operands, taken in step, to parts of them. -/
inductive Meets : Value → Value → List Step → Value → Value → Prop
  | here (a b : Value) : Meets a b [] a b
  | there {a b x y v w : Value} {s : Step} {path : List Step} (h : Faces a b s x y)
      (ht : Meets x y path v w) : Meets a b (s :: path) v w

theorem Meets.runtime {a b v w : Value} {path : List Step} (h : Meets a b path v w)
    (ha : a.Runtime) (hb : b.Runtime) : v.Runtime ∧ w.Runtime := by
  induction h with
  | here a b => exact ⟨ha, hb⟩
  | there hf _ ih =>
      obtain ⟨hx, hy⟩ := hf.runtime ha hb
      exact ih hx hy

namespace Pervasive

variable {op : Pervasive} {a b r : Value}

/-- The result has at each path where parts meet the result on these parts. -/
theorem at?_of_meets (ha : a.Runtime) (hb : b.Runtime) (h : op.apply a b = .ok r)
    {path : List Step} {x y : Value} (hmeets : Meets a b path x y) :
    ∃ z, r.at? path = some z ∧ op.apply x y = .ok z := by
  induction hmeets generalizing r with
  | here a b => exact ⟨r, Value.at?_nil r, h⟩
  | there hf _ ih =>
      obtain ⟨hx, hy⟩ := hf.runtime ha hb
      obtain ⟨z, hz, happly⟩ := (resolves_of_apply ha hb h).parts _ _ _ hf
      obtain ⟨z', hz', happly'⟩ := ih hx hy happly
      exact ⟨z', by rw [Value.at?_cons, hz]; exact hz', happly'⟩

/-- Where the result has a part, parts of the operands meet. -/
theorem meets_of_at? (ha : a.Runtime) (hb : b.Runtime) (h : op.apply a b = .ok r)
    {path : List Step} {z : Value} (hz : r.at? path = some z) :
    ∃ x y, Meets a b path x y ∧ op.apply x y = .ok z := by
  induction path generalizing a b r with
  | nil =>
      rw [Value.at?_nil] at hz
      cases hz
      exact ⟨a, b, .here a b, h⟩
  | cons s path ih =>
      rw [Value.at?_cons] at hz
      obtain ⟨r₁, hr₁, hz⟩ := Option.bind_eq_some_iff.mp hz
      have hlevel := resolves_of_apply ha hb h
      obtain ⟨x, y, hf⟩ := hlevel.makes.exists_faces ha hb hlevel.admits hr₁
      obtain ⟨r₂, hr₂, happly⟩ := hlevel.parts s x y hf
      cases hr₁.symm.trans hr₂
      obtain ⟨hx, hy⟩ := hf.runtime ha hb
      obtain ⟨v, w, hmeets, hvw⟩ := ih hx hy happly hz
      exact ⟨v, w, .there hf hmeets, hvw⟩

theorem runtime_of_apply (ha : a.Runtime) (hb : b.Runtime) (h : op.apply a b = .ok r) :
    r.Runtime := by
  induction r using Value.step_induct generalizing a b with
  | h r ih =>
      have hlevel := resolves_of_apply ha hb h
      refine hlevel.makes.runtime ha hb fun s z hz => ?_
      obtain ⟨x, y, hf⟩ := hlevel.makes.exists_faces ha hb hlevel.admits hz
      obtain ⟨z', hz', happly⟩ := hlevel.parts s x y hf
      cases hz.symm.trans hz'
      obtain ⟨hx, hy⟩ := hf.runtime ha hb
      exact ih s z hz hx hy happly

/-- A verb has a result exactly where it admits all parts of the operands that meet. -/
theorem exists_apply_iff_forall_meets (ha : a.Runtime) (hb : b.Runtime) :
    (∃ r, op.apply a b = .ok r) ↔ ∀ path x y, Meets a b path x y → op.Admits x y := by
  constructor
  · rintro ⟨r, hr⟩ path x y hmeets
    obtain ⟨hx, hy⟩ := hmeets.runtime ha hb
    obtain ⟨z, -, hz⟩ := at?_of_meets ha hb hr hmeets
    exact (resolves_of_apply hx hy hz).admits
  · intro h
    induction a, b using faces_induct with
    | h a b ih =>
        refine exists_apply ha hb (h [] a b (.here a b)) fun s x y hf => ?_
        obtain ⟨hx, hy⟩ := hf.runtime ha hb
        exact ih s x y hf hx hy fun path v w hmeets => h (s :: path) v w (.there hf hmeets)

end Pervasive

/-- A pervasive verb has a result exactly where it admits all parts of its operands that meet: their
kinds stand in its table, arrays are of one length, maps have the same keys, and sums, differences
and products are of numbers of one class. The result has at each path what the verb makes of the
parts that meet there, and nothing at any other path. -/
theorem Dyadic.apply_pathwise (op : Pervasive) {a b : Value} (ha : a.Runtime) (hb : b.Runtime) :
    ((∃ r, Dyadic.apply (.pervasive op) a b = .ok r) ↔
        ∀ path x y, Meets a b path x y → op.Admits x y) ∧
      ∀ r, Dyadic.apply (.pervasive op) a b = .ok r →
        (∀ path x y, Meets a b path x y → ∃ z, r.at? path = some z ∧ op.Makes x y z) ∧
        ∀ path z, r.at? path = some z → ∃ x y, Meets a b path x y ∧ op.Makes x y z := by
  refine ⟨Pervasive.exists_apply_iff_forall_meets ha hb, fun r hr => ⟨?_, ?_⟩⟩
  · intro path x y hmeets
    obtain ⟨hx, hy⟩ := hmeets.runtime ha hb
    obtain ⟨z, hz, happly⟩ := Pervasive.at?_of_meets ha hb hr hmeets
    exact ⟨z, hz, (Pervasive.resolves_of_apply hx hy happly).makes⟩
  · intro path z hz
    obtain ⟨x, y, hmeets, happly⟩ := Pervasive.meets_of_at? ha hb hr hz
    obtain ⟨hx, hy⟩ := hmeets.runtime ha hb
    exact ⟨x, y, hmeets, (Pervasive.resolves_of_apply hx hy happly).makes⟩

/-- Two maps with their names in different orders, and a number next to an array in them. -/
theorem Dyadic.apply_pathwise_reordered :
    let a := Value.record [(.name "x", .vector [.int 1, .int 2]), (.name "y", .int 3)]
    let b := Value.record [(.name "y", .int 10), (.name "x", .int 5)]
    (∀ path x y, Meets a b path x y → Pervasive.subtract.Admits x y) ∧
      ∃ r, Dyadic.apply (.pervasive .subtract) a b = .ok r ∧ Pervasive.subtract.Makes a b r ∧
        r.at? [.key "x", .index 1] = some (.int (-3)) := by
  intro a b
  have ha : a.Runtime := by simp [a, distinctNames_iff]
  have hb : b.Runtime := by simp [b, distinctNames_iff]
  obtain ⟨hiff, hresult⟩ := apply_pathwise .subtract ha hb
  have hr : Dyadic.apply (.pervasive .subtract) a b =
      .ok (.record [(.name "x", .vector [.int (-4), .int (-3)]), (.name "y", .int (-7))]) := rfl
  obtain ⟨hparts, -⟩ := hresult _ hr
  obtain ⟨r, hr', hmakes⟩ := hparts [] a b (.here a b)
  cases hr'
  refine ⟨hiff.mp ⟨_, hr⟩, _, hr, hmakes, ?_⟩
  have hmeets : Meets a b [.key "x", .index 1] (.int 2) (.int 5) :=
    .there (.both rfl rfl) (.there (.left rfl) (.here _ _))
  obtain ⟨z, hz, hsum⟩ := hparts _ _ _ hmeets
  cases hsum with
  | numbers h =>
      cases h
      exact hz

end Glyph
