import Glyph.Proofs.Reduce.Identity

/-!
# Reducing in two parts

On values without doubles, the reduction of an array in two parts is the sum or product of the
reductions of the parts, and there is one exactly where there are all three. The fold goes on from
the first part where the second starts anew at an identity. That identity leaves the first item of
the second part as it is, so what is left is to move the brackets item by item (`run_apply_iff`).
-/

namespace Glyph

namespace Fold

variable {f : Fold} {a b r s v : Value} {vs ws : List Value}

theorem run_append (acc : Value) (vs ws : List Value) :
    f.run acc (vs ++ ws) = (do f.run (← f.run acc vs) ws) := by
  simp only [run_eq_foldlM, List.foldlM_append]

theorem plain_append (v : Value) (vs ws : List Value) :
    f.plain v (vs ++ ws) = (do f.run (← f.plain v vs) ws) := by
  simp only [plain, ← List.cons_append, run_append, bind_assoc]

theorem whole_of_run (ha : a.Whole) (hvs : ∀ v ∈ vs, v.Whole) (h : f.run a vs = .ok r) :
    r.Whole := by
  induction vs generalizing a with
  | nil =>
      cases h
      exact ha
  | cons v vs ih =>
      obtain ⟨hv, hvs⟩ := List.forall_mem_cons.mp hvs
      obtain ⟨c, hc, h⟩ := run_cons_eq_ok_iff.mp h
      exact ih (whole_of_apply ha hv hc) hvs h

/-- Three operands have a sum or product in one grouping where they have it in the other. -/
theorem apply_apply_iff {c : Value} (ha : a.Whole) (hb : b.Whole) (hc : c.Whole) :
    (∃ d, f.verb.apply a b = .ok d ∧ f.verb.apply d c = .ok r) ↔
      ∃ d, f.verb.apply b c = .ok d ∧ f.verb.apply a d = .ok r := by
  constructor
  · rintro ⟨ab, hab, hr⟩
    exact applyFrom_assoc .left ha.runtime hb.runtime hc.runtime ha.floatFree hb.floatFree
      hc.floatFree hab hr
  · rintro ⟨bc, hbc, hr⟩
    exact applyFrom_assoc .right hc.runtime hb.runtime ha.runtime hc.floatFree hb.floatFree
      ha.floatFree hbc hr

/-- What stands to the left of the first item of a fold can be added at its end. -/
theorem run_apply_iff (ha : a.Whole) (hb : b.Whole) (hvs : ∀ v ∈ vs, v.Whole) :
    (∃ c, f.verb.apply a b = .ok c ∧ f.run c vs = .ok r) ↔
      ∃ c, f.run b vs = .ok c ∧ f.verb.apply a c = .ok r := by
  induction vs generalizing b with
  | nil =>
      constructor
      · rintro ⟨c, hc, ⟨⟩⟩
        exact ⟨b, rfl, hc⟩
      · rintro ⟨c, ⟨⟩, hc⟩
        exact ⟨r, hc, rfl⟩
  | cons v vs ih =>
      obtain ⟨hv, hvs⟩ := List.forall_mem_cons.mp hvs
      constructor
      · rintro ⟨ab, hab, h⟩
        obtain ⟨c, hc, h⟩ := run_cons_eq_ok_iff.mp h
        obtain ⟨bv, hbv, hc⟩ := (apply_apply_iff ha hb hv).mp ⟨ab, hab, hc⟩
        obtain ⟨d, hd, hr⟩ := (ih (whole_of_apply hb hv hbv) hvs).mp ⟨c, hc, h⟩
        exact ⟨d, run_cons_eq_ok_iff.mpr ⟨bv, hbv, hd⟩, hr⟩
      · rintro ⟨d, hd, hr⟩
        obtain ⟨bv, hbv, hd⟩ := run_cons_eq_ok_iff.mp hd
        obtain ⟨c, hc, h⟩ := (ih (whole_of_apply hb hv hbv) hvs).mpr ⟨d, hd, hr⟩
        obtain ⟨ab, hab, hc⟩ := (apply_apply_iff ha hb hv).mpr ⟨bv, hbv, hc⟩
        exact ⟨ab, hab, run_cons_eq_ok_iff.mpr ⟨c, hc, h⟩⟩

/-- A reduction starts at its first item, which has to have an identity. -/
theorem plain_eq_ok_iff (hv : v.Whole) :
    f.plain v vs = .ok r ↔ (∃ e, f.identityLike v = .ok e) ∧ f.run v.copy vs = .ok r := by
  rw [plain, Outcome.bind_eq_ok_iff]
  constructor
  · rintro ⟨e, he, h⟩
    obtain ⟨c, hc, h⟩ := run_cons_eq_ok_iff.mp h
    cases hc.symm.trans (apply_identityLike hv he)
    exact ⟨⟨e, he⟩, h⟩
  · rintro ⟨⟨e, he⟩, h⟩
    exact ⟨e, he, run_cons_eq_ok_iff.mpr ⟨v.copy, apply_identityLike hv he, h⟩⟩

theorem whole_of_plain (hv : v.Whole) (hvs : ∀ v ∈ vs, v.Whole) (h : f.plain v vs = .ok r) :
    r.Whole :=
  whole_of_run hv.copy hvs ((plain_eq_ok_iff hv).mp h).2

/-- Going on with a fold is reducing what is left and adding it. -/
theorem run_cons_iff_plain (ha : a.Whole) (hv : v.Whole) (hvs : ∀ v ∈ vs, v.Whole) :
    f.run a (v :: vs) = .ok r ↔ ∃ c, f.plain v vs = .ok c ∧ f.verb.apply a c = .ok r := by
  have hcopy := run_apply_iff (f := f) (r := r) ha hv.copy hvs
  rw [Pervasive.apply_copy_right] at hcopy
  rw [run_cons_eq_ok_iff, hcopy]
  constructor
  · rintro ⟨c, hc, hr⟩
    obtain ⟨d, hd, -⟩ := hcopy.mpr ⟨c, hc, hr⟩
    have hid := exists_identityLike_of_apply ha.runtime hv.runtime hd
    exact ⟨c, (plain_eq_ok_iff hv).mpr ⟨hid, hc⟩, hr⟩
  · rintro ⟨c, hc, hr⟩
    exact ⟨c, ((plain_eq_ok_iff hv).mp hc).2, hr⟩

end Fold

/-- An array in two parts that are not empty has a sum or product exactly where its parts have one
each and these two have one, which is then that of the array, with its keys in the same order. -/
theorem reduce_append (f : Fold) (o p q : Origin) {xs ys : List Value} (hxs : xs ≠ [])
    (hys : ys ≠ []) (hx : ∀ x ∈ xs, x.Whole) (hy : ∀ y ∈ ys, y.Whole) (r : Value) :
    reduce (.pervasive f.verb) (.array o (xs ++ ys)) = .ok r ↔
      ∃ s t, reduce (.pervasive f.verb) (.array p xs) = .ok s ∧
        reduce (.pervasive f.verb) (.array q ys) = .ok t ∧
        Dyadic.apply (.pervasive f.verb) s t = .ok r := by
  obtain ⟨x, xs, rfl⟩ := List.exists_cons_of_ne_nil hxs
  obtain ⟨y, ys, rfl⟩ := List.exists_cons_of_ne_nil hys
  obtain ⟨hx, hxs⟩ := List.forall_mem_cons.mp hx
  obtain ⟨hy, hys⟩ := List.forall_mem_cons.mp hy
  have hsecond : ∀ s, f.plain x xs = .ok s → (f.run s (y :: ys) = .ok r ↔
      ∃ t, f.plain y ys = .ok t ∧ f.verb.apply s t = .ok r) := fun s hs =>
    Fold.run_cons_iff_plain (Fold.whole_of_plain hx hxs hs) hy hys
  rw [List.cons_append, reduce_eq_plain, reduce_eq_plain, reduce_eq_plain, Fold.plain_append,
    Outcome.bind_eq_ok_iff]
  constructor
  · rintro ⟨s, hs, hr⟩
    obtain ⟨t, ht, hr⟩ := (hsecond s hs).mp hr
    exact ⟨s, t, hs, ht, hr⟩
  · rintro ⟨s, t, hs, ht, hr⟩
    exact ⟨s, hs, (hsecond s hs).mpr ⟨t, ht, hr⟩⟩

/-- Maps with their names in different orders, a number next to an array in one part only, and a sum
that wraps around between the parts. -/
theorem reduce_append_reordered :
    let x := Value.record [(.name "a", .int 9223372036854775807), (.name "b", .vector [.int 1])]
    let y := Value.record [(.name "b", .int 2), (.name "a", .int 1)]
    let z := Value.record [(.name "a", .vector [.int 3, .int 4]), (.name "b", .vector [.int 5])]
    let r := Value.record
      [(.name "a", .vector [.int (-9223372036854775805), .int (-9223372036854775804)]),
        (.name "b", .vector [.int 8])]
    reduce (.pervasive .add) (.vector [x, y, z]) = .ok r ∧
      ∃ s t, reduce (.pervasive .add) (.vector [x]) = .ok s ∧
        reduce (.pervasive .add) (.vector [y, z]) = .ok t ∧
        Dyadic.apply (.pervasive .add) s t = .ok r := by
  intro x y z r
  have hx : x.Whole := ⟨by simp [x, distinctNames_iff], by simp [x]⟩
  have hy : y.Whole := ⟨by simp [y, distinctNames_iff], by simp [y]⟩
  have hz : z.Whole := ⟨by simp [z, distinctNames_iff], by simp [z]⟩
  have h : reduce (.pervasive .add) (.vector ([x] ++ [y, z])) = .ok r := rfl
  exact ⟨h, (reduce_append .sum .native .native .native (by simp) (by simp) (by simp [hx])
    (by simp [hy, hz]) r).mp h⟩

end Glyph
