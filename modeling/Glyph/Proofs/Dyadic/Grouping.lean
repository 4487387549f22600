import Glyph.Proofs.Dyadic.Pathwise
import Glyph.Proofs.Value.Native

/-!
# Grouping operands

On values without doubles, sums and products have a result in both groupings of three operands or in
neither, and it is the same value. The level that the operands have in common is settled by their
frames alone (`Frame.joins_assoc`), and their parts by induction. Sums and products are taken from a
side (`Fold.applyFrom`), so that one argument moves the brackets either way.
-/

namespace Glyph

namespace Fold

theorem onInts_comm (f : Fold) (m n : Int64) : f.onInts m n = f.onInts n m := by
  cases f with
  | sum => exact Int64.add_comm m n
  | product => exact Int64.mul_comm m n

theorem onInts_assoc (f : Fold) (l m n : Int64) :
    f.onInts (f.onInts l m) n = f.onInts l (f.onInts m n) := by
  cases f with
  | sum => exact Int64.add_assoc l m n
  | product => exact Int64.mul_assoc l m n

theorem apply_ints (f : Fold) (m n : Int64) :
    f.verb.apply (.int m) (.int n) = .ok (.int (f.onInts m n)) := by
  rw [Pervasive.apply_numbers]
  cases f <;> rfl

end Fold

/-! ## Frames -/

/-- What a value is at its first level, without its parts. -/
inductive Frame where
  | number
  | array (length : Nat)
  | map (keys : List Key)

def Value.frame? : Value → Option Frame
  | .number _ => some .number
  | .array _ xs => some (.array xs.length)
  | .map _ es => some (.map (Entries.keys es))
  | _ => none

namespace Frame

/-- The frame that sums and products make of two. -/
inductive Joins : Frame → Frame → Frame → Prop
  | numbers : Joins .number .number .number
  | arrays (n : Nat) : Joins (.array n) (.array n) (.array n)
  | arrayNumber (n : Nat) : Joins (.array n) .number (.array n)
  | numberArray (n : Nat) : Joins .number (.array n) (.array n)
  | maps {ks ls : List Key} (h : ∀ k, k ∈ ks ↔ k ∈ ls) : Joins (.map ks) (.map ls) (.map ks)

def HasStep : Frame → Step → Prop
  | .array n, .index i => i < n
  | .map ks, .key name => .name name ∈ ks
  | _, _ => False

theorem Joins.hasStep_iff {k l m : Frame} (h : Joins k l m) (s : Step) :
    m.HasStep s ↔ k.HasStep s ∨ l.HasStep s := by
  cases h with
  | numbers => exact or_self_iff.symm
  | arrays n => exact or_self_iff.symm
  | arrayNumber n => exact (or_iff_left id).symm
  | numberArray n => exact (or_iff_right id).symm
  | maps hkeys =>
      cases s with
      | index i => exact or_self_iff.symm
      | key name => exact ⟨Or.inl, fun h => h.elim id (hkeys _).mpr⟩

theorem Joins.unique {k l m n : Frame} (h : Joins k l m) (h' : Joins k l n) : m = n := by
  cases h <;> cases h' <;> rfl

/-- The frame of three operands is the same in both groupings. -/
theorem joins_assoc {k l m n : Frame} :
    (∃ kl, Joins k l kl ∧ Joins kl m n) ↔ ∃ lm, Joins l m lm ∧ Joins k lm n := by
  -- A number joins with an array but not with a map, so maps are never grouped with anything else.
  constructor
  · rintro ⟨kl, h, h'⟩
    cases h with
    | numbers =>
        cases h' with
        | numbers => exact ⟨_, .numbers, .numbers⟩
        | numberArray n => exact ⟨_, .numberArray n, .numberArray n⟩
    | arrays n =>
        cases h' with
        | arrays => exact ⟨_, .arrays n, .arrays n⟩
        | arrayNumber => exact ⟨_, .arrayNumber n, .arrays n⟩
    | arrayNumber n =>
        cases h' with
        | arrays => exact ⟨_, .numberArray n, .arrays n⟩
        | arrayNumber => exact ⟨_, .numbers, .arrayNumber n⟩
    | numberArray n =>
        cases h' with
        | arrays => exact ⟨_, .arrays n, .numberArray n⟩
        | arrayNumber => exact ⟨_, .arrayNumber n, .numberArray n⟩
    | maps hkeys =>
        cases h' with
        | maps hkeys' => exact ⟨_, .maps fun k => (hkeys k).symm.trans (hkeys' k), .maps hkeys⟩
  · rintro ⟨lm, h, h'⟩
    cases h with
    | numbers =>
        cases h' with
        | numbers => exact ⟨_, .numbers, .numbers⟩
        | arrayNumber n => exact ⟨_, .arrayNumber n, .arrayNumber n⟩
    | arrays n =>
        cases h' with
        | arrays => exact ⟨_, .arrays n, .arrays n⟩
        | numberArray => exact ⟨_, .numberArray n, .arrays n⟩
    | arrayNumber n =>
        cases h' with
        | arrays => exact ⟨_, .arrays n, .arrayNumber n⟩
        | numberArray => exact ⟨_, .numberArray n, .arrayNumber n⟩
    | numberArray n =>
        cases h' with
        | arrays => exact ⟨_, .arrayNumber n, .arrays n⟩
        | numberArray => exact ⟨_, .numbers, .numberArray n⟩
    | maps hkeys =>
        cases h' with
        | maps hkeys' => exact ⟨_, .maps hkeys', .maps fun k => (hkeys' k).trans (hkeys k)⟩

end Frame

namespace Value

variable {v w : Value} {s : Step}

theorem eq_number_of_frame? (h : v.frame? = some .number) : ∃ n, v = .number n := by
  cases v <;> cases h
  exact ⟨_, rfl⟩

theorem eq_array_of_frame? {n : Nat} (h : v.frame? = some (.array n)) :
    ∃ o xs, v = .array o xs ∧ xs.length = n := by
  cases v <;> cases h
  exact ⟨_, _, rfl, rfl⟩

theorem eq_map_of_frame? {ks : List Key} (h : v.frame? = some (.map ks)) :
    ∃ o es, v = .map o es ∧ Entries.keys es = ks := by
  cases v <;> cases h
  exact ⟨_, _, rfl, rfl⟩

theorem FloatFree.eq_int_of_frame? (hv : v.FloatFree) (h : v.frame? = some .number) :
    ∃ i, v = .int i := by
  obtain ⟨n, rfl⟩ := eq_number_of_frame? h
  obtain ⟨i, rfl⟩ := hv.exists_int
  exact ⟨i, rfl⟩

theorem exists_step?_iff {k : Frame} (hv : v.Runtime) (hk : v.frame? = some k) :
    (∃ w, v.step? s = some w) ↔ k.HasStep s := by
  cases k with
  | number =>
      obtain ⟨n, rfl⟩ := eq_number_of_frame? hk
      simp [step?, Frame.HasStep]
  | array n =>
      obtain ⟨o, xs, rfl, rfl⟩ := eq_array_of_frame? hk
      cases s with
      | index i => rw [← Option.isSome_iff_exists]; simp [step?, Frame.HasStep]
      | key name => simp [step?, Frame.HasStep]
  | map ks =>
      obtain ⟨o, es, rfl, rfl⟩ := eq_map_of_frame? hk
      cases s with
      | index i => simp [step?, Frame.HasStep]
      | key name => rw [← Option.isSome_iff_exists]; exact Entries.has_name_iff hv.keys

/-! ## Parts -/

/-- The part of an operand that a step leads to; a number stays where it is. -/
def under? : Value → Step → Option Value
  | .number n, _ => some (.number n)
  | v, s => v.step? s

theorem under?_of_step? (h : v.step? s = some w) : v.under? s = some w := by
  cases v with
  | number n => cases h
  | _ => exact h

theorem step?_of_under? (h : v.under? s = some w) :
    v.step? s = some w ∨ ∃ n, v = .number n ∧ w = .number n := by
  cases v with
  | number n =>
      cases h
      exact .inr ⟨n, rfl, rfl⟩
  | _ => exact .inl h

theorem Runtime.under? (hv : v.Runtime) (h : v.under? s = some w) : w.Runtime := by
  rcases step?_of_under? h with h | ⟨n, rfl, rfl⟩
  · exact hv.step? h
  · exact hv

theorem FloatFree.under? (hv : v.FloatFree) (h : v.under? s = some w) : w.FloatFree := by
  rcases step?_of_under? h with h | ⟨n, rfl, rfl⟩
  · exact hv.step? h
  · exact hv

end Value

theorem Faces.under? {a b x y : Value} {s : Step} (h : Faces a b s x y) :
    a.under? s = some x ∧ b.under? s = some y := by
  cases h with
  | both hx hy => exact ⟨Value.under?_of_step? hx, Value.under?_of_step? hy⟩
  | left hx => exact ⟨Value.under?_of_step? hx, rfl⟩
  | right hy => exact ⟨rfl, Value.under?_of_step? hy⟩

namespace Frame

theorem Joins.hasStep_of_faces {a b x y : Value} {k l m : Frame} {s : Step} (h : Joins k l m)
    (ha : a.Runtime) (hb : b.Runtime) (hk : a.frame? = some k) (hl : b.frame? = some l)
    (hf : Faces a b s x y) : m.HasStep s := by
  rw [h.hasStep_iff, ← Value.exists_step?_iff ha hk, ← Value.exists_step?_iff hb hl]
  cases hf with
  | both hx _ => exact .inl ⟨_, hx⟩
  | left hx => exact .inl ⟨_, hx⟩
  | right hy => exact .inr ⟨_, hy⟩

def JoinsFrom (side : Side) (k l m : Frame) : Prop :=
  Joins (side.arrange k l).1 (side.arrange k l).2 m

variable {side : Side} {k l m : Frame}

theorem JoinsFrom.hasStep_iff (h : JoinsFrom side k l m) (s : Step) :
    m.HasStep s ↔ k.HasStep s ∨ l.HasStep s := by
  cases side with
  | left => exact Joins.hasStep_iff h s
  | right => exact (Joins.hasStep_iff h s).trans or_comm

theorem JoinsFrom.unique {n : Frame} (h : JoinsFrom side k l m) (h' : JoinsFrom side k l n) :
    m = n := Joins.unique h h'

theorem JoinsFrom.eq_number (h : JoinsFrom side k l .number) : k = .number ∧ l = .number := by
  cases side with
  | left =>
      cases h
      exact ⟨rfl, rfl⟩
  | right =>
      cases h
      exact ⟨rfl, rfl⟩

theorem JoinsFrom.assoc {kl n : Frame} (h : JoinsFrom side k l kl) (h' : JoinsFrom side kl m n) :
    ∃ lm, JoinsFrom side l m lm ∧ JoinsFrom side k lm n := by
  cases side with
  | left => exact joins_assoc.mp ⟨kl, h, h'⟩
  | right => exact joins_assoc.mpr ⟨kl, h, h'⟩

end Frame

namespace Fold

def applyFrom (f : Fold) (side : Side) (a b : Value) : Outcome Value :=
  f.verb.apply (side.arrange a b).1 (side.arrange a b).2

variable {f : Fold} {side : Side} {a b c r : Value} {k l m : Frame}

/-! ### One level -/

/-- The frames of two operands join to that of their sum or product. -/
theorem joins_of_apply (ha : a.Runtime) (hb : b.Runtime) (h : f.verb.apply a b = .ok r) :
    ∃ k l m, a.frame? = some k ∧ b.frame? = some l ∧ r.frame? = some m ∧ Frame.Joins k l m := by
  obtain ⟨hadmits, hmakes, -⟩ := Pervasive.resolves_of_apply ha hb h
  cases hmakes with
  | numbers _ => exact ⟨_, _, _, rfl, rfl, rfl, .numbers⟩
  | arrays hx hy =>
      refine ⟨_, _, _, rfl, rfl, rfl, ?_⟩
      rw [← hx, ← hy]
      exact .arrays _
  | arrayNumber hx =>
      refine ⟨_, _, _, rfl, rfl, rfl, ?_⟩
      rw [hx]
      exact .arrayNumber _
  | numberArray hy =>
      refine ⟨_, _, _, rfl, rfl, rfl, ?_⟩
      rw [hy]
      exact .numberArray _
  | maps hkeys =>
      refine ⟨_, _, _, rfl, rfl, rfl, ?_⟩
      rw [hkeys]
      exact .maps (Pervasive.admits_maps_iff.mp hadmits).2
  | mapNumber _ => cases f <;> exact absurd (hadmits.takes rfl rfl) (by decide)
  | numberMap _ => cases f <;> exact absurd (hadmits.takes rfl rfl) (by decide)

theorem admits_of_joins (hk : a.frame? = some k) (hl : b.frame? = some l) (h : Frame.Joins k l m)
    (hfree : m = .number → a.FloatFree ∧ b.FloatFree) : f.verb.Admits a b := by
  cases h with
  | numbers =>
      obtain ⟨hfa, hfb⟩ := hfree rfl
      obtain ⟨i, rfl⟩ := hfa.eq_int_of_frame? hk
      obtain ⟨j, rfl⟩ := hfb.eq_int_of_frame? hl
      exact Pervasive.admits_numbers_iff.mpr (by cases f <;> rfl)
  | arrays n =>
      obtain ⟨o, xs, rfl, hx⟩ := Value.eq_array_of_frame? hk
      obtain ⟨p, ys, rfl, hy⟩ := Value.eq_array_of_frame? hl
      exact Pervasive.admits_arrays_iff.mpr ⟨by cases f <;> rfl, hx.trans hy.symm⟩
  | arrayNumber n =>
      obtain ⟨o, xs, rfl, -⟩ := Value.eq_array_of_frame? hk
      obtain ⟨y, rfl⟩ := Value.eq_number_of_frame? hl
      exact Pervasive.admits_array_number_iff.mpr (by cases f <;> rfl)
  | numberArray n =>
      obtain ⟨x, rfl⟩ := Value.eq_number_of_frame? hk
      obtain ⟨p, ys, rfl, -⟩ := Value.eq_array_of_frame? hl
      exact Pervasive.admits_number_array_iff.mpr (by cases f <;> rfl)
  | maps hkeys =>
      obtain ⟨o, es, rfl, rfl⟩ := Value.eq_map_of_frame? hk
      obtain ⟨p, fs, rfl, rfl⟩ := Value.eq_map_of_frame? hl
      exact Pervasive.admits_maps_iff.mpr ⟨by cases f <;> rfl, hkeys⟩

theorem makes_of_joins (hr : r.Native) (hk : a.frame? = some k) (hl : b.frame? = some l)
    (hm : r.frame? = some m) (hcontainer : m ≠ .number) (h : Frame.Joins k l m) :
    f.verb.Makes a b r := by
  cases h with
  | numbers => exact absurd rfl hcontainer
  | arrays n =>
      obtain ⟨o, xs, rfl, hx⟩ := Value.eq_array_of_frame? hk
      obtain ⟨p, ys, rfl, hy⟩ := Value.eq_array_of_frame? hl
      obtain ⟨q, zs, rfl, hz⟩ := Value.eq_array_of_frame? hm
      cases hr
      exact .arrays (hz.trans hx.symm) (hz.trans hy.symm)
  | arrayNumber n =>
      obtain ⟨o, xs, rfl, hx⟩ := Value.eq_array_of_frame? hk
      obtain ⟨y, rfl⟩ := Value.eq_number_of_frame? hl
      obtain ⟨q, zs, rfl, hz⟩ := Value.eq_array_of_frame? hm
      cases hr
      exact .arrayNumber (hz.trans hx.symm)
  | numberArray n =>
      obtain ⟨x, rfl⟩ := Value.eq_number_of_frame? hk
      obtain ⟨p, ys, rfl, hy⟩ := Value.eq_array_of_frame? hl
      obtain ⟨q, zs, rfl, hz⟩ := Value.eq_array_of_frame? hm
      cases hr
      exact .numberArray (hz.trans hy.symm)
  | maps hkeys =>
      obtain ⟨o, es, rfl, hes⟩ := Value.eq_map_of_frame? hk
      obtain ⟨p, fs, rfl, -⟩ := Value.eq_map_of_frame? hl
      obtain ⟨q, gs, rfl, hgs⟩ := Value.eq_map_of_frame? hm
      cases hr
      exact .maps (hgs.trans hes.symm)

/-- The parts of two operands add up to the part of the result. -/
theorem under?_of_apply (ha : a.Runtime) (hb : b.Runtime) (h : f.verb.apply a b = .ok r)
    {s : Step} {x y : Value} (hx : a.under? s = some x) (hy : b.under? s = some y) :
    ∃ z, r.under? s = some z ∧ f.verb.apply x y = .ok z := by
  have hlevel := Pervasive.resolves_of_apply ha hb h
  have hfaced : Faces a b s x y → ∃ z, r.under? s = some z ∧ f.verb.apply x y = .ok z := by
    intro hf
    obtain ⟨z, hz, happly⟩ := hlevel.parts s x y hf
    exact ⟨z, Value.under?_of_step? hz, happly⟩
  rcases Value.step?_of_under? hx with hx | ⟨m, rfl, rfl⟩
  · rcases Value.step?_of_under? hy with hy | ⟨n, rfl, rfl⟩
    · exact hfaced (.both hx hy)
    · exact hfaced (.left hx)
  · rcases Value.step?_of_under? hy with hy | ⟨n, rfl, rfl⟩
    · exact hfaced (.right hy)
    · cases hlevel.makes with
      | numbers hz => exact ⟨_, rfl, h⟩

/-- A part of the result is the sum or product of parts of the operands. -/
theorem exists_under?_of_apply (ha : a.Runtime) (hb : b.Runtime) (h : f.verb.apply a b = .ok r)
    {s : Step} {z : Value} (hz : r.under? s = some z) :
    ∃ x y, a.under? s = some x ∧ b.under? s = some y ∧ f.verb.apply x y = .ok z := by
  have hlevel := Pervasive.resolves_of_apply ha hb h
  rcases Value.step?_of_under? hz with hz | ⟨n, rfl, rfl⟩
  · obtain ⟨x, y, hf⟩ := hlevel.makes.exists_faces ha hb hlevel.admits hz
    obtain ⟨z', hz', happly⟩ := hlevel.parts s x y hf
    cases hz.symm.trans hz'
    exact ⟨x, y, hf.under?.1, hf.under?.2, happly⟩
  · cases hlevel.makes with
    | numbers hz => exact ⟨_, _, rfl, rfl, h⟩

/-- Operands whose frames join have a sum or product where their parts have one. -/
theorem exists_apply_of_joins (ha : a.Runtime) (hb : b.Runtime) (hfa : a.FloatFree)
    (hfb : b.FloatFree) (hk : a.frame? = some k) (hl : b.frame? = some l) (h : Frame.Joins k l m)
    (hparts : ∀ s x y, m.HasStep s → a.under? s = some x → b.under? s = some y →
      ∃ z, f.verb.apply x y = .ok z) : ∃ r, f.verb.apply a b = .ok r := by
  have hadmits := admits_of_joins (f := f) hk hl h fun _ => ⟨hfa, hfb⟩
  refine Pervasive.exists_apply ha hb hadmits fun s x y hf => ?_
  exact hparts s x y (h.hasStep_of_faces ha hb hk hl hf) hf.under?.1 hf.under?.2

/-- A container whose parts are those of the sum or product is the sum or product. -/
theorem apply_of_joins (ha : a.Runtime) (hb : b.Runtime) (hr : r.Runtime) (hnative : r.Native)
    (hk : a.frame? = some k) (hl : b.frame? = some l) (hm : r.frame? = some m)
    (h : Frame.Joins k l m) (hcontainer : m ≠ .number)
    (hparts : ∀ s z, r.step? s = some z →
      ∃ x y, a.under? s = some x ∧ b.under? s = some y ∧ f.verb.apply x y = .ok z) :
    f.verb.apply a b = .ok r := by
  have hadmits := admits_of_joins (f := f) hk hl h fun hm => absurd hm hcontainer
  have hmakes := makes_of_joins (f := f) hnative hk hl hm hcontainer h
  refine (Pervasive.apply_eq_ok_iff ha hb).mpr ⟨hadmits, hmakes, fun s x y hf => ?_⟩
  obtain ⟨z, hz⟩ := (Value.exists_step?_iff hr hm).mpr (h.hasStep_of_faces ha hb hk hl hf)
  obtain ⟨x', y', hx, hy, happly⟩ := hparts s z hz
  cases hf.under?.1.symm.trans hx
  cases hf.under?.2.symm.trans hy
  exact ⟨z, hz, happly⟩

/-! ### From a side -/

theorem runtime_of_applyFrom (ha : a.Runtime) (hb : b.Runtime)
    (h : f.applyFrom side a b = .ok r) : r.Runtime := by
  cases side with
  | left => exact Pervasive.runtime_of_apply ha hb h
  | right => exact Pervasive.runtime_of_apply hb ha h

theorem native_of_applyFrom (h : f.applyFrom side a b = .ok r) : r.Native :=
  Pervasive.native_apply f.verb _ _ r h

theorem applyFrom_ints (f : Fold) (side : Side) (i j : Int64) :
    f.applyFrom side (.int i) (.int j) = .ok (.int (f.onInts i j)) := by
  cases side with
  | left => exact f.apply_ints i j
  | right => exact (f.apply_ints j i).trans (by rw [f.onInts_comm])

theorem joinsFrom_of_applyFrom (ha : a.Runtime) (hb : b.Runtime)
    (h : f.applyFrom side a b = .ok r) :
    ∃ k l m, a.frame? = some k ∧ b.frame? = some l ∧ r.frame? = some m ∧
      Frame.JoinsFrom side k l m := by
  cases side with
  | left => exact joins_of_apply ha hb h
  | right =>
      obtain ⟨l, k, m, hl, hk, hm, hjoins⟩ := joins_of_apply hb ha h
      exact ⟨k, l, m, hk, hl, hm, hjoins⟩

theorem frame?_of_applyFrom (ha : a.Runtime) (hb : b.Runtime) (hk : a.frame? = some k)
    (hl : b.frame? = some l) (hjoins : Frame.JoinsFrom side k l m)
    (h : f.applyFrom side a b = .ok r) : r.frame? = some m := by
  obtain ⟨k', l', m', hk', hl', hm', hjoins'⟩ := joinsFrom_of_applyFrom ha hb h
  cases hk.symm.trans hk'
  cases hl.symm.trans hl'
  rw [hm', hjoins.unique hjoins']

theorem under?_of_applyFrom (ha : a.Runtime) (hb : b.Runtime) (h : f.applyFrom side a b = .ok r)
    {s : Step} {x y : Value} (hx : a.under? s = some x) (hy : b.under? s = some y) :
    ∃ z, r.under? s = some z ∧ f.applyFrom side x y = .ok z := by
  cases side with
  | left => exact under?_of_apply ha hb h hx hy
  | right => exact under?_of_apply hb ha h hy hx

theorem exists_under?_of_applyFrom (ha : a.Runtime) (hb : b.Runtime)
    (h : f.applyFrom side a b = .ok r) {s : Step} {z : Value} (hz : r.under? s = some z) :
    ∃ x y, a.under? s = some x ∧ b.under? s = some y ∧ f.applyFrom side x y = .ok z := by
  cases side with
  | left => exact exists_under?_of_apply ha hb h hz
  | right =>
      obtain ⟨y, x, hy, hx, happly⟩ := exists_under?_of_apply hb ha h hz
      exact ⟨x, y, hx, hy, happly⟩

theorem exists_applyFrom_of_joins (ha : a.Runtime) (hb : b.Runtime) (hfa : a.FloatFree)
    (hfb : b.FloatFree) (hk : a.frame? = some k) (hl : b.frame? = some l)
    (h : Frame.JoinsFrom side k l m)
    (hparts : ∀ s x y, m.HasStep s → a.under? s = some x → b.under? s = some y →
      ∃ z, f.applyFrom side x y = .ok z) : ∃ r, f.applyFrom side a b = .ok r := by
  cases side with
  | left => exact exists_apply_of_joins ha hb hfa hfb hk hl h hparts
  | right =>
      exact exists_apply_of_joins hb ha hfb hfa hl hk h fun s y x hs hy hx => hparts s x y hs hx hy

theorem applyFrom_of_joins (ha : a.Runtime) (hb : b.Runtime) (hr : r.Runtime) (hnative : r.Native)
    (hk : a.frame? = some k) (hl : b.frame? = some l) (hm : r.frame? = some m)
    (h : Frame.JoinsFrom side k l m) (hcontainer : m ≠ .number)
    (hparts : ∀ s z, r.step? s = some z →
      ∃ x y, a.under? s = some x ∧ b.under? s = some y ∧ f.applyFrom side x y = .ok z) :
    f.applyFrom side a b = .ok r := by
  cases side with
  | left => exact apply_of_joins ha hb hr hnative hk hl hm h hcontainer hparts
  | right =>
      refine apply_of_joins hb ha hr hnative hl hk hm h hcontainer fun s z hz => ?_
      obtain ⟨x, y, hx, hy, happly⟩ := hparts s z hz
      exact ⟨y, x, hy, hx, happly⟩

theorem applyFrom_assoc_ints (f : Fold) (side : Side) (i j k : Int64) :
    f.applyFrom side (.int i) (.int (f.onInts j k)) =
      f.applyFrom side (.int (f.onInts i j)) (.int k) := by
  rw [applyFrom_ints, applyFrom_ints, onInts_assoc]

/-- The brackets can be moved where they can be moved at all parts of the result. -/
theorem applyFrom_assoc_of_parts {n lm : Frame} (ha : a.Runtime) (hb : b.Runtime) (hc : c.Runtime)
    (hr : r.Runtime) (hfb : b.FloatFree) (hfc : c.FloatFree) (hnative : r.Native)
    (hk : a.frame? = some k) (hl : b.frame? = some l) (hm : c.frame? = some m)
    (hn : r.frame? = some n) (hlm : Frame.JoinsFrom side l m lm)
    (hklm : Frame.JoinsFrom side k lm n) (hcontainer : n ≠ .number)
    (hparts : ∀ s w, r.step? s = some w → ∃ x y z, a.under? s = some x ∧ b.under? s = some y ∧
      c.under? s = some z ∧ ∃ yz, f.applyFrom side y z = .ok yz ∧ f.applyFrom side x yz = .ok w) :
    ∃ bc, f.applyFrom side b c = .ok bc ∧ f.applyFrom side a bc = .ok r := by
  have hbc : ∃ bc, f.applyFrom side b c = .ok bc := by
    refine exists_applyFrom_of_joins hb hc hfb hfc hl hm hlm fun s y z hs hy hz => ?_
    obtain ⟨w, hw⟩ := (Value.exists_step?_iff hr hn).mpr ((hklm.hasStep_iff s).mpr (.inr hs))
    obtain ⟨x, y', z', -, hy', hz', yz, hyz, -⟩ := hparts s w hw
    cases hy.symm.trans hy'
    cases hz.symm.trans hz'
    exact ⟨yz, hyz⟩
  obtain ⟨bc, hbc⟩ := hbc
  have hbc' := runtime_of_applyFrom hb hc hbc
  have hframe := frame?_of_applyFrom hb hc hl hm hlm hbc
  refine ⟨bc, hbc, applyFrom_of_joins ha hbc' hr hnative hk hframe hn hklm hcontainer ?_⟩
  intro s w hw
  obtain ⟨x, y, z, hx, hy, hz, yz, hyz, hxyz⟩ := hparts s w hw
  obtain ⟨yz', hyz', h⟩ := under?_of_applyFrom hb hc hbc hy hz
  cases hyz.symm.trans h
  exact ⟨x, yz, hx, hyz', hxyz⟩

/-- The brackets can be moved away from the side that the operands are taken from. -/
theorem applyFrom_assoc (side : Side) {ab : Value} (ha : a.Runtime) (hb : b.Runtime)
    (hc : c.Runtime) (hfa : a.FloatFree) (hfb : b.FloatFree) (hfc : c.FloatFree)
    (hab : f.applyFrom side a b = .ok ab) (hr : f.applyFrom side ab c = .ok r) :
    ∃ bc, f.applyFrom side b c = .ok bc ∧ f.applyFrom side a bc = .ok r := by
  induction r using Value.step_induct generalizing a b c ab with
  | h r ih =>
      have hab' := runtime_of_applyFrom ha hb hab
      have hr' := runtime_of_applyFrom hab' hc hr
      obtain ⟨k, l, kl, hk, hl, hkl, hjoins⟩ := joinsFrom_of_applyFrom ha hb hab
      obtain ⟨kl', m, n, hkl', hm, hn, hjoins'⟩ := joinsFrom_of_applyFrom hab' hc hr
      cases hkl.symm.trans hkl'
      by_cases hnumber : n = .number
      · -- Only numbers have a number as their result.
        subst hnumber
        obtain ⟨rfl, rfl⟩ := hjoins'.eq_number
        obtain ⟨rfl, rfl⟩ := hjoins.eq_number
        obtain ⟨i, rfl⟩ := hfa.eq_int_of_frame? hk
        obtain ⟨j, rfl⟩ := hfb.eq_int_of_frame? hl
        obtain ⟨q, rfl⟩ := hfc.eq_int_of_frame? hm
        rw [applyFrom_ints] at hab
        cases hab
        exact ⟨_, applyFrom_ints f side j q, (applyFrom_assoc_ints f side i j q).trans hr⟩
      · obtain ⟨lm, hlm, hklm⟩ := hjoins.assoc hjoins'
        -- A part of the result is made of parts of all three operands, taken in this grouping.
        refine applyFrom_assoc_of_parts ha hb hc hr' hfb hfc (native_of_applyFrom hr) hk hl hm hn
          hlm hklm hnumber fun s w hw => ?_
        obtain ⟨xy, z, hxy, hz, hxyz⟩ :=
          exists_under?_of_applyFrom hab' hc hr (Value.under?_of_step? hw)
        obtain ⟨x, y, hx, hy, hxy⟩ := exists_under?_of_applyFrom ha hb hab hxy
        exact ⟨x, y, z, hx, hy, hz, ih s w hw (ha.under? hx) (hb.under? hy) (hc.under? hz)
          (hfa.under? hx) (hfb.under? hy) (hfc.under? hz) hxy hxyz⟩

end Fold

/-- Sums and products of three values without doubles have a result in one grouping of the operands
where they have one in the other, and it is the same value. -/
theorem Dyadic.apply_assoc {op : Pervasive} (hop : op = .add ∨ op = .multiply) {a b c : Value}
    (ha : a.Runtime) (hb : b.Runtime) (hc : c.Runtime) (hfa : a.FloatFree) (hfb : b.FloatFree)
    (hfc : c.FloatFree) (r : Value) :
    (do Dyadic.apply (.pervasive op) (← Dyadic.apply (.pervasive op) a b) c) = .ok r ↔
      (do Dyadic.apply (.pervasive op) a (← Dyadic.apply (.pervasive op) b c)) = .ok r := by
  obtain ⟨f, rfl⟩ : ∃ f : Fold, op = f.verb := by
    rcases hop with rfl | rfl
    · exact ⟨.sum, rfl⟩
    · exact ⟨.product, rfl⟩
  rw [Outcome.bind_eq_ok_iff, Outcome.bind_eq_ok_iff]
  constructor
  · rintro ⟨ab, hab, hr⟩
    exact Fold.applyFrom_assoc .left ha hb hc hfa hfb hfc hab hr
  · rintro ⟨bc, hbc, hr⟩
    exact Fold.applyFrom_assoc .right hc hb ha hfc hfb hfa hbc hr

/-- Maps with their names in different orders, a number next to an array in one grouping only, and a
sum that wraps around on the way. -/
theorem Dyadic.apply_assoc_wrapping :
    let a := Value.record [(.name "x", .int 9223372036854775807), (.name "y", .vector [.int 2])]
    let b := Value.record [(.name "y", .int 3), (.name "x", .int 1)]
    let c := Value.record [(.name "x", .vector [.int (-1), .int 0]), (.name "y", .int 4)]
    let r := Value.record
      [(.name "x", .vector [.int 9223372036854775807, .int (-9223372036854775808)]),
        (.name "y", .vector [.int 9])]
    (do Dyadic.apply (.pervasive .add) (← Dyadic.apply (.pervasive .add) a b) c) = .ok r ∧
      (do Dyadic.apply (.pervasive .add) a (← Dyadic.apply (.pervasive .add) b c)) = .ok r := by
  intro a b c r
  have ha : a.Runtime := by simp [a, distinctNames_iff]
  have hb : b.Runtime := by simp [b, distinctNames_iff]
  have hc : c.Runtime := by simp [c, distinctNames_iff]
  have hfa : a.FloatFree := by simp [a]
  have hfb : b.FloatFree := by simp [b]
  have hfc : c.FloatFree := by simp [c]
  have h : (do Dyadic.apply (.pervasive .add) (← Dyadic.apply (.pervasive .add) a b) c) = .ok r :=
    rfl
  exact ⟨h, (apply_assoc (.inl rfl) ha hb hc hfa hfb hfc r).mp h⟩

end Glyph
