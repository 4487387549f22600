import Glyph.Proofs.Dyadic.Pathwise

/-!
# Exchanging operands

On values without doubles, sums, products and equalities have a result in both orders of their
operands or in neither, and the two results differ in the order of the keys of maps only.
-/

namespace Glyph

namespace Value

/-- The values are equal up to the order of the keys of maps, at every level. -/
inductive Reordered : Value → Value → Prop
  | number (n : Number) : Reordered (.number n) (.number n)
  | text (s : String) : Reordered (.text s) (.text s)
  | null : Reordered .null .null
  | array {o : Origin} {xs ys : List Value} (hlen : xs.length = ys.length)
      (h : ∀ (i : Nat) x y, xs[i]? = some x → ys[i]? = some y → Reordered x y) :
      Reordered (.array o xs) (.array o ys)
  | map {o : Origin} {es fs : List (Key × Value)}
      (hkeys : (Entries.keys es).Perm (Entries.keys fs))
      (h : ∀ name x y, es.lookup (.name name) = some x → fs.lookup (.name name) = some y →
        Reordered x y) : Reordered (.map o es) (.map o fs)

/-- Where both values have a map, that of the second has the keys of the first in their order. -/
def KeepsOrder (v r : Value) : Prop :=
  ∀ path o es p fs, v.at? path = some (.map o es) → r.at? path = some (.map p fs) →
    Entries.keys fs = Entries.keys es

end Value

theorem Faces.symm {a b x y : Value} {s : Step} (h : Faces a b s x y) : Faces b a s y x := by
  cases h with
  | both hx hy => exact .both hy hx
  | left hx => exact .right hx
  | right hy => exact .left hy

/-- Where the left operand has a part at the end of the path, it is that part that meets. -/
theorem Meets.eq_of_at? {a b x y v : Value} {path : List Step} (h : Meets a b path x y)
    (hv : a.at? path = some v) : x = v := by
  induction h with
  | here a b =>
      rw [Value.at?_nil] at hv
      exact Option.some.inj hv
  | there hf _ ih =>
      rw [Value.at?_cons] at hv
      obtain ⟨u, hu, hv⟩ := Option.bind_eq_some_iff.mp hv
      cases hf with
      | both hx hy =>
          cases hx.symm.trans hu
          exact ih hv
      | left hx =>
          cases hx.symm.trans hu
          exact ih hv
      | right hy => cases hu

namespace Pervasive

def Commutes (op : Pervasive) : Prop := op = .add ∨ op = .multiply ∨ op = .equal

variable {op : Pervasive} {a b r r' : Value}

theorem Commutes.mem_cases (hop : op.Commutes) {k l : Kind} (h : (k, l) ∈ op.cases) :
    (l, k) ∈ op.cases := by
  rcases hop with rfl | rfl | rfl <;> cases k <;> cases l <;> revert h <;> decide

theorem Commutes.combine_comm (hop : op.Commutes) (m n : Int64) :
    op.combine (.int m) (.int n) = op.combine (.int n) (.int m) := by
  rcases hop with rfl | rfl | rfl
  · exact congrArg (fun k => Except.ok (Number.int k)) (Int64.add_comm m n)
  · exact congrArg (fun k => Except.ok (Number.int k)) (Int64.mul_comm m n)
  · exact congrArg (fun k => Except.ok (indicator k)) Bool.beq_comm

theorem Admits.symm (hop : op.Commutes) (h : op.Admits a b) : op.Admits b a where
  kinds := by
    obtain ⟨k, l, hk, hl, hmem⟩ := h.kinds
    exact ⟨l, k, hl, hk, hop.mem_cases hmem⟩
  lengths := fun o p xs ys hx hy => (h.lengths p o ys xs hy hx).symm
  keys := fun o p es fs hes hfs k => (h.keys p o fs es hfs hes k).symm
  classes := fun harith m n hm hn => (h.classes harith n m hn hm).symm

theorem exists_apply_swap (hop : op.Commutes) (ha : a.Runtime) (hb : b.Runtime)
    (h : ∃ r, op.apply a b = .ok r) : ∃ r, op.apply b a = .ok r := by
  induction a, b using faces_induct with
  | h a b ih =>
      obtain ⟨hadmits, hparts⟩ := (exists_apply_iff ha hb).mp h
      refine exists_apply hb ha (hadmits.symm hop) fun s y x hf => ?_
      obtain ⟨hy, hx⟩ := hf.runtime hb ha
      exact ih s x y hf.symm hx hy (hparts s x y hf.symm)

theorem reordered_of_apply (hop : op.Commutes) (ha : a.Runtime) (hb : b.Runtime)
    (hfa : a.FloatFree) (hfb : b.FloatFree) (h : op.apply a b = .ok r)
    (h' : op.apply b a = .ok r') : r.Reordered r' := by
  induction r using Value.step_induct generalizing a b r' with
  | h r ih =>
      have hlevel := resolves_of_apply ha hb h
      have hlevel' := resolves_of_apply hb ha h'
      have hparts : ∀ s z z', r.step? s = some z → r'.step? s = some z' → z.Reordered z' := by
        intro s z z' hz hz'
        obtain ⟨x, y, hf⟩ := hlevel.makes.exists_faces ha hb hlevel.admits hz
        obtain ⟨z₁, hz₁, happly⟩ := hlevel.parts s x y hf
        obtain ⟨z₂, hz₂, happly'⟩ := hlevel'.parts s y x hf.symm
        cases hz.symm.trans hz₁
        cases hz'.symm.trans hz₂
        obtain ⟨hx, hy⟩ := hf.runtime ha hb
        obtain ⟨hfx, hfy⟩ := hf.floatFree hfa hfb
        exact ih s z hz hx hy hfx hfy happly happly'
      cases hlevel.makes with
      | @numbers x y z hz =>
          cases hlevel'.makes with
          | numbers hz' =>
              obtain ⟨m, rfl⟩ := hfa.exists_int
              obtain ⟨n, rfl⟩ := hfb.exists_int
              rw [hop.combine_comm] at hz
              cases hz.symm.trans hz'
              exact .number z
      | arrays hx hy =>
          cases hlevel'.makes with
          | arrays hy' hx' => exact .array (hx.trans hx'.symm) fun i => hparts (.index i)
      | arrayNumber hx =>
          cases hlevel'.makes with
          | numberArray hx' => exact .array (hx.trans hx'.symm) fun i => hparts (.index i)
      | numberArray hy =>
          cases hlevel'.makes with
          | arrayNumber hy' => exact .array (hy.trans hy'.symm) fun i => hparts (.index i)
      | maps hkeys =>
          cases hlevel'.makes with
          | maps hkeys' =>
              refine .map ?_ fun name => hparts (.key name)
              rw [hkeys, hkeys', List.perm_ext_iff_of_nodup ha.keys.nodup hb.keys.nodup]
              exact (admits_maps_iff.mp hlevel.admits).2
      | mapNumber hkeys =>
          cases hlevel'.makes with
          | numberMap hkeys' =>
              refine .map ?_ fun name => hparts (.key name)
              rw [hkeys, hkeys']
      | numberMap hkeys =>
          cases hlevel'.makes with
          | mapNumber hkeys' =>
              refine .map ?_ fun name => hparts (.key name)
              rw [hkeys, hkeys']

theorem keepsOrder_of_apply (ha : a.Runtime) (hb : b.Runtime) (h : op.apply a b = .ok r) :
    a.KeepsOrder r := by
  intro path o es p fs hes hfs
  obtain ⟨x, y, hmeets, happly⟩ := meets_of_at? ha hb h hfs
  obtain ⟨hx, hy⟩ := hmeets.runtime ha hb
  obtain rfl := hmeets.eq_of_at? hes
  cases (resolves_of_apply hx hy happly).makes with
  | maps hkeys => exact hkeys
  | mapNumber hkeys => exact hkeys

end Pervasive

/-- Sums, products and equalities of values without doubles have a result in one order of the
operands where they have one in the other. The two results are equal up to the order of the keys of
maps, in which each keeps to its own left operand. -/
theorem Dyadic.apply_comm {op : Pervasive} (hop : op = .add ∨ op = .multiply ∨ op = .equal)
    {a b : Value} (ha : a.Runtime) (hb : b.Runtime) (hfa : a.FloatFree) (hfb : b.FloatFree) :
    ((∃ r, Dyadic.apply (.pervasive op) a b = .ok r) ↔
        ∃ r, Dyadic.apply (.pervasive op) b a = .ok r) ∧
      ∀ r r', Dyadic.apply (.pervasive op) a b = .ok r → Dyadic.apply (.pervasive op) b a = .ok r' →
        r.Reordered r' ∧ a.KeepsOrder r ∧ b.KeepsOrder r' := by
  refine ⟨⟨?_, ?_⟩, fun r r' h h' => ⟨?_, ?_, ?_⟩⟩
  · exact Pervasive.exists_apply_swap hop ha hb
  · exact Pervasive.exists_apply_swap hop hb ha
  · exact Pervasive.reordered_of_apply hop ha hb hfa hfb h h'
  · exact Pervasive.keepsOrder_of_apply ha hb h
  · exact Pervasive.keepsOrder_of_apply hb ha h'

/-- Two maps with their names in different orders, and numbers next to arrays in both of them. -/
theorem Dyadic.apply_comm_reordered :
    let a := Value.record [(.name "x", .int 1), (.name "y", .vector [.int 2, .int 3])]
    let b := Value.record [(.name "y", .int 10), (.name "x", .vector [.int 4])]
    ∃ r r', Dyadic.apply (.pervasive .add) a b = .ok r ∧
      Dyadic.apply (.pervasive .add) b a = .ok r' ∧ r.Reordered r' ∧
      a.KeepsOrder r ∧ b.KeepsOrder r' := by
  intro a b
  have ha : a.Runtime := by simp [a, distinctNames_iff]
  have hb : b.Runtime := by simp [b, distinctNames_iff]
  have hfa : a.FloatFree := by simp [a]
  have hfb : b.FloatFree := by simp [b]
  obtain ⟨hiff, hresults⟩ := apply_comm (.inl rfl) ha hb hfa hfb
  have h : Dyadic.apply (.pervasive .add) a b =
      .ok (.record [(.name "x", .vector [.int 5]), (.name "y", .vector [.int 12, .int 13])]) := rfl
  obtain ⟨r', h'⟩ := hiff.mp ⟨_, h⟩
  exact ⟨_, r', h, h', hresults _ r' h h'⟩

end Glyph
