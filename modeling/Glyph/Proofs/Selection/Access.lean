import Glyph.Proofs.Dyadic.Copies
import Glyph.Proofs.Dyadic.Level

/-!
# Access after access

Access by an array of indices takes the item at each of them (`gather_eq_mapM`), and access by a
name the cell of each row (`project_eq_ok_iff`). Both go through a list item by item, and an index
into the list of results leads to the result on the item that it leads to (`item_of_mapM`). So an
access can be moved past one by indices, whichever of the two it is.
-/

namespace Glyph

/-- Two steps taken at each item of a list can be taken along the list one after the other. -/
theorem exists_mapM_of_mapM_bind {α β γ : Type} {f : α → Outcome β} {g : β → Outcome γ}
    {xs : List α} {zs : List γ} (h : xs.mapM (fun x => f x >>= g) = .ok zs) :
    ∃ ys, xs.mapM f = .ok ys ∧ ys.mapM g = .ok zs := by
  induction xs generalizing zs with
  | nil =>
      cases h
      exact ⟨[], rfl, rfl⟩
  | cons x xs ih =>
      rw [List.mapM_cons] at h
      obtain ⟨z, hz, h⟩ := Outcome.bind_eq_ok_iff.mp h
      obtain ⟨zs, hzs, h⟩ := Outcome.bind_eq_ok_iff.mp h
      cases h
      obtain ⟨y, hy, hz⟩ := Outcome.bind_eq_ok_iff.mp hz
      obtain ⟨ys, hys, hzs⟩ := ih hzs
      exact ⟨y :: ys, by rw [List.mapM_cons, hy, hys]; rfl, by rw [List.mapM_cons, hz, hzs]; rfl⟩

theorem vector_eq_ok_iff {x : Outcome (List Value)} {r : Value} :
    (do return .vector (← x) : Outcome Value) = .ok r ↔ ∃ ws, x = .ok ws ∧ r = .vector ws := by
  rw [Outcome.bind_eq_ok_iff]
  constructor
  · rintro ⟨ws, hws, ⟨⟩⟩
    exact ⟨ws, hws, rfl⟩
  · rintro ⟨ws, hws, rfl⟩
    exact ⟨ws, hws, rfl⟩

namespace Access

variable {vs ws : List Value} {i v w : Value}

/-- An integer is an index into a list of the length. -/
def InRange (length : Nat) (n : Int64) : Prop := 0 ≤ n.toInt ∧ n.toInt < length

instance (length : Nat) (n : Int64) : Decidable (InRange length n) :=
  inferInstanceAs (Decidable (_ ∧ _))

theorem place_int (length : Nat) (n : Int64) :
    place length (.int n) =
      if InRange length n then .ok n.toInt.toNat else fail (.indexRange n.toInt length) := rfl

theorem place_eq_ok_iff {length k : Nat} :
    place length i = .ok k ↔ ∃ n : Int64, i = .int n ∧ InRange length n ∧ n.toInt.toNat = k := by
  fun_cases place length i with
  | case1 n h => simp [InRange, h]
  | case2 n h => simp [InRange, h]
  | case3 v hv => simpa using fun n h => absurd h (hv n)

theorem lt_of_place {length k : Nat} (h : place length i = .ok k) : k < length := by
  obtain ⟨n, -, ⟨hnonneg, hlt⟩, rfl⟩ := place_eq_ok_iff.mp h
  omega

theorem item_of_place {k : Nat} (hk : place vs.length i = .ok k) (hv : vs[k]? = some v) :
    item vs i = .ok v.copy :=
  Outcome.bind_eq_ok_iff.mpr ⟨k, hk, by rw [hv]; rfl⟩

theorem item_of_error {e : Failure} (h : place vs.length i = .error e) : item vs i = .error e := by
  rw [item, h]
  rfl

theorem exists_item_iff {n : Int64} : (∃ w, item vs (.int n) = .ok w) ↔ InRange vs.length n := by
  by_cases h : InRange vs.length n
  · have hplace : place vs.length (.int n) = .ok n.toInt.toNat := by rw [place_int, if_pos h]
    have hv := List.getElem?_eq_getElem (lt_of_place hplace)
    exact ⟨fun _ => h, fun _ => ⟨_, item_of_place hplace hv⟩⟩
  · have hplace : place vs.length (.int n) = fail (.indexRange n.toInt vs.length) := by
      rw [place_int, if_neg h]
    simp [item_of_error hplace, h]

theorem exists_int_of_item (h : item vs i = .ok w) : ∃ n, i = .int n := by
  obtain ⟨k, hk, -⟩ := Outcome.bind_eq_ok_iff.mp h
  obtain ⟨n, rfl, -⟩ := place_eq_ok_iff.mp hk
  exact ⟨n, rfl⟩

theorem exists_mem_of_item (h : item vs i = .ok w) : ∃ v ∈ vs, w = v.copy := by
  obtain ⟨k, hk, -⟩ := Outcome.bind_eq_ok_iff.mp h
  have hv := List.getElem?_eq_getElem (lt_of_place hk)
  cases h.symm.trans (item_of_place hk hv)
  exact ⟨_, List.mem_of_getElem? hv, rfl⟩

/-! ## Item by item -/

theorem places_eq_mapM (length : Nat) (is : List Value) :
    places length is = is.mapM (place length) := by
  induction is with
  | nil => rfl
  | cons i is ih => rw [places, List.mapM_cons, ih]

/-- Checking all indices first makes no difference: nothing else fails. -/
theorem gather_eq_mapM (vs is : List Value) : gather vs is = is.mapM (item vs) := by
  rw [gather, places_eq_mapM]
  induction is with
  | nil => rfl
  | cons i is ih =>
      rw [List.mapM_cons, List.mapM_cons, ← ih]
      cases hk : place vs.length i with
      | error e =>
          rw [item_of_error hk]
          rfl
      | ok k =>
          have hv := List.getElem?_eq_getElem (lt_of_place hk)
          rw [item_of_place hk hv]
          cases is.mapM (place vs.length) with
          | error e => rfl
          | ok ps => simp [hv, bind, Except.bind, pure, Except.pure]

def cell (name : String) : Value → Outcome Value
  | .map _ es => field es name
  | v => do fail (.projectedKind name (← v.kind))

theorem cell_eq_ok_iff {name : String} :
    cell name v = .ok w ↔ ∃ x, v.step? (.key name) = some x ∧ w = x.copy := by
  cases v with
  | map o es =>
      rw [cell, field, Value.step?]
      cases es.lookup (Key.name name) with
      | none => simp
      | some x => simp [eq_comm]
  | _ => simp [cell, Value.kind, Value.kind?, Value.step?, bind, Except.bind]

theorem cell_of_step?_eq_none {o : Origin} {es : List (Key × Value)} {name : String}
    (h : (Value.map o es).step? (.key name) = none) :
    cell name (.map o es) = fail (.missingKey name) := by
  rw [cell, field, show es.lookup (Key.name name) = none from h]

theorem checkMaps_eq_ok_iff {name : String} :
    checkMaps name vs = .ok () ↔ ∀ v ∈ vs, ∃ o es, v = .map o es := by
  fun_induction checkMaps name vs with
  | case1 => simp
  | case2 o es vs ih => simp [ih]
  | case3 v vs hv =>
      constructor
      · intro h
        obtain ⟨k, -, h⟩ := Outcome.bind_eq_ok_iff.mp h
        cases h
      · intro h
        obtain ⟨⟨o, es, rfl⟩, -⟩ := List.forall_mem_cons.mp h
        exact absurd rfl (hv o es)

theorem exists_map_of_cell {name : String} (h : cell name v = .ok w) : ∃ o es, v = .map o es := by
  cases v with
  | map o es => exact ⟨o, es, rfl⟩
  | _ => cases h

theorem fields_eq_mapM (h : ∀ v ∈ vs, ∃ o es, v = .map o es) (name : String) :
    fields name vs = vs.mapM (cell name) := by
  induction vs with
  | nil => rfl
  | cons v vs ih =>
      obtain ⟨⟨o, es, rfl⟩, hvs⟩ := List.forall_mem_cons.mp h
      rw [fields, List.mapM_cons, ih hvs, cell]

/-- In an array of maps, the first row without the name is the first thing that fails. -/
theorem project_eq_mapM (h : ∀ v ∈ vs, ∃ o es, v = .map o es) (name : String) :
    project vs name = vs.mapM (cell name) := by
  rw [project, checkMaps_eq_ok_iff.mpr h, ← fields_eq_mapM h]
  rfl

/-- A name is projected out of an array where each row has a cell for it. -/
theorem project_eq_ok_iff {name : String} :
    project vs name = .ok ws ↔ vs.mapM (cell name) = .ok ws := by
  constructor
  · intro h
    obtain ⟨⟨⟩, hmaps, -⟩ := Outcome.bind_eq_ok_iff.mp h
    rwa [project_eq_mapM (checkMaps_eq_ok_iff.mp hmaps)] at h
  · intro h
    rwa [project_eq_mapM]
    intro v hv
    obtain ⟨w, hw⟩ := exists_mapM_iff.mp ⟨ws, h⟩ v hv
    exact exists_map_of_cell hw

/-! ## Past an access by indices -/

/-- Takes a value and its copy to one result, which is its own copy. -/
def Selects (g : Value → Outcome Value) : Prop :=
  ∀ x y, g x = .ok y → g x.copy = .ok y ∧ y.Native

theorem selects_item (vs : List Value) : Selects (item vs) := by
  intro i w h
  obtain ⟨n, rfl⟩ := exists_int_of_item h
  exact ⟨h, native_item vs _ w h⟩

theorem selects_cell (name : String) : Selects (cell name) := by
  intro v w h
  obtain ⟨o, es, rfl⟩ := exists_map_of_cell h
  refine ⟨?_, native_field es name w h⟩
  obtain ⟨x, hx, rfl⟩ := cell_eq_ok_iff.mp h
  refine cell_eq_ok_iff.mpr ⟨x.copy, ?_, x.copy_copy.symm⟩
  rw [Value.step?_copy, hx, Option.map_some]

section Past

variable {g : Value → Outcome Value} {xs ys js rs : List Value}

/-- An index into the results along a list leads to the result on the item that it leads to. -/
theorem item_of_mapM (hg : Selects g) (h : xs.mapM g = .ok ys) (j : Value) :
    item ys j = item xs j >>= g := by
  obtain ⟨hlen, hparts⟩ := mapM_eq_ok_iff.mp h
  cases hk : place xs.length j with
  | error e =>
      rw [item_of_error hk, item_of_error (hlen ▸ hk)]
      rfl
  | ok k =>
      have hx := List.getElem?_eq_getElem (lt_of_place hk)
      obtain ⟨y, hy, hgx⟩ := hparts k _ hx
      obtain ⟨hcopy, hnative⟩ := hg _ y hgx
      rw [item_of_place hk hx, item_of_place (hlen ▸ hk) hy, hnative.copy_eq]
      exact hcopy.symm

theorem exists_gather_of_mapM (hg : Selects g) (h : xs.mapM g = .ok ys)
    (hr : gather ys js = .ok rs) : ∃ zs, gather xs js = .ok zs ∧ zs.mapM g = .ok rs := by
  rw [gather_eq_mapM, mapM_congr fun j _ => item_of_mapM hg h j] at hr
  rw [gather_eq_mapM]
  exact exists_mapM_of_mapM_bind hr

end Past

/-! ## Indices that are integers -/

theorem exists_gather_iff {ns : List Int64} :
    (∃ ws, gather vs (ns.map Value.int) = .ok ws) ↔ ∀ n ∈ ns, InRange vs.length n := by
  simp only [gather_eq_mapM, exists_mapM_iff, List.forall_mem_map, exists_item_iff]

/-- The first index that is out of range is the one that is reported. -/
theorem gather_of_find? {ns : List Int64} {n : Int64}
    (h : ns.find? (fun n => ¬InRange vs.length n) = some n) :
    gather vs (ns.map Value.int) = fail (.indexRange n.toInt vs.length) := by
  rw [gather_eq_mapM]
  induction ns with
  | nil => cases h
  | cons m ns ih =>
      rw [List.map_cons, List.mapM_cons]
      by_cases hm : InRange vs.length m
      · obtain ⟨w, hw⟩ := exists_item_iff.mpr hm
        rw [List.find?_cons_of_neg (by simpa using hm)] at h
        rw [hw, ih h]
        rfl
      · rw [List.find?_cons_of_pos (by simpa using hm)] at h
        cases h
        rw [item_of_error (by rw [place_int, if_neg hm])]
        rfl

end Access

namespace Dyadic

section Access

variable {o p q : Origin} {xs rows is js : List Value} {name : String} {ys r : Value}

theorem access_array_eq_ok_iff : apply .access (.array o xs) (.array p is) = .ok r ↔
    ∃ ws, Access.gather xs is = .ok ws ∧ r = .vector ws :=
  vector_eq_ok_iff

theorem access_text_eq_ok_iff : apply .access (.array o rows) (.text name) = .ok r ↔
    ∃ ws, rows.mapM (Access.cell name) = .ok ws ∧ r = .vector ws := by
  simp only [← Access.project_eq_ok_iff]
  exact vector_eq_ok_iff

/-- Indices into what indices select can be followed to the indices first. -/
theorem exists_access_of_access_array (hys : apply .access (.array o xs) (.array p is) = .ok ys)
    (hr : apply .access ys (.array q js) = .ok r) :
    ∃ ks, apply .access (.array p is) (.array q js) = .ok ks ∧
      apply .access (.array o xs) ks = .ok r := by
  obtain ⟨ws, hws, rfl⟩ := access_array_eq_ok_iff.mp hys
  obtain ⟨rs, hrs, rfl⟩ := access_array_eq_ok_iff.mp hr
  rw [Access.gather_eq_mapM] at hws
  obtain ⟨ks, hks, hrs⟩ := Access.exists_gather_of_mapM (Access.selects_item xs) hws hrs
  rw [← Access.gather_eq_mapM] at hrs
  exact ⟨_, access_array_eq_ok_iff.mpr ⟨ks, hks, rfl⟩, access_array_eq_ok_iff.mpr ⟨rs, hrs, rfl⟩⟩

/-- Rows can be selected before a name is projected out of them. -/
theorem exists_access_of_access_text (hys : apply .access (.array o rows) (.text name) = .ok ys)
    (hr : apply .access ys (.array p is) = .ok r) :
    ∃ chosen, apply .access (.array o rows) (.array p is) = .ok chosen ∧
      apply .access chosen (.text name) = .ok r := by
  obtain ⟨ws, hws, rfl⟩ := access_text_eq_ok_iff.mp hys
  obtain ⟨rs, hrs, rfl⟩ := access_array_eq_ok_iff.mp hr
  obtain ⟨ks, hks, hrs⟩ := Access.exists_gather_of_mapM (Access.selects_cell name) hws hrs
  exact ⟨_, access_array_eq_ok_iff.mpr ⟨ks, hks, rfl⟩, access_text_eq_ok_iff.mpr ⟨rs, hrs, rfl⟩⟩

/-- An index into what indices select leads on from the index that it leads to. -/
theorem access_number_eq_bind {n : Number}
    (hys : apply .access (.array o xs) (.array p is) = .ok ys) :
    apply .access ys (.number n) = (do
      apply .access (.array o xs) (← apply .access (.array p is) (.number n))) := by
  obtain ⟨ws, hws, rfl⟩ := access_array_eq_ok_iff.mp hys
  rw [Access.gather_eq_mapM] at hws
  refine (Access.item_of_mapM (Access.selects_item xs) hws (.number n)).trans ?_
  change _ = Access.item is (.number n) >>= apply .access (.array o xs)
  cases hi : Access.item is (.number n) with
  | error e => rfl
  | ok i =>
      obtain ⟨j, hj, rfl⟩ := Access.exists_mem_of_item hi
      obtain ⟨w, hw⟩ := exists_mapM_iff.mp ⟨ws, hws⟩ j hj
      obtain ⟨m, rfl⟩ := Access.exists_int_of_item hw
      rfl

theorem exists_access_int_iff {n : Int64} :
    (∃ v, apply .access (.array o xs) (.int n) = .ok v) ↔ Access.InRange xs.length n :=
  Access.exists_item_iff

/-- What indices select has an item for each of them. -/
theorem exists_access_int_of_access_array {n : Int64}
    (hys : apply .access (.array o xs) (.array p is) = .ok ys) (hn : Access.InRange is.length n) :
    ∃ v, apply .access ys (.int n) = .ok v := by
  obtain ⟨ws, hws, rfl⟩ := access_array_eq_ok_iff.mp hys
  rw [Access.gather_eq_mapM] at hws
  obtain ⟨hlength, -⟩ := mapM_eq_ok_iff.mp hws
  exact exists_access_int_iff.mpr (by rwa [hlength])

theorem exists_access_ints_iff {ns : List Int64} :
    (∃ ys, apply .access (.array o xs) (.array p (ns.map Value.int)) = .ok ys) ↔
      ∀ n ∈ ns, Access.InRange xs.length n := by
  rw [← Access.exists_gather_iff]
  constructor
  · rintro ⟨ys, hys⟩
    obtain ⟨ws, hws, -⟩ := access_array_eq_ok_iff.mp hys
    exact ⟨ws, hws⟩
  · rintro ⟨ws, hws⟩
    exact ⟨_, access_array_eq_ok_iff.mpr ⟨ws, hws, rfl⟩⟩

theorem access_ints_of_find? {ns : List Int64} {n : Int64}
    (h : ns.find? (fun n => ¬Access.InRange xs.length n) = some n) :
    apply .access (.array o xs) (.array p (ns.map Value.int)) =
      fail (.indexRange n.toInt xs.length) := by
  change (do return Value.vector (← Access.gather xs (ns.map Value.int))) = _
  rw [Access.gather_of_find? h]
  rfl

end Access

/-- Access composes. Where indices select from an array and further indices from what they select,
the further indices can be followed to the indices first; where a name is projected out of rows and
indices select from the column, they can select from the rows first. Integers select from an array
exactly where all of them are in its range, else the first one that is not is reported; and an index
in the range of the integers leads to the item that its integer leads to. -/
theorem access_past_indices (o p q : Origin) :
    (∀ xs is js ys r, apply .access (.array o xs) (.array p is) = .ok ys →
        apply .access ys (.array q js) = .ok r →
        ∃ ks, apply .access (.array p is) (.array q js) = .ok ks ∧
          apply .access (.array o xs) ks = .ok r) ∧
      (∀ rows name is column r, apply .access (.array o rows) (.text name) = .ok column →
        apply .access column (.array p is) = .ok r →
        ∃ chosen, apply .access (.array o rows) (.array p is) = .ok chosen ∧
          apply .access chosen (.text name) = .ok r) ∧
      ∀ xs (ns : List Int64),
        ((∃ ys, apply .access (.array o xs) (.array p (ns.map Value.int)) = .ok ys) ↔
          ∀ n ∈ ns, Access.InRange xs.length n) ∧
        (∀ n, ns.find? (fun n => ¬Access.InRange xs.length n) = some n →
          apply .access (.array o xs) (.array p (ns.map Value.int)) =
            fail (.indexRange n.toInt xs.length)) ∧
        ∀ ys, apply .access (.array o xs) (.array p (ns.map Value.int)) = .ok ys →
          ∀ i, Access.InRange ns.length i → ∃ v, apply .access ys (.int i) = .ok v ∧
            (do
              apply .access (.array o xs)
                (← apply .access (.array p (ns.map Value.int)) (.int i))) = .ok v := by
  refine ⟨?_, ?_, fun xs ns => ⟨exists_access_ints_iff, ?_, ?_⟩⟩
  · intro xs is js ys r hys hr
    exact exists_access_of_access_array hys hr
  · intro rows name is column r hcolumn hr
    exact exists_access_of_access_text hcolumn hr
  · intro n hn
    exact access_ints_of_find? hn
  · intro ys hys i hi
    obtain ⟨v, hv⟩ := exists_access_int_of_access_array hys (by rwa [List.length_map])
    exact ⟨v, hv, (access_number_eq_bind hys).symm.trans hv⟩

/-- Indices in any order, with one that occurs twice; a name of rows of which one has another order;
and a negative index in front of one that is too large. -/
theorem access_past_indices_repeated :
    let xs := Value.vector [.int 10, .vector [.int 20], .text "c"]
    let is := Value.vector [.int 2, .int 0, .int 2, .int 1]
    let rows := Value.vector [.record [(.name "a", .int 1), (.name "b", .null)],
      .record [(.name "b", .vector [.int 5]), (.name "a", .int 2)]]
    (∃ ks, apply .access is (.vector [.int 3, .int 0]) = .ok ks ∧
        apply .access xs ks = .ok (.vector [.vector [.int 20], .text "c"])) ∧
      (∃ chosen, apply .access rows (.vector [.int 1, .int 1, .int 0]) = .ok chosen ∧
        apply .access chosen (.text "b") =
          .ok (.vector [.vector [.int 5], .vector [.int 5], .null])) ∧
      apply .access xs (.vector [.int 1, .int (-1), .int 7]) = fail (.indexRange (-1) 3) ∧
      ∃ v, apply .access (.vector [.text "c", .int 10, .text "c", .vector [.int 20]]) (.int 3) =
          .ok v ∧ (do apply .access xs (← apply .access is (.int 3))) = .ok v := by
  intro xs is rows
  obtain ⟨harrays, htexts, hints⟩ := access_past_indices .native .native .native
  refine ⟨harrays _ _ _ _ _ (rfl : apply .access xs is = .ok _) rfl,
    htexts _ _ _ _ _ (rfl : apply .access rows (.text "b") = .ok _) rfl, ?_, ?_⟩
  · obtain ⟨-, hfirst, -⟩ := hints [.int 10, .vector [.int 20], .text "c"] [1, -1, 7]
    exact hfirst (-1) (by decide)
  · obtain ⟨-, -, hitem⟩ := hints [.int 10, .vector [.int 20], .text "c"] [2, 0, 2, 1]
    exact hitem _ rfl 3 (by decide)

end Dyadic

end Glyph
