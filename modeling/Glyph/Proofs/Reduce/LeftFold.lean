import Mathlib.Algebra.BigOperators.Group.List.Basic
import Mathlib.Algebra.Ring.Int.Defs
import Mathlib.Data.List.Perm.Basic
import Glyph.Proofs.Dyadic.Grouping

/-!
# Reduction is the left fold

Reducing an array takes its items one after the other, from the left, to the identity in the shape
of the first one; folding integers and matrices of them at once does not show in the result. There
the result is the exact sum or product, wrapped around once at the end, so any order of the items
has it.
-/

namespace Glyph

/-- A row of integers in an array, whoever made it. -/
structure IntRow (width : Nat) where
  origin : Origin
  entries : Vector Int64 width

namespace IntRow

variable {width : Nat}

def toList (r : IntRow width) : List Int64 := r.entries.toList

def value (r : IntRow width) : Value := .array r.origin (r.toList.map Value.int)

end IntRow

namespace Fold

variable {f : Fold}

/-- The sum or product of integers, taken without bounds. -/
def exact (f : Fold) (ns : List Int64) : Int :=
  match f with
  | sum => (ns.map Int64.toInt).sum
  | product => (ns.map Int64.toInt).prod

theorem exact_perm {ms ns : List Int64} (h : ms.Perm ns) : f.exact ms = f.exact ns := by
  cases f with
  | sum => exact (h.map _).sum_eq
  | product => exact (h.map _).prod_eq

theorem ofInt_exact_nil : Int64.ofInt (f.exact []) = f.intIdentity := by
  cases f <;> rfl

theorem ofInt_exact_cons (n : Int64) (ns : List Int64) :
    Int64.ofInt (f.exact (n :: ns)) = f.onInts n (Int64.ofInt (f.exact ns)) := by
  cases f with
  | sum =>
      rw [exact, List.map_cons, List.sum_cons, Int64.ofInt_add, Int64.ofInt_toInt]
      rfl
  | product =>
      rw [exact, List.map_cons, List.prod_cons, Int64.ofInt_mul, Int64.ofInt_toInt]
      rfl

theorem onInts_intIdentity (n : Int64) : f.onInts n f.intIdentity = n := by
  cases f with
  | sum => exact Int64.add_zero n
  | product => exact Int64.mul_one n

/-- Wrapping around at each step comes to the same as wrapping around at the end. -/
theorem foldl_onInts (acc : Int64) (ns : List Int64) :
    ns.foldl f.onInts acc = f.onInts acc (Int64.ofInt (f.exact ns)) := by
  induction ns generalizing acc with
  | nil => rw [List.foldl_nil, ofInt_exact_nil, onInts_intIdentity]
  | cons n ns ih => rw [List.foldl_cons, ih, onInts_assoc, ofInt_exact_cons]

theorem ints_eq_ofInt_exact (ns : List Int64) : f.ints ns = Int64.ofInt (f.exact ns) := by
  rw [ints, foldl_onInts, onInts_comm, onInts_intIdentity]

/-- The fold of rows has in each column the fold of the integers there. -/
theorem foldl_zipWith {width : Nat} (acc : Vector Int64 width) (rows : List (IntRow width)) :
    (rows.map IntRow.toList).foldl (List.zipWith f.onInts) acc.toList =
      List.ofFn fun i : Fin width => (rows.map fun r => r.entries[i]).foldl f.onInts acc[i] := by
  induction rows generalizing acc with
  | nil =>
      simp only [List.map_nil, List.foldl_nil, Fin.getElem_fin, ← Vector.toList_ofFn,
        Vector.ofFn_getElem]
  | cons r rows ih =>
      rw [List.map_cons, List.foldl_cons, IntRow.toList, ← Vector.toList_zipWith, ih]
      simp

theorem columns_eq_ofFn {width : Nat} (rows : List (IntRow width)) :
    f.columns width (rows.map IntRow.toList) =
      List.ofFn fun i : Fin width => Int64.ofInt (f.exact (rows.map fun r => r.entries[i])) := by
  rw [columns, ← Vector.toList_replicate, foldl_zipWith]
  simp [← ints_eq_ofInt_exact, ints]

/-! ## One item after the other -/

theorem run_eq_foldlM (acc : Value) (vs : List Value) :
    f.run acc vs = vs.foldlM f.verb.apply acc := by
  induction vs generalizing acc with
  | nil => rfl
  | cons v vs ih =>
      rw [run, List.foldlM_cons]
      simp only [ih]

theorem run_cons_eq_ok_iff {acc v r : Value} {vs : List Value} :
    f.run acc (v :: vs) = .ok r ↔
      ∃ next, f.verb.apply acc v = .ok next ∧ f.run next vs = .ok r := by
  rw [run, Outcome.bind_eq_ok_iff]

theorem run_ints (acc : Int64) (ns : List Int64) :
    f.run (.int acc) (ns.map Value.int) = .ok (.int (ns.foldl f.onInts acc)) := by
  induction ns generalizing acc with
  | nil => rfl
  | cons n ns ih =>
      rw [List.map_cons, run, apply_ints]
      exact ih _

theorem plain_ints (n : Int64) (ns : List Int64) :
    f.plain (.int n) (ns.map Value.int) = .ok (.int (f.ints (n :: ns))) :=
  run_ints f.intIdentity (n :: ns)

theorem apply_row {width : Nat} (acc : Vector Int64 width) (r : IntRow width) :
    f.verb.apply (.vector (acc.toList.map Value.int)) r.value =
      .ok (.vector ((Vector.zipWith f.onInts acc r.entries).toList.map Value.int)) := by
  have htakes : f.verb.takes (.array, .array) = true := by cases f <;> rfl
  rw [IntRow.value, IntRow.toList, Pervasive.apply_arrays, if_pos htakes, if_pos (by simp),
    List.zip_map, List.mapM_map, mapM_eq_ok fun q _ => f.apply_ints q.1 q.2]
  simp [List.zip_eq_zipWith, List.map_zipWith, pure, Except.pure, bind, Except.bind]

theorem run_rows {width : Nat} (acc : Vector Int64 width) (rows : List (IntRow width)) :
    f.run (.vector (acc.toList.map Value.int)) (rows.map IntRow.value) =
      .ok (.vector (((rows.map IntRow.toList).foldl (List.zipWith f.onInts)
        acc.toList).map Value.int)) := by
  induction rows generalizing acc with
  | nil => rfl
  | cons r rows ih =>
      rw [List.map_cons, run, apply_row]
      refine (ih _).trans ?_
      rw [Vector.toList_zipWith, List.map_cons, List.foldl_cons, IntRow.toList]

theorem identityLike_row {width : Nat} (r : IntRow width) :
    f.identityLike r.value =
      .ok (.vector ((Vector.replicate width f.intIdentity).toList.map Value.int)) := by
  have hitems : ∀ v ∈ r.toList.map Value.int,
      f.identityLike v = .ok (.int f.intIdentity) := by
    intro v hv
    obtain ⟨n, -, rfl⟩ := List.mem_map.mp hv
    rfl
  rw [IntRow.value, identityLike, identityItems_eq_mapM, mapM_eq_ok hitems]
  rw [List.map_const', List.length_map, IntRow.toList, Vector.length_toList,
    Vector.toList_replicate, List.map_replicate]
  rfl

theorem plain_rows {width : Nat} (r : IntRow width) (rows : List (IntRow width)) :
    f.plain r.value (rows.map IntRow.value) =
      .ok (.vector ((f.columns width ((r :: rows).map IntRow.toList)).map Value.int)) := by
  rw [plain, identityLike_row, columns, ← Vector.toList_replicate]
  exact run_rows _ (r :: rows)

end Fold

theorem eq_map_of_rows? {vs : List Value} {rs : List (List Int64)} {width : Nat}
    (h : rows? vs = some rs) (hwidth : ∀ r ∈ rs, r.length = width) :
    ∃ rows : List (IntRow width), vs = rows.map IntRow.value ∧
      rs = rows.map IntRow.toList := by
  induction vs generalizing rs with
  | nil =>
      cases h
      exact ⟨[], rfl, rfl⟩
  | cons v vs ih =>
      rw [rows?] at h
      split at h
      · cases h
        rename_i r rs hr hrs
        obtain ⟨hlen, hrest⟩ := List.forall_mem_cons.mp hwidth
        obtain ⟨rows, rfl, rfl⟩ := ih hrs hrest
        cases v with
        | array o ws =>
            refine ⟨⟨o, ⟨r.toArray, by simpa using hlen⟩⟩ :: rows, ?_, rfl⟩
            rw [List.map_cons, IntRow.value, eq_map_of_ints? hr, List.map_map]
            rfl
        | _ => cases hr
      · cases h

/-- The rows of a matrix have its width, which the shortcut starts its fold with. -/
theorem eq_map_of_matrix? {vs : List Value} {rs : List (List Int64)} (h : matrix? vs = some rs) :
    ∃ rows : List (IntRow (width rs)), vs = rows.map IntRow.value ∧
      rs = rows.map IntRow.toList := by
  rw [matrix?] at h
  split at h
  · split at h
    · rename_i hrows hwidth
      cases h
      have hwidths := List.all_eq_true.mp hwidth.2
      exact eq_map_of_rows? hrows fun r hr => by simpa using hwidths r hr
    · cases h
  · cases h

namespace Fold

variable {f : Fold}

/-- Folding at once gives what folding one item after the other does. -/
theorem plain_of_shortcut? {v w : Value} {vs : List Value} (h : f.shortcut? (v :: vs) = some w) :
    f.plain v vs = .ok w := by
  rw [shortcut?, if_neg (by simp)] at h
  split at h
  · rename_i ns hns
    cases h
    have hmap := eq_map_of_ints? hns
    rw [List.map_map] at hmap
    cases ns with
    | nil => cases hmap
    | cons n ns =>
        cases hmap
        exact plain_ints n ns
  · obtain ⟨rs, hrs, rfl⟩ := Option.map_eq_some_iff.mp h
    obtain ⟨rows, hvs, hentries⟩ := eq_map_of_matrix? hrs
    cases rows with
    | nil => cases hvs
    | cons r rows =>
        cases hvs
        rw [plain_rows, ← hentries, Fold.rows]

end Fold

theorem reduce_eq_plain (f : Fold) (o : Origin) (v : Value) (vs : List Value) :
    reduce (.pervasive f.verb) (.array o (v :: vs)) = f.plain v vs := by
  have hverb : Fold.ofVerb? (.pervasive f.verb) = some f := by cases f <;> rfl
  rw [reduce, hverb]
  dsimp only
  split
  · exact (Fold.plain_of_shortcut? ‹_›).symm
  · rfl

/-! ## Integers in any order -/

/-- A rearrangement of what a function makes of a list is made of a rearrangement of the list. -/
theorem exists_eq_map_of_perm {α β : Type} {g : α → β} {xs : List α} {ys : List β}
    (h : ys.Perm (xs.map g)) : ∃ zs : List α, ys = zs.map g ∧ zs.Perm xs := by
  have hcomp : Relation.Comp (fun ys xs => ys = xs.map g) List.Perm ys xs := by
    rw [List.eq_map_comp_perm]
    exact h
  exact hcomp

theorem reduce_ints (f : Fold) (o : Origin) {n : Int64} {ns : List Int64} {vs : List Value}
    (h : vs.Perm ((n :: ns).map Value.int)) :
    reduce (.pervasive f.verb) (.array o vs) = .ok (.int (Int64.ofInt (f.exact (n :: ns)))) := by
  obtain ⟨ms, rfl, hms⟩ := exists_eq_map_of_perm h
  cases ms with
  | nil => cases hms.length_eq
  | cons m ms =>
      rw [List.map_cons, reduce_eq_plain, Fold.plain_ints, Fold.ints_eq_ofInt_exact,
        Fold.exact_perm hms]

/-- Rows without entries are not folded at once, but they are no exception. -/
theorem reduce_rows (f : Fold) (o : Origin) {width : Nat} {r : IntRow width}
    {rows : List (IntRow width)} {vs : List Value} (h : vs.Perm ((r :: rows).map IntRow.value)) :
    reduce (.pervasive f.verb) (.array o vs) = .ok (.vector (List.ofFn fun i : Fin width =>
      .int (Int64.ofInt (f.exact ((r :: rows).map fun r => r.entries[i]))))) := by
  obtain ⟨qs, rfl, hqs⟩ := exists_eq_map_of_perm h
  have hcolumn : ∀ i : Fin width, f.exact (qs.map fun r => r.entries[i]) =
      f.exact ((r :: rows).map fun r => r.entries[i]) := fun i => Fold.exact_perm (hqs.map _)
  cases qs with
  | nil => cases hqs.length_eq
  | cons q qs =>
      rw [List.map_cons, reduce_eq_plain, Fold.plain_rows, Fold.columns_eq_ofFn, List.map_ofFn]
      simp only [Function.comp_def, hcolumn]

/-- Reducing a nonempty array with a sum or product is the left fold of the verb from the identity
in the shape of the first item, errors included. On integers, and on rows of integers of one width,
the result is the exact sum or product, in each column, wrapped around to the range of the integers;
any rearrangement of the items has that result. -/
theorem reduce_eq_leftFold (f : Fold) (o : Origin) :
    (∀ v vs, reduce (.pervasive f.verb) (.array o (v :: vs)) = do
        (v :: vs).foldlM (Dyadic.apply (.pervasive f.verb))
          (← identityLike (.pervasive f.verb) v)) ∧
      (∀ n ns vs, vs.Perm ((n :: ns).map Value.int) →
        reduce (.pervasive f.verb) (.array o vs) =
          .ok (.int (Int64.ofInt (f.exact (n :: ns))))) ∧
      ∀ width (r : IntRow width) rows vs, vs.Perm ((r :: rows).map IntRow.value) →
        reduce (.pervasive f.verb) (.array o vs) = .ok (.vector (List.ofFn fun i : Fin width =>
          .int (Int64.ofInt (f.exact ((r :: rows).map fun r => r.entries[i]))))) := by
  refine ⟨?_, ?_, ?_⟩
  · intro v vs
    rw [reduce_eq_plain, Fold.plain]
    simp only [Fold.run_eq_foldlM, identityLike]
    cases f <;> rfl
  · intro n ns vs hperm
    exact reduce_ints f o hperm
  · intro width r rows vs hperm
    exact reduce_rows f o hperm

/-- A product and the sum of two rows, both of which wrap around, with their items exchanged. -/
theorem reduce_eq_leftFold_exchanged :
    reduce (.pervasive .multiply) (.vector [.int 4611686018427387904, .int 3]) =
        .ok (.int (-4611686018427387904)) ∧
      reduce (.pervasive .add) (.vector [.vector [.int 1, .int 2],
          .vector [.int 9223372036854775807, .int 3]]) =
        .ok (.vector [.int (-9223372036854775808), .int 5]) := by
  obtain ⟨-, hints, -⟩ := reduce_eq_leftFold .product .native
  obtain ⟨-, -, hrows⟩ := reduce_eq_leftFold .sum .native
  have hproduct := hints 3 [4611686018427387904] _ (List.Perm.swap _ _ _)
  have hsum := hrows 2 ⟨.native, #v[9223372036854775807, 3]⟩ [⟨.native, #v[1, 2]⟩] _
    (List.Perm.swap _ _ _)
  exact ⟨hproduct, hsum⟩

end Glyph
