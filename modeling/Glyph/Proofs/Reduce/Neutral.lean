import Glyph.Proofs.Reduce.Identity

/-!
# Identities are neutral

The leaves of a value are what in it is no container, in depth-first order. A sum or product has an
identity in the shape of a value exactly when all leaves of the value are numbers; the first other
leaf is what a refusal names. The identity mirrors the value: containers of the same lengths, with
the same keys in the same order, and numbers of the same classes. Where these are integers the
identity changes nothing on either side, so to reduce a single item is to copy it
(`identityLike_neutral`). A container without leaves has an identity too, which the next item of a
fold has to fit.
-/

namespace Glyph

namespace Value

mutual

/-- What is no container in a value, in depth-first order. -/
def leaves : Value → List Value
  | array _ xs => itemLeaves xs
  | map _ es => entryLeaves es
  | v => [v]

def itemLeaves : List Value → List Value
  | [] => []
  | x :: xs => x.leaves ++ itemLeaves xs

def entryLeaves : List (Key × Value) → List Value
  | [] => []
  | (_, x) :: es => x.leaves ++ entryLeaves es

end

def otherLeaf? (v : Value) : Option Value := v.leaves.find? fun x => !x.isNumeric

/-- The second value has the containers of the first, of the same lengths and with the same keys in
the same order, and numbers of the same classes in them. -/
inductive Mirrors : Value → Value → Prop
  | number {m n : Number} (h : m.cls = n.cls) : Mirrors (.number m) (.number n)
  | array {o p : Origin} {xs ys : List Value} (hlen : ys.length = xs.length)
      (h : ∀ (i : Nat) x y, xs[i]? = some x → ys[i]? = some y → Mirrors x y) :
      Mirrors (.array o xs) (.array p ys)
  | map {o p : Origin} {es fs : List (Key × Value)} (hkeys : Entries.keys fs = Entries.keys es)
      (h : ∀ (i : Nat) e f, es[i]? = some e → fs[i]? = some f → Mirrors e.2 f.2) :
      Mirrors (.map o es) (.map p fs)

variable {v x : Value} {o : Origin} {xs : List Value} {es : List (Key × Value)}

/-! ## Leaves -/

theorem leaves_array : (array o xs).leaves = xs.flatMap leaves := by
  rw [leaves]
  induction xs with
  | nil => rfl
  | cons x xs ih => rw [itemLeaves, List.flatMap_cons, ih]

theorem leaves_map : (map o es).leaves = es.flatMap fun e => e.2.leaves := by
  rw [leaves]
  induction es with
  | nil => rfl
  | cons e es ih => rw [entryLeaves, List.flatMap_cons, ih]

theorem otherLeaf?_array : (array o xs).otherLeaf? = xs.findSome? otherLeaf? := by
  rw [otherLeaf?, leaves_array, List.find?_flatMap]
  rfl

theorem otherLeaf?_map : (map o es).otherLeaf? = es.findSome? fun e => e.2.otherLeaf? := by
  rw [otherLeaf?, leaves_map, List.find?_flatMap]
  rfl

theorem otherLeaf?_eq_none_iff : v.otherLeaf? = none ↔ ∀ x ∈ v.leaves, x.isNumeric := by
  simp [otherLeaf?]

theorem Runtime.exists_kind?_of_mem_leaves (hv : v.Runtime) (hx : x ∈ v.leaves) :
    ∃ k, x.kind? = some k := by
  induction hv with
  | number n =>
      obtain rfl := List.mem_singleton.mp hx
      exact ⟨_, rfl⟩
  | text s =>
      obtain rfl := List.mem_singleton.mp hx
      exact ⟨_, rfl⟩
  | null =>
      obtain rfl := List.mem_singleton.mp hx
      exact ⟨_, rfl⟩
  | array _ ih =>
      rw [leaves_array, List.mem_flatMap] at hx
      obtain ⟨y, hy, hx⟩ := hx
      exact ih y hy hx
  | map _ _ ih =>
      rw [leaves_map, List.mem_flatMap] at hx
      obtain ⟨e, he, hx⟩ := hx
      exact ih e he hx

end Value

/-- Results in order fail as the first item does for which something is found, when nothing else
makes them fail. -/
theorem mapM_eq_error_of_findSome? {α β γ : Type} {f : α → Outcome β} {g : α → Option γ}
    {failure : γ → Failure} {xs : List α} (hnone : ∀ x ∈ xs, g x = none → ∃ z, f x = .ok z)
    (hsome : ∀ x ∈ xs, ∀ c, g x = some c → f x = .error (failure c)) {c : γ}
    (h : xs.findSome? g = some c) : xs.mapM f = .error (failure c) := by
  induction xs with
  | nil => cases h
  | cons x xs ih =>
      obtain ⟨hx, hxs⟩ := List.forall_mem_cons.mp hnone
      obtain ⟨hx', hxs'⟩ := List.forall_mem_cons.mp hsome
      rw [List.mapM_cons]
      rw [List.findSome?_cons] at h
      cases hg : g x with
      | some d =>
          rw [hg] at h
          obtain rfl := Option.some.inj h
          rw [hx' d hg]
          rfl
      | none =>
          rw [hg] at h
          obtain ⟨z, hz⟩ := hx hg
          rw [hz, ih hxs hxs' h]
          rfl

namespace Fold

variable {f : Fold} {v x e : Value}

/-! ## Which values have an identity -/

def refusal (f : Fold) (x : Value) : Failure :=
  match x.kind? with
  | some k => .fault (.operand Operator.reduce.glyph k
      ("no identity for " ++ Text.quote f.verb.glyph ++ " over this element"))
  | none => .misuse (.notAValue x.typeName)

theorem refuseLeaf_eq {α : Type} : (f.refuseLeaf x : Outcome α) = .error (f.refusal x) := by
  rw [refuseLeaf, Value.kind, refusal]
  cases x.kind? <;> rfl

theorem exists_identityLike_of_leaves (h : v.otherLeaf? = none) :
    ∃ e, f.identityLike v = .ok e := by
  induction v using Value.induct with
  | number n => exact ⟨_, rfl⟩
  | array o xs ih =>
      rw [Value.otherLeaf?_array, List.findSome?_eq_none_iff] at h
      obtain ⟨zs, hzs⟩ := exists_mapM_iff.mpr fun x hx => ih x hx (h x hx)
      exact ⟨.vector zs, by rw [identityLike, identityItems_eq_mapM, hzs]; rfl⟩
  | map o es ih =>
      rw [Value.otherLeaf?_map, List.findSome?_eq_none_iff] at h
      have hentries : ∀ e ∈ es, ∃ g, onEntry f.identityLike e = .ok g := by
        intro e he
        obtain ⟨z, hz⟩ := ih e he (h e he)
        exact ⟨(e.1, z), onEntry_eq_ok_iff.mpr ⟨rfl, hz⟩⟩
      obtain ⟨gs, hgs⟩ := exists_mapM_iff.mpr hentries
      exact ⟨.record gs, by rw [identityLike, identityEntries_eq_mapM, hgs]; rfl⟩
  | _ => cases h

theorem identityLike_eq_error (h : v.otherLeaf? = some x) :
    f.identityLike v = .error (f.refusal x) := by
  induction v using Value.induct generalizing x with
  | number n => cases h
  | array o xs ih =>
      rw [Value.otherLeaf?_array] at h
      have hitems : xs.mapM f.identityLike = .error (f.refusal x) :=
        mapM_eq_error_of_findSome? (fun _ _ hy => exists_identityLike_of_leaves hy)
          (fun y hy _ hleaf => ih y hy hleaf) h
      rw [identityLike, identityItems_eq_mapM, hitems]
      rfl
  | map o es ih =>
      rw [Value.otherLeaf?_map] at h
      have hentries : es.mapM (onEntry f.identityLike) = .error (f.refusal x) := by
        refine mapM_eq_error_of_findSome? (fun e _ he => ?_) (fun e he y hleaf => ?_) h
        · obtain ⟨z, hz⟩ := exists_identityLike_of_leaves he
          exact ⟨(e.1, z), onEntry_eq_ok_iff.mpr ⟨rfl, hz⟩⟩
        · rw [onEntry, ih e he hleaf]
          rfl
      rw [identityLike, identityEntries_eq_mapM, hentries]
      rfl
  | _ =>
      cases h
      exact refuseLeaf_eq

theorem exists_identityLike_iff :
    (∃ e, f.identityLike v = .ok e) ↔ ∀ x ∈ v.leaves, x.isNumeric := by
  rw [← Value.otherLeaf?_eq_none_iff]
  constructor
  · rintro ⟨e, he⟩
    by_contra hother
    obtain ⟨x, hx⟩ := Option.ne_none_iff_exists'.mp hother
    cases he.symm.trans (identityLike_eq_error hx)
  · exact exists_identityLike_of_leaves

/-! ## What the identity is like -/

theorem cls_identity (n : NumberClass) : (f.identity n).cls = n := by
  cases n <;> rfl

theorem mirrors_identityLike (h : f.identityLike v = .ok e) : v.Mirrors e := by
  induction v using Value.induct generalizing e with
  | number n =>
      cases h
      exact .number (cls_identity n.cls).symm
  | array o xs ih =>
      rw [identityLike, identityItems_eq_mapM] at h
      obtain ⟨zs, hzs, h⟩ := Outcome.bind_eq_ok_iff.mp h
      cases h
      obtain ⟨hlen, hparts⟩ := mapM_eq_ok_iff.mp hzs
      refine .array hlen fun i x y hx hy => ?_
      obtain ⟨z, hz, hid⟩ := hparts i x hx
      cases hy.symm.trans hz
      exact ih x (List.mem_of_getElem? hx) hid
  | map o es ih =>
      rw [identityLike, identityEntries_eq_mapM] at h
      obtain ⟨gs, hgs, h⟩ := Outcome.bind_eq_ok_iff.mp h
      cases h
      refine .map (map_of_mapM (fun e _ g hg => (onEntry_eq_ok_iff.mp hg).1) hgs)
        fun i e g he hg => ?_
      obtain ⟨z, hz, hid⟩ := (mapM_eq_ok_iff.mp hgs).2 i e he
      cases hg.symm.trans hz
      exact ih e (List.mem_of_getElem? he) (onEntry_eq_ok_iff.mp hid).2
  | _ => exact absurd h (refuseLeaf_ne_ok f _ e)

end Fold

theorem identityLike_verb (f : Fold) (v : Value) :
    identityLike (.pervasive f.verb) v = f.identityLike v := by
  cases f <;> rfl

/-- To reduce a single item without doubles is to copy it. -/
theorem reduce_single {f : Fold} {v e : Value} (o : Origin) (hv : v.Whole)
    (h : f.identityLike v = .ok e) :
    reduce (.pervasive f.verb) (.array o [v]) = .ok v.copy := by
  rw [reduce_eq_plain, Fold.plain, h]
  exact Fold.run_cons_eq_ok_iff.mpr ⟨v.copy, Fold.apply_identityLike hv h, rfl⟩

/-- Sum and product have an identity in the shape of a value of a running program exactly when all
leaves of the value are numbers, and otherwise refuse the kind of the first other leaf. The identity
mirrors the value; where the value has no doubles, the identity on either side of it gives a copy of
the value, and so does reducing the value alone. A value that the language made is its own copy. -/
theorem identityLike_neutral (f : Fold) {v : Value} (hv : v.Runtime) :
    ((∃ e, identityLike (.pervasive f.verb) v = .ok e) ↔ ∀ x ∈ v.leaves, x.isNumeric) ∧
    (∀ x, v.leaves.find? (fun x => !x.isNumeric) = some x → ∃ k, x.kind? = some k ∧
      identityLike (.pervasive f.verb) v = fail (.operand Operator.reduce.glyph k
        ("no identity for " ++ Text.quote f.verb.glyph ++ " over this element"))) ∧
    (∀ e, identityLike (.pervasive f.verb) v = .ok e → v.Mirrors e ∧
      (v.FloatFree →
        Dyadic.apply (.pervasive f.verb) e v = .ok v.copy ∧
        Dyadic.apply (.pervasive f.verb) v e = .ok v.copy ∧
        ∀ o, reduce (.pervasive f.verb) (.array o [v]) = .ok v.copy)) ∧
    (v.Native → v.copy = v) := by
  rw [identityLike_verb]
  refine ⟨Fold.exists_identityLike_iff, ?_, ?_, Value.Native.copy_eq⟩
  · intro x hx
    obtain ⟨k, hk⟩ := hv.exists_kind?_of_mem_leaves (List.mem_of_find?_eq_some hx)
    refine ⟨k, hk, ?_⟩
    rw [Fold.identityLike_eq_error hx, Fold.refusal, hk]
  · intro e he
    refine ⟨Fold.mirrors_identityLike he, fun hfree => ?_⟩
    have hwhole : v.Whole := ⟨hv, hfree⟩
    exact ⟨Fold.applyFrom_identityLike .left hwhole he,
      Fold.applyFrom_identityLike .right hwhole he, fun o => reduce_single o hwhole he⟩

/-- A map that keeps an array without items, and an array in which the text comes before null. -/
theorem identityLike_neutral_hollow :
    let v := Value.map .host
      [(.name "b", .array .host []), (.name "a", .vector [.int 5, .int (-2)])]
    let e := Value.record [(.name "b", .vector []), (.name "a", .vector [.int 1, .int 1])]
    identityLike (.pervasive .multiply) v = .ok e ∧ v.Mirrors e ∧
      Dyadic.apply (.pervasive .multiply) v e = .ok v.copy ∧
      reduce (.pervasive .multiply) (.vector [v]) = .ok v.copy ∧
      identityLike (.pervasive .add) (.vector [.int 1, .text "x", .null]) =
        fail (.operand Operator.reduce.glyph .text
          ("no identity for " ++ Text.quote Pervasive.add.glyph ++ " over this element")) := by
  intro v e
  have hv : v.Whole := ⟨by simp [v, distinctNames_iff], by simp [v]⟩
  obtain ⟨-, -, hsome, -⟩ := identityLike_neutral .product hv.runtime
  obtain ⟨hmirrors, hneutral⟩ := hsome e rfl
  obtain ⟨-, hright, hreduce⟩ := hneutral hv.floatFree
  obtain ⟨-, hrefused, -⟩ :=
    identityLike_neutral .sum (v := .vector [.int 1, .text "x", .null]) (by simp)
  obtain ⟨k, hk, hfail⟩ := hrefused (.text "x") rfl
  cases hk
  exact ⟨rfl, hmirrors, hright, hreduce .native, hfail⟩

end Glyph
