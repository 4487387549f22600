import Mathlib.Tactic.MkIffOfInductiveProp
import Glyph.Proofs.Dyadic.Shortcut
import Glyph.Proofs.Value.Runtime

/-!
# One level of broadcasting

Two operands of a pervasive verb face each other. One step down, their parts face each other at the
same index of two arrays, at the same name of two maps, or with a number that stays where it is
while the other operand is taken apart (`Faces`).

What the verb does at one level is said once: it admits the two operands (`Admits`), makes a result
of their frame (`Makes`), and does the same with the parts that face each other.
`apply_eq_ok_iff` says so of the result and `exists_apply_iff` of there being one; what is proved of
broadcasting on running values rests on these two and takes no operand apart again.
-/

namespace Glyph

namespace Value

theorem eq_number_of_kind? {v : Value} (h : v.kind? = some .numeric) : ∃ n, v = .number n := by
  cases v <;> cases h
  exact ⟨_, rfl⟩

theorem eq_array_of_kind? {v : Value} (h : v.kind? = some .array) : ∃ o xs, v = .array o xs := by
  cases v <;> cases h
  exact ⟨_, _, rfl⟩

theorem eq_map_of_kind? {v : Value} (h : v.kind? = some .map) : ∃ o es, v = .map o es := by
  cases v <;> cases h
  exact ⟨_, _, rfl⟩

end Value

/-- A step leads from two operands to parts of them that face each other. -/
inductive Faces : Value → Value → Step → Value → Value → Prop
  | both {a b x y : Value} {s : Step} (hx : a.step? s = some x) (hy : b.step? s = some y) :
      Faces a b s x y
  | left {a x : Value} {n : Number} {s : Step} (hx : a.step? s = some x) :
      Faces a (.number n) s x (.number n)
  | right {b y : Value} {n : Number} {s : Step} (hy : b.step? s = some y) :
      Faces (.number n) b s (.number n) y

theorem faces_number_right_iff {a x y : Value} {n : Number} {s : Step} :
    Faces a (.number n) s x y ↔ a.step? s = some x ∧ y = .number n := by
  constructor
  · rintro (⟨hx, hy⟩ | hx | hy)
    · cases hy
    · exact ⟨hx, rfl⟩
    · cases hy
  · rintro ⟨hx, rfl⟩
    exact .left hx

theorem faces_number_left_iff {b x y : Value} {n : Number} {s : Step} :
    Faces (.number n) b s x y ↔ b.step? s = some y ∧ x = .number n := by
  constructor
  · rintro (⟨hx, hy⟩ | hx | hy)
    · cases hx
    · cases hx
    · exact ⟨hy, rfl⟩
  · rintro ⟨hy, rfl⟩
    exact .right hy

namespace Pervasive

/-- The verb takes the operands as they are, whatever their parts may be. -/
@[mk_iff]
structure Admits (op : Pervasive) (a b : Value) : Prop where
  kinds : ∃ k l, a.kind? = some k ∧ b.kind? = some l ∧ (k, l) ∈ op.cases
  lengths : ∀ o p xs ys, a = .array o xs → b = .array p ys → xs.length = ys.length
  keys : ∀ o p es fs, a = .map o es → b = .map p fs →
    ∀ k, k ∈ Entries.keys es ↔ k ∈ Entries.keys fs
  classes : op = .add ∨ op = .subtract ∨ op = .multiply →
    ∀ m n, a = .number m → b = .number n → m.cls = n.cls

/-- What the verb makes of two operands, apart from the parts of the result: of two numbers the
number that they are combined to, of arrays an array of their length, and of maps a map with the
keys of the left one, or of the only one, in its order. -/
inductive Makes (op : Pervasive) : Value → Value → Value → Prop
  | numbers {x y z : Number} (h : op.combine x y = .ok z) :
      Makes op (.number x) (.number y) (.number z)
  | arrays {o p : Origin} {xs ys zs : List Value} (hx : zs.length = xs.length)
      (hy : zs.length = ys.length) : Makes op (.array o xs) (.array p ys) (.vector zs)
  | arrayNumber {o : Origin} {xs zs : List Value} {y : Number} (h : zs.length = xs.length) :
      Makes op (.array o xs) (.number y) (.vector zs)
  | numberArray {o : Origin} {x : Number} {ys zs : List Value} (h : zs.length = ys.length) :
      Makes op (.number x) (.array o ys) (.vector zs)
  | maps {o p : Origin} {es fs gs : List (Key × Value)} (h : Entries.keys gs = Entries.keys es) :
      Makes op (.map o es) (.map p fs) (.record gs)
  | mapNumber {o : Origin} {es gs : List (Key × Value)} {y : Number}
      (h : Entries.keys gs = Entries.keys es) : Makes op (.map o es) (.number y) (.record gs)
  | numberMap {o : Origin} {x : Number} {fs gs : List (Key × Value)}
      (h : Entries.keys gs = Entries.keys fs) : Makes op (.number x) (.map o fs) (.record gs)

end Pervasive

/-! ## Results in order -/

section Lists

variable {α β : Type} {f : α → Outcome β} {xs : List α}

theorem mapM_eq_ok_iff {zs : List β} :
    xs.mapM f = .ok zs ↔
      zs.length = xs.length ∧
        ∀ (i : Nat) x, xs[i]? = some x → ∃ z, zs[i]? = some z ∧ f x = .ok z := by
  induction xs generalizing zs with
  | nil => simp [pure, Except.pure, eq_comm]
  | cons x xs ih =>
      rw [List.mapM_cons, Outcome.bind_eq_ok_iff]
      constructor
      · rintro ⟨z, hz, h⟩
        obtain ⟨zs, hzs, h⟩ := Outcome.bind_eq_ok_iff.mp h
        cases h
        obtain ⟨hlen, hparts⟩ := ih.mp hzs
        refine ⟨by simp [hlen], fun i y hy => ?_⟩
        cases i with
        | zero =>
            cases hy
            exact ⟨z, rfl, hz⟩
        | succ i => exact hparts i y hy
      · rintro ⟨hlen, hparts⟩
        obtain ⟨z, hz, hfx⟩ := hparts 0 x rfl
        cases zs with
        | nil => cases hz
        | cons w zs =>
            cases hz
            have hzs := ih.mpr ⟨Nat.succ.inj hlen, fun i y hy => hparts (i + 1) y hy⟩
            exact ⟨z, hfx, Outcome.bind_eq_ok_iff.mpr ⟨zs, hzs, rfl⟩⟩

theorem exists_mapM_iff : (∃ zs, xs.mapM f = .ok zs) ↔ ∀ x ∈ xs, ∃ z, f x = .ok z := by
  induction xs with
  | nil => simp [pure, Except.pure]
  | cons x xs ih =>
      rw [List.forall_mem_cons, ← ih]
      constructor
      · rintro ⟨zs, h⟩
        rw [List.mapM_cons] at h
        obtain ⟨z, hz, h⟩ := Outcome.bind_eq_ok_iff.mp h
        obtain ⟨zs, hzs, -⟩ := Outcome.bind_eq_ok_iff.mp h
        exact ⟨⟨z, hz⟩, ⟨zs, hzs⟩⟩
      · rintro ⟨⟨z, hz⟩, ⟨zs, hzs⟩⟩
        exact ⟨z :: zs, by rw [List.mapM_cons, hz, hzs]; rfl⟩

theorem map_of_mapM {γ : Type} {p : β → γ} {q : α → γ} {zs : List β}
    (hf : ∀ x ∈ xs, ∀ z, f x = .ok z → p z = q x) (h : xs.mapM f = .ok zs) :
    zs.map p = xs.map q := by
  induction xs generalizing zs with
  | nil =>
      cases h
      rfl
  | cons x xs ih =>
      obtain ⟨hx, hxs⟩ := List.forall_mem_cons.mp hf
      rw [List.mapM_cons] at h
      obtain ⟨z, hz, h⟩ := Outcome.bind_eq_ok_iff.mp h
      obtain ⟨zs, hzs, h⟩ := Outcome.bind_eq_ok_iff.mp h
      cases h
      rw [List.map_cons, List.map_cons, hx z hz, ih hxs hzs]

theorem mapM_of_mapM {γ : Type} {g : β → Outcome γ} {h : α → γ} {zs : List β}
    (hfg : ∀ x ∈ xs, ∀ z, f x = .ok z → g z = .ok (h x)) (hzs : xs.mapM f = .ok zs) :
    zs.mapM g = .ok (xs.map h) := by
  have hmap : zs.map g = xs.map fun x => .ok (h x) := map_of_mapM hfg hzs
  calc zs.mapM g
    _ = (zs.map g).mapM id := by rw [List.mapM_map]; rfl
    _ = xs.mapM fun x => .ok (h x) := by rw [hmap, List.mapM_map]; rfl
    _ = .ok (xs.map h) := mapM_eq_ok fun _ _ => rfl

end Lists

theorem vector_of_mapM {f : Value → Outcome Value} {o : Origin} {xs : List Value} {r : Value}
    (h : (do return .vector (← xs.mapM f) : Outcome Value) = .ok r) :
    ∃ zs, r = .vector zs ∧ zs.length = xs.length ∧
      ∀ s x, (Value.array o xs).step? s = some x → ∃ z, r.step? s = some z ∧ f x = .ok z := by
  obtain ⟨zs, hzs, h⟩ := Outcome.bind_eq_ok_iff.mp h
  cases h
  obtain ⟨hlen, hparts⟩ := mapM_eq_ok_iff.mp hzs
  refine ⟨zs, rfl, hlen, fun s x hx => ?_⟩
  cases s with
  | index i => exact hparts i x hx
  | key name => cases hx

theorem exists_vector {f : Value → Outcome Value} {o : Origin} {xs : List Value}
    (h : ∀ s x, (Value.array o xs).step? s = some x → ∃ z, f x = .ok z) :
    ∃ r, (do return .vector (← xs.mapM f) : Outcome Value) = .ok r := by
  have hitems : ∀ x ∈ xs, ∃ z, f x = .ok z := by
    intro x hx
    obtain ⟨i, hi⟩ := List.mem_iff_getElem?.mp hx
    exact h (.index i) x hi
  obtain ⟨zs, hzs⟩ := exists_mapM_iff.mpr hitems
  exact ⟨.vector zs, by rw [hzs]; rfl⟩

theorem onEntry_eq_ok_iff {f : Value → Outcome Value} {e g : Key × Value} :
    onEntry f e = .ok g ↔ g.1 = e.1 ∧ f e.2 = .ok g.2 := by
  rw [onEntry, Outcome.bind_eq_ok_iff]
  constructor
  · rintro ⟨v, hv, h⟩
    cases h
    exact ⟨rfl, hv⟩
  · rintro ⟨hk, hv⟩
    exact ⟨g.2, hv, by rw [← hk]; rfl⟩

theorem record_of_mapM {f : Key × Value → Outcome (Key × Value)} {es : List (Key × Value)}
    {r : Value} (hes : DistinctNames (Entries.keys es))
    (hf : ∀ e g, f e = .ok g → g.1 = e.1)
    (h : (do return .record (← es.mapM f) : Outcome Value) = .ok r) :
    ∃ gs, r = .record gs ∧ Entries.keys gs = Entries.keys es ∧
      ∀ name x, es.lookup (.name name) = some x →
        ∃ z, gs.lookup (.name name) = some z ∧ f (.name name, x) = .ok (.name name, z) := by
  obtain ⟨gs, hgs, h⟩ := Outcome.bind_eq_ok_iff.mp h
  cases h
  have hparts := (mapM_eq_ok_iff.mp hgs).2
  have hkeys : Entries.keys gs = Entries.keys es := map_of_mapM (fun e _ => hf e) hgs
  refine ⟨gs, rfl, hkeys, fun name x hx => ?_⟩
  rw [Entries.lookup_name_eq_some_iff hes] at hx
  obtain ⟨i, hi⟩ := List.mem_iff_getElem?.mp hx
  obtain ⟨⟨k, z⟩, hg, hfe⟩ := hparts i _ hi
  obtain rfl : k = .name name := hf _ _ hfe
  refine ⟨z, ?_, hfe⟩
  rw [Entries.lookup_name_eq_some_iff (hkeys ▸ hes)]
  exact List.mem_of_getElem? hg

theorem record_of_mapM_onEntry {f : Value → Outcome Value} {o : Origin} {es : List (Key × Value)}
    {r : Value} (hes : DistinctNames (Entries.keys es))
    (h : (do return .record (← es.mapM (onEntry f)) : Outcome Value) = .ok r) :
    ∃ gs, r = .record gs ∧ Entries.keys gs = Entries.keys es ∧
      ∀ s x, (Value.map o es).step? s = some x → ∃ z, r.step? s = some z ∧ f x = .ok z := by
  obtain ⟨gs, rfl, hkeys, hparts⟩ := record_of_mapM hes
    (fun e g hg => (onEntry_eq_ok_iff.mp hg).1) h
  refine ⟨gs, rfl, hkeys, fun s x hx => ?_⟩
  cases s with
  | index i => cases hx
  | key name =>
      obtain ⟨z, hz, hfx⟩ := hparts name x hx
      exact ⟨z, hz, (onEntry_eq_ok_iff.mp hfx).2⟩

theorem exists_record {f : Key × Value → Outcome (Key × Value)} {es : List (Key × Value)}
    (hes : DistinctNames (Entries.keys es))
    (h : ∀ name x, es.lookup (.name name) = some x → ∃ g, f (.name name, x) = .ok g) :
    ∃ r, (do return .record (← es.mapM f) : Outcome Value) = .ok r := by
  have hentries : ∀ e ∈ es, ∃ g, f e = .ok g := by
    rintro ⟨k, x⟩ he
    obtain ⟨name, rfl : k = .name name⟩ := hes.names k (List.mem_map_of_mem he)
    exact h name x ((Entries.lookup_name_eq_some_iff hes).mpr he)
  obtain ⟨gs, hgs⟩ := exists_mapM_iff.mpr hentries
  exact ⟨.record gs, by rw [hgs]; rfl⟩

namespace Pervasive

variable {op : Pervasive}

theorem takes_iff {pair : Kind × Kind} : op.takes pair = true ↔ pair ∈ op.cases := by
  rw [takes, List.contains_iff_mem]

theorem refuse_ne_ok (v : Dyadic) (a b r : Value) : v.refuse a b ≠ (.ok r : Outcome Value) := by
  intro h
  obtain ⟨k, -, h⟩ := Outcome.bind_eq_ok_iff.mp h
  obtain ⟨l, -, h⟩ := Outcome.bind_eq_ok_iff.mp h
  cases h

/-! ## One level of the recursion -/

theorem apply_number_right (v : Value) (y : Number) :
    op.apply v (.number y) = spread Shortcut.never op .left y v := by
  rw [apply, lockstep_shortcut, lockstep_number_right]

theorem apply_number_left (x : Number) (w : Value) :
    op.apply (.number x) w = spread Shortcut.never op .right x w := by
  rw [apply, lockstep_shortcut, lockstep_number_left]

theorem apply_numbers (x y : Number) : op.apply (.number x) (.number y) = op.scalar x y := by
  rw [apply_number_right, spread]
  rfl

theorem apply_array_number (o : Origin) (xs : List Value) (y : Number) :
    op.apply (.array o xs) (.number y) =
      if op.takes (.array, .numeric) then
        do return .vector (← xs.mapM fun x => op.apply x (.number y))
      else Dyadic.refuse (.pervasive op) (.array o xs) (.number y) := by
  simp only [apply_number_right, spread, spreadItems_eq_mapM]
  rfl

theorem apply_number_array (x : Number) (o : Origin) (ys : List Value) :
    op.apply (.number x) (.array o ys) =
      if op.takes (.numeric, .array) then
        do return .vector (← ys.mapM fun y => op.apply (.number x) y)
      else Dyadic.refuse (.pervasive op) (.number x) (.array o ys) := by
  simp only [apply_number_left, spread, spreadItems_eq_mapM]
  rfl

theorem apply_map_number (o : Origin) (es : List (Key × Value)) (y : Number) :
    op.apply (.map o es) (.number y) =
      if op.takes (.map, .numeric) then
        do return .record (← es.mapM (onEntry fun x => op.apply x (.number y)))
      else Dyadic.refuse (.pervasive op) (.map o es) (.number y) := by
  simp only [apply_number_right, spread, spreadEntries_eq_mapM]
  rfl

theorem apply_number_map (x : Number) (o : Origin) (fs : List (Key × Value)) :
    op.apply (.number x) (.map o fs) =
      if op.takes (.numeric, .map) then
        do return .record (← fs.mapM (onEntry fun y => op.apply (.number x) y))
      else Dyadic.refuse (.pervasive op) (.number x) (.map o fs) := by
  simp only [apply_number_left, spread, spreadEntries_eq_mapM]
  rfl

theorem apply_arrays (o p : Origin) (xs ys : List Value) :
    op.apply (.array o xs) (.array p ys) =
      if op.takes (.array, .array) then
        if xs.length = ys.length then
          do return .vector (← (xs.zip ys).mapM fun q => op.apply q.1 q.2)
        else fail (.lengths op xs.length ys.length)
      else Dyadic.refuse (.pervasive op) (.array o xs) (.array p ys) := by
  simp only [apply, lockstep_shortcut]
  rw [lockstep, lockstepItems_eq_mapM]
  rfl

theorem apply_maps (o p : Origin) (es fs : List (Key × Value)) :
    op.apply (.map o es) (.map p fs) =
      if op.takes (.map, .map) then do
        op.checkKeys es fs
        return .record (← es.mapM (withPartner Shortcut.never op fs))
      else Dyadic.refuse (.pervasive op) (.map o es) (.map p fs) := by
  rw [apply, lockstep_shortcut, lockstep, lockstepEntries_eq_mapM]

theorem withPartner_eq_ok_iff {fs : List (Key × Value)} {e g : Key × Value} :
    withPartner Shortcut.never op fs e = .ok g ↔
      ∃ y, fs.lookup e.1 = some y ∧ g.1 = e.1 ∧ op.apply e.2 y = .ok g.2 := by
  rw [withPartner]
  cases fs.lookup e.1 with
  | none => simp [refuseKeys_ne_ok]
  | some y => simp [onEntry_eq_ok_iff, apply, lockstep_shortcut]

/-- Two maps pass the check exactly where they have the same keys. -/
theorem checkKeys_eq_ok_iff {es fs : List (Key × Value)} (hes : DistinctNames (Entries.keys es))
    (hfs : DistinctNames (Entries.keys fs)) :
    op.checkKeys es fs = .ok () ↔ ∀ k, k ∈ Entries.keys es ↔ k ∈ Entries.keys fs := by
  have hdiffer : differingKeys es fs = [] ↔ ∀ k, k ∈ Entries.keys es ↔ k ∈ Entries.keys fs := by
    rw [differingKeys, List.append_eq_nil_iff, Entries.filter_not_has_eq_nil_iff hes hfs,
      Entries.filter_not_has_eq_nil_iff hfs hes]
    exact ⟨fun h k => ⟨fun hk => h.1 hk, fun hk => h.2 hk⟩,
      fun h => ⟨fun k => (h k).mp, fun k => (h k).mpr⟩⟩
  have hlength : differingKeys es fs = [] → es.length = fs.length := by
    intro h
    have hperm := (List.perm_ext_iff_of_nodup hes.nodup hfs.nodup).mpr (hdiffer.mp h)
    simpa [Entries.keys] using hperm.length_eq
  rw [checkKeys, ← hdiffer]
  split
  · exact ⟨fun h => (by cases h), fun h => absurd (hlength h) ‹_›⟩
  · split
    · simp [*]
    · constructor
      · intro h
        obtain ⟨ks, -, h⟩ := Outcome.bind_eq_ok_iff.mp h
        exact absurd h (refuseKeys_ne_ok op)
      · exact fun h => absurd h ‹_›

theorem Admits.takes {a b : Value} {k l : Kind} (h : op.Admits a b) (ha : a.kind? = some k)
    (hb : b.kind? = some l) : op.takes (k, l) = true := by
  obtain ⟨k', l', hk, hl, hmem⟩ := h.kinds
  cases ha.symm.trans hk
  cases hb.symm.trans hl
  exact takes_iff.mpr hmem

section Admitted

variable {o p : Origin} {xs ys : List Value} {es fs : List (Key × Value)} {x y : Number}

theorem admits_numbers_iff :
    op.Admits (.number x) (.number y) ↔ op.checkClasses x.cls y.cls = .ok () := by
  cases op <;> simp [admits_iff, Value.kind?, cases, checkClasses, demandsOneClass]

theorem admits_arrays_iff : op.Admits (.array o xs) (.array p ys) ↔
    op.takes (.array, .array) = true ∧ xs.length = ys.length := by
  refine ⟨fun h => ⟨h.takes rfl rfl, h.lengths o p xs ys rfl rfl⟩, ?_⟩
  rintro ⟨ht, hlen⟩
  refine ⟨⟨_, _, rfl, rfl, takes_iff.mp ht⟩, ?_, ?_, ?_⟩
  · rintro _ _ _ _ ⟨⟩ ⟨⟩
    exact hlen
  · rintro _ _ _ _ ⟨⟩
  · rintro _ _ _ ⟨⟩

theorem admits_array_number_iff :
    op.Admits (.array o xs) (.number y) ↔ op.takes (.array, .numeric) = true := by
  simp [admits_iff, Value.kind?, takes_iff]

theorem admits_number_array_iff :
    op.Admits (.number x) (.array o ys) ↔ op.takes (.numeric, .array) = true := by
  simp [admits_iff, Value.kind?, takes_iff]

theorem admits_maps_iff : op.Admits (.map o es) (.map p fs) ↔
    op.takes (.map, .map) = true ∧ ∀ k, k ∈ Entries.keys es ↔ k ∈ Entries.keys fs := by
  refine ⟨fun h => ⟨h.takes rfl rfl, h.keys o p es fs rfl rfl⟩, ?_⟩
  rintro ⟨ht, hkeys⟩
  refine ⟨⟨_, _, rfl, rfl, takes_iff.mp ht⟩, ?_, ?_, ?_⟩
  · rintro _ _ _ _ ⟨⟩
  · rintro _ _ _ _ ⟨⟩ ⟨⟩
    exact hkeys
  · rintro _ _ _ ⟨⟩

theorem admits_map_number_iff :
    op.Admits (.map o es) (.number y) ↔ op.takes (.map, .numeric) = true := by
  simp [admits_iff, Value.kind?, takes_iff]

theorem admits_number_map_iff :
    op.Admits (.number x) (.map o fs) ↔ op.takes (.numeric, .map) = true := by
  simp [admits_iff, Value.kind?, takes_iff]

end Admitted

/-- What the verb does at one level: it takes the operands as they are to the frame of the result,
and the parts that face each other to its parts. -/
structure Resolves (op : Pervasive) (a b r : Value) : Prop where
  admits : op.Admits a b
  makes : op.Makes a b r
  parts : ∀ s x y, Faces a b s x y → ∃ z, r.step? s = some z ∧ op.apply x y = .ok z

section Resolved

variable {o p : Origin} {xs ys : List Value} {es fs : List (Key × Value)} {x y : Number}
  {r : Value}

theorem resolves_numbers (h : op.apply (.number x) (.number y) = .ok r) :
    op.Resolves (.number x) (.number y) r := by
  rw [apply_numbers, scalar, combine] at h
  cases hc : op.checkClasses x.cls y.cls with
  | error f =>
      rw [hc] at h
      cases h
  | ok u =>
      rw [hc] at h
      cases h
      refine ⟨admits_numbers_iff.mpr hc, .numbers ?_, ?_⟩
      · rw [combine, hc]
        rfl
      · rintro s v w (⟨hx, -⟩ | hx | hx) <;> cases hx

theorem resolves_array_number (h : op.apply (.array o xs) (.number y) = .ok r) :
    op.Resolves (.array o xs) (.number y) r := by
  rw [apply_array_number] at h
  split at h
  · obtain ⟨zs, rfl, hlen, hparts⟩ := vector_of_mapM (o := o) h
    refine ⟨admits_array_number_iff.mpr ‹_›, .arrayNumber hlen, fun s v w hf => ?_⟩
    obtain ⟨hv, rfl⟩ := faces_number_right_iff.mp hf
    exact hparts s v hv
  · exact absurd h (refuse_ne_ok _ _ _ _)

theorem resolves_number_array (h : op.apply (.number x) (.array o ys) = .ok r) :
    op.Resolves (.number x) (.array o ys) r := by
  rw [apply_number_array] at h
  split at h
  · obtain ⟨zs, rfl, hlen, hparts⟩ := vector_of_mapM (o := o) h
    refine ⟨admits_number_array_iff.mpr ‹_›, .numberArray hlen, fun s v w hf => ?_⟩
    obtain ⟨hw, rfl⟩ := faces_number_left_iff.mp hf
    exact hparts s w hw
  · exact absurd h (refuse_ne_ok _ _ _ _)

theorem resolves_map_number (hes : DistinctNames (Entries.keys es))
    (h : op.apply (.map o es) (.number y) = .ok r) : op.Resolves (.map o es) (.number y) r := by
  rw [apply_map_number] at h
  split at h
  · obtain ⟨gs, rfl, hgs, hparts⟩ := record_of_mapM_onEntry (o := o) hes h
    refine ⟨admits_map_number_iff.mpr ‹_›, .mapNumber hgs, fun s v w hf => ?_⟩
    obtain ⟨hv, rfl⟩ := faces_number_right_iff.mp hf
    exact hparts s v hv
  · exact absurd h (refuse_ne_ok _ _ _ _)

theorem resolves_number_map (hfs : DistinctNames (Entries.keys fs))
    (h : op.apply (.number x) (.map o fs) = .ok r) : op.Resolves (.number x) (.map o fs) r := by
  rw [apply_number_map] at h
  split at h
  · obtain ⟨gs, rfl, hgs, hparts⟩ := record_of_mapM_onEntry (o := o) hfs h
    refine ⟨admits_number_map_iff.mpr ‹_›, .numberMap hgs, fun s v w hf => ?_⟩
    obtain ⟨hw, rfl⟩ := faces_number_left_iff.mp hf
    exact hparts s w hw
  · exact absurd h (refuse_ne_ok _ _ _ _)

theorem resolves_arrays (h : op.apply (.array o xs) (.array p ys) = .ok r) :
    op.Resolves (.array o xs) (.array p ys) r := by
  rw [apply_arrays] at h
  split at h
  · split at h
    · obtain ⟨zs, hzs, h⟩ := Outcome.bind_eq_ok_iff.mp h
      cases h
      obtain ⟨hlen, hparts⟩ := mapM_eq_ok_iff.mp hzs
      rw [List.length_zip] at hlen
      refine ⟨admits_arrays_iff.mpr ⟨‹_›, ‹_›⟩, .arrays (by omega) (by omega), ?_⟩
      rintro (i | name) v w ⟨hv, hw⟩
      · exact hparts i (v, w) (List.getElem?_zip_eq_some.mpr ⟨hv, hw⟩)
      · cases hv
    · cases h
  · exact absurd h (refuse_ne_ok _ _ _ _)

theorem resolves_maps (hes : DistinctNames (Entries.keys es))
    (hfs : DistinctNames (Entries.keys fs))
    (h : op.apply (.map o es) (.map p fs) = .ok r) : op.Resolves (.map o es) (.map p fs) r := by
  rw [apply_maps] at h
  split at h
  · obtain ⟨⟨⟩, hcheck, h⟩ := Outcome.bind_eq_ok_iff.mp h
    obtain ⟨gs, rfl, hgs, hparts⟩ := record_of_mapM hes
      (fun e g hg => (withPartner_eq_ok_iff.mp hg).choose_spec.2.1) h
    refine ⟨admits_maps_iff.mpr ⟨‹_›, (checkKeys_eq_ok_iff hes hfs).mp hcheck⟩, .maps hgs, ?_⟩
    rintro (i | name) v w ⟨hv, hw⟩
    · cases hv
    · obtain ⟨z, hz, hvz⟩ := hparts name v hv
      obtain ⟨w', hw', -, happly⟩ := withPartner_eq_ok_iff.mp hvz
      cases hw.symm.trans hw'
      exact ⟨z, hz, happly⟩
  · exact absurd h (refuse_ne_ok _ _ _ _)

end Resolved

theorem resolves_of_apply {a b r : Value} (ha : a.Runtime) (hb : b.Runtime)
    (h : op.apply a b = .ok r) : op.Resolves a b r := by
  induction a, b using lockstep_induct with
  | right v y =>
      cases v with
      | number x => exact resolves_numbers h
      | array o xs => exact resolves_array_number h
      | map o es => exact resolves_map_number ha.keys h
      | _ =>
          rw [apply_number_right, spread] at h
          · exact absurd h (refuse_ne_ok _ _ _ _)
          all_goals simp
  | left x w =>
      cases w with
      | number y => exact resolves_numbers h
      | array o ys => exact resolves_number_array h
      | map o fs => exact resolves_number_map hb.keys h
      | _ =>
          rw [apply_number_left, spread] at h
          · exact absurd h (refuse_ne_ok _ _ _ _)
          all_goals simp
  | arrays o xs p ys => exact resolves_arrays h
  | maps o es p fs => exact resolves_maps ha.keys hb.keys h
  | refused v w hrefused =>
      rw [apply, hrefused] at h
      exact absurd h (refuse_ne_ok _ _ _ _)

/-- Every verb takes only numbers, arrays and maps, and never an array next to a map. -/
theorem cases_subset (op : Pervasive) :
    op.cases ⊆ [(.numeric, .numeric), (.array, .array), (.array, .numeric), (.numeric, .array),
      (.map, .map), (.map, .numeric), (.numeric, .map)] := by
  cases op <;> decide

inductive Matched : Value → Value → Prop
  | numbers (x y : Number) : Matched (.number x) (.number y)
  | arrays (o p : Origin) (xs ys : List Value) : Matched (.array o xs) (.array p ys)
  | arrayNumber (o : Origin) (xs : List Value) (y : Number) : Matched (.array o xs) (.number y)
  | numberArray (x : Number) (o : Origin) (ys : List Value) : Matched (.number x) (.array o ys)
  | maps (o p : Origin) (es fs : List (Key × Value)) : Matched (.map o es) (.map p fs)
  | mapNumber (o : Origin) (es : List (Key × Value)) (y : Number) : Matched (.map o es) (.number y)
  | numberMap (x : Number) (o : Origin) (fs : List (Key × Value)) : Matched (.number x) (.map o fs)

theorem Admits.matched {a b : Value} (h : op.Admits a b) : Matched a b := by
  obtain ⟨k, l, hk, hl, hmem⟩ := h.kinds
  have hpair := cases_subset op hmem
  simp only [List.mem_cons, Prod.mk.injEq, List.not_mem_nil, or_false] at hpair
  rcases hpair with ⟨rfl, rfl⟩ | ⟨rfl, rfl⟩ | ⟨rfl, rfl⟩ | ⟨rfl, rfl⟩ | ⟨rfl, rfl⟩ | ⟨rfl, rfl⟩ |
    ⟨rfl, rfl⟩
  · obtain ⟨x, rfl⟩ := Value.eq_number_of_kind? hk
    obtain ⟨y, rfl⟩ := Value.eq_number_of_kind? hl
    exact .numbers x y
  · obtain ⟨o, xs, rfl⟩ := Value.eq_array_of_kind? hk
    obtain ⟨p, ys, rfl⟩ := Value.eq_array_of_kind? hl
    exact .arrays o p xs ys
  · obtain ⟨o, xs, rfl⟩ := Value.eq_array_of_kind? hk
    obtain ⟨y, rfl⟩ := Value.eq_number_of_kind? hl
    exact .arrayNumber o xs y
  · obtain ⟨x, rfl⟩ := Value.eq_number_of_kind? hk
    obtain ⟨o, ys, rfl⟩ := Value.eq_array_of_kind? hl
    exact .numberArray x o ys
  · obtain ⟨o, es, rfl⟩ := Value.eq_map_of_kind? hk
    obtain ⟨p, fs, rfl⟩ := Value.eq_map_of_kind? hl
    exact .maps o p es fs
  · obtain ⟨o, es, rfl⟩ := Value.eq_map_of_kind? hk
    obtain ⟨y, rfl⟩ := Value.eq_number_of_kind? hl
    exact .mapNumber o es y
  · obtain ⟨x, rfl⟩ := Value.eq_number_of_kind? hk
    obtain ⟨o, fs, rfl⟩ := Value.eq_map_of_kind? hl
    exact .numberMap x o fs

/-- A verb has a result on operands that it admits where it has one on the parts of them that face
each other. -/
theorem exists_apply {a b : Value} (ha : a.Runtime) (hb : b.Runtime) (hadmits : op.Admits a b)
    (h : ∀ s x y, Faces a b s x y → ∃ z, op.apply x y = .ok z) : ∃ r, op.apply a b = .ok r := by
  cases hadmits.matched with
  | numbers x y =>
      exact ⟨_, by rw [apply_numbers, scalar_eq_ok (admits_numbers_iff.mp hadmits)]⟩
  | arrayNumber o xs y =>
      rw [apply_array_number, if_pos (admits_array_number_iff.mp hadmits)]
      exact exists_vector (o := o) fun s v hv => h s v _ (.left hv)
  | numberArray x o ys =>
      rw [apply_number_array, if_pos (admits_number_array_iff.mp hadmits)]
      exact exists_vector (o := o) fun s w hw => h s _ w (.right hw)
  | mapNumber o es y =>
      rw [apply_map_number, if_pos (admits_map_number_iff.mp hadmits)]
      refine exists_record ha.keys fun name v hv => ?_
      obtain ⟨z, hz⟩ := h (.key name) v _ (.left hv)
      exact ⟨(.name name, z), onEntry_eq_ok_iff.mpr ⟨rfl, hz⟩⟩
  | numberMap x o fs =>
      rw [apply_number_map, if_pos (admits_number_map_iff.mp hadmits)]
      refine exists_record hb.keys fun name w hw => ?_
      obtain ⟨z, hz⟩ := h (.key name) _ w (.right hw)
      exact ⟨(.name name, z), onEntry_eq_ok_iff.mpr ⟨rfl, hz⟩⟩
  | arrays o p xs ys =>
      obtain ⟨htakes, hlen⟩ := admits_arrays_iff.mp hadmits
      rw [apply_arrays, if_pos htakes, if_pos hlen]
      have hitems : ∀ q ∈ xs.zip ys, ∃ z, op.apply q.1 q.2 = .ok z := by
        intro q hq
        obtain ⟨i, hi⟩ := List.mem_iff_getElem?.mp hq
        obtain ⟨hv, hw⟩ := List.getElem?_zip_eq_some.mp hi
        exact h (.index i) q.1 q.2 (.both hv hw)
      obtain ⟨zs, hzs⟩ := exists_mapM_iff.mpr hitems
      exact ⟨.vector zs, by rw [hzs]; rfl⟩
  | maps o p es fs =>
      obtain ⟨htakes, hkeys⟩ := admits_maps_iff.mp hadmits
      rw [apply_maps, if_pos htakes, (checkKeys_eq_ok_iff ha.keys hb.keys).mpr hkeys]
      refine exists_record ha.keys fun name v hv => ?_
      obtain ⟨w, hw⟩ := Value.exists_step?_map (o := o) (p := p) (s := .key name) ha.keys hb.keys
        (fun k => (hkeys k).mp) hv
      obtain ⟨z, hz⟩ := h (.key name) v w (.both hv hw)
      exact ⟨(.name name, z), withPartner_eq_ok_iff.mpr ⟨w, hw, rfl, hz⟩⟩

/-! ## The frame of the result -/

section Frames

variable {a b r r' : Value} {s : Step}

/-- A step into the result leads to parts of the operands as well. -/
theorem Makes.exists_faces (ha : a.Runtime) (hb : b.Runtime) (hadmits : op.Admits a b)
    (h : op.Makes a b r) {z : Value} (hz : r.step? s = some z) : ∃ x y, Faces a b s x y := by
  cases h with
  | numbers _ => cases hz
  | arrays hx hy =>
      obtain ⟨x, hx⟩ := Value.exists_step?_array hx hz
      obtain ⟨y, hy⟩ := Value.exists_step?_array hy hz
      exact ⟨x, y, .both hx hy⟩
  | arrayNumber hx =>
      obtain ⟨x, hx⟩ := Value.exists_step?_array hx hz
      exact ⟨x, _, .left hx⟩
  | numberArray hy =>
      obtain ⟨y, hy⟩ := Value.exists_step?_array hy hz
      exact ⟨_, y, .right hy⟩
  | maps hkeys =>
      obtain ⟨x, hx⟩ := Value.exists_step?_map (hkeys ▸ ha.keys) ha.keys (by simp [hkeys]) hz
      obtain ⟨y, hy⟩ := Value.exists_step?_map ha.keys hb.keys
        (fun k => ((admits_maps_iff.mp hadmits).2 k).mp) hx
      exact ⟨x, y, .both hx hy⟩
  | mapNumber hkeys =>
      obtain ⟨x, hx⟩ := Value.exists_step?_map (hkeys ▸ ha.keys) ha.keys (by simp [hkeys]) hz
      exact ⟨x, _, .left hx⟩
  | numberMap hkeys =>
      obtain ⟨y, hy⟩ := Value.exists_step?_map (hkeys ▸ hb.keys) hb.keys (by simp [hkeys]) hz
      exact ⟨_, y, .right hy⟩

/-- What is made of two operands is known by its parts. -/
theorem Makes.ext (ha : a.Runtime) (hb : b.Runtime) (h : op.Makes a b r) (h' : op.Makes a b r')
    (hparts : ∀ s z, r.step? s = some z → r'.step? s = some z) : r = r' := by
  cases h with
  | numbers h =>
      cases h' with
      | numbers h' =>
          cases h.symm.trans h'
          rfl
  | arrays hx _ =>
      cases h' with
      | arrays hx' _ => rw [Value.items_ext (hx.trans hx'.symm) hparts]
  | arrayNumber hx =>
      cases h' with
      | arrayNumber hx' => rw [Value.items_ext (hx.trans hx'.symm) hparts]
  | numberArray hy =>
      cases h' with
      | numberArray hy' => rw [Value.items_ext (hy.trans hy'.symm) hparts]
  | maps hkeys =>
      cases h' with
      | maps hkeys' => rw [Value.entries_ext (hkeys ▸ ha.keys) (hkeys'.trans hkeys.symm) hparts]
  | mapNumber hkeys =>
      cases h' with
      | mapNumber hkeys' =>
          rw [Value.entries_ext (hkeys ▸ ha.keys) (hkeys'.trans hkeys.symm) hparts]
  | numberMap hkeys =>
      cases h' with
      | numberMap hkeys' =>
          rw [Value.entries_ext (hkeys ▸ hb.keys) (hkeys'.trans hkeys.symm) hparts]

theorem Makes.runtime (ha : a.Runtime) (hb : b.Runtime) (h : op.Makes a b r)
    (hparts : ∀ s z, r.step? s = some z → z.Runtime) : r.Runtime := by
  cases h with
  | numbers _ => exact .number _
  | arrays _ _ => exact Value.runtime_array hparts
  | arrayNumber _ => exact Value.runtime_array hparts
  | numberArray _ => exact Value.runtime_array hparts
  | maps hkeys => exact Value.runtime_map (hkeys ▸ ha.keys) hparts
  | mapNumber hkeys => exact Value.runtime_map (hkeys ▸ ha.keys) hparts
  | numberMap hkeys => exact Value.runtime_map (hkeys ▸ hb.keys) hparts

end Frames

/-- A verb takes two operands to a result exactly where it does so at one level, parts included. -/
theorem apply_eq_ok_iff {a b r : Value} (ha : a.Runtime) (hb : b.Runtime) :
    op.apply a b = .ok r ↔ op.Resolves a b r := by
  refine ⟨resolves_of_apply ha hb, fun h => ?_⟩
  obtain ⟨r', hr'⟩ := exists_apply ha hb h.admits fun s x y hf =>
    (h.parts s x y hf).imp fun _ hz => hz.2
  have h' := resolves_of_apply ha hb hr'
  have hparts : ∀ s z, r.step? s = some z → r'.step? s = some z := by
    intro s z hz
    obtain ⟨x, y, hf⟩ := h.makes.exists_faces ha hb h.admits hz
    obtain ⟨z₁, hz₁, happly⟩ := h.parts s x y hf
    obtain ⟨z₂, hz₂, happly'⟩ := h'.parts s x y hf
    cases hz.symm.trans hz₁
    cases happly.symm.trans happly'
    exact hz₂
  rw [h.makes.ext ha hb h'.makes hparts, hr']

/-- A verb has a result on two operands exactly where it admits them and has one on all parts of
them that face each other. -/
theorem exists_apply_iff {a b : Value} (ha : a.Runtime) (hb : b.Runtime) :
    (∃ r, op.apply a b = .ok r) ↔
      op.Admits a b ∧ ∀ s x y, Faces a b s x y → ∃ z, op.apply x y = .ok z := by
  constructor
  · rintro ⟨r, hr⟩
    have h := resolves_of_apply ha hb hr
    exact ⟨h.admits, fun s x y hf => (h.parts s x y hf).imp fun _ hz => hz.2⟩
  · rintro ⟨hadmits, h⟩
    exact exists_apply ha hb hadmits h

end Pervasive

theorem Faces.runtime {a b x y : Value} {s : Step} (h : Faces a b s x y) (ha : a.Runtime)
    (hb : b.Runtime) : x.Runtime ∧ y.Runtime := by
  cases h with
  | both hx hy => exact ⟨ha.step? hx, hb.step? hy⟩
  | left hx => exact ⟨ha.step? hx, hb⟩
  | right hy => exact ⟨ha, hb.step? hy⟩

theorem Faces.floatFree {a b x y : Value} {s : Step} (h : Faces a b s x y) (ha : a.FloatFree)
    (hb : b.FloatFree) : x.FloatFree ∧ y.FloatFree := by
  cases h with
  | both hx hy => exact ⟨ha.step? hx, hb.step? hy⟩
  | left hx => exact ⟨ha.step? hx, hb⟩
  | right hy => exact ⟨ha, hb.step? hy⟩

theorem Faces.sizeOf_lt {a b x y : Value} {s : Step} (h : Faces a b s x y) :
    sizeOf x + sizeOf y < sizeOf a + sizeOf b := by
  cases h with
  | both hx hy => exact Nat.add_lt_add (Value.sizeOf_lt_of_step? hx) (Value.sizeOf_lt_of_step? hy)
  | left hx => exact Nat.add_lt_add_right (Value.sizeOf_lt_of_step? hx) _
  | right hy => exact Nat.add_lt_add_left (Value.sizeOf_lt_of_step? hy) _

/-- Induction over two operands with one hypothesis for all parts that face each other. -/
@[elab_as_elim]
theorem faces_induct {motive : Value → Value → Prop}
    (h : ∀ a b, (∀ s x y, Faces a b s x y → motive x y) → motive a b) (a b : Value) : motive a b :=
  h a b fun _ x y _ => faces_induct h x y
termination_by sizeOf a + sizeOf b
decreasing_by exact Faces.sizeOf_lt ‹_›

end Glyph
