import Glyph.Proofs.Value.Shown

/-!
# Where validation stops

The parts of a container have numbers, and an address is the list of the numbers on the way down to
some part of a value. In lexicographic order the addresses follow each other as a walk through the
value meets them: depth first, from left to right. `Leads` says which turns are taken to an address
and what stands there. Validation accepts a value in which no address has a flaw, and otherwise
reports the flaw with the least address, with the turns to it (`validate_report`).

The key of an entry and the value under it have one address. A key that is no name is a flaw
whatever stands under it, so it is reported before the value is looked at. The report shows the key,
and where that cannot be done it is missing: what is refused then is the integer in the key.
-/

namespace Glyph

/-- A turn on the way down into a value: an index of an array, or any key of a map. -/
inductive Turn where
  | index (i : Nat)
  | key (k : Key)

namespace Turn

def Sound : Turn → Prop
  | index _ => True
  | key k => ∃ name, k = .name name

def ofStep : Step → Turn
  | .index i => .index i
  | .key name => .key (.name name)

end Turn

namespace Value

/-- The parts of a container in their order, each with the turn that leads to it. -/
def branches : Value → List (Turn × Value)
  | array _ xs => xs.mapIdx fun i x => (.index i, x)
  | map _ es => es.map fun e => (.key e.1, e.2)
  | _ => []

/-- The turns lead from a value down to the address, where `x` stands. -/
inductive Leads : Value → List Nat → List Turn → Value → Prop
  | here (x : Value) : Leads x [] [] x
  | down {v w x : Value} {i : Nat} {t : Turn} {address : List Nat} {turns : List Turn}
      (hw : v.branches[i]? = some (t, w)) (h : Leads w address turns x) :
      Leads v (i :: address) (t :: turns) x

/-- At the end of the turns something is wrong: the last one takes a key that is no name, or what
stands there is of no kind. -/
def Flawed (turns : List Turn) (x : Value) : Prop :=
  (∃ t ∈ turns.getLast?, ¬t.Sound) ∨ x.kind? = none

/-- The flaw of a value that a walk through it meets first. -/
structure FirstFlaw (v : Value) (address : List Nat) (turns : List Turn) (x : Value) : Prop where
  leads : v.Leads address turns x
  flawed : Flawed turns x
  first : ∀ address' turns' x', v.Leads address' turns' x' → Flawed turns' x' →
    ¬address' < address

variable {v w x : Value} {t : Turn} {turns : List Turn} {address : List Nat}

/-! ## Valid values have no flaw -/

theorem not_flawed_of_sound (hturns : ∀ t ∈ turns, t.Sound) (hx : x.kind? ≠ none) :
    ¬Flawed turns x := by
  rintro (⟨t, ht, hsound⟩ | hnone)
  · exact hsound (hturns t (List.mem_of_getLast? ht))
  · exact hx hnone

theorem flawed_cons_iff (ht : t.Sound) : Flawed (t :: turns) x ↔ Flawed turns x := by
  cases turns with
  | nil => simp [Flawed, ht]
  | cons u turns => rw [Flawed, Flawed, List.getLast?_cons_cons]

theorem kind?_ne_none_of_branches {b : Turn × Value} {i : Nat} (h : v.branches[i]? = some b) :
    v.kind? ≠ none := by
  cases v with
  | array o xs => exact Option.some_ne_none _
  | map o es => exact Option.some_ne_none _
  | _ => cases h

def ValidBranch (b : Turn × Value) : Prop := b.1.Sound ∧ b.2.Valid

theorem Valid.kind?_ne_none (h : v.Valid) : v.kind? ≠ none := by
  obtain ⟨k, hk⟩ := h.exists_kind
  intro hnone
  rw [kind, hnone] at hk
  cases hk

theorem Valid.branch (h : v.Valid) {b : Turn × Value} (hb : b ∈ v.branches) : ValidBranch b := by
  cases v with
  | array o xs =>
      obtain ⟨i, hi, rfl⟩ := List.mem_mapIdx.mp hb
      exact ⟨trivial, valid_array_iff.mp h _ (List.getElem_mem hi)⟩
  | map o es =>
      obtain ⟨e, he, rfl⟩ := List.mem_map.mp hb
      exact valid_map_iff.mp h e he
  | _ => cases hb

/-- On the way down a valid value all turns are sound, and what stands there is of some kind. -/
theorem Valid.sound (hv : v.Valid) (h : v.Leads address turns x) :
    (∀ t ∈ turns, t.Sound) ∧ x.kind? ≠ none := by
  induction h with
  | here x => exact ⟨List.forall_mem_nil _, hv.kind?_ne_none⟩
  | down hw _ ih =>
      obtain ⟨ht, hw⟩ := hv.branch (List.mem_of_getElem? hw)
      exact ⟨List.forall_mem_cons.mpr ⟨ht, (ih hw).1⟩, (ih hw).2⟩

theorem Valid.not_flawed (hv : v.Valid) (h : v.Leads address turns x) : ¬Flawed turns x :=
  not_flawed_of_sound (hv.sound h).1 (hv.sound h).2

/-! ## The first flaw -/

/-- All branches in front of the one with number `j` are valid. -/
def ValidBefore (v : Value) (j : Nat) : Prop :=
  ∀ i < j, ∀ b, v.branches[i]? = some b → ValidBranch b

/-- In front of a branch that follows valid ones there is no flaw. -/
theorem ValidBefore.not_flawed {j : Nat} {bound : List Nat} (hbefore : v.ValidBefore j)
    {b : Turn × Value} (hb : v.branches[j]? = some b) (h : v.Leads address turns x)
    (haddress : ∀ rest, address ≠ j :: rest) (hlt : address < j :: bound) : ¬Flawed turns x := by
  cases h with
  | here => exact not_flawed_of_sound (List.forall_mem_nil _) (kind?_ne_none_of_branches hb)
  | @down _ w _ i t address turns hw h =>
      have hi : i < j := by
        rcases List.cons_lt_cons_iff.mp hlt with hi | ⟨rfl, -⟩
        · exact hi
        · exact absurd rfl (haddress address)
      obtain ⟨ht, hvalid⟩ := hbefore i hi (t, w) hw
      rw [flawed_cons_iff ht]
      exact hvalid.not_flawed h

/-- A turn that is not sound is the first flaw when it follows valid branches. -/
theorem FirstFlaw.turn {j : Nat} (hw : v.branches[j]? = some (t, w)) (ht : ¬t.Sound)
    (hbefore : v.ValidBefore j) : v.FirstFlaw [j] [t] w where
  leads := .down hw (.here w)
  flawed := .inl ⟨t, rfl, ht⟩
  first := by
    intro address turns x h hflawed hlt
    refine hbefore.not_flawed hw h ?_ hlt hflawed
    rintro rest rfl
    simp at hlt

/-- The first flaw of a branch is the first of all when the branch follows valid ones. -/
theorem FirstFlaw.down {j : Nat} (hw : v.branches[j]? = some (t, w)) (ht : t.Sound)
    (hbefore : v.ValidBefore j) (h : w.FirstFlaw address turns x) :
    v.FirstFlaw (j :: address) (t :: turns) x where
  leads := .down hw h.leads
  flawed := (flawed_cons_iff ht).mpr h.flawed
  first := by
    intro address' turns' x' hleads hflawed hlt
    by_cases hj : ∃ rest, address' = j :: rest
    · -- in the branch itself, where its own first flaw is the first
      obtain ⟨rest, rfl⟩ := hj
      cases hleads with
      | down hw' hrest =>
          obtain ⟨rfl, rfl⟩ := Prod.mk.inj (Option.some.inj (hw'.symm.trans hw))
          refine h.first _ _ _ hrest ((flawed_cons_iff ht).mp hflawed) ?_
          simpa [List.cons_lt_cons_iff] using hlt
    · exact hbefore.not_flawed hw hleads (not_exists.mp hj) hlt hflawed

theorem FirstFlaw.root (hx : x.kind? = none) : x.FirstFlaw [] [] x where
  leads := .here x
  flawed := .inr hx
  first := fun address _ _ _ _ => List.not_lt_nil address

end Value

/-! ## Offences are first flaws -/

/-- The offence that the flaw at the end of the turns is. The key of a last turn is told apart from
what stands under it by the path, which ends at the map with the key. -/
inductive Offence.At : Offence → List Turn → Value → Prop
  | key (path : List Step) {k : Key} {x : Value} (hk : k.name? = none) :
      At ⟨path, .key k⟩ (path.map .ofStep ++ [.key k]) x
  | foreign (path : List Step) (x : Value) (hx : x.kind? = none) :
      At ⟨path, .foreign x.typeName⟩ (path.map .ofStep) x

theorem Offence.At.under {o : Offence} {turns : List Turn} {x : Value} (h : o.At turns x)
    (s : Step) : (o.under s).At (.ofStep s :: turns) x := by
  cases h with
  | key path hk => exact .key (s :: path) hk
  | foreign path x hx => exact .foreign (s :: path) x hx

theorem Key.not_sound_of_name? {k : Key} (h : k.name? = none) : ¬(Turn.key k).Sound := by
  rintro ⟨name, rfl⟩
  cases h

namespace Value

/-- The first offence among items is that of an item after valid ones. -/
theorem exists_of_itemsOffence? {i : Nat} {xs : List Value} {o : Offence}
    (h : itemsOffence? i xs = some o) : ∃ j x p, xs[j]? = some x ∧ x.offence? = some p ∧
      o = p.under (.index (i + j)) ∧ ∀ y ∈ xs.take j, y.Valid := by
  induction xs generalizing i with
  | nil => cases h
  | cons x xs ih =>
      rw [itemsOffence?] at h
      cases hx : x.offence? with
      | some p =>
          rw [hx] at h
          exact ⟨0, x, p, rfl, hx, (Option.some.inj h).symm, fun y hy => absurd hy (by simp)⟩
      | none =>
          rw [hx] at h
          obtain ⟨j, y, p, hy, hp, rfl, hbefore⟩ := ih h
          refine ⟨j + 1, y, p, hy, hp, by rw [Nat.add_right_comm, Nat.add_assoc], ?_⟩
          rw [List.take_succ_cons, List.forall_mem_cons]
          exact ⟨hx, hbefore⟩

/-- The first offence among entries comes after valid ones: it is a key that is no name, or that of
the value under a name. -/
theorem exists_of_entriesOffence? {es : List (Key × Value)} {o : Offence}
    (h : entriesOffence? es = some o) : ∃ j k x, es[j]? = some (k, x) ∧
      (k.name? = none ∧ o = ⟨[], .key k⟩ ∨
        ∃ name p, k = .name name ∧ x.offence? = some p ∧ o = p.under (.key name)) ∧
      ∀ e ∈ es.take j, ValidEntry e := by
  induction es with
  | nil => cases h
  | cons e es ih =>
      obtain ⟨k, x⟩ := e
      rw [entriesOffence?] at h
      cases hk : k.name? with
      | none =>
          rw [hk] at h
          exact ⟨0, k, x, rfl, .inl ⟨hk, (Option.some.inj h).symm⟩, fun f hf => absurd hf (by simp)⟩
      | some name =>
          rw [hk] at h
          obtain rfl := Key.eq_name_of_name? hk
          cases hx : x.offence? with
          | some p =>
              simp only [hx, Option.some.injEq] at h
              exact ⟨0, .name name, x, rfl, .inr ⟨name, p, rfl, hx, h.symm⟩,
                fun f hf => absurd hf (by simp)⟩
          | none =>
              simp only [hx] at h
              obtain ⟨j, l, y, hy, ho, hbefore⟩ := ih h
              refine ⟨j + 1, l, y, hy, ho, ?_⟩
              rw [List.take_succ_cons, List.forall_mem_cons]
              exact ⟨⟨⟨name, rfl⟩, hx⟩, hbefore⟩

theorem validBefore_array {o : Origin} {xs : List Value} {j : Nat}
    (h : ∀ y ∈ xs.take j, y.Valid) : (array o xs).ValidBefore j := by
  intro i hi b hb
  rw [branches, List.getElem?_mapIdx, Option.map_eq_some_iff] at hb
  obtain ⟨y, hy, rfl⟩ := hb
  exact ⟨trivial, h y (List.mem_of_getElem? (by rwa [List.getElem?_take_of_lt hi]))⟩

theorem validBefore_map {o : Origin} {es : List (Key × Value)} {j : Nat}
    (h : ∀ e ∈ es.take j, ValidEntry e) : (map o es).ValidBefore j := by
  intro i hi b hb
  rw [branches, List.getElem?_map, Option.map_eq_some_iff] at hb
  obtain ⟨e, he, rfl⟩ := hb
  exact h e (List.mem_of_getElem? (by rwa [List.getElem?_take_of_lt hi]))

/-- The offence that is found in a value is its first flaw. -/
theorem exists_firstFlaw {v : Value} {o : Offence} (h : v.offence? = some o) :
    ∃ address turns x, v.FirstFlaw address turns x ∧ o.At turns x := by
  induction v using induct generalizing o with
  | number n => cases h
  | text s => cases h
  | null => cases h
  | foreign a =>
      obtain rfl := Option.some.inj h
      exact ⟨[], [], foreign a, .root rfl, .foreign [] (foreign a) rfl⟩
  | tuple xs =>
      obtain rfl := Option.some.inj h
      exact ⟨[], [], tuple xs, .root rfl, .foreign [] (tuple xs) rfl⟩
  | array origin xs ih =>
      obtain ⟨j, w, p, hw, hp, rfl, hbefore⟩ := exists_of_itemsOffence? h
      obtain ⟨address, turns, x, hfirst, hat⟩ := ih w (List.mem_of_getElem? hw) hp
      rw [Nat.zero_add]
      have hbranch : (array origin xs).branches[j]? = some (.index j, w) := by
        rw [branches, List.getElem?_mapIdx, hw]
        rfl
      exact ⟨j :: address, .index j :: turns, x,
        hfirst.down hbranch trivial (validBefore_array hbefore), hat.under (.index j)⟩
  | map origin es ih =>
      obtain ⟨j, k, w, hw, ho, hbefore⟩ := exists_of_entriesOffence? h
      have hbranch : (map origin es).branches[j]? = some (.key k, w) := by
        rw [branches, List.getElem?_map, hw]
        rfl
      rcases ho with ⟨hk, rfl⟩ | ⟨name, p, rfl, hp, rfl⟩
      · exact ⟨[j], [.key k], w,
          .turn hbranch (Key.not_sound_of_name? hk) (validBefore_map hbefore), .key [] hk⟩
      · obtain ⟨address, turns, x, hfirst, hat⟩ := ih _ (List.mem_of_getElem? hw) hp
        exact ⟨j :: address, .key (.name name) :: turns, x,
          hfirst.down hbranch ⟨name, rfl⟩ (validBefore_map hbefore), hat.under (.key name)⟩

end Value

/-! ## The report -/

/-- The message of the flaw at the end of the turns, of a value that stands at `place`: where the
last turn takes a key that is no name, the steps in front of it lead to the map that is to blame. -/
inductive Tells (place : String) : List Turn → Value → String → Prop
  | key (path : List Step) {k : Key} {x : Value} {form : String} (hk : k.name? = none)
      (hform : k.form? = some form) :
      Tells place (path.map .ofStep ++ [.key k]) x
        (place ++ String.join (path.map Step.form) ++ " has non-string key " ++ form)
  | foreign (path : List Step) {x : Value} (hx : x.kind? = none) :
      Tells place (path.map .ofStep) x
        (place ++ String.join (path.map Step.form) ++ " has unsupported runtime type " ++
          x.typeName)

/-- The last turn takes a key that cannot be shown. -/
def Turn.EndsLong (turns : List Turn) : Prop := ∃ k, turns.getLast? = some (.key k) ∧ k.Long

theorem Turn.not_endsLong_of_steps (path : List Step) : ¬EndsLong (path.map ofStep) := by
  rintro ⟨k, hk, hlong⟩
  obtain ⟨s, -, hs⟩ := List.mem_map.mp (List.mem_of_getLast? hk)
  cases s with
  | index i => cases hs
  | key name =>
      cases hs
      cases hlong

namespace Offence.At

variable {o : Offence} {turns : List Turn} {x : Value}

theorem report?_eq_none_iff (h : o.At turns x) (place : String) :
    o.report? place = none ↔ Turn.EndsLong turns := by
  cases h with
  | key path hk => simp [report?, Turn.EndsLong, Key.form?_eq_none_iff]
  | foreign path x hx => exact iff_of_false nofun (Turn.not_endsLong_of_steps path)

theorem tells (h : o.At turns x) {place : String} {m : Misuse} (hm : o.report? place = some m) :
    Tells place turns x m.message := by
  cases h with
  | key path hk =>
      obtain ⟨form, hform, rfl⟩ := Option.map_eq_some_iff.mp hm
      exact .key path hk hform
  | foreign path x hx =>
      cases hm
      exact .foreign path hx

end Offence.At

namespace Value

/-- A value is valid when on all ways down it the keys are names and what stands there is of some
kind. -/
theorem valid_iff_sound {v : Value} : v.Valid ↔
    ∀ address turns x, v.Leads address turns x → (∀ t ∈ turns, t.Sound) ∧ x.kind? ≠ none := by
  constructor
  · exact fun hv address turns x h => hv.sound h
  · intro h
    rw [Valid, Option.eq_none_iff_forall_ne_some]
    intro o ho
    obtain ⟨address, turns, x, hfirst, -⟩ := exists_firstFlaw ho
    obtain ⟨hturns, hx⟩ := h address turns x hfirst.leads
    exact not_flawed_of_sound hturns hx hfirst.flawed

variable {v : Value} {o : Offence} {place : String}

theorem validate_of_report {m : Misuse} (ho : v.offence? = some o)
    (hm : o.report? place = some m) : v.validate place = misuse m := by
  rw [validate, ho]
  simp only [hm]
  rfl

theorem validate_of_no_report (ho : v.offence? = some o) (hm : o.report? place = none) :
    v.validate place = misuse .unwritableInteger := by
  rw [validate, ho]
  simp only [hm]
  rfl

/-- Validation lets a value through exactly when all keys in it are names and everything in it is of
some kind; then it also lets its copy through, which is its own copy. Otherwise it stops at the
first flaw. It ends with a misuse that tells of it, by the turns that lead there, unless the flaw is
a key that cannot be shown. -/
theorem validate_report (v : Value) (place : String) :
    (v.validate place = .ok () ↔
      ∀ address turns x, v.Leads address turns x → (∀ t ∈ turns, t.Sound) ∧ x.kind? ≠ none) ∧
    (∀ e, v.validate place = .error e →
      ∃ (o : Offence) (address : List Nat) (turns : List Turn) (x : Value),
        v.FirstFlaw address turns x ∧ o.At turns x ∧
          (¬Turn.EndsLong turns →
            ∃ m, o.report? place = some m ∧ e = .misuse m ∧ Tells place turns x e.message) ∧
          (Turn.EndsLong turns → e = .misuse .unwritableInteger)) ∧
    (v.validate place = .ok () →
      (∀ place', v.copy.validate place' = .ok ()) ∧ v.copy.copy = v.copy) := by
  refine ⟨validate_eq_ok_iff.trans valid_iff_sound, ?_, ?_⟩
  · intro e he
    cases ho : v.offence? with
    | none =>
        rw [validate, ho] at he
        cases he
    | some o =>
        obtain ⟨address, turns, x, hfirst, hat⟩ := exists_firstFlaw ho
        refine ⟨o, address, turns, x, hfirst, hat, ?_⟩
        rw [← hat.report?_eq_none_iff place]
        cases hm : o.report? place with
        | none =>
            cases he.symm.trans (validate_of_no_report ho hm)
            exact ⟨fun h => absurd rfl h, fun _ => rfl⟩
        | some m =>
            cases he.symm.trans (validate_of_report ho hm)
            exact ⟨fun _ => ⟨m, rfl, rfl, hat.tells hm⟩, fun h => absurd h (Option.some_ne_none m)⟩
  · intro hv
    rw [validate_eq_ok_iff] at hv
    exact ⟨fun _ => validate_eq_ok_iff.mpr hv.copy, copy_copy v⟩

/-- A key that cannot be shown is refused without a word about where it stands. -/
theorem validate_long_key :
    (map .host [(.atom (.int (Decimal.tenPow Decimal.maxDigits)), int 1)]).validate "value" =
        misuse .unwritableInteger ∧
      ∀ rest, Misuse.unwritableInteger.message ≠ "value" ++ rest := by
  constructor
  · have hat : Offence.At ⟨[], .key (.atom (.int (Decimal.tenPow Decimal.maxDigits)))⟩ _ (int 1) :=
      .key [] rfl
    exact validate_of_no_report rfl
      ((hat.report?_eq_none_iff "value").mpr ⟨_, rfl, Key.long_tenPow⟩)
  · intro rest h
    have hhead : Misuse.unwritableInteger.message.toList.head? = some 'E' := by decide +kernel
    rw [h, String.toList_append] at hhead
    cases hhead

/-- The key is reported at its map, before the truth value under it and the bytes after it. -/
example : (vector [null, map .host [(.name "a", int 1), (.atom (.int 7), foreign (.bool true)),
      (.name "b", foreign (.bytes []))]]).validate "value" =
    misuse (.keyAt "value" [.index 1] "7") := rfl

end Value

end Glyph
