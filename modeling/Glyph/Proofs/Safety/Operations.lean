import Glyph.Monadic
import Glyph.Proofs.Dyadic.Shortcut

/-!
# Safe operations

An outcome is safe when it is a result with a given property or a fault, and never a misuse. Steps
that are safe one by one are safe together, and so every operation on valid values is: what it gives
is valid, and where it fails, it fails with a fault of the program. There is one lemma for each
operation, in the order in which they are built on each other.
-/

namespace Glyph

namespace Outcome

/-- The outcome is a result with the property, or a fault. -/
def Safe {α : Type} (P : α → Prop) : Outcome α → Prop
  | .ok a => P a
  | .error (.fault _) => True
  | .error (.misuse _) => False

variable {α β : Type} {P : α → Prop} {Q : β → Prop}

@[simp] theorem safe_ok_iff {a : α} : Safe P (.ok a) ↔ P a := Iff.rfl

@[simp] theorem safe_pure_iff {a : α} : Safe P (pure a : Outcome α) ↔ P a := Iff.rfl

@[simp] theorem safe_fault (f : Fault) : Safe P (.error (.fault f) : Outcome α) := trivial

theorem Safe.bind {x : Outcome α} {f : α → Outcome β} (hx : Safe P x)
    (hf : ∀ a, P a → Safe Q (f a)) : Safe Q (x >>= f) := by
  match x, hx with
  | .ok a, ha => exact hf a ha
  | .error (.fault _), _ => trivial

theorem Safe.mapM {f : α → Outcome β} {xs : List α} (h : ∀ x ∈ xs, Safe Q (f x)) :
    Safe (fun ys => ∀ y ∈ ys, Q y) (xs.mapM f) := by
  induction xs with
  | nil => simp
  | cons x xs ih =>
      obtain ⟨hx, hxs⟩ := List.forall_mem_cons.mp h
      rw [List.mapM_cons]
      refine hx.bind fun y hy => (ih hxs).bind fun ys hys => ?_
      exact List.forall_mem_cons.mpr ⟨hy, hys⟩

end Outcome

open Outcome

theorem safe_onEntry {f : Value → Outcome Value} {e : Key × Value} (hk : ∃ name, e.1 = .name name)
    (h : Safe Value.Valid (f e.2)) : Safe Value.ValidEntry (onEntry f e) :=
  h.bind fun _ hv => ⟨hk, hv⟩

theorem safe_vector {α : Type} {f : α → Outcome Value} {xs : List α}
    (h : ∀ x ∈ xs, Safe Value.Valid (f x)) :
    Safe Value.Valid (do return .vector (← xs.mapM f)) :=
  (Safe.mapM h).bind fun _ hys => Value.valid_array_iff.mpr hys

theorem safe_record {f : Key × Value → Outcome (Key × Value)} {es : List (Key × Value)}
    (h : ∀ e ∈ es, Safe Value.ValidEntry (f e)) :
    Safe Value.Valid (do return .record (← es.mapM f)) :=
  (Safe.mapM h).bind fun _ hfs => Value.valid_map_iff.mpr hfs

section Kinds

variable {α : Type} {P : α → Prop} {a b v : Value}

theorem safe_kind_fault (hv : v.Valid) (f : Kind → Fault) :
    Safe P (v.kind >>= fun k => fail (f k)) := by
  obtain ⟨k, hk⟩ := hv.exists_kind
  rw [hk]
  trivial

theorem safe_refuse (verb : Dyadic) (ha : a.Valid) (hb : b.Valid) : Safe P (verb.refuse a b) := by
  obtain ⟨k, hk⟩ := ha.exists_kind
  rw [Dyadic.refuse, hk]
  exact safe_kind_fault hb _

end Kinds

/-! ## Order of names -/

theorem safe_place {s : String} {ks : List Key} (h : ∀ k ∈ ks, ∃ name, k = .name name) :
    Safe (fun ls => ∀ k ∈ ls, ∃ name, k = Key.name name) (Key.place (.name s) ks) := by
  induction ks with
  | nil => simp [Key.place]
  | cons k ks ih =>
      obtain ⟨⟨name, rfl⟩, hks⟩ := List.forall_mem_cons.mp h
      rw [Key.place, Key.before, Atom.before?]
      simp only [bind, Except.bind]
      split
      · exact List.forall_mem_cons.mpr ⟨⟨s, rfl⟩, h⟩
      · refine (ih hks).bind fun ls hls => ?_
        exact List.forall_mem_cons.mpr ⟨⟨name, rfl⟩, hls⟩

theorem safe_sorted {ks : List Key} (h : ∀ k ∈ ks, ∃ name, k = .name name) :
    Safe (fun ls => ∀ k ∈ ls, ∃ name, k = Key.name name) (Key.sorted ks) := by
  induction ks with
  | nil => simp [Key.sorted]
  | cons k ks ih =>
      obtain ⟨⟨name, rfl⟩, hks⟩ := List.forall_mem_cons.mp h
      exact (ih hks).bind fun ls hls => safe_place hls

theorem Key.exists_forms? {ks : List Key} (h : ∀ k ∈ ks, ∃ name, k = .name name) :
    ∃ forms, forms? ks = some forms := by
  induction ks with
  | nil => exact ⟨[], rfl⟩
  | cons k ks ih =>
      obtain ⟨⟨name, rfl⟩, hks⟩ := List.forall_mem_cons.mp h
      obtain ⟨forms, hforms⟩ := ih hks
      exact ⟨Text.quote name :: forms, by rw [forms?, hforms]; rfl⟩

namespace Pervasive

variable {op : Pervasive}

/-- Names can be shown, so it is a fault where maps differ in them. -/
theorem safe_refuseKeys {α : Type} {P : α → Prop} {ks : List Key}
    (h : ∀ k ∈ ks, ∃ name, k = .name name) : Safe P (op.refuseKeys ks) := by
  obtain ⟨forms, hforms⟩ := Key.exists_forms? h
  rw [refuseKeys, hforms]
  trivial

theorem safe_scalar (op : Pervasive) (x y : Number) : Safe Value.Valid (op.scalar x y) := by
  rw [scalar]
  cases op.combine x y <;> simp

theorem safe_checkKeys {es fs : List (Key × Value)} (hes : ∀ e ∈ es, Value.ValidEntry e)
    (hfs : ∀ f ∈ fs, Value.ValidEntry f) : Safe (fun _ => True) (op.checkKeys es fs) := by
  have hkeys : ∀ k ∈ differingKeys es fs, ∃ name, k = .name name := by
    intro k hk
    rcases List.mem_append.mp hk with hk | hk
    · obtain ⟨e, he, rfl⟩ := List.mem_map.mp (List.mem_filter.mp hk).1
      exact (hes e he).1
    · obtain ⟨e, he, rfl⟩ := List.mem_map.mp (List.mem_filter.mp hk).1
      exact (hfs e he).1
  rw [checkKeys]
  split
  · trivial
  · split
    · trivial
    · exact (safe_sorted hkeys).bind fun _ hks => safe_refuseKeys hks

/-! ## Broadcasting -/

section Recursion

variable {quick : Shortcut} {side : Side} {x : Number}

theorem safe_refuse_arrange {v w : Value} (hv : v.Valid) (hw : w.Valid) :
    Safe Value.Valid (Dyadic.refuse (.pervasive op) (side.arrange v w).1 (side.arrange v w).2) := by
  cases side with
  | left => exact safe_refuse _ hv hw
  | right => exact safe_refuse _ hw hv

theorem safe_spread (hquick : ∀ a b v, quick op a b = some v → v.Valid) {v : Value}
    (hv : v.Valid) : Safe Value.Valid (spread quick op side x v) := by
  induction v using Value.induct with
  | number y => exact safe_scalar op _ _
  | array o ys ih =>
      rw [spread]
      dsimp only
      split
      · split
        · exact hquick _ _ _ ‹_›
        · have hys := Value.valid_array_iff.mp hv
          rw [spreadItems_eq_mapM]
          exact safe_vector fun y hy => ih y hy (hys y hy)
      · exact safe_refuse_arrange hv (Value.valid_number x)
  | map o es ih =>
      rw [spread]
      dsimp only
      split
      · have hes := Value.valid_map_iff.mp hv
        rw [spreadEntries_eq_mapM]
        exact safe_record fun e he => safe_onEntry (hes e he).1 (ih e he (hes e he).2)
      · exact safe_refuse_arrange hv (Value.valid_number x)
  | text s => exact safe_refuse_arrange hv (Value.valid_number x)
  | null => exact safe_refuse_arrange hv (Value.valid_number x)
  | foreign a => exact absurd hv (Value.not_valid_foreign a)
  | tuple xs => exact absurd hv (Value.not_valid_tuple xs)

theorem safe_lockstep (hquick : ∀ a b v, quick op a b = some v → v.Valid) {a b : Value}
    (ha : a.Valid) (hb : b.Valid) : Safe Value.Valid (lockstep quick op a b) := by
  induction a, b using lockstep_induct with
  | right v y =>
      rw [lockstep_number_right]
      exact safe_spread hquick ha
  | left x w =>
      rw [lockstep_number_left]
      exact safe_spread hquick hb
  | arrays o xs p ys ih =>
      rw [lockstep]
      split
      · split
        · exact hquick _ _ _ ‹_›
        · split
          · have hxs := Value.valid_array_iff.mp ha
            have hys := Value.valid_array_iff.mp hb
            rw [lockstepItems_eq_mapM]
            refine safe_vector fun q hq => ?_
            obtain ⟨hx, hy⟩ := List.of_mem_zip hq
            exact ih q.1 hx q.2 (hxs q.1 hx) (hys q.2 hy)
          · trivial
      · exact safe_refuse _ ha hb
  | maps o es p fs ih =>
      rw [lockstep]
      split
      · have hes := Value.valid_map_iff.mp ha
        have hfs := Value.valid_map_iff.mp hb
        refine (safe_checkKeys hes hfs).bind fun _ _ => ?_
        rw [lockstepEntries_eq_mapM]
        refine safe_record fun e he => ?_
        -- The keys were checked, but safety does not rest on it: a missing partner is a fault.
        rw [withPartner]
        cases hy : fs.lookup e.1 with
        | none => exact safe_refuseKeys (List.forall_mem_singleton.mpr (hes e he).1)
        | some y =>
            obtain ⟨l, hl⟩ := Entries.exists_mem_of_lookup hy
            exact safe_onEntry (hes e he).1 (ih e he y (hes e he).2 (hfs _ hl).2)
      · exact safe_refuse _ ha hb
  | refused v w h =>
      rw [h]
      exact safe_refuse _ ha hb

end Recursion

theorem safe_apply {a b : Value} (ha : a.Valid) (hb : b.Valid) :
    Safe Value.Valid (op.apply a b) := by
  refine safe_lockstep (fun a b v h => ?_) ha hb
  obtain ⟨l, r, n, -, -, -, -, rfl⟩ := Dense.shortcut_eq_some_iff.mp h
  simp

end Pervasive

/-! ## Selection -/

theorem safe_counts {cs : List Value} (h : ∀ c ∈ cs, c.Valid) :
    Safe (fun _ => True) (Replicate.counts cs) := by
  fun_induction Replicate.counts cs with
  | case1 => trivial
  | case2 n vs ih =>
      exact (ih (List.forall_mem_cons.mp h).2).bind fun _ _ => safe_pure_iff.mpr trivial
  | case3 v vs hv => exact safe_kind_fault (List.forall_mem_cons.mp h).1 _

theorem safe_expand {ns : List Int64} {vs : List Value} (h : ∀ v ∈ vs, v.Valid) :
    Safe (fun ws => ∀ w ∈ ws, w.Valid) (Replicate.expand ns vs) := by
  induction vs generalizing ns with
  | nil => simp [Replicate.expand]
  | cons v vs ih =>
      obtain ⟨hv, hvs⟩ := List.forall_mem_cons.mp h
      cases ns with
      | nil => simp [Replicate.expand]
      | cons n ns =>
          rw [Replicate.expand]
          split
          · trivial
          · refine (ih hvs).bind fun ws hws => ?_
            refine List.forall_mem_append.mpr ⟨fun w hw => ?_, hws⟩
            rw [List.eq_of_mem_replicate hw]
            exact hv.copy

theorem safe_replicate {cs vs : List Value} (hcs : ∀ c ∈ cs, c.Valid) (hvs : ∀ v ∈ vs, v.Valid) :
    Safe (fun ws => ∀ w ∈ ws, w.Valid) (Replicate.run cs vs) := by
  rw [Replicate.run]
  split
  · trivial
  · exact (safe_counts hcs).bind fun ns _ => safe_expand hvs

namespace Access

theorem safe_place (n : Nat) (i : Value) : Safe (fun _ => True) (place n i) := by
  fun_cases place n i <;> trivial

theorem safe_item {vs : List Value} (h : ∀ v ∈ vs, v.Valid) (i : Value) :
    Safe Value.Valid (item vs i) := by
  refine (safe_place vs.length i).bind fun n _ => ?_
  cases hn : vs[n]? with
  | none => trivial
  | some v => exact (h v (List.mem_of_getElem? hn)).copy

theorem safe_places (n : Nat) (is : List Value) : Safe (fun _ => True) (places n is) := by
  induction is with
  | nil => trivial
  | cons i is ih => exact (safe_place n i).bind fun _ _ => ih.bind fun _ _ => trivial

theorem safe_gather {vs : List Value} (h : ∀ v ∈ vs, v.Valid) (is : List Value) :
    Safe (fun ws => ∀ w ∈ ws, w.Valid) (gather vs is) := by
  refine (safe_places vs.length is).bind fun ps _ => ?_
  intro w hw
  obtain ⟨v, hv, rfl⟩ := List.mem_map.mp hw
  obtain ⟨p, -, hp⟩ := List.mem_filterMap.mp hv
  exact (h v (List.mem_of_getElem? hp)).copy

theorem safe_field {es : List (Key × Value)} (h : ∀ e ∈ es, Value.ValidEntry e) (name : String) :
    Safe Value.Valid (field es name) := by
  rw [field]
  cases hv : es.lookup (Key.name name) with
  | none => trivial
  | some v =>
      obtain ⟨l, hl⟩ := Entries.exists_mem_of_lookup hv
      exact (h _ hl).2.copy

theorem safe_checkMaps {vs : List Value} (h : ∀ v ∈ vs, v.Valid) (name : String) :
    Safe (fun _ => True) (checkMaps name vs) := by
  fun_induction checkMaps name vs with
  | case1 => trivial
  | case2 o es vs ih => exact ih (List.forall_mem_cons.mp h).2
  | case3 v vs hv => exact safe_kind_fault (List.forall_mem_cons.mp h).1 _

theorem safe_fields {vs : List Value} (h : ∀ v ∈ vs, v.Valid) (name : String) :
    Safe (fun ws => ∀ w ∈ ws, w.Valid) (fields name vs) := by
  fun_induction fields name vs with
  | case1 => simp
  | case2 o es vs ih =>
      obtain ⟨hv, hvs⟩ := List.forall_mem_cons.mp h
      refine (safe_field (Value.valid_map_iff.mp hv) name).bind fun w hw => ?_
      exact (ih hvs).bind fun ws hws => List.forall_mem_cons.mpr ⟨hw, hws⟩
  | case3 v vs hv ih => exact ih (List.forall_mem_cons.mp h).2

theorem safe_project {vs : List Value} (h : ∀ v ∈ vs, v.Valid) (name : String) :
    Safe (fun ws => ∀ w ∈ ws, w.Valid) (project vs name) :=
  (safe_checkMaps h name).bind fun _ _ => safe_fields h name

end Access

theorem Dyadic.safe_apply (verb : Dyadic) {a b : Value} (ha : a.Valid) (hb : b.Valid) :
    Safe Value.Valid (verb.apply a b) := by
  rw [apply]
  fun_cases applyWith Dense.shortcut verb a b with
  | case1 op => exact Pervasive.safe_apply ha hb
  | case2 o cs p vs =>
      exact (safe_replicate (Value.valid_array_iff.mp ha) (Value.valid_array_iff.mp hb)).bind
        fun _ hws => safe_pure_iff.mpr (Value.valid_array_iff.mpr hws)
  | case3 => exact safe_refuse _ ha hb
  | case4 o vs p is =>
      exact (Access.safe_gather (Value.valid_array_iff.mp ha) is).bind
        fun _ hws => safe_pure_iff.mpr (Value.valid_array_iff.mpr hws)
  | case5 o vs n => exact Access.safe_item (Value.valid_array_iff.mp ha) _
  | case6 o vs name =>
      exact (Access.safe_project (Value.valid_array_iff.mp ha) name).bind
        fun _ hws => safe_pure_iff.mpr (Value.valid_array_iff.mpr hws)
  | case7 o es name => exact Access.safe_field (Value.valid_map_iff.mp ha) name
  | case8 => exact safe_refuse _ ha hb

/-! ## Reduction -/

namespace Fold

variable {f : Fold}

theorem safe_identityLike {v : Value} (hv : v.Valid) : Safe Value.Valid (f.identityLike v) := by
  induction v using Value.induct with
  | number n => exact Value.valid_number _
  | array o xs ih =>
      have hxs := Value.valid_array_iff.mp hv
      rw [identityLike, identityItems_eq_mapM]
      exact safe_vector fun x hx => ih x hx (hxs x hx)
  | map o es ih =>
      have hes := Value.valid_map_iff.mp hv
      rw [identityLike, identityEntries_eq_mapM]
      exact safe_record fun e he => safe_onEntry (hes e he).1 (ih e he (hes e he).2)
  | text s => exact safe_kind_fault hv _
  | null => exact safe_kind_fault hv _
  | foreign a => exact absurd hv (Value.not_valid_foreign a)
  | tuple xs => exact absurd hv (Value.not_valid_tuple xs)

theorem valid_of_shortcut? {vs : List Value} {w : Value} (h : f.shortcut? vs = some w) :
    w.Valid := by
  rw [shortcut?] at h
  split at h
  · cases h
  · split at h
    · cases h
      exact Value.valid_number _
    · obtain ⟨rows, -, rfl⟩ := Option.map_eq_some_iff.mp h
      simp [Fold.rows]

/-- The fold keeps what is accumulated valid from one item to the next. -/
theorem safe_run {acc : Value} {vs : List Value} (hacc : acc.Valid) (hvs : ∀ v ∈ vs, v.Valid) :
    Safe Value.Valid (f.run acc vs) := by
  induction vs generalizing acc with
  | nil => exact hacc
  | cons v vs ih =>
      obtain ⟨hv, hvs⟩ := List.forall_mem_cons.mp hvs
      exact (Pervasive.safe_apply hacc hv).bind fun next hnext => ih hnext hvs

theorem safe_plain {v : Value} {vs : List Value} (h : ∀ w ∈ v :: vs, w.Valid) :
    Safe Value.Valid (f.plain v vs) :=
  (safe_identityLike (h v (List.mem_cons_self ..))).bind fun _ hacc => safe_run hacc h

end Fold

theorem safe_reduce (verb : Dyadic) {v : Value} (hv : v.Valid) :
    Safe Value.Valid (reduce verb v) := by
  unfold reduce
  split
  · trivial
  · split
    · trivial
    · split
      · exact Fold.valid_of_shortcut? ‹_›
      · exact Fold.safe_plain (Value.valid_array_iff.mp hv)
    · exact safe_kind_fault hv _

/-! ## Monadic verbs -/

theorem Monadic.safe_apply (verb : Monadic) {v : Value} (hv : v.Valid) :
    Safe (fun r => r.value.Valid) (verb.apply v) := by
  fun_cases apply verb v with
  | case1 =>
      rw [hv.format]
      exact Value.valid_null
  | case2 n => exact Value.valid_array_iff.mpr (by simp [count])
  | case3 => exact safe_kind_fault hv _
  | case4 o xs => exact Value.valid_number _
  | case5 => exact safe_kind_fault hv _

end Glyph
