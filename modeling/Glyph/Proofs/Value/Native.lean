import Glyph.Proofs.Safety.Operations

/-!
# Native values

All containers in a native value were made by the language. A copy is native, and a native value is
its own copy. Every operation gives native values, whatever its operands are: it builds the
containers of its result anew, or copies what it selects. This needs no validity, so there is one
lemma for each operation that says it of every result.
-/

namespace Glyph

/-- All containers in the value, at every depth, were made by the language. -/
inductive Value.Native : Value → Prop
  | number (n : Number) : Native (.number n)
  | text (s : String) : Native (.text s)
  | null : Native .null
  | vector {xs : List Value} (h : ∀ x ∈ xs, Native x) : Native (.vector xs)
  | record {es : List (Key × Value)} (h : ∀ e ∈ es, Native e.2) : Native (.record es)
  | foreign (a : Atom) : Native (.foreign a)
  | tuple (xs : List Value) : Native (.tuple xs)

namespace Value

theorem native_copy (v : Value) : v.copy.Native := by
  induction v using induct with
  | number n => exact .number n
  | text s => exact .text s
  | null => exact .null
  | array o xs ih =>
      rw [copy, copyItems_eq_map]
      refine .vector fun y hy => ?_
      obtain ⟨x, hx, rfl⟩ := List.mem_map.mp hy
      exact ih x hx
  | map o es ih =>
      rw [copy, copyEntries_eq_map]
      refine .record fun f hf => ?_
      obtain ⟨e, he, rfl⟩ := List.mem_map.mp hf
      exact ih e he
  | foreign a => exact .foreign a
  | tuple xs => exact .tuple xs

theorem Native.copy_eq {v : Value} (h : v.Native) : v.copy = v := by
  induction h with
  | number | text | null | foreign | tuple => rfl
  | @vector xs h ih =>
      have hxs : xs.map copy = xs := (List.map_congr_left ih).trans (List.map_id' xs)
      rw [copy, copyItems_eq_map, hxs]
  | @record es h ih =>
      have hentry : ∀ e ∈ es, (e.1, e.2.copy) = e := fun e he => by rw [ih e he]
      have hes : (es.map fun e => (e.1, e.2.copy)) = es :=
        (List.map_congr_left hentry).trans (List.map_id' es)
      rw [copy, copyEntries_eq_map, hes]

/-- A value as the language makes it: nothing in it is foreign, its keys are names and its
containers native. -/
structure Proper (v : Value) : Prop where
  valid : v.Valid
  native : v.Native

theorem Valid.proper_copy {v : Value} (h : v.Valid) : v.copy.Proper := ⟨h.copy, v.native_copy⟩

theorem proper_number (n : Number) : (number n).Proper := ⟨valid_number n, .number n⟩

theorem proper_null : null.Proper := ⟨valid_null, .null⟩

theorem proper_vector {xs : List Value} (h : ∀ x ∈ xs, x.Proper) : (vector xs).Proper :=
  ⟨valid_array_iff.mpr fun x hx => (h x hx).valid, .vector fun x hx => (h x hx).native⟩

theorem proper_record {es : List (Key × Value)}
    (h : ∀ e ∈ es, (∃ name, e.1 = .name name) ∧ e.2.Proper) : (record es).Proper :=
  ⟨valid_map_iff.mpr fun e he => ⟨(h e he).1, (h e he).2.valid⟩,
    .record fun e he => (h e he).2.native⟩

end Value

namespace Outcome

/-- The result, if there is one, has the property. -/
def Gives {α : Type} (P : α → Prop) (o : Outcome α) : Prop := ∀ a, o = .ok a → P a

variable {α β : Type} {P : α → Prop} {Q : β → Prop}

theorem gives_ok {a : α} (h : P a) : Gives P (.ok a) := by
  rintro _ ⟨⟩
  exact h

theorem gives_error (e : Failure) : Gives P (.error e : Outcome α) := by
  rintro _ ⟨⟩

theorem Safe.gives {o : Outcome α} (h : Safe P o) : Gives P o := by
  rintro a rfl
  exact h

theorem Gives.bind {x : Outcome α} {f : α → Outcome β} (hx : Gives P x)
    (hf : ∀ a, P a → Gives Q (f a)) : Gives Q (x >>= f) := by
  intro b hb
  obtain ⟨a, ha, hb⟩ := bind_eq_ok_iff.mp hb
  exact hf a (hx a ha) b hb

/-- What comes last decides, whatever the steps before it gave. -/
theorem gives_bind (x : Outcome α) {f : α → Outcome β} (hf : ∀ a, Gives Q (f a)) :
    Gives Q (x >>= f) :=
  Gives.bind (P := fun _ => True) (fun _ _ => trivial) fun a _ => hf a

theorem Gives.mapM {f : α → Outcome β} {xs : List α} (h : ∀ x ∈ xs, Gives Q (f x)) :
    Gives (fun ys => ∀ y ∈ ys, Q y) (xs.mapM f) := by
  induction xs with
  | nil => exact gives_ok (by simp)
  | cons x xs ih =>
      obtain ⟨hx, hxs⟩ := List.forall_mem_cons.mp h
      rw [List.mapM_cons]
      refine hx.bind fun y hy => (ih hxs).bind fun ys hys => ?_
      exact gives_ok (List.forall_mem_cons.mpr ⟨hy, hys⟩)

end Outcome

open Outcome

section Containers

variable {α : Type}

theorem native_vector {o : Outcome (List Value)} (h : Gives (fun xs => ∀ x ∈ xs, x.Native) o) :
    Gives Value.Native (do return .vector (← o)) :=
  h.bind fun _ hxs => gives_ok (.vector hxs)

theorem native_record {f : Key × Value → Outcome (Key × Value)} {es : List (Key × Value)}
    (h : ∀ e ∈ es, Gives (fun e => e.2.Native) (f e)) :
    Gives Value.Native (do return .record (← es.mapM f)) :=
  (Gives.mapM h).bind fun _ hfs => gives_ok (.record hfs)

theorem native_onEntry {f : Value → Outcome Value} {e : Key × Value}
    (h : Gives Value.Native (f e.2)) : Gives (fun e => e.2.Native) (onEntry f e) :=
  h.bind fun _ hv => gives_ok hv

theorem gives_refuse {P : α → Prop} (verb : Dyadic) (a b : Value) : Gives P (verb.refuse a b) :=
  gives_bind _ fun _ => gives_bind _ fun _ => gives_error _

end Containers

/-! ## Broadcasting -/

namespace Pervasive

variable {quick : Shortcut} {op : Pervasive}

theorem native_scalar (op : Pervasive) (x y : Number) : Gives Value.Native (op.scalar x y) := by
  rw [scalar]
  cases op.combine x y with
  | ok z => exact gives_ok (.number z)
  | error f => exact gives_error _

theorem native_spread (hquick : ∀ a b v, quick op a b = some v → v.Native) (side : Side)
    (x : Number) (v : Value) : Gives Value.Native (spread quick op side x v) := by
  induction v using Value.induct with
  | number y => exact native_scalar op _ _
  | array o ys ih =>
      rw [spread]
      dsimp only
      split
      · split
        · exact gives_ok (hquick _ _ _ ‹_›)
        · rw [spreadItems_eq_mapM]
          exact native_vector (Gives.mapM ih)
      · exact gives_refuse _ _ _
  | map o es ih =>
      rw [spread]
      dsimp only
      split
      · rw [spreadEntries_eq_mapM]
        exact native_record fun e he => native_onEntry (ih e he)
      · exact gives_refuse _ _ _
  | text s => exact gives_refuse _ _ _
  | null => exact gives_refuse _ _ _
  | foreign a => exact gives_refuse _ _ _
  | tuple xs => exact gives_refuse _ _ _

theorem native_lockstep (hquick : ∀ a b v, quick op a b = some v → v.Native) (a b : Value) :
    Gives Value.Native (lockstep quick op a b) := by
  induction a, b using lockstep_induct with
  | right v y =>
      rw [lockstep_number_right]
      exact native_spread hquick _ _ _
  | left x w =>
      rw [lockstep_number_left]
      exact native_spread hquick _ _ _
  | arrays o xs p ys ih =>
      rw [lockstep]
      split
      · split
        · exact gives_ok (hquick _ _ _ ‹_›)
        · split
          · rw [lockstepItems_eq_mapM]
            exact native_vector (Gives.mapM fun q hq => ih q.1 (List.of_mem_zip hq).1 q.2)
          · exact gives_error _
      · exact gives_refuse _ _ _
  | maps o es p fs ih =>
      rw [lockstep]
      split
      · refine gives_bind _ fun _ => ?_
        rw [lockstepEntries_eq_mapM]
        refine native_record fun e he => ?_
        rw [withPartner]
        cases fs.lookup e.1 with
        | none => exact gives_bind _ fun _ => gives_error _
        | some y => exact native_onEntry (ih e he y)
      · exact gives_refuse _ _ _
  | refused v w h =>
      rw [h]
      exact gives_refuse _ _ _

theorem native_apply (op : Pervasive) (a b : Value) : Gives Value.Native (op.apply a b) := by
  refine native_lockstep (fun a b v h => ?_) a b
  obtain ⟨l, r, n, -, -, -, -, rfl⟩ := Dense.shortcut_eq_some_iff.mp h
  refine .vector fun x hx => ?_
  obtain ⟨y, -, rfl⟩ := List.mem_map.mp hx
  exact .number y

end Pervasive

/-! ## Selection -/

theorem native_expand (ns : List Int64) (vs : List Value) :
    Gives (fun ws => ∀ w ∈ ws, w.Native) (Replicate.expand ns vs) := by
  fun_induction Replicate.expand ns vs with
  | case1 n ns v vs hn => exact gives_error _
  | case2 n ns v vs hn ih =>
      refine ih.bind fun ws hws => gives_ok (List.forall_mem_append.mpr ⟨fun w hw => ?_, hws⟩)
      rw [List.eq_of_mem_replicate hw]
      exact v.native_copy
  | case3 => exact gives_ok (by simp)

theorem native_replicate (cs vs : List Value) :
    Gives (fun ws => ∀ w ∈ ws, w.Native) (Replicate.run cs vs) := by
  rw [Replicate.run]
  split
  · exact gives_error _
  · exact gives_bind _ fun ns => native_expand ns vs

namespace Access

theorem native_item (vs : List Value) (i : Value) : Gives Value.Native (item vs i) := by
  refine gives_bind _ fun n => ?_
  cases vs[n]? with
  | none => exact gives_error _
  | some v => exact gives_ok v.native_copy

theorem native_gather (vs is : List Value) :
    Gives (fun ws => ∀ w ∈ ws, w.Native) (gather vs is) := by
  refine gives_bind _ fun ps => gives_ok fun w hw => ?_
  obtain ⟨v, -, rfl⟩ := List.mem_map.mp hw
  exact v.native_copy

theorem native_field (es : List (Key × Value)) (name : String) :
    Gives Value.Native (field es name) := by
  rw [field]
  cases es.lookup (Key.name name) with
  | none => exact gives_error _
  | some v => exact gives_ok v.native_copy

theorem native_project (vs : List Value) (name : String) :
    Gives (fun ws => ∀ w ∈ ws, w.Native) (project vs name) := by
  refine gives_bind _ fun _ => ?_
  fun_induction fields name vs with
  | case1 => exact gives_ok (by simp)
  | case2 o es vs ih =>
      refine (native_field es name).bind fun w hw => ih.bind fun ws hws => ?_
      exact gives_ok (List.forall_mem_cons.mpr ⟨hw, hws⟩)
  | case3 v vs hv ih => exact ih

end Access

theorem Dyadic.native_apply (verb : Dyadic) (a b : Value) :
    Gives Value.Native (verb.apply a b) := by
  rw [apply]
  fun_cases applyWith Dense.shortcut verb a b with
  | case1 op => exact Pervasive.native_apply _ a b
  | case2 o cs p vs => exact native_vector (native_replicate cs vs)
  | case3 => exact gives_refuse _ _ _
  | case4 o vs p is => exact native_vector (Access.native_gather vs is)
  | case5 o vs n => exact Access.native_item vs _
  | case6 o vs name => exact native_vector (Access.native_project vs name)
  | case7 o es name => exact Access.native_field es name
  | case8 => exact gives_refuse _ _ _

/-! ## Reduction and monadic verbs -/

namespace Fold

variable {f : Fold}

theorem native_of_shortcut? {vs : List Value} {w : Value} (h : f.shortcut? vs = some w) :
    w.Native := by
  rw [shortcut?] at h
  split at h
  · cases h
  · split at h
    · cases h
      exact .number _
    · obtain ⟨rows, -, rfl⟩ := Option.map_eq_some_iff.mp h
      refine .vector fun x hx => ?_
      obtain ⟨n, -, rfl⟩ := List.mem_map.mp hx
      exact .number _

/-- Each item that is folded makes the accumulated value anew. -/
theorem native_run {acc : Value} (vs : List Value) (h : acc.Native) :
    Gives Value.Native (f.run acc vs) := by
  induction vs generalizing acc with
  | nil => exact gives_ok h
  | cons v vs ih => exact (Pervasive.native_apply f.verb acc v).bind fun next hnext => ih hnext

theorem native_plain (v : Value) (vs : List Value) : Gives Value.Native (f.plain v vs) :=
  gives_bind _ fun acc =>
    (Pervasive.native_apply f.verb acc v).bind fun _ hnext => native_run vs hnext

end Fold

theorem native_reduce (verb : Dyadic) (v : Value) : Gives Value.Native (reduce verb v) := by
  unfold reduce
  split
  · exact gives_error _
  · split
    · exact gives_error _
    · split
      · exact gives_ok (Fold.native_of_shortcut? ‹_›)
      · exact Fold.native_plain _ _
    · exact gives_bind _ fun _ => gives_error _

theorem Monadic.native_apply (verb : Monadic) (v : Value) :
    Gives (fun r => r.value.Native) (verb.apply v) := by
  fun_cases apply verb v with
  | case1 => exact gives_bind _ fun _ => gives_ok .null
  | case2 n =>
      refine gives_ok (.vector fun x hx => ?_)
      obtain ⟨i, -, rfl⟩ := List.mem_map.mp hx
      exact .number _
  | case3 => exact gives_bind _ fun _ => gives_error _
  | case4 o xs => exact gives_ok (.number _)
  | case5 => exact gives_bind _ fun _ => gives_error _

end Glyph
