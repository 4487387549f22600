import Glyph.Proofs.Value.Valid
import Glyph.Reduce

/-!
# The shape of broadcasting

The recursions of broadcasting go through lists of items and of entries. Each of these is a
`List.mapM` of the verb on a single part, and `lockstep_induct` is induction over two operands with
one case for each thing that `lockstep` can do with them.
-/

namespace Glyph

theorem mapM_congr {α β : Type} {f g : α → Outcome β} {xs : List α} (h : ∀ x ∈ xs, f x = g x) :
    xs.mapM f = xs.mapM g := by
  induction xs with
  | nil => rfl
  | cons x xs ih =>
      obtain ⟨hx, hxs⟩ := List.forall_mem_cons.mp h
      rw [List.mapM_cons, List.mapM_cons, hx, ih hxs]

theorem mapM_eq_ok {α β : Type} {f : α → Outcome β} {g : α → β} {xs : List α}
    (h : ∀ x ∈ xs, f x = .ok (g x)) : xs.mapM f = .ok (xs.map g) := by
  induction xs with
  | nil => rfl
  | cons x xs ih =>
      obtain ⟨hx, hxs⟩ := List.forall_mem_cons.mp h
      rw [List.mapM_cons, hx, ih hxs]
      rfl

def onEntry (f : Value → Outcome Value) (e : Key × Value) : Outcome (Key × Value) := do
  return (e.1, ← f e.2)

namespace Pervasive

variable (quick : Shortcut) (op : Pervasive)

theorem spreadItems_eq_mapM (side : Side) (x : Number) (ys : List Value) :
    spreadItems quick op side x ys = ys.mapM (spread quick op side x) := by
  induction ys with
  | nil => rfl
  | cons y ys ih => rw [spreadItems, List.mapM_cons, ih]

theorem spreadEntries_eq_mapM (side : Side) (x : Number) (es : List (Key × Value)) :
    spreadEntries quick op side x es = es.mapM (onEntry (spread quick op side x)) := by
  induction es with
  | nil => rfl
  | cons e es ih => simp only [spreadEntries, List.mapM_cons, ih, onEntry, bind_assoc, pure_bind]

theorem lockstepItems_eq_mapM (xs ys : List Value) :
    lockstepItems quick op xs ys = (xs.zip ys).mapM fun p => lockstep quick op p.1 p.2 := by
  induction xs generalizing ys with
  | nil => simp [lockstepItems, pure, Except.pure]
  | cons x xs ih =>
      cases ys with
      | nil => simp [lockstepItems, pure, Except.pure]
      | cons y ys => rw [lockstepItems, ih, List.zip_cons_cons, List.mapM_cons]

theorem refuseKeys_ne_ok {α : Type} {ks : List Key} {a : α} : op.refuseKeys ks ≠ .ok a := by
  simp [refuseKeys, Outcome.bind_eq_ok_iff]

theorem refuseKeys_bind {α β : Type} (ks : List Key) (f : α → Outcome β) :
    op.refuseKeys ks >>= f = op.refuseKeys ks := by
  rw [refuseKeys, bind_assoc]
  rfl

/-- The verb on an entry of a map and what another map has under the same key. -/
def withPartner (fs : List (Key × Value)) (e : Key × Value) : Outcome (Key × Value) :=
  match fs.lookup e.1 with
  | some y => onEntry (fun x => lockstep quick op x y) e
  | none => op.refuseKeys [e.1]

theorem lockstepEntries_eq_mapM (es fs : List (Key × Value)) :
    lockstepEntries quick op es fs = es.mapM (withPartner quick op fs) := by
  induction es with
  | nil => rw [lockstepEntries]; rfl
  | cons e es ih =>
      rw [lockstepEntries, List.mapM_cons, withPartner, ih]
      cases fs.lookup e.1 with
      | none => exact (refuseKeys_bind op _ _).symm
      | some y => simp only [onEntry, bind_assoc, pure_bind]

theorem lockstep_number_right (v : Value) (y : Number) :
    lockstep quick op v (.number y) = spread quick op .left y v := by rw [lockstep]

theorem lockstep_number_left (x : Number) (w : Value) :
    lockstep quick op (.number x) w = spread quick op .right x w := by
  cases w <;> rw [lockstep] <;> simp [spread, Side.arrange]

/-- Induction over two operands: a number on either side, two arrays or two maps taken apart
together, and all that is refused. -/
@[elab_as_elim]
theorem lockstep_induct {motive : Value → Value → Prop} (right : ∀ v y, motive v (.number y))
    (left : ∀ x w, motive (.number x) w)
    (arrays : ∀ o xs p ys, (∀ x ∈ xs, ∀ y, motive x y) → motive (.array o xs) (.array p ys))
    (maps : ∀ o es p fs, (∀ e ∈ es, ∀ y, motive e.2 y) → motive (.map o es) (.map p fs))
    (refused : ∀ v w, (∀ quick op, lockstep quick op v w = Dyadic.refuse (.pervasive op) v w) →
      motive v w)
    (v w : Value) : motive v w := by
  induction v using Value.induct generalizing w with
  | number x => exact left x w
  | array o xs ih =>
      cases w with
      | number y => exact right _ y
      | array p ys => exact arrays o xs p ys ih
      | _ => exact refused _ _ fun quick op => by rw [lockstep] <;> simp
  | map o es ih =>
      cases w with
      | number y => exact right _ y
      | map p fs => exact maps o es p fs ih
      | _ => exact refused _ _ fun quick op => by rw [lockstep] <;> simp
  | _ =>
      cases w with
      | number y => exact right _ y
      | _ => exact refused _ _ fun quick op => by rw [lockstep] <;> simp

end Pervasive

namespace Fold

theorem identityItems_eq_mapM (f : Fold) (vs : List Value) :
    f.identityItems vs = vs.mapM f.identityLike := by
  induction vs with
  | nil => rfl
  | cons v vs ih => rw [identityItems, List.mapM_cons, ih]

theorem identityEntries_eq_mapM (f : Fold) (es : List (Key × Value)) :
    f.identityEntries es = es.mapM (onEntry f.identityLike) := by
  induction es with
  | nil => rfl
  | cons e es ih => simp only [identityEntries, List.mapM_cons, ih, onEntry, bind_assoc, pure_bind]

end Fold

end Glyph
