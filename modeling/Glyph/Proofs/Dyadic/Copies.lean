import Glyph.Proofs.Dyadic.Shortcut
import Glyph.Proofs.Value.Native
import Glyph.Proofs.Value.Runtime

/-!
# Copies as operands

The parts of a copy are the copies of the parts. Sums and the other pervasive verbs look at what
containers hold and not at who made them, so a copy can stand for its original as an operand, errors
included; the same holds of reductions.
-/

namespace Glyph

namespace Value

theorem keys_copyEntries (es : List (Key × Value)) :
    Entries.keys (copyEntries es) = Entries.keys es := by
  rw [copyEntries_eq_map, Entries.keys, List.map_map]
  rfl

theorem lookup_copyEntries (k : Key) (es : List (Key × Value)) :
    (copyEntries es).lookup k = (es.lookup k).map copy := by
  induction es with
  | nil => rfl
  | cons e es ih =>
      obtain ⟨l, v⟩ := e
      rw [copyEntries, List.lookup_cons, List.lookup_cons]
      cases k == l with
      | true => rfl
      | false => exact ih

theorem step?_copy (v : Value) (s : Step) : v.copy.step? s = (v.step? s).map copy := by
  cases v with
  | array o xs =>
      cases s with
      | index i => rw [copy, copyItems_eq_map, step?, step?, List.getElem?_map]
      | key name => rfl
  | map o es =>
      cases s with
      | index i => rfl
      | key name => rw [copy, step?, step?, lookup_copyEntries]
  | _ => rfl

theorem Runtime.copy {v : Value} (h : v.Runtime) : v.copy.Runtime := by
  induction h with
  | number | text | null => constructor
  | array _ ih =>
      rw [Value.copy, copyItems_eq_map]
      refine .array fun y hy => ?_
      obtain ⟨x, hx, rfl⟩ := List.mem_map.mp hy
      exact ih x hx
  | map hkeys _ ih =>
      rw [Value.copy]
      refine .map (by rwa [keys_copyEntries]) ?_
      rw [copyEntries_eq_map]
      intro f hf
      obtain ⟨e, he, rfl⟩ := List.mem_map.mp hf
      exact ih e he

end Value

open Value

/-- A step that does not tell a value from its copy does not tell entries that hold them apart. -/
theorem onEntry_copy {f g : Value → Outcome Value} {e : Key × Value} (h : f e.2.copy = g e.2) :
    onEntry f (e.1, e.2.copy) = onEntry g e := by
  rw [onEntry, onEntry, h]

namespace Pervasive

variable (op : Pervasive)

theorem differingKeys_copyEntries (es fs : List (Key × Value)) :
    differingKeys (copyEntries es) (copyEntries fs) = differingKeys es fs := by
  simp [differingKeys, Entries.has, keys_copyEntries, lookup_copyEntries]

theorem checkKeys_copyEntries (es fs : List (Key × Value)) :
    op.checkKeys (copyEntries es) (copyEntries fs) = op.checkKeys es fs := by
  have hlength (gs : List (Key × Value)) : (copyEntries gs).length = gs.length := by
    rw [copyEntries_eq_map, List.length_map]
  rw [checkKeys, checkKeys, differingKeys_copyEntries, hlength, hlength]

theorem spread_copy (side : Side) (x : Number) (v : Value) :
    spread Shortcut.never op side x v.copy = spread Shortcut.never op side x v := by
  induction v using Value.induct with
  | array o ys ih =>
      have hitems : spreadItems Shortcut.never op side x (copyItems ys) =
          spreadItems Shortcut.never op side x ys := by
        rw [spreadItems_eq_mapM, spreadItems_eq_mapM, copyItems_eq_map, List.mapM_map]
        exact mapM_congr ih
      cases side <;> simp only [copy, spread, hitems] <;> rfl
  | map o es ih =>
      have hentries : spreadEntries Shortcut.never op side x (copyEntries es) =
          spreadEntries Shortcut.never op side x es := by
        rw [spreadEntries_eq_mapM, spreadEntries_eq_mapM, copyEntries_eq_map, List.mapM_map]
        exact mapM_congr fun e he => onEntry_copy (ih e he)
      cases side <;> simp only [copy, spread, hentries] <;> rfl
  | _ => rfl

theorem withPartner_copy (fs : List (Key × Value)) {e : Key × Value}
    (h : ∀ y, lockstep Shortcut.never op e.2.copy (Value.copy y) =
      lockstep Shortcut.never op e.2 y) :
    withPartner Shortcut.never op (copyEntries fs) (e.1, e.2.copy) =
      withPartner Shortcut.never op fs e := by
  rw [withPartner, withPartner, lookup_copyEntries]
  cases fs.lookup e.1 with
  | none => rfl
  | some y => exact onEntry_copy (h y)

theorem lockstep_copy (a b : Value) :
    lockstep Shortcut.never op a.copy b.copy = lockstep Shortcut.never op a b := by
  induction a using Value.induct generalizing b with
  | number x => simpa only [copy, lockstep_number_left] using spread_copy op .right x b
  | array o xs ih =>
      cases b with
      | number y =>
          simpa only [copy, lockstep_number_right] using spread_copy op .left y (.array o xs)
      | array p ys =>
          have hitems : lockstepItems Shortcut.never op (copyItems xs) (copyItems ys) =
              lockstepItems Shortcut.never op xs ys := by
            rw [lockstepItems_eq_mapM, lockstepItems_eq_mapM, copyItems_eq_map, copyItems_eq_map,
              List.zip_map, List.mapM_map]
            exact mapM_congr fun q hq => ih q.1 (List.of_mem_zip hq).1 q.2
          have hlength (zs : List Value) : (copyItems zs).length = zs.length := by
            rw [copyItems_eq_map, List.length_map]
          simp only [copy, lockstep, hitems, hlength]
          rfl
      | _ => rfl
  | map o es ih =>
      cases b with
      | number y =>
          simpa only [copy, lockstep_number_right] using spread_copy op .left y (.map o es)
      | map p fs =>
          have hentries : lockstepEntries Shortcut.never op (copyEntries es) (copyEntries fs) =
              lockstepEntries Shortcut.never op es fs := by
            rw [lockstepEntries_eq_mapM, lockstepEntries_eq_mapM, copyEntries_eq_map es,
              List.mapM_map]
            exact mapM_congr fun e he => withPartner_copy op fs (ih e he)
          simp only [copy, lockstep, hentries, checkKeys_copyEntries]
          rfl
      | _ => rfl
  | _ => cases b <;> rfl

/-- A pervasive verb does not tell its operands from their copies. -/
theorem apply_copy (a b : Value) : op.apply a.copy b.copy = op.apply a b := by
  rw [apply, apply, lockstep_shortcut, lockstep_shortcut, lockstep_copy]

theorem apply_copy_right (a b : Value) : op.apply a b.copy = op.apply a b := by
  rw [← apply_copy, copy_copy, apply_copy]

end Pervasive

namespace Fold

variable (f : Fold)

theorem identityLike_copy (v : Value) : f.identityLike v.copy = f.identityLike v := by
  induction v using Value.induct with
  | array o xs ih =>
      have hitems : f.identityItems (copyItems xs) = f.identityItems xs := by
        rw [identityItems_eq_mapM, identityItems_eq_mapM, copyItems_eq_map, List.mapM_map]
        exact mapM_congr ih
      rw [copy, identityLike, identityLike, hitems]
  | map o es ih =>
      have hentries : f.identityEntries (copyEntries es) = f.identityEntries es := by
        rw [identityEntries_eq_mapM, identityEntries_eq_mapM, copyEntries_eq_map, List.mapM_map]
        exact mapM_congr fun e he => onEntry_copy (ih e he)
      rw [copy, identityLike, identityLike, hentries]
  | _ => rfl

theorem run_copies (acc : Value) (vs : List Value) : f.run acc (vs.map copy) = f.run acc vs := by
  induction vs generalizing acc with
  | nil => rfl
  | cons v vs ih =>
      rw [List.map_cons, run, run, Pervasive.apply_copy_right]
      simp only [ih]

theorem plain_copies (v : Value) (vs : List Value) :
    f.plain v.copy (vs.map copy) = f.plain v vs := by
  rw [plain, plain, identityLike_copy, ← List.map_cons]
  simp only [run_copies]

end Fold

end Glyph
