import Glyph.Proofs.Dyadic.Broadcast

/-!
# The shortcut changes nothing

Where the shortcut for flat arrays is taken, both operands are numbers place by place, the verb
takes their classes, and what is computed at once is what the plain recursion comes to at each
place. The recursion decides anew at every level whether to take it, so the result for nested
operands is an induction over the two of them.
-/

namespace Glyph

theorem eq_map_of_ints? {vs : List Value} {ns : List Int64} (h : ints? vs = some ns) :
    vs = (ns.map Number.int).map Value.number := by
  induction vs generalizing ns with
  | nil =>
      cases h
      rfl
  | cons v vs ih =>
      cases v with
      | number n =>
          cases n with
          | int n =>
              obtain ⟨ms, hms, rfl⟩ := Option.map_eq_some_iff.mp h
              rw [ih hms]
              rfl
          | float x => cases h
      | _ => cases h

theorem eq_map_of_floats? {vs : List Value} {xs : List Float} (h : floats? vs = some xs) :
    vs = (xs.map Number.float).map Value.number := by
  induction vs generalizing xs with
  | nil =>
      cases h
      rfl
  | cons v vs ih =>
      cases v with
      | number n =>
          cases n with
          | int n => cases h
          | float x =>
              obtain ⟨ys, hys, rfl⟩ := Option.map_eq_some_iff.mp h
              rw [ih hys]
              rfl
      | _ => cases h

namespace Pervasive

theorem scalar_eq_ok {op : Pervasive} {x y : Number} (h : op.checkClasses x.cls y.cls = .ok ()) :
    op.scalar x y = .ok (.number (op.compute x y)) := by
  rw [scalar, combine, h]
  rfl

theorem operandClass_eq_int_iff {op : Pervasive} {l r : NumberClass} :
    op.operandClass l r = .int ↔ op ≠ .divide ∧ l = .int ∧ r = .int := by
  cases op <;> cases l <;> cases r <;> simp [operandClass]

theorem compute_eq_onFloats {op : Pervasive} {x y : Number}
    (hcheck : op.checkClasses x.cls y.cls = .ok ()) (h : op.operandClass x.cls y.cls = .float) :
    op.compute x y = op.onFloats x.toFloat y.toFloat := by
  -- The class of the result matters: a sum or product that starts with an integer has two of them.
  cases op <;> cases x <;> cases y <;> first | rfl | (cases h; done) | cases hcheck

end Pervasive

namespace Dense

def numbers (n : Nat) : Dense → List Number
  | scalar x => List.replicate n x
  | ints ns => ns.map .int
  | floats xs => xs.map .float

@[simp] theorem numbers_scalar (n : Nat) (x : Number) :
    (scalar x).numbers n = List.replicate n x := rfl

theorem cls_of_mem_numbers {d : Dense} {n : Nat} {x : Number} (h : x ∈ d.numbers n) :
    x.cls = d.cls := by
  cases d with
  | scalar y => rw [List.eq_of_mem_replicate h]; rfl
  | ints ns =>
      obtain ⟨m, -, rfl⟩ := List.mem_map.mp h
      rfl
  | floats xs =>
      obtain ⟨y, -, rfl⟩ := List.mem_map.mp h
      rfl

theorem map_toFloat_numbers (n : Nat) (d : Dense) :
    (d.numbers n).map Number.toFloat = d.toFloats n := by
  cases d <;> simp [numbers, toFloats, Number.toFloat, Function.comp_def]

theorem map_int_toInts (n : Nat) {d : Dense} (h : d.cls = .int) :
    (d.toInts n).map Number.int = d.numbers n := by
  cases d with
  | scalar x =>
      cases x with
      | int m => simp [numbers, toInts]
      | float x => cases h
  | ints ns => rfl
  | floats xs => cases h

/-- What is computed at once is what the verb computes at each place. -/
theorem combine_eq_map_zip {op : Pervasive} {l r : Dense}
    (h : op.checkClasses l.cls r.cls = .ok ()) (n : Nat) :
    combine op n l r =
      ((l.numbers n).zip (r.numbers n)).map fun p => op.compute p.1 p.2 := by
  rw [combine]
  cases hc : op.operandClass l.cls r.cls with
  | int =>
      obtain ⟨-, hl, hr⟩ := Pervasive.operandClass_eq_int_iff.mp hc
      rw [← map_int_toInts n hl, ← map_int_toInts n hr, List.map_zip_eq_zipWith, List.zipWith_map]
      simp only [Function.curry, Pervasive.compute_ints]
  | float =>
      -- This includes the quotient of two integers, which are taken into the doubles one by one.
      dsimp only
      rw [← map_toFloat_numbers, ← map_toFloat_numbers, List.zipWith_map,
        ← List.map_uncurry_zip_eq_zipWith]
      refine List.map_congr_left fun p hp => ?_
      obtain ⟨hx, hy⟩ := List.of_mem_zip hp
      rw [← cls_of_mem_numbers hx, ← cls_of_mem_numbers hy] at h hc
      exact (Pervasive.compute_eq_onFloats h hc).symm

theorem lockstepItems_numbers {op : Pervasive} {l r : Dense}
    (h : op.checkClasses l.cls r.cls = .ok ()) (quick : Shortcut) (n : Nat) :
    Pervasive.lockstepItems quick op ((l.numbers n).map .number) ((r.numbers n).map .number) =
      .ok ((combine op n l r).map .number) := by
  rw [Pervasive.lockstepItems_eq_mapM, List.zip_map, combine_eq_map_zip h, List.map_map]
  have hplace : ∀ p ∈ (l.numbers n).zip (r.numbers n),
      op.scalar p.1 p.2 = .ok (.number (op.compute p.1 p.2)) := by
    intro p hp
    obtain ⟨hx, hy⟩ := List.of_mem_zip hp
    refine Pervasive.scalar_eq_ok ?_
    rw [cls_of_mem_numbers hx, cls_of_mem_numbers hy]
    exact h
  rw [List.mapM_map]
  exact mapM_eq_ok hplace

/-- An array that can be taken as a whole is an array of numbers. -/
theorem of?_array_eq_some {o : Origin} {vs : List Value} {d : Dense}
    (h : of? (.array o vs) = some d) :
    d.length? = some vs.length ∧ ∀ n, vs = (d.numbers n).map .number := by
  rw [of?] at h
  split at h
  · cases h
  · cases hi : ints? vs with
    | some ns =>
        simp only [hi, Option.some.injEq] at h
        subst h
        have hvs := eq_map_of_ints? hi
        exact ⟨by simp [length?, hvs], fun _ => hvs⟩
    | none =>
        simp only [hi] at h
        obtain ⟨xs, hf, rfl⟩ := Option.map_eq_some_iff.mp h
        have hvs := eq_map_of_floats? hf
        exact ⟨by simp [length?, hvs], fun _ => hvs⟩

/-- What has to hold where the shortcut is taken, and what it gives. -/
theorem shortcut_eq_some_iff {op : Pervasive} {a b v : Value} :
    shortcut op a b = some v ↔
      ∃ l r n, of? a = some l ∧ of? b = some r ∧ commonLength? l r = some n ∧
        op.checkClasses l.cls r.cls = .ok () ∧
        .vector ((combine op n l r).map Value.number) = v := by
  rw [shortcut]
  cases of? a with
  | none => simp
  | some l =>
      cases of? b with
      | none => simp
      | some r =>
          cases hn : commonLength? l r with
          | none => simp [hn]
          | some n =>
              cases hc : op.checkClasses l.cls r.cls with
              | error f => simp [hn, hc]
              | ok u => simp [hn, hc]

theorem lockstepItems_of_shortcut {op : Pervasive} {o p : Origin} {xs ys : List Value} {v : Value}
    (h : shortcut op (.array o xs) (.array p ys) = some v) (quick : Shortcut) :
    xs.length = ys.length ∧
      ∃ zs, Pervasive.lockstepItems quick op xs ys = .ok zs ∧ .vector zs = v := by
  obtain ⟨l, r, n, hl, hr, hn, hc, rfl⟩ := shortcut_eq_some_iff.mp h
  obtain ⟨hxs, hls⟩ := of?_array_eq_some hl
  obtain ⟨hys, hrs⟩ := of?_array_eq_some hr
  rw [commonLength?, hxs, hys] at hn
  refine ⟨(Option.ite_none_right_eq_some.mp hn).1, _, ?_, rfl⟩
  rw [hls n, hrs n]
  exact lockstepItems_numbers hc quick n

end Dense

namespace Pervasive

variable {quick : Shortcut} {op : Pervasive}

/-- A number on one side is the same number next to every item. -/
theorem spreadItems_eq_lockstepItems (side : Side) (x : Number) (ys : List Value) :
    spreadItems quick op side x ys =
      lockstepItems quick op (side.arrange ys (List.replicate ys.length (.number x))).1
        (side.arrange ys (List.replicate ys.length (.number x))).2 := by
  induction ys with
  | nil => cases side <;> simp [spreadItems, lockstepItems, Side.arrange]
  | cons y ys ih =>
      cases side with
      | left =>
          rw [spreadItems, ih]
          simp only [Side.arrange, List.length_cons, List.replicate_succ]
          rw [lockstepItems, lockstep_number_right]
      | right =>
          rw [spreadItems, ih]
          simp only [Side.arrange, List.length_cons, List.replicate_succ]
          rw [lockstepItems, lockstep_number_left]

theorem spreadItems_of_shortcut {side : Side} {x : Number} {o : Origin} {ys : List Value}
    {v : Value}
    (h : Dense.shortcut op (side.arrange (.array o ys) (.number x)).1
      (side.arrange (.array o ys) (.number x)).2 = some v) :
    ∃ zs, spreadItems quick op side x ys = .ok zs ∧ .vector zs = v := by
  rw [spreadItems_eq_lockstepItems]
  obtain ⟨l, r, n, hl, hr, hn, hc, rfl⟩ := Dense.shortcut_eq_some_iff.mp h
  refine ⟨_, ?_, rfl⟩
  rw [← Dense.lockstepItems_numbers hc quick n]
  cases side with
  | left =>
      obtain ⟨hys, hls⟩ := Dense.of?_array_eq_some hl
      cases hr
      rw [Dense.commonLength?, hys] at hn
      cases hn
      rw [← hls, Dense.numbers_scalar, List.map_replicate]
      rfl
  | right =>
      obtain ⟨hys, hrs⟩ := Dense.of?_array_eq_some hr
      cases hl
      rw [Dense.commonLength?, hys] at hn
      cases hn
      rw [← hrs, Dense.numbers_scalar, List.map_replicate]
      rfl

theorem spread_shortcut (side : Side) (x : Number) (v : Value) :
    spread Dense.shortcut op side x v = spread Shortcut.never op side x v := by
  induction v using Value.induct with
  | array o ys ih =>
      have hys : spreadItems Dense.shortcut op side x ys =
          spreadItems Shortcut.never op side x ys := by
        rw [spreadItems_eq_mapM, spreadItems_eq_mapM]
        exact mapM_congr ih
      rw [spread, spread]
      cases hq : Dense.shortcut op (side.arrange (.array o ys) (.number x)).1
          (side.arrange (.array o ys) (.number x)).2 with
      | none => simp only [hq, hys, Shortcut.never]
      | some v =>
          obtain ⟨zs, hzs, rfl⟩ := @spreadItems_of_shortcut Shortcut.never _ _ _ _ _ _ hq
          simp only [hq, hzs, Shortcut.never]
          rfl
  | map o es ih =>
      have hes : spreadEntries Dense.shortcut op side x es =
          spreadEntries Shortcut.never op side x es := by
        rw [spreadEntries_eq_mapM, spreadEntries_eq_mapM]
        exact mapM_congr fun e he => by rw [onEntry, onEntry, ih e he]
      rw [spread, spread, hes]
  | _ => rfl

/-- Broadcasting with the shortcut is the plain recursion. -/
theorem lockstep_shortcut (a b : Value) :
    lockstep Dense.shortcut op a b = lockstep Shortcut.never op a b := by
  induction a, b using lockstep_induct with
  | right v y => rw [lockstep_number_right, lockstep_number_right, spread_shortcut]
  | left x w => rw [lockstep_number_left, lockstep_number_left, spread_shortcut]
  | arrays o xs p ys ih =>
      have hitems : lockstepItems Dense.shortcut op xs ys =
          lockstepItems Shortcut.never op xs ys := by
        rw [lockstepItems_eq_mapM, lockstepItems_eq_mapM]
        refine mapM_congr fun q hq => ?_
        exact ih q.1 (List.of_mem_zip hq).1 q.2
      -- The items agree by induction, and where the shortcut is taken, they are not looked at.
      rw [lockstep, lockstep]
      cases hq : Dense.shortcut op (.array o xs) (.array p ys) with
      | none => simp only [hitems, Shortcut.never]
      | some v =>
          obtain ⟨hlen, zs, hzs, rfl⟩ := Dense.lockstepItems_of_shortcut hq Shortcut.never
          simp only [hlen, hzs, Shortcut.never, if_true]
          rfl
  | maps o es p fs ih =>
      have hentries : lockstepEntries Dense.shortcut op es fs =
          lockstepEntries Shortcut.never op es fs := by
        rw [lockstepEntries_eq_mapM, lockstepEntries_eq_mapM]
        refine mapM_congr fun e he => ?_
        rw [withPartner, withPartner]
        cases fs.lookup e.1 with
        | none => rfl
        | some y => simp only [onEntry, ih e he y]
      rw [lockstep, lockstep, hentries]
  | refused v w h => rw [h, h]

end Pervasive

/-- A verb gives the same value or fails with the same failure, whether flat arrays are taken at
once or taken apart. -/
theorem Dyadic.apply_eq_applyWith_never (v : Dyadic) (a b : Value) :
    v.apply a b = v.applyWith Shortcut.never a b := by
  cases v with
  | pervasive op => exact Pervasive.lockstep_shortcut a b
  | replicate => rfl
  | access => rfl

end Glyph
