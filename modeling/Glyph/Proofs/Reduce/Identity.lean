import Glyph.Proofs.Dyadic.Copies
import Glyph.Proofs.Reduce.LeftFold

/-!
# Identities in the shape of a value

The identity in the shape of a value has its frame, and its parts are the identities in the shapes
of the parts. On values without doubles it is one: with the value on either side of it, it makes a
copy of the value. Every value that takes part in a sum or product has an identity.
-/

namespace Glyph

/-! ## Values of one frame -/

theorem Frame.joins_self (k : Frame) : Frame.Joins k k k := by
  cases k with
  | number => exact .numbers
  | array n => exact .arrays n
  | map ks => exact .maps fun _ => Iff.rfl

theorem Frame.joinsFrom_self (side : Side) (k : Frame) : Frame.JoinsFrom side k k k := by
  cases side with
  | left => exact k.joins_self
  | right => exact k.joins_self

namespace Value

variable {v w : Value} {s : Step}

theorem frame?_copy (v : Value) : v.copy.frame? = v.frame? := by
  cases v with
  | array o xs => rw [copy, copyItems_eq_map, frame?, frame?, List.length_map]
  | map o es => rw [copy, frame?, frame?, keys_copyEntries]
  | _ => rfl

theorem exists_step?_of_frame? (hv : v.Runtime) (hframe : w.frame? = v.frame?) {z : Value}
    (h : w.step? s = some z) : ∃ x, v.step? s = some x := by
  rcases mem_of_step? h with ⟨o, ys, rfl, -⟩ | ⟨o, fs, -, rfl, -⟩
  · obtain ⟨p, xs, rfl, hlen⟩ := eq_array_of_frame? hframe.symm
    exact exists_step?_array hlen.symm h
  · obtain ⟨p, es, rfl, hkeys⟩ := eq_map_of_frame? hframe.symm
    exact exists_step?_map (hkeys ▸ hv.keys) hv.keys (by simp [hkeys]) h

theorem runtime_of_frame? {k : Frame} (hv : v.Runtime) (hk : v.frame? = some k)
    (hframe : w.frame? = v.frame?) (hparts : ∀ s z, w.step? s = some z → z.Runtime) :
    w.Runtime := by
  rw [hk] at hframe
  cases k with
  | number =>
      obtain ⟨n, rfl⟩ := eq_number_of_frame? hframe
      exact .number n
  | array n =>
      obtain ⟨o, ys, rfl, -⟩ := eq_array_of_frame? hframe
      exact runtime_array hparts
  | map ks =>
      obtain ⟨o, fs, rfl, hfs⟩ := eq_map_of_frame? hframe
      obtain ⟨p, es, rfl, hes⟩ := eq_map_of_frame? hk
      exact runtime_map (hfs.trans hes.symm ▸ hv.keys) hparts

theorem FloatFree.of_parts (hv : v.Runtime) (hnumber : ∀ n, v = .number n → ∃ i, v = .int i)
    (hparts : ∀ s w, v.step? s = some w → w.FloatFree) : v.FloatFree := by
  cases hv with
  | number n =>
      obtain ⟨i, hi⟩ := hnumber n rfl
      rw [hi]
      exact .int i
  | text t => exact .text t
  | null => exact .null
  | array _ =>
      refine .array fun x hx => ?_
      obtain ⟨i, hi⟩ := List.mem_iff_getElem?.mp hx
      exact hparts (.index i) x hi
  | map hkeys _ =>
      refine .map ?_
      rintro ⟨k, x⟩ he
      obtain ⟨name, rfl : k = .name name⟩ := hkeys.names k (List.mem_map_of_mem he)
      exact hparts (.key name) x ((Entries.lookup_name_eq_some_iff hkeys).mpr he)

/-- A value of a running program all numbers of which are integers. -/
structure Whole (v : Value) : Prop where
  runtime : v.Runtime
  floatFree : v.FloatFree

theorem Whole.step? (hv : v.Whole) (h : v.step? s = some w) : w.Whole :=
  ⟨hv.runtime.step? h, hv.floatFree.step? h⟩

theorem Whole.copy (hv : v.Whole) : v.copy.Whole := by
  refine ⟨hv.runtime.copy, ?_⟩
  induction v using step_induct with
  | h v ih =>
      refine .of_parts hv.runtime.copy ?_ fun s w hw => ?_
      · intro n hn
        have hframe : v.frame? = some .number := by rw [← frame?_copy, hn, frame?]
        obtain ⟨i, rfl⟩ := hv.floatFree.eq_int_of_frame? hframe
        exact ⟨i, rfl⟩
      · rw [step?_copy] at hw
        obtain ⟨x, hx, rfl⟩ := Option.map_eq_some_iff.mp hw
        exact ih s x hx (hv.step? hx)

theorem Whole.under? (hv : v.Whole) (h : v.under? s = some w) : w.Whole :=
  ⟨hv.runtime.under? h, hv.floatFree.under? h⟩

end Value

namespace Fold

variable {f : Fold} {a b e r v : Value}

theorem whole_of_apply (ha : a.Whole) (hb : b.Whole) (h : f.verb.apply a b = .ok r) : r.Whole := by
  induction r using Value.step_induct generalizing a b with
  | h r ih =>
      have hr := Pervasive.runtime_of_apply ha.runtime hb.runtime h
      refine ⟨hr, .of_parts hr ?_ fun s z hz => ?_⟩
      · rintro n rfl
        obtain ⟨k, l, m, hk, hl, hm, hjoins⟩ := joins_of_apply ha.runtime hb.runtime h
        cases hm
        cases hjoins
        obtain ⟨i, rfl⟩ := ha.floatFree.eq_int_of_frame? hk
        obtain ⟨j, rfl⟩ := hb.floatFree.eq_int_of_frame? hl
        exact ⟨_, Except.ok.inj (h.symm.trans (f.apply_ints i j))⟩
      · obtain ⟨x, y, hx, hy, happly⟩ :=
          exists_under?_of_apply ha.runtime hb.runtime h (Value.under?_of_step? hz)
        exact (ih s z hz (ha.under? hx) (hb.under? hy) happly).floatFree

/-! ## One level of an identity -/

theorem refuseLeaf_ne_ok (f : Fold) (v e : Value) : f.refuseLeaf v ≠ .ok e := by
  intro h
  obtain ⟨k, -, h⟩ := Outcome.bind_eq_ok_iff.mp h
  cases h

/-- The identity of a value has its frame, and the identities of its parts for parts. -/
theorem resolves_identityLike (hv : v.Runtime) (h : f.identityLike v = .ok e) :
    ∃ k, v.frame? = some k ∧ e.frame? = some k ∧
      ∀ s x, v.step? s = some x → ∃ z, e.step? s = some z ∧ f.identityLike x = .ok z := by
  cases hv with
  | number n =>
      cases h
      exact ⟨_, rfl, rfl, by rintro s x ⟨⟩⟩
  | text t => exact absurd h (refuseLeaf_ne_ok f _ e)
  | null => exact absurd h (refuseLeaf_ne_ok f _ e)
  | @array o xs _ =>
      rw [identityLike, identityItems_eq_mapM] at h
      obtain ⟨zs, rfl, hlen, hparts⟩ := vector_of_mapM (o := o) h
      exact ⟨_, rfl, congrArg (fun n => some (Frame.array n)) hlen, hparts⟩
  | @map o es hkeys _ =>
      rw [identityLike, identityEntries_eq_mapM] at h
      obtain ⟨gs, rfl, hgs, hparts⟩ := record_of_mapM_onEntry (o := o) hkeys h
      exact ⟨_, rfl, congrArg (fun ks => some (Frame.map ks)) hgs, hparts⟩

theorem exists_identityLike (hv : v.Runtime) {k : Frame} (hk : v.frame? = some k)
    (h : ∀ s x, v.step? s = some x → ∃ z, f.identityLike x = .ok z) :
    ∃ e, f.identityLike v = .ok e := by
  cases hv with
  | number n => exact ⟨_, rfl⟩
  | text t => cases hk
  | null => cases hk
  | @array o xs _ =>
      simp only [identityLike, identityItems_eq_mapM]
      exact exists_vector (o := o) h
  | @map o es hkeys _ =>
      simp only [identityLike, identityEntries_eq_mapM]
      refine exists_record hkeys fun name x hx => ?_
      obtain ⟨z, hz⟩ := h (.key name) x hx
      exact ⟨(.name name, z), onEntry_eq_ok_iff.mpr ⟨rfl, hz⟩⟩

theorem runtime_identityLike (hv : v.Runtime) (h : f.identityLike v = .ok e) : e.Runtime := by
  induction v using Value.step_induct generalizing e with
  | h v ih =>
      obtain ⟨k, hk, he, hparts⟩ := resolves_identityLike hv h
      refine Value.runtime_of_frame? hv hk (he.trans hk.symm) fun s z hz => ?_
      obtain ⟨x, hx⟩ := Value.exists_step?_of_frame? hv (he.trans hk.symm) hz
      obtain ⟨z', hz', hid⟩ := hparts s x hx
      cases hz.symm.trans hz'
      exact ih s x hx (hv.step? hx) hid

/-- The value on the right of a sum or product has an identity. -/
theorem exists_identityLike_of_apply (ha : a.Runtime) (hb : b.Runtime)
    (h : f.verb.apply a b = .ok r) : ∃ e, f.identityLike b = .ok e := by
  induction b using Value.step_induct generalizing a r with
  | h b ih =>
      obtain ⟨k, l, m, hk, hl, hm, hjoins⟩ := joins_of_apply ha hb h
      refine exists_identityLike hb hl fun s y hy => ?_
      have hstep : m.HasStep s :=
        (hjoins.hasStep_iff s).mpr (.inr ((Value.exists_step?_iff hb hl).mp ⟨y, hy⟩))
      obtain ⟨z, hz⟩ :=
        (Value.exists_step?_iff (Pervasive.runtime_of_apply ha hb h) hm).mpr hstep
      obtain ⟨x, y', hx, hy', happly⟩ := exists_under?_of_apply ha hb h (Value.under?_of_step? hz)
      cases (Value.under?_of_step? hy).symm.trans hy'
      exact ih s y hy (ha.under? hx) (hb.step? hy) happly

/-- An identity and the value that it was made for make the value, from either side. -/
theorem applyFrom_identityLike (side : Side) (hv : v.Whole) (h : f.identityLike v = .ok e) :
    f.applyFrom side e v = .ok v.copy := by
  induction v using Value.step_induct generalizing e with
  | h v ih =>
      obtain ⟨k, hk, he, hparts⟩ := resolves_identityLike hv.runtime h
      by_cases hnumber : k = .number
      · subst hnumber
        obtain ⟨n, rfl⟩ := hv.floatFree.eq_int_of_frame? hk
        cases h
        exact (f.applyFrom_ints side _ n).trans (by rw [onInts_comm, onInts_intIdentity]; rfl)
      · refine applyFrom_of_joins (runtime_identityLike hv.runtime h) hv.runtime hv.runtime.copy
          v.native_copy he hk (v.frame?_copy.trans hk) (k.joinsFrom_self side) hnumber
          fun s z hz => ?_
        rw [Value.step?_copy] at hz
        obtain ⟨x, hx, rfl⟩ := Option.map_eq_some_iff.mp hz
        obtain ⟨z, hz, hid⟩ := hparts s x hx
        exact ⟨z, x, Value.under?_of_step? hz, Value.under?_of_step? hx,
          ih s x hx (hv.step? hx) hid⟩

theorem apply_identityLike (hv : v.Whole) (h : f.identityLike v = .ok e) :
    f.verb.apply e v = .ok v.copy := applyFrom_identityLike .left hv h

end Fold

end Glyph
