import Mathlib.Algebra.Ring.Int.Defs
import Mathlib.Data.List.Forall2
import Glyph.Proofs.Selection.Access

/-!
# Replicating items and replicating their places

To replicate the items of an array is to replicate its indices, counted up from its shape, and to
access the array by them. The counts are checked without a look at what is replicated, so both ways
fail with the same error; and an index that is replicated stays in the range of the array.
-/

namespace Glyph

namespace Replicate

variable {ns : List Int64} {cs is vs ws xs : List Value}

/-- Where each index leads to the item at its place, the items are repeated by following the indices
repeated as often. -/
theorem expand_eq_gather (ns : List Int64)
    (h : List.Forall₂ (fun i v => Access.item xs i = .ok v.copy) is vs) :
    expand ns vs = expand ns is >>= Access.gather xs := by
  induction h generalizing ns with
  | nil => cases ns <;> rfl
  | @cons i v is vs hi _ ih =>
      cases ns with
      | nil => rfl
      | cons n ns =>
          rw [expand, expand]
          split
          · rfl
          · rw [ih]
            cases expand ns is with
            | error e => rfl
            | ok js =>
                obtain ⟨m, rfl⟩ := Access.exists_int_of_item hi
                have hrepeated : (List.replicate n.toInt.toNat (Value.int m)).mapM
                    (Access.item xs) = .ok (List.replicate n.toInt.toNat v.copy) := by
                  rw [mapM_eq_ok (g := fun _ => v.copy), List.map_replicate]
                  intro j hj
                  rw [List.eq_of_mem_replicate hj, hi]
                change _ = Access.gather xs (List.replicate n.toInt.toNat (Value.int m) ++ js)
                rw [Access.gather_eq_mapM, List.mapM_append, hrepeated, ← Access.gather_eq_mapM]
                rfl

theorem run_eq_gather (cs : List Value)
    (h : List.Forall₂ (fun i v => Access.item xs i = .ok v.copy) is vs) :
    run cs vs = run cs is >>= Access.gather xs := by
  rw [run, run, h.length_eq]
  split
  · rfl
  · simp only [expand_eq_gather _ h, bind_assoc]

theorem eq_map_of_counts (h : counts cs = .ok ns) : cs = ns.map Value.int := by
  fun_induction counts cs generalizing ns with
  | case1 =>
      cases h
      rfl
  | case2 n cs ih =>
      obtain ⟨ms, hms, h⟩ := Outcome.bind_eq_ok_iff.mp h
      cases h
      rw [List.map_cons, ih hms]
  | case3 c cs hc =>
      obtain ⟨k, -, h⟩ := Outcome.bind_eq_ok_iff.mp h
      cases h

theorem counts_map (ns : List Int64) : counts (ns.map Value.int) = .ok ns := by
  induction ns with
  | nil => rfl
  | cons n ns ih =>
      rw [List.map_cons, counts, ih]
      rfl

/-- Where replicating succeeds, the counts are integers, one for each item. -/
theorem exists_counts_of_run (h : run cs vs = .ok ws) :
    ∃ ns : List Int64, cs = ns.map Value.int ∧ ns.length = vs.length ∧ expand ns vs = .ok ws := by
  rw [run] at h
  split at h
  · cases h
  · rename_i hlength
    obtain ⟨ns, hns, hexpand⟩ := Outcome.bind_eq_ok_iff.mp h
    have hcs := eq_map_of_counts hns
    exact ⟨ns, hcs, by simpa [hcs] using hlength, hexpand⟩

theorem length_of_expand (hlength : ns.length = vs.length) (h : expand ns vs = .ok ws) :
    (ws.length : Int) = (ns.map Int64.toInt).sum := by
  fun_induction expand ns vs generalizing ws with
  | case1 n ns v vs hn => cases h
  | case2 n ns v vs hn ih =>
      obtain ⟨rest, hrest, h⟩ := Outcome.bind_eq_ok_iff.mp h
      cases h
      have hsum := ih (Nat.succ.inj hlength) hrest
      rw [List.length_append, List.length_replicate, List.map_cons, List.sum_cons]
      omega
  | case3 ns vs hempty =>
      cases h
      cases ns with
      | nil => rfl
      | cons n ns =>
          cases vs with
          | nil => cases hlength
          | cons v vs => exact absurd rfl (hempty n ns v vs rfl)

theorem expand_ones (vs : List Value) :
    expand (List.replicate vs.length 1) vs = .ok (vs.map Value.copy) := by
  induction vs with
  | nil => rfl
  | cons v vs ih =>
      rw [List.length_cons, List.replicate_succ, expand, if_neg (by decide), ih]
      rfl

theorem run_ones (hlength : cs.length = vs.length) (hones : ∀ c ∈ cs, c = .int 1) :
    run cs vs = .ok (vs.map Value.copy) := by
  have hcounts : cs = (List.replicate vs.length 1).map Value.int := by
    rw [List.map_replicate, ← hlength]
    exact List.eq_replicate_of_mem hones
  rw [run, if_neg (by simpa using hlength), hcounts, counts_map]
  exact expand_ones vs

end Replicate

/-! ## The indices of an array -/

theorem FitsInt64.toInt_ofNat {n k : Nat} (hn : FitsInt64 n) (hk : k ≤ n) :
    (Int64.ofNat k).toInt = k :=
  Int64.toInt_ofNat_of_lt (by have := hn.2; omega)

theorem place_ofNat {n k : Nat} (hn : FitsInt64 n) (hk : k < n) :
    Access.place n (.int (Int64.ofNat k)) = .ok k := by
  have hint := hn.toInt_ofNat (Nat.le_of_lt hk)
  exact Access.place_eq_ok_iff.mpr ⟨_, rfl, ⟨by omega, by omega⟩, by omega⟩

/-- The integers counted up to the length of an array lead to its items. -/
theorem forall₂_item_count {vs : List Value} (hlength : FitsInt64 vs.length) :
    List.Forall₂ (fun i v => Access.item vs i = .ok v.copy)
      (Monadic.count (Int64.ofNat vs.length)) vs := by
  rw [Monadic.count, hlength.toInt_ofNat (Nat.le_refl _), Int.toNat_natCast,
    List.forall₂_map_left_iff, List.forall₂_iff_get]
  refine ⟨List.length_range, fun k _ hk => ?_⟩
  rw [List.get_eq_getElem, List.getElem_range]
  exact Access.item_of_place (place_ofNat hlength hk) (List.getElem?_eq_getElem hk)

namespace Dyadic

/-- Replicating an array gives what accessing it by its replicated indices does, or fails with the
same error. The result is as long as the counts add up to, and counts that are all one give a copy
of the array. The indices are counted up to the shape, so a length has to be an integer of the
language, as that of any array in memory is. -/
theorem replicate_eq_access (o p : Origin) (cs vs : List Value) :
    (FitsInt64 vs.length → apply .replicate (.array o cs) (.array p vs) = (do
        let length ← Monadic.apply .shape (.array p vs)
        let indices ← Monadic.apply .generate length.value
        let repeated ← apply .replicate (.array o cs) indices.value
        apply .access (.array p vs) repeated)) ∧
      (∀ r, apply .replicate (.array o cs) (.array p vs) = .ok r →
        ∃ (ns : List Int64) (ws : List Value), cs = ns.map Value.int ∧ r = .vector ws ∧
          (ws.length : Int) = (ns.map Int64.toInt).sum) ∧
      (cs.length = vs.length → (∀ c ∈ cs, c = .int 1) →
        apply .replicate (.array o cs) (.array p vs) = .ok (Value.array p vs).copy ∧
          ((Value.array p vs).Native →
            apply .replicate (.array o cs) (.array p vs) = .ok (.array p vs))) := by
  refine ⟨fun hlength => ?_, fun r hr => ?_, fun hcs hones => ?_⟩
  · change _ = apply .replicate (.array o cs) (.vector (Monadic.count (Int64.ofNat vs.length))) >>=
      apply .access (.array p vs)
    change (do return Value.vector (← Replicate.run cs vs)) = (do
      return Value.vector (← Replicate.run cs _)) >>= _
    rw [Replicate.run_eq_gather cs (forall₂_item_count hlength), bind_assoc, bind_assoc]
    rfl
  · obtain ⟨ws, hws, rfl⟩ := vector_eq_ok_iff.mp hr
    obtain ⟨ns, rfl, hlen, hws⟩ := Replicate.exists_counts_of_run hws
    exact ⟨ns, ws, rfl, rfl, Replicate.length_of_expand hlen hws⟩
  · have hcopy : apply .replicate (.array o cs) (.array p vs) = .ok (Value.array p vs).copy :=
      vector_eq_ok_iff.mpr
        ⟨_, Replicate.run_ones hcs hones, by rw [Value.copy, Value.copyItems_eq_map]⟩
    exact ⟨hcopy, fun hnative => by rw [hcopy, hnative.copy_eq]⟩

/-- Counts of items of which some are left out and some repeated; and counts of which one is
negative and one no integer, which is the error on both ways. -/
theorem replicate_eq_access_repeated :
    let items := Value.vector [.int 10, .vector [.text "a"], .null]
    let places : Value → Outcome Value := fun counts => do
      let length ← Monadic.apply .shape items
      let indices ← Monadic.apply .generate length.value
      let repeated ← apply .replicate counts indices.value
      apply .access items repeated
    FitsInt64 3 ∧
      apply .replicate (.vector [.int 2, .int 0, .int 1]) items =
        .ok (.vector [.int 10, .int 10, .null]) ∧
      places (.vector [.int 2, .int 0, .int 1]) = .ok (.vector [.int 10, .int 10, .null]) ∧
      places (.vector [.int 1, .int (-1), .text "b"]) = fail (.countKind .text) := by
  intro items places
  have hfits : FitsInt64 3 := by decide
  have hequal (cs : List Value) : apply .replicate (.vector cs) items = places (.vector cs) :=
    (replicate_eq_access .native .native cs [.int 10, .vector [.text "a"], .null]).1 hfits
  have hitems : apply .replicate (.vector [.int 2, .int 0, .int 1]) items =
      .ok (.vector [.int 10, .int 10, .null]) := rfl
  exact ⟨hfits, hitems, (hequal _).symm.trans hitems, (hequal _).symm.trans rfl⟩

end Dyadic

end Glyph
