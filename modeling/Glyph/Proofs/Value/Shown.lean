import Glyph.Proofs.Value.Valid

/-!
# Keys that cannot be shown

There is one reason why a key has no form: an integer in it, at any depth of its tuples, has more
digits than are written. `Key.Long` says so by the size of that integer. Making a name of a key
fails for the same keys.
-/

namespace Glyph

namespace Decimal

theorem length_toDigits_le_iff {n k : Nat} (hk : 0 < k) :
    (Nat.toDigits 10 n).length ≤ k ↔ n < tenPow k :=
  Nat.length_toDigits_le_iff (by decide) hk

theorem integer?_eq_none_iff {n : Int} : integer? n = none ↔ tenPow maxDigits ≤ n.natAbs := by
  rw [← Nat.not_lt, ← length_toDigits_le_iff (by decide), Nat.not_le, integer?]
  split <;> simp [*]

end Decimal

namespace Key

/-- An integer in the key has more digits than are written. -/
inductive Long : Key → Prop
  | int {n : Int} (h : Decimal.tenPow Decimal.maxDigits ≤ n.natAbs) : Long (.atom (.int n))
  | item {k : Key} {ks : List Key} (hk : k ∈ ks) (h : Long k) : Long (.tuple ks)

/-- A power of ten has one digit more than its exponent. -/
theorem long_tenPow : (atom (.int (Decimal.tenPow Decimal.maxDigits))).Long :=
  .int (Nat.le_of_eq (Int.natAbs_natCast _).symm)

theorem long_tuple_iff {ks : List Key} : (tuple ks).Long ↔ ∃ k ∈ ks, k.Long := by
  constructor
  · intro h
    cases h with
    | item hk h => exact ⟨_, hk, h⟩
  · rintro ⟨k, hk, h⟩
    exact .item hk h

theorem form?_atom_eq_none_iff {a : Atom} : a.form? = none ↔ (atom a).Long := by
  fun_cases Atom.form? a with
  | case1 n =>
      rw [Decimal.integer?_eq_none_iff]
      exact ⟨.int, fun h => by cases h; assumption⟩
  | _ => exact iff_of_false nofun nofun

mutual

theorem form?_eq_none_iff : ∀ k : Key, k.form? = none ↔ k.Long
  | atom _ => form?_atom_eq_none_iff
  | tuple ks => by rw [form?, Option.map_eq_none_iff, forms?_eq_none_iff ks, long_tuple_iff]
  | number (.int _) | number (.float _) | text _ | null | nan .host _ | nan .native _ =>
    iff_of_false nofun nofun

theorem forms?_eq_none_iff : ∀ ks : List Key, forms? ks = none ↔ ∃ k ∈ ks, k.Long
  | [] => by simp [forms?]
  | k :: ks => by
    simp only [List.mem_cons, exists_eq_or_imp, ← form?_eq_none_iff k, ← forms?_eq_none_iff ks,
      forms?]
    cases k.form? <;> cases forms? ks <;> simp

end

theorem toName?_eq_none_iff {k : Key} : k.toName? = none ↔ k.Long := by
  fun_cases toName? k with
  | case1 s => exact iff_of_false nofun nofun
  | case2 => exact form?_eq_none_iff k

end Key

end Glyph
