import Glyph.Decimal.Binary64

/-!
# Rounding keeps the order, and keeps what is exact

`nearest` takes a fraction to a bit pattern. It depends on the value of the fraction only and keeps
the order of the values (`nearest_mono`), and it takes the exact value of a finite pattern back to
that pattern (`nearest_units`). Nothing else is needed to know about it.

Where two values have the same spacing, the order comes from `roundDiv`. Where they do not, the
smaller one is at most at the start of the next binade, from which the patterns of the larger one
start.
-/

namespace Glyph.Decimal

theorem twoPow_pos (k : Nat) : 0 < twoPow k := Nat.pow_pos (by decide)

theorem tenPow_pos (k : Nat) : 0 < tenPow k := Nat.pow_pos (by decide)

theorem twoPow_add (j k : Nat) : twoPow (j + k) = twoPow j * twoPow k := Nat.pow_add ..

theorem twoPow_succ (k : Nat) : twoPow (k + 1) = 2 * twoPow k := by
  rw [twoPow_add, Nat.mul_comm]
  rfl

theorem tenPow_add (j k : Nat) : tenPow (j + k) = tenPow j * tenPow k := Nat.pow_add ..

/-! ## Integers -/

section RoundDiv

variable {num num' den : Nat}

theorem roundDiv_mul_right {c : Nat} (hc : 0 < c) :
    roundDiv (num * c) (den * c) = roundDiv num den := by
  have hleft : ∀ a b, 2 * (a * c) < b * c ↔ 2 * a < b := fun a b => by
    rw [← Nat.mul_assoc, Nat.mul_lt_mul_right hc]
  have hright : ∀ a b, b * c < 2 * (a * c) ↔ b < 2 * a := fun a b => by
    rw [← Nat.mul_assoc, Nat.mul_lt_mul_right hc]
  simp only [roundDiv, Nat.mul_div_mul_right _ _ hc, Nat.mul_mod_mul_right, hleft, hright]

theorem roundDiv_mul_self (hden : 0 < den) (n : Nat) : roundDiv (n * den) den = n := by
  simp [roundDiv, Nat.mul_div_cancel _ hden, hden]

/-- The quotient is rounded up beyond the half, and at the half where that makes it even. -/
theorem roundDiv_eq (num den : Nat) :
    roundDiv num den = num / den +
      if den < 2 * (num % den) ∨ den = 2 * (num % den) ∧ num / den % 2 = 1 then 1 else 0 := by
  simp only [roundDiv]
  grind

theorem roundDiv_mono (h : num ≤ num') : roundDiv num den ≤ roundDiv num' den := by
  have hdiv : num / den ≤ num' / den := Nat.div_le_div_right h
  rw [roundDiv_eq, roundDiv_eq]
  rcases Nat.lt_or_eq_of_le hdiv with hlt | heq
  · split <;> omega
  · -- With one quotient the order is that of the remainders.
    have hmod : num % den ≤ num' % den := by
      have hnum := Nat.div_add_mod num den
      have hnum' := Nat.div_add_mod num' den
      rw [heq] at hnum
      omega
    rw [heq]
    split <;> split <;> omega

end RoundDiv

/-! ## Doubles -/

theorem spacing_mul_right {num den c : Nat} (hc : 0 < c) :
    spacing (num * c) (den * c) = spacing num den := by
  rw [spacing, Nat.mul_right_comm, Nat.mul_div_mul_right _ _ hc, spacing]

theorem nearest_mul_right {num den c : Nat} (hc : 0 < c) :
    nearest (num * c) (den * c) = nearest num den := by
  simp only [nearest, spacing_mul_right hc]
  rw [Nat.mul_right_comm num, Nat.mul_right_comm den, roundDiv_mul_right hc]

theorem log2_mono {m n : Nat} (h : m ≤ n) : m.log2 ≤ n.log2 := by
  by_cases hm : m = 0
  · rw [hm, Nat.log2_zero]
    exact Nat.zero_le _
  · exact (Nat.le_log2 (by omega)).mpr (Nat.le_trans (Nat.log2_self_le hm) h)

theorem spacing_mono {num num' : Nat} (h : num ≤ num') (den : Nat) :
    spacing num den ≤ spacing num' den :=
  Nat.sub_le_sub_right (log2_mono (Nat.div_le_div_right (Nat.mul_le_mul_right _ h))) _

/-- At its spacing a value has at most 53 bits before rounding. -/
theorem quotient_lt (num den : Nat) :
    num * twoPow unitBits / (den * twoPow (spacing num den)) < twoPow (storedBits + 1) := by
  rw [← Nat.div_div_eq_div_mul, Nat.div_lt_iff_lt_mul (twoPow_pos _), ← twoPow_add]
  refine Nat.lt_of_lt_of_le Nat.lt_log2_self (Nat.pow_le_pow_right (by decide) ?_)
  rw [spacing]
  omega

/-- It has exactly so many where the spacing is not the smallest one. -/
theorem le_quotient {num den : Nat} (h : 0 < spacing num den) :
    twoPow storedBits ≤ num * twoPow unitBits / (den * twoPow (spacing num den)) := by
  have hlog : storedBits + spacing num den = (num * twoPow unitBits / den).log2 := by
    rw [spacing] at h ⊢
    omega
  rw [← Nat.div_div_eq_div_mul, Nat.le_div_iff_mul_le (twoPow_pos _), ← twoPow_add, hlog]
  refine Nat.log2_self_le fun hzero => ?_
  rw [spacing, hzero, Nat.log2_zero] at h
  simp at h

theorem nearest_mono_left {num num' : Nat} (h : num ≤ num') (den : Nat) :
    nearest num den ≤ nearest num' den := by
  have hnum : num * twoPow unitBits ≤ num' * twoPow unitBits := Nat.mul_le_mul_right _ h
  suffices hround : spacing num den * twoPow storedBits +
      roundDiv (num * twoPow unitBits) (den * twoPow (spacing num den)) ≤
      spacing num' den * twoPow storedBits +
        roundDiv (num' * twoPow unitBits) (den * twoPow (spacing num' den)) by
    simp only [nearest]
    omega
  rcases Nat.lt_or_eq_of_le (spacing_mono h den) with hlt | heq
  · -- The smaller value rounds to the start of the next binade at most.
    have hsmall := quotient_lt num den
    have hlarge := le_quotient (Nat.zero_lt_of_lt hlt)
    have hbinade : (spacing num den + 1) * twoPow storedBits ≤
        spacing num' den * twoPow storedBits := Nat.mul_le_mul_right _ hlt
    rw [twoPow_succ] at hsmall
    rw [Nat.add_mul] at hbinade
    rw [roundDiv_eq, roundDiv_eq]
    split <;> omega
  · rw [heq]
    exact Nat.add_le_add_left (roundDiv_mono hnum) _

theorem nearest_mono {num den num' den' : Nat} (hden : 0 < den) (hden' : 0 < den')
    (h : num * den' ≤ num' * den) : nearest num den ≤ nearest num' den' := by
  calc nearest num den = nearest (num * den') (den * den') := (nearest_mul_right hden').symm
    _ ≤ nearest (num' * den) (den * den') := nearest_mono_left h _
    _ = nearest (num' * den) (den' * den) := by rw [Nat.mul_comm den]
    _ = nearest num' den' := nearest_mul_right hden

theorem nearest_congr {num den num' den' : Nat} (hden : 0 < den) (hden' : 0 < den')
    (h : num * den' = num' * den) : nearest num den = nearest num' den' :=
  Nat.le_antisymm (nearest_mono hden hden' (Nat.le_of_eq h))
    (nearest_mono hden' hden (Nat.le_of_eq h.symm))

/-- What is below half the smallest unit is zero. -/
theorem nearest_eq_zero {num den : Nat} (h : 2 * (num * twoPow unitBits) < den) :
    nearest num den = 0 := by
  have hdiv : num * twoPow unitBits / den = 0 := Nat.div_eq_of_lt (by omega)
  have hmod : num * twoPow unitBits % den = num * twoPow unitBits := Nat.mod_eq_of_lt (by omega)
  have hspacing : spacing num den = 0 := by rw [spacing, hdiv, Nat.log2_zero, Nat.zero_sub]
  have hone : twoPow 0 = 1 := rfl
  simp [nearest, hspacing, hone, roundDiv, hdiv, hmod, h]

/-! ## Exact values -/

theorem spacing_exact {m k : Nat} (hm : m < twoPow (storedBits + 1))
    (hk : k = 0 ∨ twoPow storedBits ≤ m) : spacing (m * twoPow k) (twoPow unitBits) = k := by
  rw [spacing, Nat.mul_div_cancel _ (twoPow_pos _)]
  have hupper : m * twoPow k < twoPow (storedBits + k + 1) := by
    rw [Nat.add_right_comm, twoPow_add]
    exact Nat.mul_lt_mul_of_pos_right hm (twoPow_pos k)
  rcases hk with rfl | hlower
  · by_cases hzero : m * twoPow 0 = 0
    · rw [hzero, Nat.log2_zero, Nat.zero_sub]
    · have hlog := (Nat.log2_lt hzero).mpr hupper
      omega
  · have hle : twoPow (storedBits + k) ≤ m * twoPow k := by
      rw [twoPow_add]
      exact Nat.mul_le_mul_right _ hlower
    have hne : m * twoPow k ≠ 0 := Nat.ne_of_gt (Nat.lt_of_lt_of_le (twoPow_pos _) hle)
    rw [(Nat.log2_eq_iff hne).mpr ⟨hle, hupper⟩]
    omega

theorem nearest_exact {m k : Nat} (hm : m < twoPow (storedBits + 1))
    (hk : k = 0 ∨ twoPow storedBits ≤ m) :
    nearest (m * twoPow k) (twoPow unitBits) = min (k * twoPow storedBits + m) infinityBits := by
  simp only [nearest, spacing_exact hm hk]
  rw [Nat.mul_assoc, Nat.mul_comm (twoPow unitBits),
    roundDiv_mul_self (Nat.mul_pos (twoPow_pos k) (twoPow_pos unitBits))]

/-- The exact value of a finite pattern rounds to the pattern. -/
theorem nearest_units {bits : Nat} (h : bits < infinityBits) :
    nearest (units bits) (twoPow unitBits) = bits := by
  have hsplit := Nat.div_add_mod bits (twoPow storedBits)
  have hmod := Nat.mod_lt bits (twoPow_pos storedBits)
  have hdouble := twoPow_succ storedBits
  rw [units]
  by_cases hfield : bits / twoPow storedBits = 0
  · have hsmall : bits < twoPow (storedBits + 1) := by
      rw [hfield] at hsplit
      omega
    have hexact := @nearest_exact bits 0 hsmall (.inl rfl)
    simp only [hfield, if_true]
    rw [show bits * twoPow 0 = bits from Nat.mul_one bits] at hexact
    omega
  · simp only [hfield, if_false]
    rw [nearest_exact (by omega) (.inr (Nat.le_add_left ..))]
    obtain ⟨f, hf⟩ := Nat.exists_eq_succ_of_ne_zero hfield
    rw [hf, Nat.mul_comm, Nat.succ_mul] at hsplit
    rw [hf, Nat.succ_sub_one]
    omega

theorem units_lt_iff {bits bits' : Nat} (h : bits < infinityBits) (h' : bits' < infinityBits) :
    units bits < units bits' ↔ bits < bits' := by
  have hmono : ∀ {b c : Nat}, b < infinityBits → c < infinityBits → units b ≤ units c → b ≤ c := by
    intro b c hb hc hle
    rw [← nearest_units hb, ← nearest_units hc]
    exact nearest_mono_left hle _
  constructor
  · intro hlt
    refine Nat.lt_of_le_of_ne (hmono h h' (Nat.le_of_lt hlt)) ?_
    rintro rfl
    exact Nat.lt_irrefl _ hlt
  · intro hlt
    refine Nat.not_le.mp fun hle => ?_
    exact Nat.not_le.mpr hlt (hmono h' h hle)

end Glyph.Decimal
