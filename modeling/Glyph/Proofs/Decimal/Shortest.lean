import Glyph.Decimal.Notation
import Glyph.Decimal.Reading
import Glyph.Proofs.Decimal.Nearest

/-!
# The shortest decimal reads back

Whatever the search for the shortest decimal gives, it reads back as the pattern that it was given
(`nearest_shortest`): a shortened expansion because that was checked, and the full one because it is
exact. Reading depends on the value of a decimal only, so this also holds for every other way of
placing its point (`nearestScientific_eq`); the two cases that reading settles in advance are no
exception.
-/

namespace Glyph.Decimal

theorem nearest_zero_left {den : Nat} (hden : 0 < den) : nearest 0 den = 0 :=
  nearest_eq_zero (by omega)

theorem tenPow_zero : tenPow 0 = 1 := rfl

theorem tenPow_le {j k : Nat} (h : j ≤ k) : tenPow j ≤ tenPow k :=
  Nat.pow_le_pow_right (by decide) h

theorem fivePow_pos (k : Nat) : 0 < Nat.pow 5 k := Nat.pow_pos (by decide)

theorem tenPow_eq_mul (k : Nat) : tenPow k = twoPow k * Nat.pow 5 k := Nat.mul_pow 2 5 k

theorem readsBack_iff {bits s n : Nat} :
    readsBack bits s n = true ↔ nearest (n * tenPow s) (tenPow unitBits) = bits := by
  rw [readsBack, beq_iff_eq]

theorem passes_of_neighbour? {passes : Nat → Bool} {low gap width n : Nat}
    (h : neighbour? passes low gap width = some n) : passes n = true := by
  cases hlow : passes low <;> cases hhigh : passes (low + 1) <;>
    simp only [neighbour?, hlow, hhigh] at h
  · cases h
  · cases h
    exact hhigh
  · cases h
    exact hlow
  · -- Both neighbours pass, so it does not matter which one is taken.
    have hboth : n = low ∨ n = low + 1 := by grind
    rcases hboth with rfl | rfl
    · exact hlow
    · exact hhigh

/-- Whatever is found in a search is an answer, or what is left at the end. -/
theorem searchDown_spec (answer? : Nat → Option Nat) (last s : Nat) :
    searchDown answer? last s = (last, 0) ∨
      ∃ n t, searchDown answer? last s = (n, t) ∧ answer? t = some n := by
  induction s with
  | zero => exact .inl rfl
  | succ s ih =>
      rw [searchDown]
      cases hn : answer? (s + 1) with
      | none => exact ih
      | some n => exact .inr ⟨n, s + 1, rfl, hn⟩

theorem nearest_expansion {bits : Nat} (h : bits < infinityBits) :
    nearest (expansion bits) (tenPow unitBits) = bits := by
  rw [expansion, tenPow_eq_mul, nearest_mul_right (fivePow_pos unitBits), nearest_units h]

/-- The shortest decimal of a pattern reads back as the pattern. -/
theorem nearest_shortest {bits : Nat} (h : bits < infinityBits) :
    ∃ n t : Nat, shortest bits = (n, (t : Int) - unitBits) ∧
      nearest (n * tenPow t) (tenPow unitBits) = bits := by
  rw [shortest]
  rcases searchDown_spec (shorten? bits) (expansion bits) (digitCount (expansion bits) - 1) with
    hfound | ⟨n, t, hfound, hn⟩
  · refine ⟨expansion bits, 0, by rw [hfound], ?_⟩
    rw [tenPow_zero, Nat.mul_one, nearest_expansion h]
  · refine ⟨n, t, by rw [hfound], ?_⟩
    rw [shorten?] at hn
    exact readsBack_iff.mp (passes_of_neighbour? hn)

theorem ne_zero_of_nearest {n t bits : Nat}
    (h : nearest (n * tenPow t) (tenPow unitBits) = bits) (hne : bits ≠ 0) : n ≠ 0 := by
  rintro rfl
  rw [Nat.zero_mul, nearest_zero_left (tenPow_pos _)] at h
  exact hne h.symm

/-! ## The first digit of the shortest decimal -/

theorem lt_tenPow_digitCount (n : Nat) : n < tenPow (digitCount n) :=
  (Nat.length_toDigits_le_iff (by decide) Nat.length_toDigits_pos).mp (Nat.le_refl _)

theorem tenPow_le_of_digitCount {n k : Nat} (hn : n ≠ 0) (h : digitCount n = k + 1) :
    tenPow k ≤ n := by
  cases k with
  | zero => exact Nat.pos_of_ne_zero hn
  | succ k =>
      refine Nat.not_lt.mp fun hlt => ?_
      have hlength := (Nat.length_toDigits_le_iff (by decide) (Nat.succ_pos k)).mpr hlt
      rw [digitCount] at h
      omega

theorem digitCount_pos (n : Nat) : 0 < digitCount n := Nat.length_toDigits_pos

/-- A decimal is at least the power of ten that its first digit counts. -/
theorem tenPow_le_of_top {n t k : Nat} (hn : n ≠ 0)
    (h : (k : Int) ≤ (digitCount n : Int) - 1 + ((t : Int) - unitBits)) :
    tenPow (k + unitBits) ≤ n * tenPow t := by
  obtain ⟨j, hj⟩ := Nat.exists_eq_succ_of_ne_zero (Nat.ne_of_gt (digitCount_pos n))
  calc tenPow (k + unitBits) ≤ tenPow (j + t) := tenPow_le (by omega)
    _ = tenPow j * tenPow t := tenPow_add ..
    _ ≤ n * tenPow t := Nat.mul_le_mul_right _ (tenPow_le_of_digitCount hn hj)

theorem nearest_overflow : nearest (tenPow (309 + unitBits)) (tenPow unitBits) = infinityBits := by
  decide +kernel

/-- No finite double has a decimal of more than 309 digits in front of its point. -/
theorem top_lt_of_finite {bits : Nat} (h : bits < infinityBits) (hne : bits ≠ 0) :
    (digitCount (shortest bits).1 : Int) - 1 + (shortest bits).2 < 309 := by
  obtain ⟨n, t, hshortest, hnearest⟩ := nearest_shortest h
  rw [hshortest]
  refine Int.not_le.mp fun hle => ?_
  have hge := tenPow_le_of_top (ne_zero_of_nearest hnearest hne) hle
  have hmono := nearest_mono_left hge (tenPow unitBits)
  rw [hnearest, nearest_overflow] at hmono
  exact Nat.not_lt.mpr hmono h

def sixteenBits : Nat := 0x4341C37937E08000

theorem units_sixteenBits : units sixteenBits = tenPow 16 * twoPow unitBits := by decide +kernel

theorem nearest_sixteen : nearest (tenPow (16 + unitBits)) (tenPow unitBits) = sixteenBits := by
  have hexact := nearest_units (show sixteenBits < infinityBits by decide)
  rw [units_sixteenBits] at hexact
  rw [tenPow_add, ← hexact]
  refine nearest_congr (tenPow_pos _) (twoPow_pos _) ?_
  rw [Nat.mul_assoc, Nat.mul_assoc, Nat.mul_comm (tenPow unitBits)]

/-- The shortest decimal of a pattern stays below `10 ^ 16` exactly where the double does. At
`10 ^ 16` itself the shortest decimal is the exact one, and not a smaller one that is nearest. -/
theorem top_lt_sixteen_iff {bits : Nat} (h : bits < infinityBits) (hne : bits ≠ 0) :
    (digitCount (shortest bits).1 : Int) - 1 + (shortest bits).2 < 16 ↔
      units bits < tenPow 16 * twoPow unitBits := by
  rw [← units_sixteenBits, units_lt_iff h (by decide)]
  obtain ⟨n, t, hshortest, hnearest⟩ := nearest_shortest h
  rw [hshortest]
  show (digitCount n : Int) - 1 + ((t : Int) - unitBits) < 16 ↔ _
  constructor
  · intro htop
    have hlt : n * tenPow t ≤ tenPow (16 + unitBits) := by
      calc n * tenPow t ≤ tenPow (digitCount n) * tenPow t :=
            Nat.mul_le_mul_right _ (Nat.le_of_lt (lt_tenPow_digitCount n))
        _ = tenPow (digitCount n + t) := (tenPow_add ..).symm
        _ ≤ tenPow (16 + unitBits) := tenPow_le (by omega)
    have hle := nearest_mono_left hlt (tenPow unitBits)
    rw [hnearest, nearest_sixteen] at hle
    refine Nat.lt_of_le_of_ne hle ?_
    rintro rfl
    have hsixteen : shortest sixteenBits = (1, 16) := by decide +kernel
    have hexponent : (16 : Int) = t - unitBits :=
      congrArg Prod.snd (hsixteen.symm.trans hshortest)
    have hpos := digitCount_pos n
    omega
  · intro hlt
    refine Int.not_le.mp fun hle => ?_
    have hge := tenPow_le_of_top (ne_zero_of_nearest hnearest hne) hle
    have hmono := nearest_mono_left hge (tenPow unitBits)
    rw [hnearest, nearest_sixteen] at hmono
    exact Nat.not_lt.mpr hmono hlt

/-! ## Reading a decimal -/

/-- Where reading settles on zero in advance, zero is the nearest double. -/
theorem nearest_of_underflow {digits k : Nat} (h : digits.log2 + 1 + (unitBits + 2) < 3 * k) :
    nearest digits (tenPow k) = 0 := by
  have hdigits :
      digits * (twoPow unitBits * twoPow 2) < twoPow (digits.log2 + 1 + (unitBits + 2)) := by
    rw [twoPow_add, twoPow_add unitBits]
    exact Nat.mul_lt_mul_of_pos_right Nat.lt_log2_self (Nat.mul_pos (twoPow_pos _) (twoPow_pos _))
  have hpow : twoPow (digits.log2 + 1 + (unitBits + 2)) ≤ tenPow k := by
    calc twoPow (digits.log2 + 1 + (unitBits + 2)) ≤ twoPow (3 * k) :=
          Nat.pow_le_pow_right (by decide) (Nat.le_of_lt h)
      _ = Nat.pow 8 k := Nat.pow_mul ..
      _ ≤ tenPow k := Nat.pow_le_pow_left (by decide) k
  have hfour : twoPow 2 = 4 := rfl
  rw [hfour, ← Nat.mul_assoc] at hdigits
  exact nearest_eq_zero (by omega)

/-- Reading gives the nearest double to the value of a decimal, however its point is placed. -/
theorem nearestScientific_eq {digits num den a b : Nat} {exponent : Int} (hden : 0 < den)
    (hexponent : exponent = (a : Int) - b) (hle : exponent ≤ 400)
    (hvalue : digits * tenPow a * den = num * tenPow b) (hne : nearest num den ≠ 0) :
    nearestScientific digits exponent = nearest num den := by
  have hdigits : digits ≠ 0 := by
    rintro rfl
    have hnum : num = 0 := by
      rw [Nat.zero_mul, Nat.zero_mul] at hvalue
      exact (Nat.mul_eq_zero.mp hvalue.symm).resolve_right (Nat.ne_of_gt (tenPow_pos b))
    rw [hnum, nearest_zero_left hden] at hne
    exact hne rfl
  rw [nearestScientific, if_neg hdigits, if_neg (Int.not_lt.mpr hle)]
  by_cases hneg : exponent < 0
  · -- The power of ten goes into the denominator.
    obtain ⟨k, hk, rfl⟩ : ∃ k, exponent.natAbs = k ∧ b = a + k := ⟨_, rfl, by omega⟩
    have hcross : digits * den = num * tenPow k := by
      refine Nat.eq_of_mul_eq_mul_right (tenPow_pos a) ?_
      rw [tenPow_add] at hvalue
      rw [Nat.mul_right_comm, hvalue, Nat.mul_right_comm, Nat.mul_assoc]
    have hnearest := nearest_congr (tenPow_pos k) hden hcross
    rw [hk, if_pos hneg, hnearest]
    refine if_neg fun hunder => hne ?_
    rw [← hnearest]
    have hbits : unitBits = 1074 := rfl
    exact nearest_of_underflow (by omega)
  · obtain ⟨k, hk, rfl⟩ : ∃ k, exponent.natAbs = k ∧ a = b + k := ⟨_, rfl, by omega⟩
    have hcross : digits * tenPow k * den = num * 1 := by
      refine Nat.eq_of_mul_eq_mul_right (tenPow_pos b) ?_
      rw [tenPow_add] at hvalue
      rw [Nat.mul_one, ← hvalue]
      simp only [Nat.mul_comm, Nat.mul_left_comm]
    rw [hk, if_neg (by omega), if_neg hneg, nearest_congr (by decide) hden hcross]

end Glyph.Decimal
