import Glyph.Decimal.Binary64

/-!
# Doubles and their bit patterns

A double is determined by its sign and by its pattern without the sign (`ofPattern_magnitude`). The
logical model of doubles keeps a bit pattern, of which only one stands for a NaN, and builds a
double from a pattern by taking it apart and putting it together again. Both steps together change
nothing.
-/

namespace Glyph.Decimal

open Float.Model Float.Model.UnpackedFloat

theorem toBitVec_ofBitVec (s : BitVec 1) : (Sign.ofBitVec s).toBitVec = s := by
  revert s
  decide

/-- The sign, the exponent and the significand are all that a pattern consists of. -/
theorem packComponents_unpack (b : BitVec Format.binary64.numBits) :
    packComponents Format.binary64 (Sign.ofBitVec (unpackSign b)) (unpackExponent b)
      (unpackMantissa b) = b := by
  have hhigh : b.extractLsb' 63 1 ++ b.extractLsb' 52 11 = b.extractLsb' 52 12 :=
    BitVec.extractLsb'_append_extractLsb'_eq_extractLsb' rfl
  have hall : b.extractLsb' 52 12 ++ b.extractLsb' 0 52 = b.extractLsb' 0 64 :=
    BitVec.extractLsb'_append_extractLsb'_eq_extractLsb' rfl
  rw [packComponents, toBitVec_ofBitVec]
  show b.extractLsb' 63 1 ++ b.extractLsb' 52 11 ++ b.extractLsb' 0 52 = b
  rw [hhigh, hall]
  exact BitVec.extractLsb'_eq_self

section Finite

theorem pack_finite (s : Sign) (n : Nat) (e : Int) (hn : 0 < n) :
    UnpackedFloat.pack Format.binary64 (.finite s n e hn) =
      if 2048 ≤ (e + 1023 + 52).toNat + 1 then packedInfinity Format.binary64 s
      else if n.log2 + 1 = 53 then
        packComponents Format.binary64 s (BitVec.ofNat _ (e + 1023 + 52).toNat) (BitVec.ofNat _ n)
      else packComponents Format.binary64 s 0#_ (BitVec.ofNat _ n) := rfl

variable (s : Sign) (m : BitVec Format.binary64.mantissaBitsWithoutImplicit)

theorem pack_subnormal (hm : 0 < m.toNat) {e : Int} (he : e = -1074) :
    UnpackedFloat.pack Format.binary64 (.finite s m.toNat e hm) =
      packComponents Format.binary64 s 0#_ m := by
  have hlog : m.toNat.log2 < 52 := (Nat.log2_lt (Nat.ne_of_gt hm)).mpr m.isLt
  rw [pack_finite, if_neg (by omega), if_neg (by omega), BitVec.ofNat_toNat, BitVec.setWidth_eq]

theorem pack_normal {n : Nat} (hn : 0 < n) (hvalue : n = twoPow storedBits + m.toNat)
    {e : BitVec Format.binary64.exponentBits} (hlt : e.toNat < 2047) {k : Int}
    (hk : k = e.toNat - 1075) :
    UnpackedFloat.pack Format.binary64 (.finite s n k hn) =
      packComponents Format.binary64 s e m := by
  have hm : m.toNat < twoPow storedBits := m.isLt
  have hlog : n.log2 = 52 := by
    refine (Nat.log2_eq_iff (Nat.ne_of_gt hn)).mpr ⟨?_, ?_⟩
    · show twoPow storedBits ≤ n
      omega
    · show n < twoPow storedBits * 2
      omega
  have hbiased : (k + 1023 + 52).toNat = e.toNat := by omega
  -- The bit in front of the significand is not stored.
  have hstored : BitVec.ofNat Format.binary64.mantissaBitsWithoutImplicit n = m := by
    refine BitVec.eq_of_toNat_eq ?_
    show n % twoPow storedBits = m.toNat
    rw [hvalue, Nat.add_mod_left, Nat.mod_eq_of_lt hm]
  rw [pack_finite, hbiased, if_neg (by omega), if_pos (by rw [hlog]), hstored, BitVec.ofNat_toNat,
    BitVec.setWidth_eq]

end Finite

theorem pack_unpack {b : BitVec Format.binary64.numBits} (h : Format.binary64.Valid b) :
    UnpackedFloat.pack Format.binary64 (UnpackedFloat.unpack Format.binary64 b) = b := by
  have hsplit := packComponents_unpack b
  delta UnpackedFloat.unpack
  by_cases hlast : unpackExponent b = -1#_
  · rw [if_pos hlast]
    by_cases hmantissa : unpackMantissa b = 0#_
    · rw [if_pos hmantissa]
      rw [hlast, hmantissa] at hsplit
      exact hsplit
    · rw [if_neg hmantissa]
      exact (h.eq_packedNaN hlast hmantissa).symm
  · rw [if_neg hlast]
    by_cases hfirst : unpackExponent b = 0#_
    · rw [if_pos hfirst]
      by_cases hmantissa : unpackMantissa b = 0#_
      · rw [dif_pos hmantissa]
        rw [hfirst, hmantissa] at hsplit
        exact hsplit
      · rw [dif_neg hmantissa, pack_subnormal _ _ _ (by rw [hfirst]; rfl), ← hfirst]
        exact hsplit
    · have hlt : (unpackExponent b).toNat < 2047 := by
        have hwidth : (unpackExponent b).toNat < 2048 := (unpackExponent b).isLt
        have hne : (unpackExponent b).toNat ≠ 2047 := fun heq => hlast (BitVec.eq_of_toNat_eq heq)
        omega
      have hvalue : (1#1 ++ unpackMantissa b).toNat =
          twoPow storedBits + (unpackMantissa b).toNat := by
        rw [BitVec.toNat_append, ← Nat.shiftLeft_add_eq_or_of_lt (unpackMantissa b).isLt]
        rfl
      rw [if_neg hfirst]
      exact (pack_normal _ (unpackMantissa b) _ hvalue hlt rfl).trans hsplit

theorem model_ext {x y : Float.Model} (h : x.toBits = y.toBits) : x = y := by
  cases x
  cases y
  cases h
  rfl

theorem ofBits_toBits (x : Float) : Float.ofBits x.toBits = x := by
  obtain ⟨m⟩ := x
  refine congrArg Float.ofModel (model_ext ?_)
  show UInt64.ofBitVec (UnpackedFloat.pack Format.binary64
    (UnpackedFloat.unpack Format.binary64 m.toBits.toBitVec)) = m.toBits
  rw [pack_unpack m.valid]

theorem ofPattern_magnitude (x : Float) : ofPattern (isNegative x) (magnitude x) = x := by
  have hlt := x.toBits.toNat_lt
  have hbits : (if isNegative x then signBit + magnitude x else magnitude x) = x.toBits.toNat := by
    rw [magnitude]
    cases hnegative : isNegative x with
    | true =>
        have hle : signBit ≤ x.toBits.toNat := of_decide_eq_true hnegative
        simp only [signBit, if_true] at hle ⊢
        omega
    | false =>
        have hle : ¬signBit ≤ x.toBits.toNat := of_decide_eq_false hnegative
        simp only [signBit, Bool.false_eq_true, if_false] at hle ⊢
        omega
  rw [ofPattern, hbits, UInt64.ofNat_toNat, ofBits_toBits]

end Glyph.Decimal
