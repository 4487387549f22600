import Glyph.Proofs.Decimal.Shortest
import Glyph.Proofs.Literal.Numeral

/-!
# Decimals as numerals

A decimal with the digits `ds` is written positionally, with zeros filled in, or with an exponent.
`Numeral.Writes` says that a numeral is spelled in such a way and has the value `ds * 10 ^ k`, which
it may reach with more zeros at the end of its digits. Below `10 ^ 16` every decimal is written as a
numeral (`exists_writes_writeDecimal`). From there on the exponent has a plus sign, which no numeral
has, and two numerals stand around it (`exists_writeDecimal_plus`).
-/

namespace Glyph

namespace Decimal

/-! ## Digits -/

theorem digitsValue_eq_ofDigitChars (start : Nat) (ds : List Char) :
    digitsValue start ds = Nat.ofDigitChars 10 ds start := by
  rw [digitsValue, ← Nat.ofDigitChars_eq_foldl]

theorem digitsValue_toDigits (n : Nat) : digitsValue 0 (Nat.toDigits 10 n) = n := by
  rw [digitsValue_eq_ofDigitChars, Nat.ofDigitChars_ten_toDigits]

theorem digitsValue_append (start : Nat) (ds es : List Char) :
    digitsValue start (ds ++ es) = digitsValue (digitsValue start ds) es := List.foldl_append

theorem digitsValue_replicate (start k : Nat) :
    digitsValue start (List.replicate k '0') = start * tenPow k := by
  rw [digitsValue_eq_ofDigitChars, Nat.ofDigitChars_replicate_zero, Nat.mul_comm]
  rfl

theorem digitsValue_append_replicate (ds : List Char) (k : Nat) :
    digitsValue 0 (ds ++ List.replicate k '0') = digitsValue 0 ds * tenPow k := by
  rw [digitsValue_append, digitsValue_replicate]

theorem digitsValue_replicate_append (k : Nat) (ds : List Char) :
    digitsValue 0 (List.replicate k '0' ++ ds) = digitsValue 0 ds := by
  rw [digitsValue_append, digitsValue_replicate, Nat.zero_mul]

theorem digitsValue_lt {ds : List Char} (hds : ∀ c ∈ ds, c.isDigit = true) (start : Nat) :
    digitsValue start ds < (start + 1) * tenPow ds.length := by
  induction ds generalizing start with
  | nil =>
      show start < (start + 1) * 1
      omega
  | cons d ds ih =>
      obtain ⟨hd, hds'⟩ := List.forall_mem_cons.mp hds
      have hle : d.toNat - '0'.toNat ≤ 9 := by
        have hrange := (Char.isDigit_iff_toNat.mp hd).2
        have hnine : '9'.toNat = 57 := rfl
        have hzero : '0'.toNat = 48 := rfl
        omega
      calc digitsValue start (d :: ds)
          < (10 * start + (d.toNat - '0'.toNat) + 1) * tenPow ds.length := ih hds' _
        _ ≤ ((start + 1) * 10) * tenPow ds.length := Nat.mul_le_mul_right _ (by omega)
        _ = (start + 1) * tenPow (d :: ds).length := by
            rw [List.length_cons, tenPow_add, Nat.mul_assoc, Nat.mul_comm 10]
            rfl

theorem exists_significant (n : Nat) :
    ∃ z, Nat.toDigits 10 n = significant n ++ List.replicate z '0' := by
  refine ⟨((Nat.toDigits 10 n).reverse.takeWhile (· == '0')).length, ?_⟩
  have hzeros : (Nat.toDigits 10 n).reverse.takeWhile (· == '0') =
      List.replicate ((Nat.toDigits 10 n).reverse.takeWhile (· == '0')).length '0' := by
    refine List.eq_replicate_iff.mpr ⟨rfl, fun c hc => ?_⟩
    exact beq_iff_eq.mp (List.all_eq_true.mp List.all_takeWhile c hc)
  rw [significant, ← List.reverse_replicate, ← hzeros, ← List.reverse_append,
    List.takeWhile_append_dropWhile, List.reverse_reverse]

theorem isDigits_toDigits (n : Nat) : IsDigits (Nat.toDigits 10 n) :=
  ⟨Nat.toDigits_ne_nil, fun _ => Lexer.isDigit_of_mem_toDigits⟩

theorem significant_spec {n : Nat} (hn : n ≠ 0) :
    IsDigits (significant n) ∧ ∃ z, (significant n).length + z = digitCount n ∧
      digitsValue 0 (significant n) * tenPow z = n := by
  obtain ⟨z, hz⟩ := exists_significant n
  have hvalue : digitsValue 0 (significant n) * tenPow z = n := by
    rw [← digitsValue_append_replicate, ← hz, digitsValue_toDigits]
  refine ⟨⟨fun hnil => hn ?_, fun c hc => ?_⟩, z, ?_, hvalue⟩
  · rw [← hvalue, hnil]
    exact Nat.zero_mul _
  · exact (isDigits_toDigits n).2 c (hz ▸ List.mem_append_left _ hc)
  · rw [digitCount, hz, List.length_append, List.length_replicate]

end Decimal

/-! ## Numerals -/

theorem IsDigits.append {ds es : List Char} (hds : ∀ c ∈ ds, c.isDigit = true) (hes : IsDigits es) :
    IsDigits (ds ++ es) := by
  refine ⟨List.append_ne_nil_of_right_ne_nil ds hes.1, fun c hc => ?_⟩
  exact (List.mem_append.mp hc).elim (hds c) (hes.2 c)

theorem isDigit_of_mem_replicate {k : Nat} {c : Char} (hc : c ∈ List.replicate k '0') :
    c.isDigit = true := by
  rw [List.eq_of_mem_replicate hc]
  rfl

namespace Numeral

/-- The digits of a numeral as one number. -/
def digits (n : Numeral) : Nat := Decimal.digitsValue 0 (n.whole ++ n.fraction.getD [])

/-- The power of ten that the digits of a numeral count. -/
def power (n : Numeral) : Int :=
  (n.exponent.map Exponent.value).getD 0 - (n.fraction.getD []).length

theorem floatValue_eq (n : Numeral) :
    n.floatValue = Decimal.ofScientific n.negative n.digits n.power := rfl

/-- The numeral is no integer, is spelled with the characters `cs` after its sign, and has the value
of the digits `ds` at the given power of ten. -/
structure Writes (n : Numeral) (cs ds : List Char) (exponent : Int) : Prop where
  wellFormed : n.WellFormed
  isInteger : n.isInteger = false
  spell : n.spell = (if n.negative then [highMinus] else []) ++ cs
  value : ∃ j : Nat, n.digits = Decimal.digitsValue 0 ds * Decimal.tenPow j ∧ n.power = exponent - j

end Numeral

namespace Decimal

variable {ds : List Char}

theorem writes_fraction (negative : Bool) (hds : IsDigits ds) (k : Nat) :
    Numeral.Writes ⟨negative, ['0'], some (List.replicate k '0' ++ ds), none⟩
      ('0' :: '.' :: List.replicate k '0' ++ ds) ds (-k - ds.length) := by
  refine ⟨⟨⟨by simp, by simp⟩, ?_, by simp⟩, rfl, by simp [Numeral.spell], 0, ?_, ?_⟩
  · rintro _ ⟨⟩
    exact hds.append fun c => isDigit_of_mem_replicate
  · rw [tenPow_zero, Nat.mul_one]
    exact digitsValue_replicate_append (k + 1) ds
  · simp only [Numeral.power, Option.map_none, Option.getD_none, Option.getD_some,
      List.length_append, List.length_replicate]
    omega

theorem writes_split (negative : Bool) (hds : IsDigits ds) {k : Nat} (hk : 0 < k)
    (hlt : k < ds.length) :
    Numeral.Writes ⟨negative, ds.take k, some (ds.drop k), none⟩
      (ds.take k ++ '.' :: ds.drop k) ds (k - ds.length) := by
  have htake : IsDigits (ds.take k) := by
    refine ⟨List.ne_nil_of_length_pos ?_, fun c hc => hds.2 c (List.mem_of_mem_take hc)⟩
    rw [List.length_take]
    omega
  have hdrop : IsDigits (ds.drop k) := by
    refine ⟨List.ne_nil_of_length_pos ?_, fun c hc => hds.2 c (List.mem_of_mem_drop hc)⟩
    rw [List.length_drop]
    omega
  refine ⟨⟨htake, ?_, by simp⟩, rfl, by simp [Numeral.spell], 0, ?_, ?_⟩
  · rintro _ ⟨⟩
    exact hdrop
  · rw [tenPow_zero, Nat.mul_one, Numeral.digits, Option.getD_some, List.take_append_drop]
  · simp only [Numeral.power, Option.map_none, Option.getD_none, Option.getD_some,
      List.length_drop]
    omega

theorem writes_whole (negative : Bool) (hds : IsDigits ds) (k : Nat) :
    Numeral.Writes ⟨negative, ds ++ List.replicate k '0', some ['0'], none⟩
      (ds ++ List.replicate k '0' ++ ['.', '0']) ds k := by
  have hwhole : IsDigits (ds ++ List.replicate k '0') := by
    refine ⟨List.append_ne_nil_of_left_ne_nil hds.1 _, fun c hc => ?_⟩
    exact (List.mem_append.mp hc).elim (hds.2 c) isDigit_of_mem_replicate
  refine ⟨⟨hwhole, ?_, by simp⟩, rfl, by simp [Numeral.spell], k + 1, ?_, ?_⟩
  · rintro _ ⟨⟩
    exact ⟨by simp, by simp⟩
  · rw [← digitsValue_append_replicate, List.replicate_succ', ← List.append_assoc]
    rfl
  · simp only [Numeral.power, Option.map_none, Option.getD_none, Option.getD_some,
      List.length_singleton]
    omega

theorem exists_writes_positional (negative : Bool) (hds : IsDigits ds) (point : Int) :
    ∃ n : Numeral, n.negative = negative ∧
      n.Writes (positional ds point) ds (point - ds.length) := by
  rw [positional]
  split
  · have hwrites := writes_fraction negative hds point.natAbs
    rw [show -(point.natAbs : Int) = point by omega] at hwrites
    exact ⟨_, rfl, hwrites⟩
  · split
    · rename_i hpos hlt
      have hwrites := writes_split negative hds (show 0 < point.toNat by omega) hlt
      rw [show (point.toNat : Int) = point by omega] at hwrites
      exact ⟨_, rfl, hwrites⟩
    · rename_i hpos hlt
      have hwrites := writes_whole negative hds (point.toNat - ds.length)
      rw [show ((point.toNat - ds.length : Nat) : Int) = point - ds.length by omega] at hwrites
      exact ⟨_, rfl, hwrites⟩

theorem padded_spec (k : Nat) :
    IsDigits ((Nat.toDigits 10 k).leftpad 2 '0') ∧
      digitsValue 0 ((Nat.toDigits 10 k).leftpad 2 '0') = k := by
  rw [List.leftpad]
  refine ⟨(isDigits_toDigits k).append fun c => isDigit_of_mem_replicate, ?_⟩
  rw [digitsValue_replicate_append, digitsValue_toDigits]

/-- The numeral with its point after the first of its digits, and none after a single digit. -/
def pointed (negative : Bool) (ds : List Char) (exponent : Option Exponent) : Numeral :=
  ⟨negative, ds.take 1, if ds.length ≤ 1 then none else some (ds.drop 1), exponent⟩

theorem getD_fraction_pointed (negative : Bool) (ds : List Char) (exponent : Option Exponent) :
    (pointed negative ds exponent).fraction.getD [] = ds.drop 1 := by
  rw [pointed]
  split
  · rename_i hlen
    exact (List.drop_eq_nil_of_le hlen).symm
  · rfl

theorem wellFormed_pointed (negative : Bool) (hds : IsDigits ds) {exponent : Option Exponent}
    (h : ∀ e ∈ exponent, e.WellFormed) : (pointed negative ds exponent).WellFormed := by
  obtain ⟨d, ds', rfl, hd⟩ := hds.exists_cons
  refine ⟨⟨by simp [pointed], by simpa [pointed] using hd⟩, ?_, h⟩
  intro fs hfs
  rw [pointed, List.drop_one, List.tail_cons] at hfs
  obtain ⟨hlen, rfl⟩ : ds' ≠ [] ∧ ds' = fs := by simpa using hfs
  exact ⟨hlen, fun c hc => hds.2 c (List.mem_cons_of_mem d hc)⟩

theorem spell_pointed (negative : Bool) (ds : List Char) (exponent : Option Exponent) :
    (pointed negative ds exponent).spell = (if negative then [highMinus] else []) ++
      (ds.take 1 ++ (if ds.length ≤ 1 then [] else '.' :: ds.drop 1) ++
        (exponent.map Exponent.spell).getD []) := by
  by_cases hlen : ds.length ≤ 1 <;> simp [Numeral.spell, pointed, hlen]

theorem writes_pointed (negative : Bool) (hds : IsDigits ds) {pw : List Char} (hpw : IsDigits pw) :
    Numeral.Writes (pointed negative ds (some ⟨'e', some '-', pw⟩))
      (ds.take 1 ++ (if ds.length ≤ 1 then [] else '.' :: ds.drop 1) ++ 'e' :: '-' :: pw)
      ds (1 - digitsValue 0 pw - ds.length) := by
  have hpos : 0 < ds.length := List.length_pos_iff.mpr hds.1
  have hfraction := getD_fraction_pointed negative ds (some ⟨'e', some '-', pw⟩)
  refine ⟨wellFormed_pointed negative hds ?_, ?_, spell_pointed .., 0, ?_, ?_⟩
  · rintro _ ⟨⟩
    exact ⟨.inl rfl, by simp, hpw⟩
  · simp [Numeral.isInteger, pointed]
  · rw [tenPow_zero, Nat.mul_one, Numeral.digits, hfraction]
    exact congrArg (digitsValue 0) (List.take_append_drop 1 ds)
  · have hvalue : Exponent.value ⟨'e', some '-', pw⟩ = -(digitsValue 0 pw : Int) := rfl
    rw [Numeral.power, hfraction, List.length_drop]
    simp only [pointed, Option.map_some, Option.getD_some, hvalue]
    omega

theorem exists_writes_scientific (negative : Bool) (hds : IsDigits ds) {exponent : Int}
    (hneg : exponent < 0) :
    ∃ n : Numeral, n.negative = negative ∧
      n.Writes (Layout.plain.scientific ds exponent) ds (exponent + 1 - ds.length) := by
  obtain ⟨hpower, hvalue⟩ := padded_spec exponent.natAbs
  have hwrites := writes_pointed negative hds hpower
  rw [hvalue, show (1 : Int) - exponent.natAbs = exponent + 1 by omega] at hwrites
  rw [Layout.scientific, if_pos hneg]
  exact ⟨_, rfl, hwrites⟩

/-! ## Decimals -/

/-- Below `10 ^ 16` a decimal is written as a numeral. -/
theorem exists_writes_writeDecimal (negative : Bool) {n : Nat} (hn : n ≠ 0) {e : Int}
    (htop : (digitCount n : Int) - 1 + e < 16) :
    ∃ m : Numeral, m.negative = negative ∧ ∃ ds z, digitsValue 0 ds * tenPow z = n ∧ z + e ≤ 15 ∧
      m.Writes (Layout.plain.writeDecimal n e) ds (z + e) := by
  obtain ⟨hds, z, hlength, hvalue⟩ := significant_spec hn
  have hpos : 0 < (significant n).length := List.length_pos_iff.mpr hds.1
  simp only [Layout.writeDecimal]
  split
  · obtain ⟨m, hm, hwrites⟩ :=
      exists_writes_positional negative hds ((digitCount n : Int) - 1 + e + 1)
    rw [show (digitCount n : Int) - 1 + e + 1 - (significant n).length = z + e by omega] at hwrites
    exact ⟨m, hm, significant n, z, hvalue, by omega, hwrites⟩
  · rename_i hplain
    have hneg : (digitCount n : Int) - 1 + e < 0 := by
      refine Int.not_le.mp fun hle => hplain ?_
      have hleast : Layout.plain.leastPositional ≤ (digitCount n : Int) - 1 + e :=
        Int.le_trans (by decide) hle
      have hend : (digitCount n : Int) - 1 + e < Layout.plain.endPositional := htop
      rw [decide_eq_true hleast, decide_eq_true hend]
      rfl
    obtain ⟨m, hm, hwrites⟩ := exists_writes_scientific negative hds hneg
    rw [show (digitCount n : Int) - 1 + e + 1 - (significant n).length = z + e by omega] at hwrites
    exact ⟨m, hm, significant n, z, hvalue, by omega, hwrites⟩

/-- From `10 ^ 16` on a decimal is written with a plus between two numerals. -/
theorem exists_writeDecimal_plus (negative : Bool) {n : Nat} (hn : n ≠ 0) {e : Int}
    (htop : 16 ≤ (digitCount n : Int) - 1 + e) (hlt : (digitCount n : Int) - 1 + e < 1000) :
    ∃ m k : Numeral, m.WellFormed ∧ m.whole.length ≤ 3 ∧ k.WellFormed ∧ k.whole.length ≤ 3 ∧
      (if negative then [highMinus] else []) ++ Layout.plain.writeDecimal n e =
        m.spell ++ 'e' :: '+' :: k.spell := by
  obtain ⟨hds, -⟩ := significant_spec hn
  have hplus : ¬(digitCount n : Int) - 1 + e < 0 := by omega
  have hlarge : ¬(digitCount n : Int) - 1 + e < Layout.plain.endPositional := Int.not_lt.mpr htop
  have hwrite : Layout.plain.writeDecimal n e =
      Layout.plain.scientific (significant n) ((digitCount n : Int) - 1 + e) := by
    simp only [Layout.writeDecimal, decide_eq_false hlarge, Bool.and_false]
    rfl
  obtain ⟨hpower, -⟩ := padded_spec ((digitCount n : Int) - 1 + e).natAbs
  refine ⟨pointed negative (significant n) none, ⟨false, _, none, none⟩,
    wellFormed_pointed negative hds (by simp), ?_, ⟨hpower, by simp, by simp⟩, ?_, ?_⟩
  · simp only [pointed, List.length_take]
    omega
  · have hdigits : (Nat.toDigits 10 ((digitCount n : Int) - 1 + e).natAbs).length ≤ 3 :=
      (Nat.length_toDigits_le_iff (by decide) (by decide)).mpr (by omega)
    exact Nat.le_trans (Nat.le_of_eq List.length_leftpad) (Nat.max_le.mpr ⟨by decide, hdigits⟩)
  · rw [hwrite, Layout.scientific, if_neg hplus, spell_pointed]
    simp [Numeral.spell, Layout.plain]

end Decimal

end Glyph
