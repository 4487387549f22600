import Glyph.Proofs.Decimal.Pattern
import Glyph.Proofs.Decimal.Written
import Glyph.Proofs.Literal.Roundtrip

/-!
# Written doubles are read back

A finite double below `10 ^ 16` is written as one numeral, and the numeral has the double for its
value, to the sign of a zero. From `10 ^ 16` on the exponent is written with a plus. No numeral has
one, so the text falls apart at its `e`: it is read as a number and the variable `e` in a row, to
which another number is added.
-/

namespace Glyph

open Decimal

theorem parseLine_of_scans {P : List Char → Prop} {source : String} {ls : List Lexeme} {e : Expr}
    (hscans : Lexer.Scans P source.toList ls) (hP : P []) (hread : Readable ls)
    (hderives : Derives ls (.expression e)) : parseLine source = .ok e := by
  refine parseLine_of_derives (lexemes?_eq_some_iff.mpr (hscans.tokenize hP)) hread ?_
  simpa [separators] using Derives.program 0 0 (.lastLine (.plain hderives))

theorem Expr.eval_literal {l : Literal} {v : Value} (h : l.value = .ok v) (env : Env) :
    (Expr.literal l).eval env = ⟨.ok v, env, []⟩ := by
  rw [Expr.eval, Action.give, h]

/-! ## Below `10 ^ 16` -/

namespace Numeral

theorem Writes.floatValue {m : Numeral} {cs ds : List Char} {t z bits : Nat}
    (h : m.Writes cs ds (z + ((t : Int) - unitBits))) (hle : z + ((t : Int) - unitBits) ≤ 15)
    (hbits : nearest (digitsValue 0 ds * tenPow z * tenPow t) (tenPow unitBits) = bits)
    (hne : bits ≠ 0) : m.floatValue = ofPattern m.negative bits := by
  obtain ⟨j, hdigits, hpower⟩ := h.value
  -- The `j` zeros at the end of the digits are made up for by the power.
  have hvalue : digitsValue 0 ds * tenPow j * tenPow (z + t) * tenPow unitBits =
      digitsValue 0 ds * tenPow z * tenPow t * tenPow (unitBits + j) := by
    rw [tenPow_add, tenPow_add, Nat.mul_right_comm (digitsValue 0 ds), Nat.mul_assoc _ (tenPow j),
      Nat.mul_comm (tenPow j), ← Nat.mul_assoc (digitsValue 0 ds)]
  have hexponent :
      z + ((t : Int) - unitBits) - j = ((z + t : Nat) : Int) - (unitBits + j : Nat) := by
    omega
  rw [floatValue_eq, ofScientific, hdigits, hpower,
    nearestScientific_eq (tenPow_pos _) hexponent (by omega) hvalue (by rwa [hbits]), hbits]

theorem WellFormed.parseLine {n : Numeral} (hn : n.WellFormed) (hint : n.isInteger = false)
    {source : String} (hsource : source.toList = n.spell) :
    parseLine source = .ok (.literal (.float n.floatValue)) := by
  have hread : Readable [.number n] := by
    intro m hm htrue
    cases List.mem_singleton.mp hm
    rw [hint] at htrue
    cases htrue
  have hscans := hn.scans
  rw [← hsource] at hscans
  exact parseLine_of_scans hscans n.endsBefore_nil hread (Derives.decimal hint).expression_of_term

end Numeral

namespace Value

variable {x : Float}

theorem numberChars_float (h : magnitude x < infinityBits) :
    numberChars (.float x) =
      (if isNegative x then [highMinus] else []) ++ Layout.plain.writePattern (magnitude x) := by
  simp only [numberChars, if_neg (Nat.not_lt.mpr (Nat.le_of_lt h)), if_neg (Nat.ne_of_lt h)]
  cases isNegative x <;> rfl

/-- A double below `10 ^ 16` is written as a numeral that has it for its value. -/
theorem exists_numeral (h : magnitude x < infinityBits)
    (hlt : units (magnitude x) < tenPow 16 * twoPow unitBits) :
    ∃ m : Numeral, m.WellFormed ∧ m.isInteger = false ∧ numberChars (.float x) = m.spell ∧
      m.floatValue = x := by
  rw [numberChars_float h]
  by_cases hzero : magnitude x = 0
  · -- A zero is written without a search, and after its sign.
    have hwrites := @writes_whole ['0'] (isNegative x) ⟨by simp, by simp⟩ 0
    refine ⟨_, hwrites.wellFormed, rfl, ?_, ?_⟩
    · rw [hwrites.spell, Layout.writePattern, if_pos hzero]
      rfl
    · have hx := ofPattern_magnitude x
      rw [hzero] at hx
      exact hx
  · obtain ⟨n, t, hshortest, hnearest⟩ := nearest_shortest h
    have htop := (top_lt_sixteen_iff h hzero).mpr hlt
    rw [hshortest] at htop
    obtain ⟨m, hm, ds, z, rfl, hle, hwrites⟩ :=
      exists_writes_writeDecimal (isNegative x) (ne_zero_of_nearest hnearest hzero) htop
    refine ⟨m, hwrites.wellFormed, hwrites.isInteger, ?_, ?_⟩
    · rw [hwrites.spell, hm, Layout.writePattern, if_neg hzero, hshortest]
    · rw [hwrites.floatValue hle hnearest hzero, hm, ofPattern_magnitude]

end Value

/-! ## From `10 ^ 16` on -/

/-- A numeral does not take an exponent that has a plus for its sign. -/
theorem Numeral.endsBefore_plus (n : Numeral) (cs : List Char) : n.EndsBefore ('e' :: '+' :: cs) :=
  ⟨noDigit_cons.mpr rfl, fun _ => rfl, fun _ _ => rfl⟩

namespace Lexer

theorem scans_e : Scans (fun rest => rest.head? = some '+') ['e'] [.name "e"] := by
  refine scans_of_lead fun rest hrest => ?_
  obtain ⟨rest, rfl⟩ := List.head?_eq_some_iff.mp hrest
  rfl

theorem scans_plus : Scans Anything ['+'] [.dyadic (.pervasive .add)] := scans_mark fun _ => rfl

theorem scans_exponent_plus {n k : Numeral} (hn : n.WellFormed) (hk : k.WellFormed) :
    Scans k.EndsBefore (n.spell ++ 'e' :: '+' :: k.spell)
      [.number n, .name "e", .dyadic (.pervasive .add), .number k] := by
  have hsum := scans_plus.append hk.scans fun _ _ => trivial
  have hname := scans_e.append hsum fun _ _ => rfl
  exact hn.scans.append hname fun _ _ => n.endsBefore_plus _

end Lexer

namespace Numeral

/-- A numeral with few digits in front of its point is a literal for a number. -/
theorem WellFormed.exists_literal {n : Numeral} (hn : n.WellFormed) (hlen : n.whole.length ≤ 3) :
    ∃ l v, Derives [.number n] (.term (.literal l)) ∧ Readable [.number n] ∧ l.value = .ok v := by
  have hread : Readable [.number n] := by
    intro m hm _
    cases List.mem_singleton.mp hm
    exact Nat.le_trans hlen (by decide)
  cases hint : n.isInteger with
  | true =>
      have hlt : digitsValue 0 n.whole < 1000 := by
        calc digitsValue 0 n.whole < (0 + 1) * tenPow n.whole.length := digitsValue_lt hn.whole.2 0
          _ = tenPow n.whole.length := Nat.one_mul _
          _ ≤ tenPow 3 := tenPow_le hlen
      have hfit : FitsInt64 n.intValue := by
        rw [FitsInt64, intValue]
        split <;> omega
      have hvalue : (Literal.int n.intValue).value = .ok (.int (Int64.ofInt n.intValue)) := by
        rw [Literal.value, Value.ofInt, int64?, if_pos hfit]
        rfl
      exact ⟨_, _, .integer hint hfit, hread, hvalue⟩
  | false => exact ⟨_, _, .decimal hint, hread, rfl⟩

end Numeral

/-- A number and the variable `e` in a row, and a number added: without `e` there is no result. -/
theorem eval_sum_of_unbound {l r : Literal} {v : Value} (h : l.value = .ok v) {env : Env}
    (hunbound : env.get? "e" = none) :
    (Expr.dyadic (.pervasive .add) (.array [.literal l, .ref "e"]) (.literal r)).eval env =
      ⟨fail (.unbound "e"), env, []⟩ := by
  have href : (Expr.ref "e").eval env = ⟨fail (.unbound "e"), env, []⟩ := by
    rw [Expr.eval, Action.lookup, Env.lookup, hunbound]
  have hlast : Expr.evalItems [.ref "e"] env = ⟨fail (.unbound "e"), env, []⟩ := by
    rw [Expr.evalItems]
    exact Action.bind_apply_of_error href _
  have hitems : Expr.evalItems [.literal l, .ref "e"] env = ⟨fail (.unbound "e"), env, []⟩ := by
    rw [Expr.evalItems, Action.bind_apply_of_ok (Expr.eval_literal h env),
      Action.bind_apply_of_error hlast]
    rfl
  have hrow : (Expr.array [.literal l, .ref "e"]).eval env = ⟨fail (.unbound "e"), env, []⟩ := by
    rw [Expr.eval]
    exact Action.bind_apply_of_error hitems _
  rw [Expr.eval]
  exact Action.bind_apply_of_error hrow _

namespace Value

variable {x : Float}

/-- A double from `10 ^ 16` on is written with a plus between two numerals. -/
theorem exists_plus (h : magnitude x < infinityBits)
    (hge : tenPow 16 * twoPow unitBits ≤ units (magnitude x)) :
    ∃ m k : Numeral, m.WellFormed ∧ m.whole.length ≤ 3 ∧ k.WellFormed ∧ k.whole.length ≤ 3 ∧
      numberChars (.float x) = m.spell ++ 'e' :: '+' :: k.spell := by
  have hne : magnitude x ≠ 0 := by
    intro hzero
    rw [hzero] at hge
    exact absurd hge (by decide +kernel)
  have htop := (not_congr (top_lt_sixteen_iff h hne)).mpr (Nat.not_lt.mpr hge)
  have hlt := top_lt_of_finite h hne
  obtain ⟨n, t, hshortest, hnearest⟩ := nearest_shortest h
  rw [numberChars_float h, Layout.writePattern, if_neg hne]
  rw [hshortest] at htop hlt ⊢
  exact exists_writeDecimal_plus (isNegative x) (ne_zero_of_nearest hnearest hne)
    (Int.not_lt.mp htop) (Int.lt_trans hlt (by decide))

/-- A finite double below `10 ^ 16` is written as one number, which evaluates to the double, with
its sign, in every environment. From `10 ^ 16` on it is written as a number, the name `e`, a plus
and a number, and evaluation fails where there is no variable `e`. -/
theorem format_float_reads_back (h : magnitude x < infinityBits) :
    ∃ source, (Value.float x).format = .ok source ∧
      (units (magnitude x) < tenPow 16 * twoPow unitBits →
        (∃ n, tokenize source = .ok ⟨[⟨.number n, 0, source.length⟩], source.length⟩) ∧
        ∃ line, parseLine source = .ok line ∧ ∀ env, line.eval env = ⟨.ok (.float x), env, []⟩) ∧
      (tenPow 16 * twoPow unitBits ≤ units (magnitude x) →
        (∃ ts n k, tokenize source = .ok ts ∧ lexemesOf ts.tokens =
          [.number n, .name "e", .dyadic (.pervasive .add), .number k]) ∧
        ∃ line, parseLine source = .ok line ∧ ∀ env : Env, env.get? "e" = none →
          line.eval env = ⟨fail (.unbound "e"), env, []⟩) := by
  have hchars : (Value.float x).render.toList = numberChars (.float x) := String.toList_ofList
  refine ⟨(Value.float x).render, (valid_number _).format, ?_, ?_⟩
  · intro hlt
    obtain ⟨n, hn, hint, hspell, hvalue⟩ := exists_numeral h hlt
    rw [hspell] at hchars
    refine ⟨⟨n, hn.tokenize hchars⟩, _, hn.parseLine hint hchars, fun env => ?_⟩
    rw [hvalue]
    exact Expr.eval_literal rfl env
  · intro hge
    obtain ⟨n, k, hn, hnlen, hk, hklen, hspell⟩ := exists_plus h hge
    have hscans := Lexer.scans_exponent_plus hn hk
    rw [← hspell, ← hchars] at hscans
    obtain ⟨ts, hts, hls⟩ := hscans.tokenize k.endsBefore_nil
    refine ⟨⟨ts, n, k, hts, hls⟩, ?_⟩
    -- The first number and the name stand in a row, so the plus adds to both of them.
    obtain ⟨l, v, hl, hlread, hvalue⟩ := hn.exists_literal hnlen
    obtain ⟨r, -, hr, hrread, -⟩ := hk.exists_literal hklen
    have hrow := Derives.strand (.nextTerm hl (.lastTerm (.name "e")))
    have hsum := Derives.dyadic (.pervasive .add) hrow hr.expression_of_term
    refine ⟨_, parseLine_of_scans hscans k.endsBefore_nil ?_ hsum, fun env henv => ?_⟩
    · have hname : Readable [.name "e"] := readable_singleton (by simp [Lexeme.cls])
      have hplus : Readable [.dyadic (.pervasive .add)] := readable_singleton (by simp [Lexeme.cls])
      exact (hlread.append hname).append (hplus.append hrread)
    · exact eval_sum_of_unbound hvalue henv

/-- The smallest number below zero, in size, is written with an exponent. -/
theorem format_float_reads_back_smallest :
    magnitude (Float.ofBits 0x8000000000000001) < infinityBits ∧
      ∃ line, parseLine "¯5e-324" = .ok line ∧
        ∀ env, line.eval env = ⟨.ok (.float (Float.ofBits 0x8000000000000001)), env, []⟩ := by
  have hfinite : magnitude (Float.ofBits 0x8000000000000001) < infinityBits := by decide +kernel
  have hlt : units (magnitude (Float.ofBits 0x8000000000000001)) < tenPow 16 * twoPow unitBits := by
    decide +kernel
  have hchars : (Value.float (Float.ofBits 0x8000000000000001)).chars = "¯5e-324".toList := by
    decide +kernel
  obtain ⟨source, hsource, hreads, -⟩ := format_float_reads_back hfinite
  rw [(valid_number _).format, render, hchars, String.ofList_toList] at hsource
  cases hsource
  exact ⟨hfinite, (hreads hlt).2⟩

/-- `10 ^ 16` is written as four tokens, and evaluation fails. -/
theorem format_float_sixteen :
    (Value.float (Float.ofBits 0x4341C37937E08000)).format = .ok "1e+16" ∧
      (∃ ts, tokenize "1e+16" = .ok ts ∧ ts.tokens.length = 4) ∧
      ∃ line, parseLine "1e+16" = .ok line ∧
        line.eval Env.empty = ⟨fail (.unbound "e"), Env.empty, []⟩ := by
  have hchars : (Value.float (Float.ofBits 0x4341C37937E08000)).chars = "1e+16".toList := by
    decide +kernel
  obtain ⟨htokens, hparse⟩ :
      tokenize "1e+16" = .ok ⟨[⟨.number ⟨false, ['1'], none, none⟩, 0, 1⟩, ⟨.name "e", 1, 2⟩,
        ⟨.dyadic (.pervasive .add), 2, 3⟩, ⟨.number ⟨false, ['1', '6'], none, none⟩, 3, 5⟩], 5⟩ ∧
      parseLine "1e+16" = .ok (.dyadic (.pervasive .add) (.array [.literal (.int 1), .ref "e"])
        (.literal (.int 16))) := by
    have hone := @Derives.integer ⟨false, ['1'], none, none⟩ rfl (by decide)
    have hsixteen := @Derives.integer ⟨false, ['1', '6'], none, none⟩ rfl (by decide)
    have hrow := Derives.strand (.nextTerm hone (.lastTerm (.name "e")))
    have hsum := Derives.dyadic (.pervasive .add) hrow hsixteen.expression_of_term
    refine ⟨by decide +kernel,
      parseLine_of_derives (by decide +kernel) ?_ (.program 0 0 (.lastLine (.plain hsum)))⟩
    simp [Readable, separators, Numeral.maxDigits, Decimal.maxDigits]
  refine ⟨?_, ⟨_, htokens, rfl⟩, _, hparse, eval_sum_of_unbound rfl rfl⟩
  rw [(valid_number _).format, render, hchars, String.ofList_toList]

end Value

end Glyph
