import Mathlib.Data.List.Induction
import Mathlib.Data.Nat.Digits.Defs
import Glyph.Proofs.Decimal.Written
import Glyph.Proofs.Token.Tiling

/-!
# Numbers among the tokens

The numeral that a token covers is the longest one that its source has at that place, and reading
its text again gives the numeral back. So the reader takes every number that the lexer finds: for an
integer where there is neither a fraction nor an exponent, and for a double otherwise. The integer
is the sum of its digits, each times the power of ten that its place has.
-/

namespace Glyph

namespace Decimal

/-- The number that digits stand for: the last one counts ones, the one before it tens. -/
def placeValue (ds : List Char) : Nat :=
  Nat.ofDigits 10 (ds.reverse.map fun c => c.toNat - '0'.toNat)

theorem digitsValue_eq_placeValue (ds : List Char) : digitsValue 0 ds = placeValue ds := by
  induction ds using List.reverseRecOn with
  | nil => rfl
  | append_singleton ds d ih =>
      rw [digitsValue_append, ih, placeValue, placeValue, List.reverse_append,
        List.reverse_singleton, List.singleton_append, List.map_cons, Nat.ofDigits_cons,
        Nat.add_comm]
      rfl

end Decimal

/-- The characters spell a number: after an optional high minus there are digits, then maybe a point
with digits, then maybe the mark of an exponent with an optional sign and digits. -/
def IsNumeral (cs : List Char) : Prop := ∃ n : Numeral, n.WellFormed ∧ n.spell = cs

/-- The characters are the longest numeral that the text starts with. -/
structure LongestNumeral (text cs : List Char) : Prop where
  numeral : IsNumeral cs
  starts : cs <+: text
  longest : ∀ ds, IsNumeral ds → ds <+: text → ds.length ≤ cs.length

namespace Numeral

variable {n m : Numeral} {cs rest : List Char}

/-- A numeral is known by its characters. -/
theorem WellFormed.scan_eq (hn : n.WellFormed) : scan n.spell = some (n, []) := by
  have hscan := hn.scan_spell n.endsBefore_nil
  rwa [List.append_nil] at hscan

/-- Where a numeral ends, no numeral goes on. -/
theorem WellFormed.longest (hn : n.WellFormed) (hrest : n.EndsBefore rest) :
    LongestNumeral (n.spell ++ rest) n.spell where
  numeral := ⟨n, hn, rfl⟩
  starts := List.prefix_append _ _
  longest := by
    rintro _ ⟨m, hm, rfl⟩ hstarts
    by_contra hlong
    -- A longer numeral would be the first one and something that does not prolong it.
    have hshort : n.spell <+: m.spell :=
      List.prefix_of_prefix_length_le (List.prefix_append _ _) hstarts (by omega)
    obtain ⟨more, hmore⟩ := hshort
    rw [← hmore, List.prefix_append_right_inj] at hstarts
    have hscan := hn.scan_spell (hrest.shorten hstarts)
    rw [hmore, hm.scan_eq] at hscan
    cases hscan
    exact hlong (Nat.le_refl _)

/-- The text of a numeral is read as the number that the numeral stands for. -/
theorem WellFormed.read_spell (hn : n.WellFormed) :
    read (String.ofList n.spell) =
      match n.value with
      | .ok l => .ok l
      | .error count => misuse (.tooManyDigits count) := by
  cases hvalue : n.value with
  | ok l => simp only [read, String.toList_ofList, hn.scan_eq, hvalue]
  | error count => simp only [read, String.toList_ofList, hn.scan_eq, hvalue]

/-- A numeral stands for an integer where it has neither a fraction nor an exponent. -/
theorem value_eq (n : Numeral) :
    n.value =
      if n.fraction = none ∧ n.exponent = none then
        if n.whole.length ≤ 4300 then
          .ok (.int (if n.negative then -(Decimal.placeValue n.whole : Int)
            else Decimal.placeValue n.whole))
        else .error n.whole.length
      else .ok (.float n.floatValue) := by
  have hinteger : n.isInteger = true ↔ n.fraction = none ∧ n.exponent = none := by
    simp [isInteger]
  simp only [value, hinteger, maxDigits, Decimal.maxDigits, intValue,
    Decimal.digitsValue_eq_placeValue, ← Nat.not_lt, ite_not]

end Numeral

namespace Lexer

variable {cs rest : List Char} {l : Lexeme}

theorem word_cls_ne_number (cs : List Char) : (word cs).cls ≠ .number := by
  simp only [word]
  split
  · simp [Lexeme.cls]
  · split
    · simp [Lexeme.cls]
    · split <;> simp [Lexeme.cls]

/-- A number that is taken is well formed, and what follows does not prolong it. -/
theorem Takes.exists_numeral (h : Takes cs rest (some l)) (hl : l.cls = .number) :
    ∃ n : Numeral, l = .number n ∧ n.WellFormed ∧ n.EndsBefore rest ∧ n.spell = cs := by
  cases h with
  | number hn hrest => exact ⟨_, rfl, hn, hrest, rfl⟩
  | mark hc =>
      have hall : ∀ e ∈ marks, e.2.cls ≠ .number := by decide
      exact absurd hl (hall _ (mem_marks hc))
  | verb hc =>
      have hall : ∀ e ∈ verbs, e.2.cls ≠ .number := by decide
      exact absurd hl (hall _ (mem_verbs hc))
  | word => exact absurd hl (word_cls_ne_number _)
  | _ => cases hl

end Lexer

theorem Token.slice_append_drop {cs : List Char} {t : Token} (hpos : t.start ≤ t.stop)
    (ht : t.stop ≤ cs.length) : t.slice cs ++ cs.drop t.stop = cs.drop t.start := by
  have hstart : t.start ≤ (cs.take t.stop).length := by
    rw [List.length_take_of_le ht]
    exact hpos
  rw [Token.slice, ← List.drop_append_of_le_length hstart, List.take_append_drop]

/-- A token that is a number covers the longest numeral at its place. Its text is that numeral, and
it is read as an integer, unless that has more than 4300 digits, exactly where there is neither a
fraction nor an exponent. -/
theorem tokenize_number {source : String} {ts : TokenList} (h : tokenize source = .ok ts)
    {t : Token} (ht : t ∈ ts.tokens) (hcls : t.lexeme.cls = .number) :
    LongestNumeral (source.toList.drop t.start) (t.slice source.toList) ∧
      ∃ n : Numeral, n.WellFormed ∧ n.spell = t.slice source.toList ∧
        t.lexeme.text = String.ofList (t.slice source.toList) ∧
        Numeral.read t.lexeme.text =
          if n.fraction = none ∧ n.exponent = none then
            if n.whole.length ≤ 4300 then
              .ok (.int (if n.negative then -(Decimal.placeValue n.whole : Int)
                else Decimal.placeValue n.whole))
            else misuse (.tooManyDigits n.whole.length)
          else .ok (.float n.floatValue) := by
  obtain ⟨htiles, -⟩ := Lexer.tiles_of_tokenize h
  obtain ⟨hpos, hstop⟩ := htiles.inside ht
  obtain ⟨n, hlexeme, hn, hends, hspell⟩ := (htiles.takes_slice ht).exists_numeral hcls
  have htext : t.lexeme.text = String.ofList n.spell := by rw [hlexeme]; rfl
  have hlongest := hn.longest hends
  rw [hspell, Token.slice_append_drop (Nat.le_of_lt hpos) hstop] at hlongest
  refine ⟨hlongest, n, hn, hspell, ?_, ?_⟩
  · rw [htext, hspell]
  · rw [htext, hn.read_spell, n.value_eq]
    by_cases hinteger : n.fraction = none ∧ n.exponent = none
    · by_cases hlength : n.whole.length ≤ 4300
      · rw [if_pos hinteger, if_pos hlength, if_pos hinteger, if_pos hlength]
      · rw [if_pos hinteger, if_neg hlength, if_pos hinteger, if_neg hlength]
    · rw [if_neg hinteger, if_neg hinteger]

/-- Neither the point nor the mark behind it belongs to the number, as no digit follows them. -/
theorem tokenize_number_point :
    let source := "¯007.e"
    let t : Token := ⟨.number ⟨true, ['0', '0', '7'], none, none⟩, 0, 4⟩
    tokenize source = .ok ⟨[t, ⟨.dyadic .access, 4, 5⟩, ⟨.name "e", 5, 6⟩], 6⟩ ∧
      LongestNumeral source.toList ['¯', '0', '0', '7'] ∧
      Numeral.read "¯007" = .ok (.int (-7)) := by
  intro source t
  have h : tokenize source =
      .ok ⟨[t, ⟨.dyadic .access, 4, 5⟩, ⟨.name "e", 5, 6⟩], 6⟩ := by decide +kernel
  obtain ⟨hlongest, n, hn, hspell, htext, hread⟩ := tokenize_number h (by simp) (t := t) rfl
  have hslice : t.slice source.toList = ['¯', '0', '0', '7'] := by decide +kernel
  rw [hslice] at hlongest hspell
  -- Only one numeral is spelled like that.
  have hscan := hn.scan_eq
  rw [hspell] at hscan
  obtain rfl : ⟨true, ['0', '0', '7'], none, none⟩ = n :=
    congrArg Prod.fst (Option.some.inj hscan)
  exact ⟨h, hlongest, hread⟩

end Glyph
