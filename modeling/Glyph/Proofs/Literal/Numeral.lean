import Glyph.Proofs.Literal.Scanning

/-!
# Numerals are read as they are spelled

A numeral that is well formed has digits wherever digits are due. Its spelling is read back as the
numeral itself, in front of every text that does not prolong it (`EndsBefore`): the scanner takes as
many characters as it can, so what follows must be no digit, and neither a fraction nor an exponent
where the numeral has none.
-/

namespace Glyph

/-- The characters are digits, and there is at least one of them. -/
def IsDigits (ds : List Char) : Prop := ds ≠ [] ∧ ∀ c ∈ ds, c.isDigit = true

def NoDigit (cs : List Char) : Prop := ∀ c ∈ cs.head?, c.isDigit = false

theorem noDigit_nil : NoDigit [] := by simp [NoDigit]

theorem noDigit_cons {c : Char} {cs : List Char} : NoDigit (c :: cs) ↔ c.isDigit = false := by
  simp [NoDigit]

theorem NoDigit.span_append {rest : List Char} (h : NoDigit rest) {ds : List Char}
    (hds : ∀ c ∈ ds, c.isDigit = true) :
    (ds ++ rest).takeWhile Char.isDigit = ds ∧ (ds ++ rest).dropWhile Char.isDigit = rest := by
  rw [List.takeWhile_append_of_pos hds, List.dropWhile_append_of_pos hds]
  cases rest with
  | nil => simp
  | cons c rest => simp [noDigit_cons.mp h]

theorem IsDigits.exists_cons {ds : List Char} (h : IsDigits ds) :
    ∃ d ds', ds = d :: ds' ∧ d.isDigit = true := by
  obtain ⟨d, ds', rfl⟩ := List.exists_cons_of_ne_nil h.1
  exact ⟨d, ds', rfl, h.2 d (List.mem_cons_self ..)⟩

theorem ne_of_isDigit {c d : Char} (hc : c.isDigit = true) (hd : d.isDigit = false) : c ≠ d := by
  rintro rfl
  rw [hc] at hd
  cases hd

namespace Exponent

/-- The exponent has a mark, a sign of its own kind if any, and digits. -/
structure WellFormed (e : Exponent) : Prop where
  mark : e.mark = 'e' ∨ e.mark = 'E'
  sign : ∀ c ∈ e.sign, c = highMinus ∨ c = '-'
  digits : IsDigits e.digits

theorem scanSign_append {sign : Option Char} (h : ∀ c ∈ sign, c = highMinus ∨ c = '-')
    {ds : List Char} (hds : IsDigits ds) (rest : List Char) :
    scanSign (sign.toList ++ (ds ++ rest)) = (sign, ds ++ rest) := by
  cases sign with
  | none =>
      obtain ⟨d, ds', rfl, hd⟩ := hds.exists_cons
      have hminus : d ≠ highMinus := ne_of_isDigit hd rfl
      have hplain : d ≠ '-' := ne_of_isDigit hd rfl
      simp [scanSign, hminus, hplain]
  | some c =>
      rcases h c rfl with rfl | rfl <;> simp [scanSign]

theorem WellFormed.scan_spell {e : Exponent} (h : e.WellFormed) {rest : List Char}
    (hrest : NoDigit rest) : scan (e.spell ++ rest) = (some e, rest) := by
  obtain ⟨mark, sign, digits⟩ := e
  obtain ⟨htake, hdrop⟩ := hrest.span_append h.digits.2
  have hsign := scanSign_append h.sign h.digits rest
  have hmark : (mark = 'e' || mark = 'E') = true := by
    rcases h.mark with hm | hm <;> simp [show mark = _ from hm]
  simp only [spell, List.cons_append, List.append_assoc]
  rw [scan, if_pos hmark, hsign]
  simp only [htake, hdrop]
  obtain ⟨d, ds', hds, -⟩ := h.digits.exists_cons
  simp only at hds
  rw [hds]

theorem scan_eq_none {cs : List Char} (h : (scan cs).1 = none) : scan cs = (none, cs) := by
  have happend := spell_append_scan cs
  rw [h] at happend
  exact Prod.ext h happend

end Exponent

namespace Numeral

/-- The numeral has digits, also after its point and in its exponent. -/
structure WellFormed (n : Numeral) : Prop where
  whole : IsDigits n.whole
  fraction : ∀ ds ∈ n.fraction, IsDigits ds
  exponent : ∀ e ∈ n.exponent, e.WellFormed

/-- The text does not prolong the numeral: it starts with no digit, with no exponent unless the
numeral has one, and with no fraction unless it has a fraction or an exponent. -/
structure EndsBefore (n : Numeral) (rest : List Char) : Prop where
  noDigit : NoDigit rest
  exponent : n.exponent = none → (Exponent.scan rest).1 = none
  fraction : n.fraction = none → n.exponent = none → (scanFraction rest).1 = none

theorem scanFraction_eq_none {cs : List Char} (h : (scanFraction cs).1 = none) :
    scanFraction cs = (none, cs) := by
  have happend := append_scanFraction cs
  rw [h] at happend
  exact Prod.ext h happend

theorem EndsBefore.scan_exponent {n : Numeral} {rest : List Char} (h : n.EndsBefore rest)
    (hn : n.WellFormed) :
    Exponent.scan ((n.exponent.map Exponent.spell).getD [] ++ rest) = (n.exponent, rest) := by
  cases he : n.exponent with
  | none => exact Exponent.scan_eq_none (h.exponent he)
  | some e => exact (hn.exponent e he).scan_spell h.noDigit

theorem EndsBefore.noDigit_exponent {n : Numeral} {rest : List Char} (h : n.EndsBefore rest)
    (hn : n.WellFormed) : NoDigit ((n.exponent.map Exponent.spell).getD [] ++ rest) := by
  cases he : n.exponent with
  | none => exact h.noDigit
  | some e =>
      refine noDigit_cons.mpr ?_
      rcases (hn.exponent e he).mark with hm | hm <;> rw [hm] <;> rfl

theorem EndsBefore.scanFraction {n : Numeral} {rest : List Char} (h : n.EndsBefore rest)
    (hn : n.WellFormed) :
    scanFraction ((n.fraction.map ('.' :: ·)).getD [] ++
        ((n.exponent.map Exponent.spell).getD [] ++ rest)) =
      (n.fraction, (n.exponent.map Exponent.spell).getD [] ++ rest) := by
  have hnext := h.noDigit_exponent hn
  cases hf : n.fraction with
  | none =>
      -- What follows is the mark of an exponent, or not of the numeral at all.
      refine scanFraction_eq_none ?_
      cases he : n.exponent with
      | none => exact h.fraction hf he
      | some e =>
          have hmark : e.mark ≠ '.' := by
            rcases (hn.exponent e he).mark with hm | hm <;> rw [hm] <;> decide
          simp [Exponent.spell, Numeral.scanFraction, hmark]
  | some ds =>
      have hds := hn.fraction ds hf
      obtain ⟨htake, hdrop⟩ := hnext.span_append hds.2
      obtain ⟨d, ds', rfl, -⟩ := hds.exists_cons
      simp only [Option.map_some, Option.getD_some, List.cons_append] at htake hdrop ⊢
      simp only [Numeral.scanFraction, if_true, htake, hdrop]

theorem EndsBefore.noDigit_fraction {n : Numeral} {rest : List Char} (h : n.EndsBefore rest)
    (hn : n.WellFormed) :
    NoDigit ((n.fraction.map ('.' :: ·)).getD [] ++
      ((n.exponent.map Exponent.spell).getD [] ++ rest)) := by
  cases n.fraction with
  | none => exact h.noDigit_exponent hn
  | some ds => exact noDigit_cons.mpr rfl

theorem EndsBefore.scanUnsigned {n : Numeral} {rest : List Char} (h : n.EndsBefore rest)
    (hn : n.WellFormed) :
    scanUnsigned n.negative (n.whole ++ ((n.fraction.map ('.' :: ·)).getD [] ++
        ((n.exponent.map Exponent.spell).getD [] ++ rest))) = some (n, rest) := by
  obtain ⟨htake, hdrop⟩ := (h.noDigit_fraction hn).span_append hn.whole.2
  rw [Numeral.scanUnsigned, htake, hdrop, h.scanFraction hn]
  simp only [h.scan_exponent hn]
  obtain ⟨d, ds', hds, -⟩ := hn.whole.exists_cons
  obtain ⟨negative, whole, fraction, exponent⟩ := n
  simp only at hds
  rw [hds]

/-- A well-formed numeral is read as it is spelled. -/
theorem WellFormed.scan_spell {n : Numeral} (hn : n.WellFormed) {rest : List Char}
    (h : n.EndsBefore rest) : scan (n.spell ++ rest) = some (n, rest) := by
  have hscan := h.scanUnsigned hn
  obtain ⟨d, ds', hds, hd⟩ := hn.whole.exists_cons
  simp only [spell, List.append_assoc]
  cases hneg : n.negative with
  | true =>
      rw [hneg] at hscan
      simpa [scan] using hscan
  | false =>
      -- The first digit must not be taken for the sign.
      rw [hneg, hds, List.cons_append] at hscan
      have hminus : d ≠ highMinus := ne_of_isDigit hd rfl
      simpa [scan, hds, hminus] using hscan

/-- The first character of a numeral is a digit, or a high minus in front of one. -/
theorem WellFormed.exists_spell {n : Numeral} (hn : n.WellFormed) :
    ∃ c cs, n.spell = c :: cs ∧
      ∀ rest, c.isDigit = true ∨ c = highMinus ∧ ∃ d ∈ (cs ++ rest).head?, d.isDigit = true := by
  obtain ⟨d, ds', hds, hd⟩ := hn.whole.exists_cons
  rw [spell, hds]
  cases n.negative with
  | true => exact ⟨_, _, rfl, fun _ => .inr ⟨rfl, d, rfl, hd⟩⟩
  | false => exact ⟨_, _, rfl, fun _ => .inl hd⟩

theorem WellFormed.exists_lead {n : Numeral} (hn : n.WellFormed) :
    ∃ c cs, n.spell = c :: cs ∧
      ∀ rest, n.EndsBefore rest →
        Lexer.lead c (cs ++ rest) = .ok ⟨some (.number n), cs.length⟩ := by
  obtain ⟨c, cs, hspell, hstart⟩ := hn.exists_spell
  refine ⟨c, cs, hspell, fun rest hrest => ?_⟩
  have hlength := congrArg List.length hspell
  have hscan := hn.scan_spell hrest
  rw [hspell, List.cons_append] at hscan
  rw [Lexer.lead_numeral (hstart rest) hscan, hlength]
  rfl

theorem WellFormed.scans {n : Numeral} (hn : n.WellFormed) :
    Lexer.Scans n.EndsBefore n.spell [.number n] := by
  obtain ⟨c, cs, hspell, hlead⟩ := hn.exists_lead
  rw [hspell]
  exact Lexer.scans_of_lead hlead

theorem endsBefore_nil (n : Numeral) : n.EndsBefore [] :=
  ⟨noDigit_nil, fun _ => rfl, fun _ _ => rfl⟩

theorem WellFormed.tokenize {n : Numeral} (hn : n.WellFormed) {source : String}
    (hsource : source.toList = n.spell) :
    tokenize source = .ok ⟨[⟨.number n, 0, source.length⟩], source.length⟩ := by
  obtain ⟨c, cs, hspell, hlead⟩ := hn.exists_lead
  have hscan := Lexer.scan_of_lead 0 (hlead [] n.endsBefore_nil)
  have hlength : source.length = (c :: cs).length := by
    rw [← String.length_toList, hsource, hspell]
  rw [List.append_nil, Nat.zero_add, ← hlength] at hscan
  rw [Glyph.tokenize, hsource, hspell, hscan, Lexer.scan]
  rfl

end Numeral

end Glyph
