import Glyph.Proofs.Literal.Numeral

/-!
# The longest numeral

What the scanner takes as a numeral is well formed, and what follows does not prolong it
(`wellFormed_of_scan`). There is an exponent, or a fraction, exactly where the text starts with the
spelling of one; so a numeral that ends before a text also ends before every beginning of that text.
-/

namespace Glyph

theorem noDigit_dropWhile (cs : List Char) : NoDigit (cs.dropWhile Char.isDigit) :=
  forall_mem_head?_dropWhile Char.isDigit cs

theorem isDigits_takeWhile {cs : List Char} (h : cs.takeWhile Char.isDigit ≠ []) :
    IsDigits (cs.takeWhile Char.isDigit) :=
  ⟨h, List.all_eq_true.mp List.all_takeWhile⟩

theorem IsDigits.append_takeWhile {ds : List Char} (h : IsDigits ds) (cs : List Char) :
    IsDigits (ds ++ cs.takeWhile Char.isDigit) :=
  ⟨by simp [h.1], List.forall_mem_append.mpr ⟨h.2, List.all_eq_true.mp List.all_takeWhile⟩⟩

namespace Exponent

theorem scanSign_fst (cs : List Char) : ∀ c ∈ (scanSign cs).1, c = highMinus ∨ c = '-' := by
  cases cs with
  | nil => simp [scanSign]
  | cons c cs =>
      rw [scanSign]
      split
      · rename_i hc
        simpa using hc
      · simp

theorem wellFormed_of_scan {cs rest : List Char} {e : Exponent} (h : scan cs = (some e, rest)) :
    e.WellFormed ∧ NoDigit rest := by
  revert h
  fun_cases scan cs with
  | case3 c cs hmark sign ds hs hne =>
      rintro ⟨⟩
      have hsign := scanSign_fst cs
      rw [hs] at hsign
      exact ⟨⟨by simpa using hmark, hsign, isDigits_takeWhile hne⟩, noDigit_dropWhile ds⟩
  | _ => rintro ⟨⟩

/-- There is an exponent exactly where the text starts with the spelling of one. -/
theorem scan_fst_eq_none_iff {cs : List Char} :
    (scan cs).1 = none ↔ ∀ e : Exponent, e.WellFormed → ¬e.spell <+: cs := by
  constructor
  · rintro hnone e he ⟨rest, rfl⟩
    -- The digits that follow belong to the exponent as well.
    have hlong : WellFormed ⟨e.mark, e.sign, e.digits ++ rest.takeWhile Char.isDigit⟩ :=
      ⟨he.mark, he.sign, he.digits.append_takeWhile rest⟩
    have hscan := hlong.scan_spell (noDigit_dropWhile rest)
    simp only [spell, List.append_assoc, List.cons_append,
      List.takeWhile_append_dropWhile] at hscan
    simp only [spell, List.append_assoc, List.cons_append, hscan] at hnone
    cases hnone
  · intro hall
    cases hscan : (scan cs).1 with
    | none => rfl
    | some e =>
        have happend := spell_append_scan cs
        rw [hscan] at happend
        exact absurd ⟨_, happend⟩ (hall e (wellFormed_of_scan (Prod.ext hscan rfl)).1)

end Exponent

namespace Numeral

theorem isDigits_of_scanFraction {cs rest ds : List Char}
    (h : scanFraction cs = (some ds, rest)) : IsDigits ds ∧ NoDigit rest := by
  revert h
  fun_cases scanFraction cs with
  | case3 cs hne =>
      rintro ⟨⟩
      exact ⟨isDigits_takeWhile hne, noDigit_dropWhile cs⟩
  | _ => rintro ⟨⟩

theorem scanFraction_fst_eq_none_iff {cs : List Char} :
    (scanFraction cs).1 = none ↔ ∀ ds, IsDigits ds → ¬ '.' :: ds <+: cs := by
  constructor
  · rintro hnone ds hds ⟨rest, rfl⟩
    obtain ⟨d, ds', rfl, hd⟩ := hds.exists_cons
    simp [scanFraction, hd] at hnone
  · intro hall
    cases hscan : (scanFraction cs).1 with
    | none => rfl
    | some ds =>
        have happend := append_scanFraction cs
        rw [hscan] at happend
        exact absurd ⟨_, happend⟩ (hall ds (isDigits_of_scanFraction (Prod.ext hscan rfl)).1)

/-- A numeral ends before every beginning of a text before which it ends. -/
theorem EndsBefore.shorten {n : Numeral} {cs ds : List Char} (h : n.EndsBefore cs)
    (hds : ds <+: cs) : n.EndsBefore ds where
  noDigit := forall_mem_head?_shorten hds h.noDigit
  exponent hn := Exponent.scan_fst_eq_none_iff.mpr fun e he hspell =>
    Exponent.scan_fst_eq_none_iff.mp (h.exponent hn) e he (hspell.trans hds)
  fraction hf he := scanFraction_fst_eq_none_iff.mpr fun fs hfs hspell =>
    scanFraction_fst_eq_none_iff.mp (h.fraction hf he) fs hfs (hspell.trans hds)

theorem wellFormed_of_scanUnsigned {negative : Bool} {cs rest : List Char} {n : Numeral}
    (h : scanUnsigned negative cs = some (n, rest)) : n.WellFormed ∧ n.EndsBefore rest := by
  rw [scanUnsigned] at h
  split at h
  · cases h
  rename_i hne
  rcases hf : scanFraction (cs.dropWhile Char.isDigit) with ⟨f, r⟩
  rcases he : Exponent.scan r with ⟨e, t⟩
  simp only [hf, he, Option.some.injEq, Prod.mk.injEq] at h
  obtain ⟨rfl, rfl⟩ := h
  -- Where there is no fraction, or no exponent, nothing is taken for it.
  have hr : NoDigit r ∧ (f = none → (scanFraction r).1 = none) := by
    cases f with
    | some ds => exact ⟨(isDigits_of_scanFraction hf).2, fun h => by cases h⟩
    | none =>
        have hsame := scanFraction_eq_none (congrArg Prod.fst hf)
        obtain rfl : cs.dropWhile Char.isDigit = r := congrArg Prod.snd (hsame.symm.trans hf)
        exact ⟨noDigit_dropWhile cs, fun _ => congrArg Prod.fst hf⟩
  have ht : e = none → t = r := by
    rintro rfl
    exact (congrArg Prod.snd ((Exponent.scan_eq_none (congrArg Prod.fst he)).symm.trans he)).symm
  refine ⟨⟨isDigits_takeWhile hne, ?_, ?_⟩, ⟨?_, fun hn => ?_, fun hn hn' => ?_⟩⟩
  · rintro ds rfl
    exact (isDigits_of_scanFraction hf).1
  · rintro x rfl
    exact (Exponent.wellFormed_of_scan he).1
  · cases e with
    | none => rw [ht rfl]; exact hr.1
    | some x => exact (Exponent.wellFormed_of_scan he).2
  · rw [ht hn, he]; exact hn
  · rw [ht hn']; exact hr.2 hn

/-- A numeral that is taken is well formed, and what follows does not prolong it. -/
theorem wellFormed_of_scan {cs rest : List Char} {n : Numeral} (h : scan cs = some (n, rest)) :
    n.WellFormed ∧ n.EndsBefore rest := by
  cases cs with
  | nil => cases h
  | cons c cs =>
      rw [scan] at h
      split at h <;> exact wellFormed_of_scanUnsigned h

end Numeral

end Glyph
