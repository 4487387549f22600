import Glyph.Proofs.Literal.Quotation
import Glyph.Proofs.Parser.Soundness

/-!
# Scanning what is written

`Scans P cs ls` says that the characters `cs` are read as the lexemes `ls`, at any position and in
front of everything that satisfies `P`: the scanner goes on with what follows as if nothing had been
in front of it. Such facts are put together one after the other. `Breaks cs` says that the scanner
ends inside `cs`, in a string without an end.
-/

namespace Glyph

/-! ## Runs of characters -/

theorem takeWhile_append_of_head {α : Type} {p : α → Bool} {c : α} (hc : p c = false)
    (cs ds : List α) : (cs ++ c :: ds).takeWhile p = cs.takeWhile p := by
  induction cs with
  | nil => simp [hc]
  | cons d cs ih => cases hd : p d <;> simp [hd, ih]

theorem dropWhile_append_of_head {α : Type} {p : α → Bool} {c : α} (hc : p c = false)
    (cs ds : List α) : (cs ++ c :: ds).dropWhile p = cs.dropWhile p ++ c :: ds := by
  induction cs with
  | nil => simp [hc]
  | cons d cs ih => cases hd : p d <;> simp [hd, ih]

theorem takeWhile_append_of_head? {p : Char → Bool} {cs rest : List Char}
    (hcs : ∀ d ∈ cs, p d = true) (hrest : ∀ d ∈ rest.head?, p d = false) :
    (cs ++ rest).takeWhile p = cs := by
  rw [List.takeWhile_append_of_pos hcs]
  cases rest with
  | nil => simp
  | cons d rest => simp [hrest d rfl]

theorem take_length_takeWhile (p : Char → Bool) (cs : List Char) :
    cs.take (cs.takeWhile p).length = cs.takeWhile p :=
  (List.prefix_iff_eq_take.mp (List.takeWhile_prefix p)).symm

theorem drop_length_takeWhile (p : Char → Bool) (cs : List Char) :
    cs.drop (cs.takeWhile p).length = cs.dropWhile p := by
  have hsplit := List.take_append_drop (cs.takeWhile p).length cs
  rw [take_length_takeWhile] at hsplit
  exact List.append_cancel_left (hsplit.trans List.takeWhile_append_dropWhile.symm)

/-- That none of some characters has a property can be computed. -/
theorem forall_mem_eq_false {p : Char → Bool} {cs : List Char} (h : cs.any p = false) :
    ∀ c ∈ cs, p c = false := fun c hc => by simpa using List.any_eq_false.mp h c hc

theorem forall_mem_head?_dropWhile (p : Char → Bool) (cs : List Char) :
    ∀ d ∈ (cs.dropWhile p).head?, p d = false := by
  intro d hd
  have hhead := List.head?_dropWhile_not p cs
  rwa [Option.mem_def.mp hd] at hhead

theorem forall_mem_head?_shorten {p : Char → Prop} {cs ds : List Char} (h : ds <+: cs)
    (hcs : ∀ c ∈ cs.head?, p c) : ∀ c ∈ ds.head?, p c := by
  obtain ⟨es, rfl⟩ := h
  cases ds with
  | nil => simp
  | cons d ds => exact hcs

namespace Lexer

/-- The characters are read as the lexemes in front of everything with the property. -/
def Scans (P : List Char → Prop) (cs : List Char) (ls : List Lexeme) : Prop :=
  ∀ pos rest, P rest → ∃ ts, lexemesOf ts = ls ∧
    scan pos (cs ++ rest) = (scan (pos + cs.length) rest).map (ts ++ ·)

/-- A string starts in the characters that has no end on its line. -/
def Breaks (cs : List Char) : Prop :=
  ∀ pos rest, ∃ e, scan pos (cs ++ rest) = .error e ∧ e.cause = .openString

def Anything (_ : List Char) : Prop := True

variable {P Q : List Char → Prop} {cs ds : List Char} {ls ms : List Lexeme}

theorem Scans.imp (h : Scans P cs ls) (hQ : ∀ rest, Q rest → P rest) : Scans Q cs ls :=
  fun pos rest hrest => h pos rest (hQ rest hrest)

theorem scans_nil : Scans P [] [] := by
  intro pos rest _
  refine ⟨[], rfl, ?_⟩
  cases h : scan pos rest <;> simp [h, Except.map]

theorem Scans.append (hcs : Scans P cs ls) (hds : Scans Q ds ms)
    (hnext : ∀ rest, Q rest → P (ds ++ rest)) : Scans Q (cs ++ ds) (ls ++ ms) := by
  intro pos rest hrest
  obtain ⟨ts, rfl, hts⟩ := hcs pos (ds ++ rest) (hnext rest hrest)
  obtain ⟨us, rfl, hus⟩ := hds (pos + cs.length) rest hrest
  refine ⟨ts ++ us, lexemesOf_append ts us, ?_⟩
  rw [List.append_assoc, hts, hus, List.length_append, Nat.add_assoc]
  cases scan (pos + (cs.length + ds.length)) rest <;> simp [Except.map]

theorem Breaks.append (h : Breaks cs) (ds : List Char) : Breaks (cs ++ ds) := by
  intro pos rest
  rw [List.append_assoc]
  exact h pos (ds ++ rest)

theorem Scans.append_breaks (hcs : Scans P cs ls) (hds : Breaks ds)
    (hnext : ∀ rest, P (ds ++ rest)) : Breaks (cs ++ ds) := by
  intro pos rest
  obtain ⟨ts, -, hts⟩ := hcs pos (ds ++ rest) (hnext rest)
  obtain ⟨e, he, hcause⟩ := hds (pos + cs.length) rest
  exact ⟨e, by rw [List.append_assoc, hts, he]; rfl, hcause⟩

theorem Scans.tokenize {s : String} (h : Scans P s.toList ls) (hP : P []) :
    ∃ ts, tokenize s = .ok ts ∧ lexemesOf ts.tokens = ls := by
  obtain ⟨ts, hls, hts⟩ := h 0 [] hP
  rw [List.append_nil] at hts
  refine ⟨⟨ts, s.length⟩, ?_, hls⟩
  rw [Glyph.tokenize, hts]
  simp [scan, Except.map]

theorem Breaks.tokenize {s : String} (h : Breaks s.toList) :
    ∃ e, Glyph.tokenize s = .error e := by
  obtain ⟨e, he, -⟩ := h 0 []
  rw [List.append_nil] at he
  exact ⟨e, by rw [Glyph.tokenize, he]⟩

/-! ## Single steps -/

theorem scan_of_lead {c : Char} {l : Lexeme} (pos : Nat) {rest : List Char}
    (h : lead c (cs ++ rest) = .ok ⟨some l, cs.length⟩) :
    scan pos (c :: cs ++ rest) =
      (scan (pos + (c :: cs).length) rest).map
        (⟨l, pos, pos + (c :: cs).length⟩ :: ·) := by
  rw [List.cons_append, scan, h]
  simp only [List.drop_left, List.length_cons, Nat.add_assoc, Nat.add_comm 1]
  cases scan (pos + (cs.length + 1)) rest <;> rfl

theorem scans_of_lead {c : Char} {l : Lexeme}
    (h : ∀ rest, P rest → lead c (cs ++ rest) = .ok ⟨some l, cs.length⟩) :
    Scans P (c :: cs) [l] := by
  intro pos rest hrest
  exact ⟨[⟨l, pos, pos + (c :: cs).length⟩], rfl, scan_of_lead pos (h rest hrest)⟩

theorem breaks_of_lead {c : Char}
    (h : ∀ rest, ∃ n, lead c (cs ++ rest) = .error (.openString, n)) : Breaks (c :: cs) := by
  intro pos rest
  obtain ⟨n, hn⟩ := h rest
  exact ⟨⟨.openString, pos, pos + 1 + n⟩, by rw [List.cons_append, scan, hn], rfl⟩

theorem scans_mark {c : Char} {l : Lexeme} (h : ∀ rest, lead c rest = .ok ⟨some l, 0⟩) :
    Scans Anything [c] [l] :=
  scans_of_lead fun rest _ => h rest

theorem scans_blank : Scans Anything [' '] [] := by
  intro pos rest _
  refine ⟨[], rfl, ?_⟩
  have hlead : lead ' ' rest = .ok ⟨none, 0⟩ := rfl
  rw [List.singleton_append, scan, hlead]
  simp only [List.drop_zero]
  cases scan (pos + 1) rest <;> rfl

theorem scans_leftBracket : Scans Anything ['['] [.leftBracket] := scans_mark fun _ => rfl

theorem scans_rightBracket : Scans Anything [']'] [.rightBracket] := scans_mark fun _ => rfl

theorem scans_leftBrace : Scans Anything ['\x7b'] [.leftBrace] := scans_mark fun _ => rfl

theorem scans_rightBrace : Scans Anything ['\x7d'] [.rightBrace] := scans_mark fun _ => rfl

theorem scans_spaced {c : Char} {l : Lexeme} (h : ∀ rest, lead c rest = .ok ⟨some l, 0⟩) :
    Scans Anything [c, ' '] [l] :=
  (scans_mark h).append scans_blank fun _ _ => trivial

/-- What may follow an item or a key: a comma, a colon, a closing bracket, or nothing. -/
def Follows (rest : List Char) : Prop :=
  ∀ c ∈ rest.head?, c = ',' ∨ c = ':' ∨ c = ']' ∨ c = '\x7d'

/-! ## Texts -/

theorem stringBody_doubled_error {cs rest : List Char} (hcs : ∃ c ∈ cs, isLineEnd c = true) :
    ∃ n, stringBody '\'' (Quotation.doubled '\'' cs ++ rest) = .error n := by
  induction cs with
  | nil => simp at hcs
  | cons c cs ih =>
      by_cases hq : c = '\''
      · subst hq
        obtain ⟨n, hn⟩ := ih (by simpa [isLineEnd] using hcs)
        exact ⟨n + 2, by simp [Quotation.doubled, stringBody, hn]⟩
      · by_cases hc : isLineEnd c = true
        · exact ⟨0, by simp [Quotation.doubled, stringBody_cons, hq, hc]⟩
        · obtain ⟨n, hn⟩ := ih (by simpa [hc] using hcs)
          exact ⟨n + 1, by simp [Quotation.doubled, stringBody_cons, hq, hc, hn]⟩

theorem lead_quote (cs : List Char) :
    lead '\'' cs =
      match stringBody '\'' cs with
      | .ok (body, n) => .ok ⟨some (.string (String.ofList body)), n⟩
      | .error n => .error (.openString, n) := rfl

theorem textChars_eq (s : String) :
    Value.textChars s = '\'' :: (Quotation.doubled '\'' s.toList ++ ['\'']) := by
  rw [Value.textChars, Quotation.value_doubled]
  rfl

theorem scans_textChars {s : String} (h : ∀ c ∈ s.toList, isLineEnd c = false) :
    Scans Follows (Value.textChars s) [.string s] := by
  rw [textChars_eq]
  refine scans_of_lead fun rest hrest => ?_
  have hquote : '\'' ∉ rest.head? := fun hmem => by simpa using hrest '\'' hmem
  rw [List.append_assoc, List.singleton_append, lead_quote, stringBody_doubled h hquote]
  simp

theorem breaks_textChars {s : String} (h : ∃ c ∈ s.toList, isLineEnd c = true) :
    Breaks (Value.textChars s) := by
  rw [textChars_eq]
  refine breaks_of_lead fun rest => ?_
  obtain ⟨n, hn⟩ := @stringBody_doubled_error _ (['\''] ++ rest) h
  exact ⟨n, by rw [List.append_assoc, lead_quote, hn]⟩

/-! ## Integers -/

def numeralOf (n : Int) : Numeral := ⟨decide (n < 0), Nat.toDigits 10 n.natAbs, none, none⟩

theorem isDigit_of_mem_toDigits {n : Nat} {c : Char} (h : c ∈ Nat.toDigits 10 n) :
    c.isDigit = true := Nat.isDigit_of_mem_toDigits (by decide) (by decide) h

theorem intValue_numeralOf (n : Int) : (numeralOf n).intValue = n := by
  have hvalue : Decimal.digitsValue 0 (Nat.toDigits 10 n.natAbs) = n.natAbs := by
    rw [Decimal.digitsValue, ← Nat.ofDigitChars_eq_foldl, Nat.ofDigitChars_ten_toDigits]
  rw [Numeral.intValue, numeralOf, hvalue]
  by_cases hn : n < 0
  · simp only [hn, decide_true, if_true]
    omega
  · simp only [hn, decide_false, Bool.false_eq_true, if_false]
    omega

theorem spell_numeralOf (n : Int) :
    (numeralOf n).spell = Decimal.integerChars highMinus n := by
  by_cases hn : n < 0 <;> simp [numeralOf, Numeral.spell, Decimal.integerChars, hn]

/-- The digits of a natural number are taken up to what may follow. -/
theorem scanUnsigned_toDigits (negative : Bool) (n : Nat) {rest : List Char} (h : Follows rest) :
    Numeral.scanUnsigned negative (Nat.toDigits 10 n ++ rest) =
      some (⟨negative, Nat.toDigits 10 n, none, none⟩, rest) := by
  have hdigits : ∀ c ∈ Nat.toDigits 10 n, c.isDigit = true := fun c => isDigit_of_mem_toDigits
  have htake : rest.takeWhile Char.isDigit = [] ∧ rest.dropWhile Char.isDigit = rest ∧
      Numeral.scanFraction rest = (none, rest) ∧ Exponent.scan rest = (none, rest) := by
    cases rest with
    | nil => simp [Numeral.scanFraction, Exponent.scan]
    | cons c rest =>
        rcases h c rfl with rfl | rfl | rfl | rfl <;>
          simp [Numeral.scanFraction, Exponent.scan]
  obtain ⟨htake, hdrop, hfraction, hexponent⟩ := htake
  rw [Numeral.scanUnsigned, List.takeWhile_append_of_pos hdigits, htake, List.append_nil,
    List.dropWhile_append_of_pos hdigits, hdrop]
  cases hd : Nat.toDigits 10 n with
  | nil => exact absurd hd Nat.toDigits_ne_nil
  | cons d ds => simp only [hfraction, hexponent]

theorem scan_integerChars (n : Int) {rest : List Char} (h : Follows rest) :
    Numeral.scan (Decimal.integerChars highMinus n ++ rest) = some (numeralOf n, rest) := by
  by_cases hn : n < 0
  · simp [Decimal.integerChars, hn, Numeral.scan, numeralOf, scanUnsigned_toDigits true _ h]
  · have hscan := scanUnsigned_toDigits false n.natAbs h
    obtain ⟨d, ds, hds⟩ := List.exists_cons_of_ne_nil (@Nat.toDigits_ne_nil n.natAbs 10)
    have hd : d.isDigit = true := isDigit_of_mem_toDigits (hds ▸ List.mem_cons_self ..)
    -- The first digit must not be taken for the sign.
    have hminus : d ≠ highMinus := by
      rintro rfl
      cases hd
    rw [hds] at hscan
    simpa [Decimal.integerChars, hn, Numeral.scan, numeralOf, hds, hminus] using hscan

theorem isDigit_eq_true {c : Char} (h : c.isDigit = true) : Text.isDigit c = true := by
  have hrange := h
  rw [Char.isDigit, Bool.and_eq_true, decide_eq_true_eq, decide_eq_true_eq] at hrange
  have hle : c.toNat ≤ '9'.toNat := hrange.2
  rw [Text.isDigit_ascii (Nat.lt_of_le_of_lt hle (by decide)), h]

/-- A digit, or a high minus in front of one, starts a numeral. -/
theorem lead_numeral {c : Char} {cs rest : List Char} {n : Numeral}
    (h : c.isDigit = true ∨ c = highMinus ∧ ∃ d ∈ cs.head?, d.isDigit = true)
    (hscan : Numeral.scan (c :: cs) = some (n, rest)) :
    lead c cs = .ok ⟨some (.number n), n.spell.length - 1⟩ := by
  rcases h with hc | ⟨rfl, d, hd, hdigit⟩
  · have hne : ∀ e : Char, e.isDigit = false → c ≠ e := by
      rintro e he rfl
      rw [hc] at he
      cases he
    simp [lead, isBlank, isSeparator, isLineEnd, mark?, startsNumeral, isDigit_eq_true hc, hne,
      hscan]
  · rw [highMinus] at hscan
    simp [lead, isBlank, isSeparator, isLineEnd, mark?, startsNumeral, highMinus,
      Option.mem_def.mp hd, isDigit_eq_true hdigit, hscan]

theorem scans_integerChars (n : Int) :
    Scans Follows (Decimal.integerChars highMinus n) [.number (numeralOf n)] := by
  obtain ⟨d, ds, hds⟩ := List.exists_cons_of_ne_nil (@Nat.toDigits_ne_nil n.natAbs 10)
  have hd : d.isDigit = true := isDigit_of_mem_toDigits (hds ▸ List.mem_cons_self ..)
  obtain ⟨c, cs, hcs, hlead⟩ : ∃ c cs, Decimal.integerChars highMinus n = c :: cs ∧
      ∀ rest, c.isDigit = true ∨ c = highMinus ∧ ∃ d ∈ (cs ++ rest).head?, d.isDigit = true := by
    rw [Decimal.integerChars, hds]
    by_cases hn : n < 0
    · exact ⟨highMinus, d :: ds, if_pos hn, fun rest => .inr ⟨rfl, d, rfl, hd⟩⟩
    · exact ⟨d, ds, if_neg hn, fun rest => .inl hd⟩
  have hlength := congrArg List.length (spell_numeralOf n)
  rw [hcs] at hlength ⊢
  refine scans_of_lead fun rest hrest => ?_
  have hscan := scan_integerChars n hrest
  rw [hcs, List.cons_append] at hscan
  rw [lead_numeral (hlead rest) hscan, hlength]
  rfl

end Lexer

end Glyph
