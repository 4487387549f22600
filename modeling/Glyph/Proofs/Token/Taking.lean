import Glyph.Proofs.Joining.Scanning
import Glyph.Proofs.Literal.Longest

/-!
# What one step of the lexer takes

`Takes cs rest o` says that the characters `cs` can be taken in one step in front of `rest`: as a
lexeme, or as something to skip. There is one constructor for each kind of lexeme, with what the
characters are and what may not follow them; nothing in it follows the order in which the lexer
tries them. A step of the lexer takes exactly what the relation allows (`takes_of_lead`,
`Takes.lead`), and after this module the step is not opened again.

What may follow is a matter of the next few characters only. So a step takes the same in front of
every beginning of what followed it, and a lexeme is taken in front of any blank.
-/

namespace Glyph.Lexer

/-- The characters are taken in one step in front of the rest. -/
inductive Takes : List Char → List Char → Option Lexeme → Prop where
  | blank {c : Char} {rest : List Char} (hc : isBlank c = true) : Takes [c] rest none
  | comment {cs rest : List Char} (hcs : ∀ d ∈ cs, isLineEnd d = false)
      (hrest : ∀ d ∈ rest.head?, isLineEnd d = true) : Takes ('#' :: cs) rest none
  | separators {c : Char} {cs rest : List Char} (hcs : ∀ d ∈ c :: cs, isSeparator d = true)
      (hrest : NoSeparator rest) : Takes (c :: cs) rest (some .separator)
  | arrow {rest : List Char} : Takes ['<', '-'] rest (some .assign)
  | mark {c : Char} {l : Lexeme} {rest : List Char} (hc : mark? c = some l) :
      Takes [c] rest (some l)
  | string {q : Char} {cs rest : List Char} (hq : q = '\'' ∨ q = '"')
      (hcs : ∀ d ∈ cs, isLineEnd d = false) (hrest : q ∉ rest.head?) :
      Takes (q :: (Quotation.doubled q cs ++ [q])) rest (some (.string (String.ofList cs)))
  | number {n : Numeral} {rest : List Char} (hn : n.WellFormed) (hrest : n.EndsBefore rest) :
      Takes n.spell rest (some (.number n))
  | verb {c : Char} {l : Lexeme} {rest : List Char} (hc : verb? c = some l) :
      Takes [c] rest (some l)
  | word {c : Char} {cs rest : List Char} (hc : startsName c = true)
      (hdigit : Text.isDigit c = false) (hcs : ∀ d ∈ cs, continuesName d = true)
      (hrest : ∀ d ∈ rest.head?, continuesName d = false) :
      Takes (c :: cs) rest (some (word (c :: cs)))

/-! ## Marks and verbs -/

def marks : List (Char × Lexeme) :=
  [('←', .assign), ('(', .leftParen), (')', .rightParen), ('[', .leftBracket), (']', .rightBracket),
    ('\x7b', .leftBrace), ('\x7d', .rightBrace), (',', .comma), (':', .colon)]

def verbs : List (Char × Lexeme) :=
  [('*', .dyadic (.pervasive .multiply)), ('+', .dyadic (.pervasive .add)),
    ('-', .dyadic (.pervasive .subtract)), ('×', .dyadic (.pervasive .multiply)),
    ('÷', .dyadic (.pervasive .divide)), ('>', .dyadic (.pervasive .greater)),
    ('=', .dyadic (.pervasive .equal)), ('/', .dyadic .replicate), ('.', .dyadic .access),
    ('⍳', .monadic .generate), ('⍴', .monadic .shape)]

theorem mem_marks {c : Char} {l : Lexeme} (h : mark? c = some l) : (c, l) ∈ marks := by
  revert h
  fun_cases mark? c <;> rintro ⟨⟩ <;> subst_vars <;> simp [marks]

theorem eq_of_ofList_singleton {c d : Char} (h : String.ofList [d] = String.ofList [c]) :
    c = d := by
  have hlist := String.ofList_injective h
  simpa using hlist.symm

theorem mem_verbs {c : Char} {l : Lexeme} (h : verb? c = some l) : (c, l) ∈ verbs := by
  revert h
  fun_cases verb? c with
  | case1 hc =>
      rintro ⟨⟩
      subst hc
      simp [verbs]
  | case2 hc v hv =>
      rintro ⟨⟩
      have hglyph : v.glyph = String.ofList [c] := by simpa using List.find?_some hv
      cases v with
      | pervasive op => cases op <;> (cases eq_of_ofList_singleton hglyph; simp [verbs])
      | replicate => cases eq_of_ofList_singleton hglyph; simp [verbs]
      | access => cases eq_of_ofList_singleton hglyph; simp [verbs]
  | case3 hc _ v hv =>
      rintro ⟨⟩
      have hglyph : v.glyph = String.ofList [c] := by simpa using List.find?_some hv
      cases v with
      | print => cases String.ofList_injective hglyph
      | generate => cases eq_of_ofList_singleton hglyph; simp [verbs]
      | shape => cases eq_of_ofList_singleton hglyph; simp [verbs]
  | case4 => rintro ⟨⟩

theorem lead_mark {c : Char} {l : Lexeme} (h : mark? c = some l) (rest : List Char) :
    lead c rest = .ok ⟨some l, 0⟩ := by
  have hall : ∀ e ∈ marks, lead e.1 rest = .ok ⟨some e.2, 0⟩ := by
    rw [marks]
    repeat' rw [List.forall_mem_cons]
    exact ⟨rfl, rfl, rfl, rfl, rfl, rfl, rfl, rfl, rfl, by simp⟩
  exact hall _ (mem_marks h)

theorem lead_verb {c : Char} {l : Lexeme} (h : verb? c = some l) (rest : List Char) :
    lead c rest = .ok ⟨some l, 0⟩ := by
  have hall : ∀ e ∈ verbs, lead e.1 rest = .ok ⟨some e.2, 0⟩ := by
    rw [verbs]
    repeat' rw [List.forall_mem_cons]
    exact ⟨rfl, rfl, rfl, rfl, rfl, rfl, rfl, rfl, rfl, rfl, rfl, by simp⟩
  exact hall _ (mem_verbs h)

/-! ## Words -/

theorem ne_of_startsName {c d : Char} (hc : startsName c = true) (hd : startsName d = false) :
    c ≠ d := by
  rintro rfl
  rw [hc] at hd
  cases hd

theorem mark?_of_startsName {c : Char} (hc : startsName c = true) : mark? c = none := by
  have hall : ∀ e ∈ marks, startsName e.1 = false := by decide +kernel
  cases h : mark? c with
  | none => rfl
  | some l => exact absurd rfl (ne_of_startsName hc (hall _ (mem_marks h)))

theorem verb?_of_startsName {c : Char} (hc : startsName c = true) : verb? c = none := by
  have hall : ∀ e ∈ verbs, startsName e.1 = false := by decide +kernel
  cases h : verb? c with
  | none => rfl
  | some l => exact absurd rfl (ne_of_startsName hc (hall _ (mem_verbs h)))

theorem lead_word {c : Char} {cs rest : List Char} (hc : startsName c = true)
    (hdigit : Text.isDigit c = false) (hcs : ∀ d ∈ cs, continuesName d = true)
    (hrest : ∀ d ∈ rest.head?, continuesName d = false) :
    lead c (cs ++ rest) = .ok ⟨some (word (c :: cs)), cs.length⟩ := by
  have hall : ∀ d ∈ [' ', '\t', '\x0c', '\x0b', '#', '\n', '\r', '⋄', '<', '\'', '"', highMinus],
      startsName d = false := forall_mem_eq_false (by decide +kernel)
  have hne : ∀ d ∈ [' ', '\t', '\x0c', '\x0b', '#', '\n', '\r', '⋄', '<', '\'', '"', highMinus],
      c ≠ d := fun d hd => ne_of_startsName hc (hall d hd)
  simp only [List.forall_mem_cons, List.not_mem_nil, false_implies, implies_true, and_true] at hne
  have hnumeral : startsNumeral c (cs ++ rest) = false := by simp [startsNumeral, hdigit, hne]
  simp [lead, isBlank, isSeparator, isLineEnd, hne, mark?_of_startsName hc, hnumeral,
    verb?_of_startsName hc, hc, takeWhile_append_of_head? hcs hrest]

/-! ## The step -/

/-- A step takes what the relation allows. -/
theorem Takes.lead {cs rest : List Char} {o : Option Lexeme} (h : Takes cs rest o) :
    ∃ c ds, cs = c :: ds ∧ lead c (ds ++ rest) = .ok ⟨o, ds.length⟩ := by
  cases h with
  | @blank c _ hc => exact ⟨c, [], rfl, by simp [Lexer.lead, hc]⟩
  | @comment cs _ hcs hrest =>
      have htake := takeWhile_append_of_head? (p := fun d => !isLineEnd d) (by simpa using hcs)
        (by simpa using hrest)
      exact ⟨'#', cs, rfl, by simp [Lexer.lead, isBlank, htake]⟩
  | @separators c cs _ hcs hrest =>
      obtain ⟨hc, hcs⟩ := List.forall_mem_cons.mp hcs
      exact ⟨c, cs, rfl, by rw [lead_separator hc, takeWhile_append_of_head? hcs hrest]⟩
  | arrow => exact ⟨'<', ['-'], rfl, rfl⟩
  | @mark c _ _ hc => exact ⟨c, [], rfl, lead_mark hc _⟩
  | @string q cs _ hq hcs hrest =>
      refine ⟨q, _, rfl, ?_⟩
      have hbody := stringBody_doubled hcs hrest
      rcases hq with rfl | rfl <;>
        simp [Lexer.lead, isBlank, isSeparator, isLineEnd, mark?, hbody]
  | number hn hrest =>
      obtain ⟨c, ds, hspell, hlead⟩ := hn.exists_lead
      exact ⟨c, ds, hspell, hlead _ hrest⟩
  | @verb c _ _ hc => exact ⟨c, [], rfl, lead_verb hc _⟩
  | word hc hdigit hcs hrest => exact ⟨_, _, rfl, lead_word hc hdigit hcs hrest⟩

/-- A step takes nothing but what the relation allows. -/
theorem takes_of_lead {c : Char} {cs : List Char} {l : Lead} :
    lead c cs = .ok l → Takes (c :: cs.take l.extra) (cs.drop l.extra) l.lexeme? := by
  fun_cases lead c cs with
  | case1 hc =>
      rintro ⟨⟩
      exact .blank hc
  | case2 =>
      rintro ⟨⟩
      rw [take_length_takeWhile, drop_length_takeWhile]
      subst_vars
      have htake := List.all_eq_true.mp (List.all_takeWhile (p := fun d => !isLineEnd d) (l := cs))
      have hdrop := forall_mem_head?_dropWhile (fun d => !isLineEnd d) cs
      exact .comment (by simpa using htake) (by simpa using hdrop)
  | case3 _ _ hc =>
      rintro ⟨⟩
      rw [take_length_takeWhile, drop_length_takeWhile]
      exact .separators (List.forall_mem_cons.mpr ⟨hc, List.all_eq_true.mp List.all_takeWhile⟩)
        (noSeparator_dropWhile cs)
  | case4 _ _ _ harrow =>
      rintro ⟨⟩
      simp only [Bool.and_eq_true, decide_eq_true_eq] at harrow
      obtain ⟨rfl, hhead⟩ := harrow
      obtain ⟨ds, rfl⟩ := List.head?_eq_some_iff.mp hhead
      exact .arrow
  | case5 l _ _ _ _ hl =>
      rintro ⟨⟩
      exact .mark hl
  | case6 _ _ _ _ _ hq body n hbody =>
      rintro ⟨⟩
      obtain ⟨rest, rfl, rfl, hrest, hline⟩ := exists_of_stringBody hbody
      have hq : c = '\'' ∨ c = '"' := by simpa using hq
      -- The mark itself is no line end.
      have hends : ∀ d ∈ body, isLineEnd d = false := by
        intro d hd
        by_cases hdc : d = c
        · rcases hq with rfl | rfl <;> (subst hdc; rfl)
        · exact hline d hd hdc
      rw [List.append_cons, List.take_left' (by simp), List.drop_left' (by simp)]
      exact .string hq hends hrest
  | case8 _ _ _ _ _ _ _ n rest hscan =>
      rintro ⟨⟩
      obtain ⟨hn, hrest⟩ := Numeral.wellFormed_of_scan hscan
      have happend := Numeral.spell_append_of_scan hscan
      obtain ⟨d, ds, hspell, -⟩ := hn.exists_lead
      rw [hspell, List.cons_append] at happend
      obtain ⟨rfl, rfl⟩ := List.cons.inj happend
      have hlength : n.spell.length - 1 = ds.length := by rw [hspell]; rfl
      rw [hlength, List.take_left, List.drop_left, ← hspell]
      exact .number hn hrest
  | case10 l _ _ _ _ _ _ _ hl =>
      rintro ⟨⟩
      exact .verb hl
  | case11 _ _ _ _ _ _ hnumeral _ hc =>
      rintro ⟨⟩
      rw [take_length_takeWhile, drop_length_takeWhile]
      have hdigit : Text.isDigit c = false := by
        cases hd : Text.isDigit c with
        | false => rfl
        | true => exact absurd (by simp [startsNumeral, hd]) hnumeral
      exact .word hc hdigit (List.all_eq_true.mp List.all_takeWhile)
        (forall_mem_head?_dropWhile continuesName cs)
  | _ => rintro ⟨⟩

/-! ## What may follow -/

/-- A step takes the same in front of every beginning of what followed. -/
theorem Takes.shorten {cs rest rest' : List Char} {o : Option Lexeme} (h : Takes cs rest o)
    (hp : rest' <+: rest) : Takes cs rest' o := by
  cases h with
  | blank hc => exact .blank hc
  | comment hcs hrest => exact .comment hcs (forall_mem_head?_shorten hp hrest)
  | separators hcs hrest => exact .separators hcs (forall_mem_head?_shorten hp hrest)
  | arrow => exact .arrow
  | mark hc => exact .mark hc
  | @string q _ _ hq hcs hrest =>
      have hne : ∀ d ∈ rest.head?, d ≠ q := fun d hd hdq => hrest (hdq ▸ hd)
      exact .string hq hcs fun hmem => forall_mem_head?_shorten hp hne q hmem rfl
  | number hn hrest => exact .number hn (hrest.shorten hp)
  | verb hc => exact .verb hc
  | word hc hdigit hcs hrest => exact .word hc hdigit hcs (forall_mem_head?_shorten hp hrest)

def EndsOrBlank (rest : List Char) : Prop := ∀ c ∈ rest.head?, isBlank c = true

def blanks : List Char := [' ', '\t', '\x0c', '\x0b']

theorem mem_blanks {c : Char} (h : isBlank c = true) : c ∈ blanks := by
  simpa [isBlank, blanks, or_assoc] using h

theorem EndsOrBlank.forall_eq_false {rest : List Char} (h : EndsOrBlank rest) {p : Char → Bool}
    (hp : blanks.any p = false) : ∀ c ∈ rest.head?, p c = false :=
  fun c hc => forall_mem_eq_false hp c (mem_blanks (h c hc))

theorem EndsOrBlank.endsBefore {rest : List Char} (h : EndsOrBlank rest) (n : Numeral) :
    n.EndsBefore rest := by
  cases rest with
  | nil => exact n.endsBefore_nil
  | cons c rest =>
      have hc : c ∈ blanks := mem_blanks (h c rfl)
      rw [blanks] at hc
      have hfraction : (Numeral.scanFraction (c :: rest)).1 = none := by
        rw [Numeral.scanFraction, if_neg (by rintro rfl; simp at hc)]
      have hexponent : (Exponent.scan (c :: rest)).1 = none := by
        have hmark : ¬(decide (c = 'e') || decide (c = 'E')) = true := by
          rw [Bool.or_eq_true, decide_eq_true_eq, decide_eq_true_eq]
          rintro (rfl | rfl) <;> simp at hc
        rw [Exponent.scan, if_neg hmark]
      exact ⟨h.forall_eq_false (by decide), fun _ => hexponent, fun _ _ => hfraction⟩

theorem Takes.of_endsOrBlank {cs rest rest' : List Char} {l : Lexeme}
    (h : Takes cs rest (some l)) (hb : EndsOrBlank rest') : Takes cs rest' (some l) := by
  cases h with
  | separators hcs hrest => exact .separators hcs (hb.forall_eq_false (by decide))
  | arrow => exact .arrow
  | mark hc => exact .mark hc
  | @string q _ _ hq hcs hrest =>
      refine .string hq hcs fun hmem => ?_
      have hblank := hb q hmem
      rcases hq with rfl | rfl <;> cases hblank
  | number hn hrest => exact .number hn (hb.endsBefore _)
  | verb hc => exact .verb hc
  | word hc hdigit hcs hrest =>
      exact .word hc hdigit hcs (hb.forall_eq_false (by decide +kernel))

end Glyph.Lexer
