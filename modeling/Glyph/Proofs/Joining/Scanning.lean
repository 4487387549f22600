import Glyph.Proofs.Literal.Scanning

/-!
# Scanning across a line end

A line end stops whatever stands in front of it: a comment, a number, a name, a string. So the
lexemes of a text are the same in front of a line end (`lead_append_newline`), with one exception. A
run of separators at the end of the text goes on with the line end and with the separators behind
it, and all of them make one lexeme. `scans_line` states what is left of the text after that
exception, and `exists_scan_dropWhile` what is left of a text of which the separators in front were
taken.
-/

namespace Glyph

namespace Exponent

theorem scanSign_append_newline (cs ds : List Char) :
    scanSign (cs ++ '\n' :: ds) = ((scanSign cs).1, (scanSign cs).2 ++ '\n' :: ds) := by
  cases cs with
  | nil => rfl
  | cons c cs =>
      simp only [List.cons_append, scanSign]
      split <;> rfl

theorem scan_append_newline (cs ds : List Char) :
    scan (cs ++ '\n' :: ds) = ((scan cs).1, (scan cs).2 ++ '\n' :: ds) := by
  cases cs with
  | nil => rfl
  | cons c cs =>
      simp only [List.cons_append, scan, scanSign_append_newline,
        takeWhile_append_of_head (show Char.isDigit '\n' = false from rfl),
        dropWhile_append_of_head (show Char.isDigit '\n' = false from rfl)]
      split
      · split <;> rfl
      · rfl

end Exponent

namespace Numeral

theorem scanFraction_append_newline (cs ds : List Char) :
    scanFraction (cs ++ '\n' :: ds) = ((scanFraction cs).1, (scanFraction cs).2 ++ '\n' :: ds) := by
  cases cs with
  | nil => rfl
  | cons c cs =>
      simp only [List.cons_append, scanFraction,
        takeWhile_append_of_head (show Char.isDigit '\n' = false from rfl),
        dropWhile_append_of_head (show Char.isDigit '\n' = false from rfl)]
      split
      · split <;> rfl
      · rfl

theorem scanUnsigned_append_newline (negative : Bool) (cs ds : List Char) :
    scanUnsigned negative (cs ++ '\n' :: ds) =
      (scanUnsigned negative cs).map fun x => (x.1, x.2 ++ '\n' :: ds) := by
  simp only [scanUnsigned, takeWhile_append_of_head (show Char.isDigit '\n' = false from rfl),
    dropWhile_append_of_head (show Char.isDigit '\n' = false from rfl),
    scanFraction_append_newline, Exponent.scan_append_newline]
  split <;> rfl

theorem scan_append_newline (c : Char) (cs ds : List Char) :
    scan (c :: (cs ++ '\n' :: ds)) = (scan (c :: cs)).map fun x => (x.1, x.2 ++ '\n' :: ds) := by
  simp only [scan]
  split
  · exact scanUnsigned_append_newline true cs ds
  · exact scanUnsigned_append_newline false (c :: cs) ds

end Numeral

namespace Lexer

theorem stringBody_append_newline {q : Char} (hq : q ≠ '\n') (cs ds : List Char) :
    stringBody q (cs ++ '\n' :: ds) = stringBody q cs := by
  have hend : stringBody q ('\n' :: ds) = .error 0 := by
    rw [stringBody_cons hq.symm]
    rfl
  fun_induction stringBody q cs with
  | case1 => exact hend
  | case2 es body n hes ih => simp [stringBody, ih, hes]
  | case3 es n hes ih => simp [stringBody, ih, hes]
  | case4 d es hd => simp [stringBody, hd]
  | case5 => simp [stringBody, hq.symm]
  | case6 c es hc hline => simp [stringBody_cons hc, hline]
  | case7 c es hc hline body n hes ih => simp [stringBody_cons hc, hline, ih, hes]
  | case8 c es hc hline n hes ih => simp [stringBody_cons hc, hline, ih, hes]

theorem startsNumeral_append_newline (c : Char) (cs ds : List Char) :
    startsNumeral c (cs ++ '\n' :: ds) = startsNumeral c cs := by
  cases cs with
  | nil =>
      have hdigit : Text.isDigit '\n' = false := by decide
      simp [startsNumeral, hdigit]
  | cons d cs => rfl

/-- A line end stops what stands in front of it, unless that is a separator. -/
theorem lead_append_newline {c : Char} (hc : isSeparator c = false) (cs ds : List Char) :
    lead c (cs ++ '\n' :: ds) = lead c cs := by
  have hcomment : (cs ++ '\n' :: ds).takeWhile (fun d => !isLineEnd d) =
      cs.takeWhile (fun d => !isLineEnd d) := takeWhile_append_of_head rfl cs ds
  have hname := takeWhile_append_of_head (show continuesName '\n' = false by decide) cs ds
  have harrow : ((cs ++ '\n' :: ds).head? = some '-') = (cs.head? = some '-') := by
    cases cs <;> simp
  simp only [lead, hcomment, harrow, startsNumeral_append_newline, hname,
    Numeral.scan_append_newline, hc, Bool.false_eq_true, if_false]
  by_cases hquote : (c = '\'' || c = '"') = true
  · have hne : c ≠ '\n' := by
      rintro rfl
      cases hquote
    rw [stringBody_append_newline hne]
    simp only [hquote, if_true]
  · simp only [hquote]
    cases Numeral.scan (c :: cs) <;> rfl

/-! ## What a step takes -/

theorem length_stringBody_le {q : Char} {cs : List Char} {x : List Char × Nat}
    (h : stringBody q cs = .ok x) : x.2 ≤ cs.length := by
  fun_induction stringBody q cs generalizing x with
  | case2 es body n hes ih =>
      cases h
      exact Nat.add_le_add_right (ih hes) 2
  | case4 d es hd =>
      cases h
      exact Nat.le_add_left 1 _
  | case5 =>
      cases h
      exact Nat.le_refl 1
  | case7 c es hc hline body n hes ih =>
      cases h
      exact Nat.succ_le_succ (ih hes)
  | _ => cases h

theorem extra_le {c : Char} {cs : List Char} {l : Lead} :
    lead c cs = .ok l → l.extra ≤ cs.length := by
  fun_cases lead c cs with
  | case2 | case3 | case11 =>
      rintro ⟨⟩
      exact (List.takeWhile_sublist _).length_le
  | case4 hblank hcomment hsep harrow =>
      rintro ⟨⟩
      cases cs with
      | nil => simp at harrow
      | cons d cs => exact Nat.le_add_left 1 _
  | case6 _ _ _ _ _ _ body n hbody =>
      rintro ⟨⟩
      exact length_stringBody_le hbody
  | case8 _ _ _ _ _ _ _ n rest hscan =>
      rintro ⟨⟩
      have hlength := congrArg List.length (Numeral.spell_append_of_scan hscan)
      rw [List.length_append, List.length_cons] at hlength
      show n.spell.length - 1 ≤ cs.length
      omega
  | _ =>
      rintro ⟨⟩
      try exact Nat.zero_le _

theorem scan_cons_eq_ok_iff {pos : Nat} {c : Char} {cs : List Char} {ts : List Token} :
    scan pos (c :: cs) = .ok ts ↔
      ∃ l us, lead c cs = .ok l ∧ scan (pos + 1 + l.extra) (cs.drop l.extra) = .ok us ∧
        (l.lexeme?.map (⟨·, pos, pos + 1 + l.extra⟩)).toList ++ us = ts := by
  rw [scan]
  cases hl : lead c cs with
  | error e => simp
  | ok l =>
      cases hus : scan (pos + 1 + l.extra) (cs.drop l.extra) with
      | error e => simp [hus]
      | ok us => cases ho : l.lexeme? <;> simp [hus, ho]

/-- The place of a text does not matter for its lexemes. -/
theorem exists_scan_of_scan {pos : Nat} {cs : List Char} {ts : List Token}
    (h : scan pos cs = .ok ts) (pos' : Nat) :
    ∃ us, scan pos' cs = .ok us ∧ lexemesOf us = lexemesOf ts := by
  match cs, h with
  | [], h =>
      rw [scan] at h ⊢
      exact ⟨ts, h, rfl⟩
  | c :: cs, h =>
      obtain ⟨l, ts', hl, hts', rfl⟩ := scan_cons_eq_ok_iff.mp h
      obtain ⟨us, hus, hlexemes⟩ := exists_scan_of_scan hts' (pos' + 1 + l.extra)
      refine ⟨_, scan_cons_eq_ok_iff.mpr ⟨l, us, hl, hus, rfl⟩, ?_⟩
      rw [lexemesOf_append, lexemesOf_append, hlexemes]
      cases l.lexeme? <;> rfl
termination_by cs.length
decreasing_by
  simp only [List.length_drop, List.length_cons]
  omega

theorem scans_of_lead? {P : List Char → Prop} {c : Char} {cs : List Char} {o : Option Lexeme}
    (h : ∀ rest, P rest → lead c (cs ++ rest) = .ok ⟨o, cs.length⟩) :
    Scans P (c :: cs) o.toList := by
  intro pos rest hrest
  refine ⟨(o.map (⟨·, pos, pos + 1 + cs.length⟩)).toList, ?_, ?_⟩
  · cases o <;> rfl
  · rw [List.cons_append, scan, h rest hrest]
    simp only [List.drop_left, List.length_cons, Nat.add_assoc, Nat.add_comm 1]
    cases scan (pos + (cs.length + 1)) rest <;> cases o <;> rfl

/-! ## Runs of separators -/

def NoSeparator (cs : List Char) : Prop := ∀ c ∈ cs.head?, isSeparator c = false

theorem noSeparator_nil : NoSeparator [] := by simp [NoSeparator]

theorem noSeparator_dropWhile (cs : List Char) : NoSeparator (cs.dropWhile isSeparator) :=
  forall_mem_head?_dropWhile isSeparator cs

theorem lead_separator {c : Char} (hc : isSeparator c = true) (cs : List Char) :
    lead c cs = .ok ⟨some .separator, (cs.takeWhile isSeparator).length⟩ := by
  have hcases : c = '\n' ∨ c = '\r' ∨ c = '⋄' := by
    simpa [isSeparator, isLineEnd, or_assoc] using hc
  rcases hcases with rfl | rfl | rfl <;> rfl

/-- A step takes the same in front of a line end, unless all that is left are separators. -/
theorem lead_append_of_not_all {c : Char} {cs : List Char}
    (h : ¬∀ d ∈ c :: cs, isSeparator d = true) (ds : List Char) :
    lead c (cs ++ '\n' :: ds) = lead c cs := by
  cases hc : isSeparator c with
  | false => exact lead_append_newline hc cs ds
  | true =>
      have hlength : (cs.takeWhile isSeparator).length ≠ cs.length := by
        intro heq
        have hall := (List.takeWhile_sublist isSeparator).eq_of_length heq
        refine h (List.forall_mem_cons.mpr ⟨hc, fun d hd => ?_⟩)
        rw [← hall] at hd
        exact List.all_eq_true.mp List.all_takeWhile d hd
      rw [lead_separator hc, lead_separator hc, List.takeWhile_append, if_neg hlength]

/-- Separators up to something else are one lexeme. -/
theorem scans_separators {c : Char} {cs : List Char} (h : ∀ d ∈ c :: cs, isSeparator d = true) :
    Scans NoSeparator (c :: cs) [.separator] := by
  obtain ⟨hc, hcs⟩ := List.forall_mem_cons.mp h
  refine scans_of_lead fun rest hrest => ?_
  rw [lead_separator hc, takeWhile_append_of_head? hcs hrest]

/-- A text keeps its lexemes in front of a line end and further separators, but for a separator at
its end, which becomes one with them. -/
theorem scans_line {pos : Nat} {cs : List Char} {ts : List Token} (h : scan pos cs = .ok ts) :
    ∃ ls n, lexemesOf ts = ls ++ separators n ∧
      ∀ ss, (∀ c ∈ ss, isSeparator c = true) →
        Scans NoSeparator (cs ++ '\n' :: ss) (ls ++ [.separator]) := by
  match cs, h with
  | [], h =>
      rw [scan] at h
      cases h
      refine ⟨[], 0, rfl, fun ss hss => ?_⟩
      exact scans_separators (List.forall_mem_cons.mpr ⟨rfl, hss⟩)
  | c :: cs, h =>
      by_cases hrun : ∀ d ∈ c :: cs, isSeparator d = true
      · -- The text is a run of separators, which goes on with the line end.
        obtain ⟨us, hus, hscan⟩ := scans_separators hrun pos [] noSeparator_nil
        rw [List.append_nil, h, scan] at hscan
        have hts : ts = us := by simpa [Except.map] using hscan
        refine ⟨[], 1, by rw [hts, hus]; rfl, fun ss hss => ?_⟩
        have hline : ∀ d ∈ '\n' :: ss, isSeparator d = true := List.forall_mem_cons.mpr ⟨rfl, hss⟩
        exact scans_separators fun d hd => (List.mem_append.mp hd).elim (hrun d) (hline d)
      · -- One step takes the same as without the line end, and the rest is a shorter text.
        obtain ⟨l, us, hl, hus, rfl⟩ := scan_cons_eq_ok_iff.mp h
        obtain ⟨ls, n, hls, hscans⟩ := scans_line hus
        refine ⟨l.lexeme?.toList ++ ls, n, ?_, fun ss hss => ?_⟩
        · rw [lexemesOf_append, hls]
          cases l.lexeme? <;> simp
        · have hstep : Scans (fun rest => ∃ ds, rest = cs.drop l.extra ++ '\n' :: ds)
              (c :: cs.take l.extra) l.lexeme?.toList := by
            refine scans_of_lead? fun rest hrest => ?_
            obtain ⟨ds, rfl⟩ := hrest
            rw [← List.append_assoc, List.take_append_drop, lead_append_of_not_all hrun, hl,
              List.length_take_of_le (extra_le hl)]
          have happend := hstep.append (hscans ss hss) fun rest _ => ⟨ss ++ rest, by simp⟩
          rw [List.cons_append, ← List.append_assoc, List.take_append_drop] at happend
          rwa [List.append_assoc]
termination_by cs.length
decreasing_by
  simp only [List.length_drop, List.length_cons]
  omega

/-- The separators in front of a text are at most one lexeme in front of those of the rest. -/
theorem exists_scan_dropWhile {pos : Nat} {cs : List Char} {ts : List Token}
    (h : scan pos cs = .ok ts) (pos' : Nat) :
    ∃ us n, scan pos' (cs.dropWhile isSeparator) = .ok us ∧
      lexemesOf ts = separators n ++ lexemesOf us := by
  have hsplit := List.takeWhile_append_dropWhile (p := isSeparator) (l := cs)
  cases hss : cs.takeWhile isSeparator with
  | nil =>
      rw [hss, List.nil_append] at hsplit
      obtain ⟨us, hus, hlexemes⟩ := exists_scan_of_scan h pos'
      exact ⟨us, 0, by rw [hsplit, hus], hlexemes.symm⟩
  | cons c ss =>
      have hall : ∀ d ∈ c :: ss, isSeparator d = true := by
        rw [← hss]
        exact List.all_eq_true.mp List.all_takeWhile
      obtain ⟨vs, hvs, hscan⟩ := scans_separators hall pos _ (noSeparator_dropWhile cs)
      rw [← hss, hsplit, h] at hscan
      match hrest : scan (pos + (cs.takeWhile isSeparator).length) (cs.dropWhile isSeparator) with
      | .error e =>
          rw [hrest] at hscan
          cases hscan
      | .ok us =>
          rw [hrest] at hscan
          have hts : ts = vs ++ us := by simpa [Except.map] using hscan
          obtain ⟨us', hus', hlexemes⟩ := exists_scan_of_scan hrest pos'
          refine ⟨us', 1, hus', ?_⟩
          rw [hts, lexemesOf_append, hvs, hlexemes]
          rfl

/-- Two texts with a line end between them have the lexemes of the one and of the other with a
separator between, where separators at the end of the first and in front of the second are gone. -/
theorem exists_scan_append_newline {as bs : List Char} {ts us : List Token}
    (ha : scan 0 as = .ok ts) (hb : scan 0 bs = .ok us) :
    ∃ vs ls ms m n, scan 0 (as ++ '\n' :: bs) = .ok vs ∧
      lexemesOf ts = ls ++ separators m ∧ lexemesOf us = separators n ++ ms ∧
      lexemesOf vs = ls ++ .separator :: ms := by
  obtain ⟨ls, m, hls, hscans⟩ := scans_line ha
  have hss : ∀ c ∈ bs.takeWhile isSeparator, isSeparator c = true :=
    List.all_eq_true.mp List.all_takeWhile
  obtain ⟨ts', hts', hscan⟩ := hscans _ hss 0 _ (noSeparator_dropWhile bs)
  obtain ⟨us', n, hus', hus⟩ := exists_scan_dropWhile hb
    (0 + (as ++ '\n' :: bs.takeWhile isSeparator).length)
  refine ⟨ts' ++ us', ls, lexemesOf us', m, n, ?_, hls, hus, ?_⟩
  · rw [List.append_assoc, List.cons_append, List.takeWhile_append_dropWhile, hus'] at hscan
    exact hscan
  · rw [lexemesOf_append, hts', List.append_assoc]
    rfl

end Lexer

theorem tokenize_eq_ok_iff {s : String} {ts : TokenList} :
    tokenize s = .ok ts ↔ ∃ us, Lexer.scan 0 s.toList = .ok us ∧ ⟨us, s.length⟩ = ts := by
  rw [tokenize]
  cases Lexer.scan 0 s.toList <;> simp

end Glyph
