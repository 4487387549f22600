import Glyph.Proofs.Token.Taking

/-!
# The tokens and the text around them

`Tiles pos cs ts` says that the characters `cs`, which start at position `pos`, are taken step by
step up to their end, and that the tokens are those of the steps that took a lexeme. It is what the
scanner does (`tiles_iff`), and every statement about all tokens of a text is an induction on it.

The spans of the tokens follow each other inside the text, and what they leave out are blanks and
comments. So a text is cut into tokens, blanks and comments, and what a token says can be read off
the characters in its span. A separator in this sense is the character of one outside of the
comments: a diamond before the end of a comment belongs to the comment.
-/

namespace Glyph

/-! ## Positions of a text -/

def Token.slice (cs : List Char) (t : Token) : List Char := (cs.take t.stop).drop t.start

def Outside (ts : List Token) (i : Nat) : Prop := ∀ t ∈ ts, i < t.start ∨ t.stop ≤ i

/-- The positions from `j` up to `k` are a comment: a number sign outside of the tokens, and what
follows it up to the end of its line. -/
structure Comment (cs : List Char) (ts : List Token) (j k : Nat) : Prop where
  mark : cs[j]? = some '#'
  nonempty : j < k
  inside : k ≤ cs.length
  line : ∀ i, j ≤ i → i < k → ∀ c ∈ cs[i]?, Lexer.isLineEnd c = false
  finish : ∀ c ∈ cs[k]?, Lexer.isLineEnd c = true
  outside : ∀ i, j ≤ i → i < k → Outside ts i

def InComment (cs : List Char) (ts : List Token) (i : Nat) : Prop :=
  ∃ j k, Comment cs ts j k ∧ j ≤ i ∧ i < k

/-- A separator stands at the position, and it is not part of a comment. -/
def SeparatorAt (cs : List Char) (ts : List Token) (i : Nat) : Prop :=
  (∃ c ∈ cs[i]?, Lexer.isSeparator c = true) ∧ ¬InComment cs ts i

/-- The positions from `start` up to `stop` have the property, and those next to them do not. -/
structure MaximalRun (P : Nat → Prop) (start stop : Nat) : Prop where
  all : ∀ i, start ≤ i → i < stop → P i
  before : ∀ i, i + 1 = start → ¬P i
  behind : ¬P stop

/-- The text of a lexeme, from its class and the characters that stand for it in the source. -/
def TokenClass.textOf (cs : List Char) : TokenClass → String
  | .separator => "⋄"
  | .assign => "←"
  | .string =>
    match cs with
    | [] => ""
    | q :: cs => String.ofList (Quotation.halved q cs.dropLast)
  | .dyadic => if String.ofList cs = "*" then "×" else String.ofList cs
  | .monadic =>
    if String.ofList cs = "iota" then "⍳"
    else if String.ofList cs = "shape" then "⍴"
    else String.ofList cs
  | _ => String.ofList cs

theorem Comment.cons {cs : List Char} {ts : List Token} {j k : Nat} {t : Token}
    (h : Comment cs ts j k) (ht : t.stop ≤ j) : Comment cs (t :: ts) j k :=
  { h with
    outside := fun i hj hk =>
      List.forall_mem_cons.mpr ⟨.inr (Nat.le_trans ht hj), h.outside i hj hk⟩ }

theorem getElem?_append_middle {before cs rest : List Char} {i : Nat} (hi : before.length ≤ i)
    (hi' : i < before.length + cs.length) :
    (before ++ (cs ++ rest))[i]? = cs[i - before.length]? := by
  rw [List.getElem?_append_right hi, List.getElem?_append_left (by omega)]

theorem exists_getElem?_append_middle {before cs rest : List Char} {i : Nat}
    (hi : before.length ≤ i) (hi' : i < before.length + cs.length) :
    ∃ c ∈ cs, (before ++ (cs ++ rest))[i]? = some c := by
  rw [getElem?_append_middle hi hi']
  have hlt : i - before.length < cs.length := by omega
  exact ⟨cs[i - before.length], List.getElem_mem hlt, List.getElem?_eq_getElem hlt⟩

theorem getElem?_append_end (before cs rest : List Char) :
    (before ++ (cs ++ rest))[before.length + cs.length]? = rest.head? := by
  rw [← List.append_assoc, ← List.length_append, List.getElem?_append_right (Nat.le_refl _),
    Nat.sub_self, List.head?_eq_getElem?]

namespace Lexer

variable {pos : Nat} {cs rest before : List Char} {ts : List Token} {l : Lexeme}

/-! ## Step by step -/

/-- The characters from position `pos` on are taken step by step, with these tokens. -/
inductive Tiles : Nat → List Char → List Token → Prop where
  | nil (pos : Nat) : Tiles pos [] []
  | skip {pos : Nat} {cs rest : List Char} {ts : List Token} (h : Takes cs rest none)
      (hrest : Tiles (pos + cs.length) rest ts) : Tiles pos (cs ++ rest) ts
  | token {pos : Nat} {cs rest : List Char} {l : Lexeme} {ts : List Token}
      (h : Takes cs rest (some l)) (hrest : Tiles (pos + cs.length) rest ts) :
      Tiles pos (cs ++ rest) (⟨l, pos, pos + cs.length⟩ :: ts)

theorem Takes.length_pos {o : Option Lexeme} (h : Takes cs rest o) : 0 < cs.length := by
  obtain ⟨c, ds, rfl, -⟩ := h.lead
  exact Nat.succ_pos _

theorem Takes.tiles {o : Option Lexeme} (h : Takes cs rest o)
    (hrest : Tiles (pos + cs.length) rest ts) :
    Tiles pos (cs ++ rest) ((o.map (⟨·, pos, pos + cs.length⟩)).toList ++ ts) := by
  cases o with
  | none => exact .skip h hrest
  | some l => exact .token h hrest

theorem scan_append_of_takes {o : Option Lexeme} (h : Takes cs rest o)
    (hrest : scan (pos + cs.length) rest = .ok ts) :
    scan pos (cs ++ rest) = .ok ((o.map (⟨·, pos, pos + cs.length⟩)).toList ++ ts) := by
  obtain ⟨c, ds, rfl, hlead⟩ := h.lead
  rw [List.length_cons, Nat.add_comm ds.length, ← Nat.add_assoc] at hrest ⊢
  have hdrop : (ds ++ rest).drop ds.length = rest := List.drop_left
  rw [← hdrop] at hrest
  exact scan_cons_eq_ok_iff.mpr ⟨_, ts, hlead, hrest, rfl⟩

theorem tiles_of_scan {pos : Nat} {cs : List Char} {ts : List Token}
    (h : scan pos cs = .ok ts) : Tiles pos cs ts := by
  match cs, h with
  | [], h =>
      rw [scan] at h
      cases h
      exact .nil pos
  | c :: cs, h =>
      obtain ⟨l, us, hl, hus, rfl⟩ := scan_cons_eq_ok_iff.mp h
      have hlength : pos + (c :: cs.take l.extra).length = pos + 1 + l.extra := by
        rw [List.length_cons, List.length_take_of_le (extra_le hl)]
        omega
      have hrest := tiles_of_scan hus
      rw [← hlength] at hrest ⊢
      have htiles := (takes_of_lead hl).tiles hrest
      rwa [List.cons_append, List.take_append_drop] at htiles
termination_by cs.length
decreasing_by
  simp only [List.length_drop, List.length_cons]
  omega

theorem tiles_iff : Tiles pos cs ts ↔ scan pos cs = .ok ts := by
  refine ⟨fun h => ?_, tiles_of_scan⟩
  induction h with
  | nil => rw [scan]
  | skip h _ ih => exact scan_append_of_takes h ih
  | token h _ ih => exact scan_append_of_takes h ih

theorem tiles_of_tokenize {source : String} {ts : TokenList} (h : tokenize source = .ok ts) :
    Tiles 0 source.toList ts.tokens ∧ ts.length = source.length := by
  obtain ⟨us, hscan, rfl⟩ := tokenize_eq_ok_iff.mp h
  exact ⟨tiles_of_scan hscan, rfl⟩

theorem scan_of_tokenize_error {source : String} {e : LexError}
    (h : tokenize source = .error e) : scan 0 source.toList = .error e := by
  rw [tokenize] at h
  split at h
  · cases h
  · rename_i hscan
    cases h
    exact hscan

/-! ## Spans -/

theorem Tiles.span (h : Tiles pos cs ts) :
    ∀ t ∈ ts, pos ≤ t.start ∧ t.start < t.stop ∧ t.stop ≤ pos + cs.length := by
  induction h with
  | nil => simp
  | skip _ _ ih =>
      intro t ht
      have := ih t ht
      rw [List.length_append]
      omega
  | token h _ ih =>
      have hpos := h.length_pos
      simp only [List.forall_mem_cons, List.length_append]
      refine ⟨by omega, fun t ht => ?_⟩
      have := ih t ht
      omega

theorem Tiles.pairwise (h : Tiles pos cs ts) : ts.Pairwise fun t u => t.stop ≤ u.start := by
  induction h with
  | nil => exact List.Pairwise.nil
  | skip _ _ ih => exact ih
  | token _ hrest ih => exact List.pairwise_cons.mpr ⟨fun t ht => (hrest.span t ht).1, ih⟩

/-- In each span stands its lexeme, which can be taken in front of what follows. -/
theorem Tiles.takes (h : Tiles pos cs ts) (before : List Char) (hb : before.length = pos) :
    ∀ t ∈ ts, Takes (t.slice (before ++ cs)) ((before ++ cs).drop t.stop) (some t.lexeme) := by
  induction h generalizing before with
  | nil => simp
  | @skip pos cs rest _ h _ ih =>
      rw [← List.append_assoc]
      exact ih _ (by rw [List.length_append, hb])
  | @token pos cs rest l _ h _ ih =>
      subst hb
      refine List.forall_mem_cons.mpr ⟨?_, ?_⟩
      · rw [Token.slice, ← List.append_assoc, ← List.length_append, List.take_left, List.drop_left,
          List.drop_left]
        exact h
      · rw [← List.append_assoc]
        exact ih _ List.length_append

/-! ## Between the tokens -/

theorem comment_of_takes (hcs : ∀ d ∈ cs, isLineEnd d = false)
    (hrest : ∀ d ∈ rest.head?, isLineEnd d = true)
    (hts : ∀ t ∈ ts, before.length + ('#' :: cs).length ≤ t.start) :
    Comment (before ++ ('#' :: cs ++ rest)) ts before.length
      (before.length + ('#' :: cs).length) where
  mark := by
    rw [List.getElem?_append_right (Nat.le_refl _), Nat.sub_self]
    rfl
  nonempty := Nat.lt_add_of_pos_right (Nat.succ_pos _)
  inside := by
    rw [List.length_append, List.length_append]
    omega
  line i hi hi' := by
    obtain ⟨c, hc, hget⟩ := @exists_getElem?_append_middle before _ rest i hi hi'
    rw [hget]
    rintro d ⟨⟩
    rcases List.mem_cons.mp hc with rfl | hc
    · rfl
    · exact hcs c hc
  finish := by rwa [getElem?_append_end]
  outside i _ hi' t ht := .inl (Nat.lt_of_lt_of_le hi' (hts t ht))

/-- What no token covers is a blank or part of a comment. -/
theorem Tiles.between (h : Tiles pos cs ts) (before : List Char) (hb : before.length = pos) :
    ∀ i, pos ≤ i → i < pos + cs.length → Outside ts i →
      (∃ c ∈ (before ++ cs)[i]?, isBlank c = true) ∨
        ∃ j k, Comment (before ++ cs) ts j k ∧ pos ≤ j ∧ j ≤ i ∧ i < k := by
  induction h generalizing before with
  | nil =>
      intro i hi hi' _
      rw [List.length_nil] at hi'
      omega
  | @skip pos cs rest ts h hrest ih =>
      subst hb
      intro i hi hi' hout
      by_cases hlt : i < before.length + cs.length
      -- The position is one of those that the first step skips.
      · have hspan := fun t ht => (hrest.span t ht).1
        cases h with
        | @blank c _ hc =>
            obtain ⟨d, hd, hget⟩ := @exists_getElem?_append_middle before _ rest i hi hlt
            rw [List.mem_singleton.mp hd] at hget
            exact .inl ⟨c, hget, hc⟩
        | comment hcs hhead =>
            exact .inr ⟨_, _, comment_of_takes hcs hhead hspan, Nat.le_refl _, hi, hlt⟩
      · rw [List.length_append, ← Nat.add_assoc] at hi'
        rw [← List.append_assoc]
        have hlater := ih _ List.length_append i (Nat.le_of_not_lt hlt) hi' hout
        refine hlater.imp_right fun ⟨j, k, hcomment, hj, hjk⟩ => ⟨j, k, hcomment, ?_, hjk⟩
        omega
  | @token pos cs rest l ts h _ ih =>
      subst hb
      intro i hi hi' hout
      obtain ⟨hfirst, hout⟩ := List.forall_mem_cons.mp hout
      have hle : before.length + cs.length ≤ i := hfirst.resolve_left (Nat.not_lt.mpr hi)
      rw [List.length_append, ← Nat.add_assoc] at hi'
      rw [← List.append_assoc]
      have hlater := ih _ List.length_append i hle hi' hout
      refine hlater.imp_right fun ⟨j, k, hcomment, hj, hjk⟩ => ⟨j, k, hcomment.cons hj, ?_, hjk⟩
      omega

/-! ## What a lexeme is made of -/

theorem text_word (cs : List Char) : (word cs).text = (word cs).cls.textOf cs := by
  simp only [word]
  split
  · rename_i h
    simp [Lexeme.text, Lexeme.cls, TokenClass.textOf, Monadic.glyph, h]
  · split
    · rename_i h
      simp [Lexeme.text, Lexeme.cls, TokenClass.textOf, Monadic.glyph, h]
    · split
      · rename_i h
        simp [Lexeme.text, Lexeme.cls, TokenClass.textOf, Monadic.glyph, h]
      · rfl

theorem Takes.text_eq (h : Takes cs rest (some l)) : l.text = l.cls.textOf cs := by
  cases h with
  | separators | arrow | number => rfl
  | mark hc =>
      have hall : ∀ e ∈ marks, e.2.text = e.2.cls.textOf [e.1] := by decide
      exact hall _ (mem_marks hc)
  | @string q cs _ _ _ _ =>
      have hhalved : Quotation.halved q (Quotation.doubled q cs ++ [q]).dropLast = cs := by
        rw [List.dropLast_concat, Quotation.halved_doubled]
      exact (congrArg String.ofList hhalved).symm
  | verb hc =>
      have hall : ∀ e ∈ verbs, e.2.text = e.2.cls.textOf [e.1] := by decide
      exact hall _ (mem_verbs hc)
  | word => exact text_word _

theorem isSeparator_of_isDigit {c : Char} (h : c.isDigit = true) : isSeparator c = false := by
  have hne : ∀ d : Char, d.isDigit = false → c ≠ d := fun d => ne_of_isDigit h
  simp [isSeparator, isLineEnd, hne]

theorem isSeparator_of_mem_spell {n : Numeral} (hn : n.WellFormed) :
    ∀ c ∈ n.spell, isSeparator c = false := by
  have hdigits : ∀ ds, IsDigits ds → ∀ c ∈ ds, isSeparator c = false :=
    fun ds h c hc => isSeparator_of_isDigit (h.2 c hc)
  rw [Numeral.spell]
  refine List.forall_mem_append.mpr ⟨List.forall_mem_append.mpr ⟨List.forall_mem_append.mpr
    ⟨?_, hdigits _ hn.whole⟩, ?_⟩, ?_⟩
  · cases n.negative <;> simp
    decide
  · cases hf : n.fraction with
    | none => simp
    | some ds => exact List.forall_mem_cons.mpr ⟨rfl, hdigits ds (hn.fraction ds hf)⟩
  · cases he : n.exponent with
    | none => simp
    | some e =>
        have hwf := hn.exponent e he
        have hmark : isSeparator e.mark = false := by rcases hwf.mark with h | h <;> (rw [h]; rfl)
        have hsign : ∀ c ∈ e.sign.toList, isSeparator c = false := by
          intro c hc
          rcases hwf.sign c (Option.mem_toList.mp hc) with rfl | rfl <;> decide
        exact List.forall_mem_append.mpr
          ⟨List.forall_mem_cons.mpr ⟨hmark, hsign⟩, hdigits _ hwf.digits⟩

theorem Takes.eq_separator {c : Char} (h : Takes cs rest (some l)) (hc : cs.getLast? = some c)
    (hsep : isSeparator c = true) : l = .separator := by
  have hmem : c ∈ cs := List.mem_of_getLast? hc
  -- No other lexeme but a text has the character of a separator, and a text ends with a mark.
  have habsurd : ∀ ds : List Char, (∀ d ∈ ds, isSeparator d = false) → c ∉ ds := by
    intro ds hds hmem
    rw [hds c hmem] at hsep
    cases hsep
  cases h with
  | separators => rfl
  | arrow => exact absurd hmem (habsurd _ (forall_mem_eq_false (by decide)))
  | @mark d _ _ hd =>
      have hall : ∀ e ∈ marks, isSeparator e.1 = false := by decide
      exact absurd hmem (habsurd [d] (by simpa using hall _ (mem_marks hd)))
  | @string q ds _ hq _ _ =>
      rw [← List.cons_append, List.getLast?_concat] at hc
      cases hc
      rcases hq with rfl | rfl <;> cases hsep
  | number hn _ => exact absurd hmem (habsurd _ (isSeparator_of_mem_spell hn))
  | @verb d _ _ hd =>
      have hall : ∀ e ∈ verbs, isSeparator e.1 = false := by decide
      exact absurd hmem (habsurd [d] (by simpa using hall _ (mem_verbs hd)))
  | @word d ds _ hd _ hds _ =>
      have hsep : c ∈ ['\n', '\r', '⋄'] := by
        simpa [isSeparator, isLineEnd, or_assoc] using hsep
      rcases List.mem_cons.mp hmem with rfl | hmem
      · cases hd.symm.trans (forall_mem_eq_false (by decide +kernel) c hsep)
      · cases (hds c hmem).symm.trans (forall_mem_eq_false (by decide +kernel) c hsep)

theorem word_ne_separator (cs : List Char) : word cs ≠ .separator := by
  simp only [word]
  split
  · simp
  · split
    · simp
    · split <;> simp

/-- A separator is a run of them, and none follows. -/
theorem Takes.separators_of (h : Takes cs rest (some .separator)) :
    (∀ c ∈ cs, isSeparator c = true) ∧ NoSeparator rest := by
  generalize ho : some Lexeme.separator = o at h
  cases h with
  | separators hcs hrest => exact ⟨hcs, hrest⟩
  | mark hc =>
      cases ho
      exact absurd (mem_marks hc) (by simp [marks])
  | verb hc =>
      cases ho
      exact absurd (mem_verbs hc) (by simp [verbs])
  | word => exact absurd (Option.some.inj ho).symm (word_ne_separator _)
  | _ => cases ho

/-! ## Where the scanner stops -/

theorem stringBody_error_le {q : Char} {n : Nat} (h : stringBody q cs = .error n) :
    n ≤ cs.length := by
  fun_induction stringBody q cs generalizing n with
  | case1 | case6 =>
      cases h
      exact Nat.zero_le _
  | case3 es n' hes ih =>
      cases h
      exact Nat.add_le_add_right (ih hes) 2
  | case8 c es hc hline n' hes ih =>
      cases h
      exact Nat.succ_le_succ (ih hes)
  | _ => cases h

theorem lead_error_le {c : Char} {x : LexCause × Nat} : lead c cs = .error x → x.2 ≤ cs.length := by
  fun_cases lead c cs with
  | case7 _ _ _ _ _ _ n hbody =>
      rintro ⟨⟩
      exact stringBody_error_le hbody
  | _ =>
      rintro ⟨⟩
      try exact Nat.zero_le _

/-- The scanner fails on characters of the text, and what is in front of them is taken. -/
theorem exists_tiles_of_scan_error {pos : Nat} {cs : List Char} {e : LexError}
    (h : scan pos cs = .error e) :
    pos ≤ e.start ∧ e.start < e.stop ∧ e.stop ≤ pos + cs.length ∧
      ∃ ts, Tiles pos (cs.take (e.start - pos)) ts := by
  match cs, h with
  | [], h =>
      rw [scan] at h
      cases h
  | c :: cs, h =>
      rw [scan] at h
      cases hl : lead c cs with
      | error x =>
          rw [hl] at h
          cases h
          have hle := lead_error_le hl
          refine ⟨Nat.le_refl _, ?_, ?_, [], ?_⟩
          · show pos < pos + 1 + x.2
            omega
          · show pos + 1 + x.2 ≤ pos + (cs.length + 1)
            omega
          · show Tiles pos ((c :: cs).take (pos - pos)) []
            rw [Nat.sub_self]
            exact .nil pos
      | ok l =>
          have hextra := extra_le hl
          cases hus : scan (pos + 1 + l.extra) (cs.drop l.extra) with
          | ok us => cases ho : l.lexeme? <;> simp [hl, hus, ho] at h
          | error e' =>
              obtain rfl : e = e' := by simpa [hl, hus] using h.symm
              obtain ⟨hstart, hlt, hstop, ts, hts⟩ := exists_tiles_of_scan_error hus
              rw [List.length_drop] at hstop
              refine ⟨by omega, hlt, by rw [List.length_cons]; omega, ?_⟩
              have hlength : (c :: cs.take l.extra).length = 1 + l.extra := by
                rw [List.length_cons, List.length_take_of_le hextra, Nat.add_comm]
              -- The first step takes the same in front of what is left of the rest.
              have hstep := (takes_of_lead hl).shorten
                (List.take_prefix (e.start - (pos + 1 + l.extra)) _)
              rw [Nat.add_assoc, ← hlength] at hts
              rw [Nat.add_assoc, ← hlength] at hstep
              have hsplit : c :: cs.take l.extra ++ cs.drop l.extra = c :: cs := by
                rw [List.cons_append, List.take_append_drop]
              rw [← hsplit, List.take_append, List.take_of_length_le (by omega), Nat.sub_sub]
              exact ⟨_, hstep.tiles hts⟩
termination_by cs.length
decreasing_by
  simp only [List.length_drop, List.length_cons]
  omega

end Lexer

/-! ## Slices -/

theorem Token.getElem?_slice (cs : List Char) (t : Token) {i : Nat} (hi : t.start ≤ i)
    (hi' : i < t.stop) : (t.slice cs)[i - t.start]? = cs[i]? := by
  rw [Token.slice, List.getElem?_drop, Nat.add_sub_cancel' hi, List.getElem?_take_of_lt hi']

theorem Token.exists_getElem?_slice {cs : List Char} {t : Token} (ht : t.stop ≤ cs.length) {i : Nat}
    (hi : t.start ≤ i) (hi' : i < t.stop) : ∃ c ∈ t.slice cs, cs[i]? = some c := by
  have hget := List.getElem?_eq_getElem (Nat.lt_of_lt_of_le hi' ht)
  refine ⟨_, ?_, hget⟩
  rw [← t.getElem?_slice cs hi hi'] at hget
  exact List.mem_of_getElem? hget

theorem Token.getLast?_slice {cs : List Char} {t : Token} (hpos : t.start < t.stop)
    (ht : t.stop ≤ cs.length) : (t.slice cs).getLast? = cs[t.stop - 1]? := by
  have hlength : (t.slice cs).length = t.stop - t.start := by
    rw [Token.slice, List.length_drop, List.length_take_of_le ht]
  rw [List.getLast?_eq_getElem?, hlength, ← t.getElem?_slice cs (by omega) (by omega)]
  congr 1
  omega

/-! ## The cut of a text -/

theorem Lexeme.word_ne_finish (l : Lexeme) : l.cls.word ≠ TokenClass.finish.word := by
  cases l <;> simp [Lexeme.cls, TokenClass.word]

/-- How the tokens cut the text: which listing they have, where their spans are, what is between
them, and what their classes and texts have to do with the characters in their spans. -/
structure Tiling (source : String) (ts : TokenList) : Prop where
  /-- The listing has the tokens in their order, and the end of the source after them. -/
  rows : ts.rows = ts.tokens.map (fun t => ⟨t.lexeme.cls.word, t.lexeme.text, t.start, t.stop⟩) ++
    [⟨"EOF", "", source.length, source.length⟩]
  /-- No token is the end of the source. -/
  word_ne : ∀ t ∈ ts.tokens, t.lexeme.cls.word ≠ "EOF"
  /-- The spans are not empty, and lie inside the source. -/
  span : ∀ t ∈ ts.tokens, t.start < t.stop ∧ t.stop ≤ source.length
  /-- Each span starts where the earlier ones have stopped, or later. -/
  increasing : ts.tokens.Pairwise fun t u => t.stop ≤ u.start
  /-- What no span covers is a blank or part of a comment. -/
  between : ∀ i < source.length, Outside ts.tokens i →
    (∃ c ∈ source.toList[i]?, Lexer.isBlank c = true) ∨ InComment source.toList ts.tokens i
  /-- Separators that follow each other are one token. -/
  separators : ∀ t ∈ ts.tokens, t.lexeme = .separator →
    MaximalRun (SeparatorAt source.toList ts.tokens) t.start t.stop
  /-- What a token says can be read off the source. -/
  text : ∀ t ∈ ts.tokens, t.lexeme.text = t.lexeme.cls.textOf (t.slice source.toList)

theorem eq_or_disjoint_of_pairwise {ts : List Token} (h : ts.Pairwise fun t u => t.stop ≤ u.start)
    {t u : Token} (ht : t ∈ ts) (hu : u ∈ ts) : t = u ∨ t.stop ≤ u.start ∨ u.stop ≤ t.start := by
  induction h with
  | nil => cases ht
  | cons hfirst _ ih =>
      rcases List.mem_cons.mp ht with rfl | htail
      · exact (List.mem_cons.mp hu).imp Eq.symm fun hu => .inl (hfirst u hu)
      · rcases List.mem_cons.mp hu with rfl | hu
        · exact .inr (.inr (hfirst t htail))
        · exact ih htail hu

theorem outside_or_exists (ts : List Token) (i : Nat) :
    Outside ts i ∨ ∃ t ∈ ts, t.start ≤ i ∧ i < t.stop := by
  by_cases h : ∃ t ∈ ts, t.start ≤ i ∧ i < t.stop
  · exact .inr h
  · refine .inl fun t ht => ?_
    have hnot : ¬(t.start ≤ i ∧ i < t.stop) := fun hi => h ⟨t, ht, hi⟩
    omega

theorem not_inComment {cs : List Char} {ts : List Token} {t : Token} (ht : t ∈ ts) {i : Nat}
    (hi : t.start ≤ i) (hi' : i < t.stop) : ¬InComment cs ts i := by
  rintro ⟨j, k, hcomment, hj, hk⟩
  have hout := hcomment.outside i hj hk t ht
  omega

/-! ## A whole text -/

namespace Lexer

variable {cs : List Char} {ts : List Token} {t : Token}

theorem Tiles.takes_slice (h : Tiles 0 cs ts) (ht : t ∈ ts) :
    Takes (t.slice cs) (cs.drop t.stop) (some t.lexeme) := h.takes [] rfl t ht

theorem Tiles.inside (h : Tiles 0 cs ts) (ht : t ∈ ts) :
    t.start < t.stop ∧ t.stop ≤ cs.length := by
  obtain ⟨-, hpos, hstop⟩ := h.span t ht
  rw [Nat.zero_add] at hstop
  exact ⟨hpos, hstop⟩

theorem Tiles.blank_or_inComment (h : Tiles 0 cs ts) {i : Nat} (hi : i < cs.length)
    (hout : Outside ts i) : (∃ c ∈ cs[i]?, isBlank c = true) ∨ InComment cs ts i := by
  refine (h.between [] rfl i (Nat.zero_le i) (by omega) hout).imp_right fun hcomment => ?_
  obtain ⟨j, k, hjk, -, hi⟩ := hcomment
  exact ⟨j, k, hjk, hi⟩

theorem Tiles.exists_separator (h : Tiles 0 cs ts) (ht : t ∈ ts) (hsep : t.lexeme = .separator)
    {i : Nat} (hi : t.start ≤ i) (hi' : i < t.stop) : ∃ c ∈ cs[i]?, isSeparator c = true := by
  have htakes := h.takes_slice ht
  rw [hsep] at htakes
  obtain ⟨c, hc, hget⟩ := Token.exists_getElem?_slice (h.inside ht).2 hi hi'
  exact ⟨c, hget, htakes.separators_of.1 c hc⟩

theorem Tiles.no_separator_behind (h : Tiles 0 cs ts) (ht : t ∈ ts)
    (hsep : t.lexeme = .separator) : ∀ c ∈ cs[t.stop]?, isSeparator c = false := by
  have htakes := h.takes_slice ht
  rw [hsep] at htakes
  have hrest := htakes.separators_of.2
  rwa [NoSeparator, List.head?_drop] at hrest

/-- A token with a separator as its last character has a character behind it that is none. -/
theorem Tiles.no_separator_behind_of_last (h : Tiles 0 cs ts) (ht : t ∈ ts) {c : Char}
    (hc : cs[t.stop - 1]? = some c) (hsep : isSeparator c = true) :
    ∀ d ∈ cs[t.stop]?, isSeparator d = false := by
  obtain ⟨hpos, hstop⟩ := h.inside ht
  rw [← Token.getLast?_slice hpos hstop] at hc
  exact h.no_separator_behind ht ((h.takes_slice ht).eq_separator hc hsep)

/-- A separator that is no part of a comment is covered by a token. -/
theorem Tiles.exists_of_separatorAt (h : Tiles 0 cs ts) {i : Nat} (hi : SeparatorAt cs ts i) :
    ∃ t ∈ ts, t.start ≤ i ∧ i < t.stop := by
  obtain ⟨⟨c, hc, hsep⟩, hcomment⟩ := hi
  refine (outside_or_exists ts i).resolve_left fun hout => ?_
  have hlt : i < cs.length := (List.getElem?_eq_some_iff.mp hc).1
  obtain ⟨d, hd, hblank⟩ := (h.blank_or_inComment hlt hout).resolve_right hcomment
  cases (Option.mem_def.mp hc).symm.trans hd
  cases hsep.symm.trans (forall_mem_eq_false (by decide) c (mem_blanks hblank))

/-- A separator goes as far as it can in both directions. -/
theorem Tiles.maximalRun (h : Tiles 0 cs ts) (ht : t ∈ ts) (hsep : t.lexeme = .separator) :
    MaximalRun (SeparatorAt cs ts) t.start t.stop := by
  have hpos := (h.inside ht).1
  refine ⟨fun i hi hi' => ⟨h.exists_separator ht hsep hi hi', not_inComment ht hi hi'⟩, ?_, ?_⟩
  · rintro i hi hat
    -- The token in front would end with a separator, and go on.
    obtain ⟨u, hu, hui, hui'⟩ := h.exists_of_separatorAt hat
    obtain ⟨⟨c, hc, hcsep⟩, -⟩ := hat
    have hstop : u.stop = t.start := by
      rcases eq_or_disjoint_of_pairwise h.pairwise ht hu with rfl | htu | hut <;> omega
    have hlast : u.stop - 1 = i := by omega
    rw [← hlast] at hc
    obtain ⟨d, hd, hdsep⟩ := h.exists_separator ht hsep (Nat.le_refl _) hpos
    rw [← hstop] at hd
    cases hdsep.symm.trans (h.no_separator_behind_of_last hu hc hcsep d hd)
  · rintro ⟨⟨c, hc, hcsep⟩, -⟩
    cases hcsep.symm.trans (h.no_separator_behind ht hsep c hc)

end Lexer

/-- A text that the lexer accepts is cut into its tokens, blanks and comments. One that it refuses
is refused for characters of it that are not empty, and the text in front of them is accepted. -/
theorem tokenize_tiles (source : String) :
    match tokenize source with
    | .ok ts => Tiling source ts
    | .error e => e.start < e.stop ∧ e.stop ≤ source.length ∧
        ∃ ts, tokenize (String.ofList (source.toList.take e.start)) = .ok ts := by
  cases h : tokenize source with
  | ok ts =>
      obtain ⟨htiles, hlength⟩ := Lexer.tiles_of_tokenize h
      have hinside := fun t (ht : t ∈ ts.tokens) => htiles.inside ht
      have hbetween := fun i (hi : i < source.toList.length) (hout : Outside ts.tokens i) =>
        htiles.blank_or_inComment hi hout
      simp only [String.length_toList] at hinside hbetween
      exact {
        rows := by rw [TokenList.rows, hlength]; rfl
        word_ne := fun t _ => t.lexeme.word_ne_finish
        span := hinside
        increasing := htiles.pairwise
        between := hbetween
        separators := fun t ht hsep => htiles.maximalRun ht hsep
        text := fun t ht => (htiles.takes_slice ht).text_eq }
  | error e =>
      obtain ⟨-, hlt, hstop, ts, hts⟩ :=
        Lexer.exists_tiles_of_scan_error (Lexer.scan_of_tokenize_error h)
      rw [String.length_toList, Nat.zero_add] at hstop
      have hscan : Lexer.scan 0 (source.toList.take e.start) = .ok ts := Lexer.tiles_iff.mp hts
      refine ⟨hlt, hstop, ⟨ts, (String.ofList (source.toList.take e.start)).length⟩, ?_⟩
      rw [tokenize, String.toList_ofList, hscan]

/-- The diamond belongs to the comment, and only the line end is a separator. -/
example : tokenize "#⋄\n" = .ok ⟨[⟨.separator, 2, 3⟩], 3⟩ := by cbv

end Glyph
