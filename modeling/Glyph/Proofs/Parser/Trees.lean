import Glyph.Proofs.Parser.Soundness

/-!
# The trees of source texts

Expressions have more trees than source texts do: a host may build literals that are no numbers,
integers beyond 64 bits, names without characters and blocks inside lines. `Expr.Sourced` says that
a tree has none of these. Whatever is parsed from a source text is such a tree, by the grammar and
by what the lexer takes for a name.
-/

namespace Glyph

/-- The expression could stand in a source text. -/
inductive Expr.Sourced : Expr → Prop where
  | int {n : Int} (hfit : FitsInt64 n) : Sourced (.literal (.int n))
  | float (x : Float) : Sourced (.literal (.float x))
  | text (s : String) : Sourced (.text s)
  | array {es : List Expr} (h : ∀ e ∈ es, Sourced e) : Sourced (.array es)
  | map {es : List (String × Expr)} (h : ∀ p ∈ es, Sourced p.2) : Sourced (.map es)
  | ref (x : String) : Sourced (.ref x)
  | assign {x : String} {e : Expr} (hx : x ≠ "") (h : Sourced e) : Sourced (.assign x e)
  | dyadic (v : Dyadic) {l r : Expr} (hl : Sourced l) (hr : Sourced r) : Sourced (.dyadic v l r)
  | monadic (v : Monadic) {e : Expr} (h : Sourced e) : Sourced (.monadic v e)
  | operator (v : Dyadic) (o : Operator) {e : Expr} (h : Sourced e) : Sourced (.operator v o e)

def Phrase.Sourced : Phrase → Prop
  | .term e => e.Sourced
  | .row es => ∀ e ∈ es, e.Sourced
  | .terms e => e.Sourced
  | .expression e => e.Sourced
  | .statement e => e.Sourced
  | .items es => ∀ e ∈ es, e.Sourced
  | .entries es => ∀ p ∈ es, p.2.Sourced
  | .lines es => ∀ e ∈ es, e.Sourced
  | .program es => ∀ e ∈ es, e.Sourced

/-- What the grammar derives could stand in a source text, if names have characters. -/
theorem Derives.sourced {ls : List Lexeme} {p : Phrase} (h : Derives ls p)
    (hnames : ∀ l ∈ ls, l ≠ .name "") : p.Sourced := by
  induction h with
  | integer hint hfit => exact .int hfit
  | decimal hint => exact .float _
  | string s => exact .text s
  | name x => exact .ref x
  | parens h ih => exact ih fun l hl => hnames l (by simp [hl])
  | emptyArray n => exact .array (by simp)
  | array m n h ih => exact .array (ih fun l hl => hnames l (by simp [hl]))
  | emptyMap n => exact .map (by simp)
  | map m n h hkeys ih => exact .map (ih fun l hl => hnames l (by simp [hl]))
  | lastItem h ih =>
      exact List.forall_mem_singleton.mpr (ih hnames)
  | item m n h hs ih ihs =>
      exact List.forall_mem_cons.mpr
        ⟨ih fun l hl => hnames l (by simp [hl]), ihs fun l hl => hnames l (by simp [hl])⟩
  | lastEntry k h ih =>
      exact List.forall_mem_singleton.mpr (ih fun l hl => hnames l (by simp [hl]))
  | entry k m n h hs ih ihs =>
      exact List.forall_mem_cons.mpr
        ⟨ih fun l hl => hnames l (by simp [hl]), ihs fun l hl => hnames l (by simp [hl])⟩
  | lastTerm h ih => exact List.forall_mem_singleton.mpr (ih hnames)
  | nextTerm h hs ih ihs =>
      exact List.forall_mem_cons.mpr
        ⟨ih fun l hl => hnames l (by simp [hl]), ihs fun l hl => hnames l (by simp [hl])⟩
  | oneTerm h ih => exact ih hnames _ (List.mem_singleton_self _)
  | strand h ih => exact .array (ih hnames)
  | reduction v h ih => exact .operator v .reduce (ih fun l hl => hnames l (by simp [hl]))
  | monadic v h ih => exact .monadic v (ih fun l hl => hnames l (by simp [hl]))
  | dyadic v hl hr ihl ihr =>
      exact .dyadic v (ihl fun l hl => hnames l (by simp [hl]))
        (ihr fun l hl => hnames l (by simp [hl]))
  | operand h ih => exact ih hnames
  | assignment x h ih =>
      have hx : x ≠ "" := fun heq => hnames (.name x) (by simp) (by rw [heq])
      exact .assign hx (ih fun l hl => hnames l (by simp [hl]))
  | plain h ih => exact ih hnames
  | lastLine h ih => exact List.forall_mem_singleton.mpr (ih hnames)
  | line n h hs ih ihs =>
      exact List.forall_mem_cons.mpr
        ⟨ih fun l hl => hnames l (by simp [hl]), ihs fun l hl => hnames l (by simp [hl])⟩
  | emptyProgram n => simp [Phrase.Sourced]
  | program m n h ih => exact ih fun l hl => hnames l (by simp [hl])

namespace Lexer

theorem word_ne_name_empty (c : Char) (cs : List Char) : word (c :: cs) ≠ .name "" := by
  rw [word]
  split
  · simp
  · split
    · simp
    · split <;> simp

theorem mark?_ne_name (c : Char) (s : String) : mark? c ≠ some (.name s) := by
  fun_cases mark? c <;> simp

theorem verb?_ne_name (c : Char) (s : String) : verb? c ≠ some (.name s) := by
  fun_cases verb? c <;> simp

theorem lead_ne_name_empty {c : Char} {cs : List Char} {l : Lead} :
    lead c cs = .ok l → l.lexeme? ≠ some (.name "") := by
  fun_cases lead c cs with
  | case5 m _ _ _ _ hm =>
      rintro ⟨⟩ hl
      exact mark?_ne_name c "" (hm.trans hl)
  | case10 v _ _ _ _ _ _ _ hv =>
      rintro ⟨⟩ hl
      exact verb?_ne_name c "" (hv.trans hl)
  | case11 =>
      rintro ⟨⟩ hl
      exact word_ne_name_empty c _ (Option.some.inj hl)
  | _ =>
      rintro ⟨⟩
      try simp

theorem scan_ne_name_empty {pos : Nat} {cs : List Char} {ts : List Token} :
    scan pos cs = .ok ts → ∀ l ∈ lexemesOf ts, l ≠ .name "" := by
  fun_induction scan pos cs generalizing ts with
  | case1 pos =>
      rintro ⟨⟩
      simp
  | case4 pos c rest l hl stop tokens hscan lexeme hlexeme =>
      rename_i ih
      rintro ⟨⟩
      have hne : lexeme ≠ .name "" := fun heq =>
        lead_ne_name_empty hl (by rw [hlexeme, heq])
      exact List.forall_mem_cons.mpr ⟨hne, ih hscan⟩
  | case5 pos c rest l hl stop tokens hscan hlexeme =>
      rename_i ih
      rintro ⟨⟩
      exact ih hscan
  | _ => rintro ⟨⟩

end Lexer

theorem tokenize_ne_name_empty {source : String} {ts : TokenList}
    (h : tokenize source = .ok ts) : ∀ l ∈ lexemesOf ts.tokens, l ≠ .name "" := by
  rw [tokenize] at h
  split at h
  · cases h
    exact Lexer.scan_ne_name_empty ‹_›
  · cases h

theorem exists_tokenize_of_parseProgram {source : String} {lines : List Expr}
    (h : parseProgram source = .ok lines) :
    ∃ ts, tokenize source = .ok ts ∧ Parser.program ts = .ok lines := by
  rw [parseProgram, tokensOf] at h
  cases hts : tokenize source with
  | error e =>
      rw [hts] at h
      cases h
  | ok ts =>
      rw [hts] at h
      exact ⟨ts, rfl, h⟩

theorem sourced_of_parseProgram {source : String} {lines : List Expr}
    (h : parseProgram source = .ok lines) : ∀ e ∈ lines, e.Sourced := by
  obtain ⟨ts, hts, hlines⟩ := exists_tokenize_of_parseProgram h
  exact (Parser.derives_of_program hlines).sourced (tokenize_ne_name_empty hts)

end Glyph
