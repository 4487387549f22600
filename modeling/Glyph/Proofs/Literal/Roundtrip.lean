import Glyph.Proofs.Literal.Scanning
import Glyph.Proofs.Parser.Completeness
import Glyph.Proofs.Value.Pairs
import Glyph.Run

/-!
# Written values are read back

Values of integers, texts, arrays and maps are written as literals. `lexemes` is what the scanner
makes of such a literal and `literal` the expression that stands for it. The scanner gives the
lexemes where every text and every key keeps to one line, and fails in an open string otherwise; the
grammar derives the expression from the lexemes; and the expression evaluates to the value, without
a look at the environment.
-/

namespace Glyph

def OneLine (s : String) : Prop := '\n' ∉ s.toList ∧ '\r' ∉ s.toList

theorem oneLine_iff {s : String} : OneLine s ↔ ∀ c ∈ s.toList, Lexer.isLineEnd c = false := by
  constructor
  · rintro ⟨hn, hr⟩ c hc
    have hcn : c ≠ '\n' := fun heq => hn (heq ▸ hc)
    have hcr : c ≠ '\r' := fun heq => hr (heq ▸ hc)
    simp [Lexer.isLineEnd, hcn, hcr]
  · intro h
    constructor
    · exact fun hmem => absurd (h '\n' hmem) (by decide)
    · exact fun hmem => absurd (h '\r' hmem) (by decide)

namespace Value

/-- The value is made of integers, texts, arrays and maps, by the language: the keys of a map are
names, and no two are equal. -/
inductive Written : Value → Prop where
  | int (n : Int64) : Written (.int n)
  | text (s : String) : Written (.text s)
  | vector {xs : List Value} (h : ∀ x ∈ xs, Written x) : Written (.vector xs)
  | record {es : List (Key × Value)} (hnames : ∀ e ∈ es, ∃ name, e.1 = .name name)
      (hkeys : (Entries.keys es).Nodup) (h : ∀ e ∈ es, Written e.2) : Written (.record es)

mutual

/-- The texts in a value and the names in its maps, in the order in which they are written. -/
def texts : Value → List String
  | text s => [s]
  | array _ xs => itemTexts xs
  | map _ es => entryTexts es
  | _ => []

def itemTexts : List Value → List String
  | [] => []
  | x :: xs => x.texts ++ itemTexts xs

def entryTexts : List (Key × Value) → List String
  | [] => []
  | (k, v) :: es => k.asName :: v.texts ++ entryTexts es

end

mutual

def lexemes : Value → List Lexeme
  | number (.int n) => [.number (Lexer.numeralOf n.toInt)]
  | text s => [.string s]
  | array _ xs => .leftBracket :: List.intercalate [.comma] (itemLexemes xs) ++ [.rightBracket]
  | map _ es => .leftBrace :: List.intercalate [.comma] (entryLexemes es) ++ [.rightBrace]
  | _ => []

def itemLexemes : List Value → List (List Lexeme)
  | [] => []
  | x :: xs => x.lexemes :: itemLexemes xs

def entryLexemes : List (Key × Value) → List (List Lexeme)
  | [] => []
  | (k, v) :: es => (.string k.asName :: .colon :: v.lexemes) :: entryLexemes es

end

mutual

/-- The expression that stands for a value. What has no literal is left as an empty block. -/
def literal : Value → Expr
  | number (.int n) => .literal (.int n.toInt)
  | text s => .text s
  | array _ xs => .array (itemLiterals xs)
  | map _ es => .map (entryLiterals es)
  | _ => .block []

def itemLiterals : List Value → List Expr
  | [] => []
  | x :: xs => x.literal :: itemLiterals xs

def entryLiterals : List (Key × Value) → List (String × Expr)
  | [] => []
  | (k, v) :: es => (k.asName, v.literal) :: entryLiterals es

end

theorem itemChars_eq_map (xs : List Value) : itemChars xs = xs.map chars := by
  induction xs with
  | nil => rfl
  | cons x xs ih => rw [itemChars, ih, List.map_cons]

theorem entryChars_eq_map (es : List (Key × Value)) :
    entryChars es = es.map fun e => keyChars e.1 ++ ([':', ' '] ++ e.2.chars) := by
  induction es with
  | nil => rfl
  | cons e es ih => rw [entryChars, ih, List.map_cons]; rfl

theorem itemLexemes_eq_map (xs : List Value) : itemLexemes xs = xs.map lexemes := by
  induction xs with
  | nil => rfl
  | cons x xs ih => rw [itemLexemes, ih, List.map_cons]

theorem entryLexemes_eq_map (es : List (Key × Value)) :
    entryLexemes es = es.map fun e => [.string e.1.asName] ++ ([.colon] ++ e.2.lexemes) := by
  induction es with
  | nil => rfl
  | cons e es ih => rw [entryLexemes, ih, List.map_cons]; rfl

theorem itemLiterals_eq_map (xs : List Value) : itemLiterals xs = xs.map literal := by
  induction xs with
  | nil => rfl
  | cons x xs ih => rw [itemLiterals, ih, List.map_cons]

theorem entryLiterals_eq_map (es : List (Key × Value)) :
    entryLiterals es = es.map fun e => (e.1.asName, e.2.literal) := by
  induction es with
  | nil => rfl
  | cons e es ih => rw [entryLiterals, ih, List.map_cons]

def KeepsToLine (v : Value) : Prop := ∀ s ∈ v.texts, OneLine s

@[simp] theorem keepsToLine_text {s : String} : (text s).KeepsToLine ↔ OneLine s := by
  simp [KeepsToLine, texts]

@[simp] theorem keepsToLine_array {o : Origin} {xs : List Value} :
    (array o xs).KeepsToLine ↔ ∀ x ∈ xs, x.KeepsToLine := by
  rw [KeepsToLine, texts]
  induction xs with
  | nil => simp [itemTexts]
  | cons x xs ih =>
      rw [itemTexts, List.forall_mem_append, ih, List.forall_mem_cons, KeepsToLine]

@[simp] theorem keepsToLine_map {o : Origin} {es : List (Key × Value)} :
    (map o es).KeepsToLine ↔ ∀ e ∈ es, OneLine e.1.asName ∧ e.2.KeepsToLine := by
  rw [KeepsToLine, texts]
  induction es with
  | nil => simp [entryTexts]
  | cons e es ih =>
      rw [entryTexts, List.forall_mem_append, List.forall_mem_cons, ih, List.forall_mem_cons,
        KeepsToLine]

end Value

/-! ## Scanning a literal -/

namespace Lexer

variable {α : Type} {f : α → List Char} {g : α → List Lexeme}

theorem follows_of_mem {c : Char} (h : c = ',' ∨ c = ':' ∨ c = ']' ∨ c = '\x7d')
    (rest : List Char) : Follows (c :: rest) := by
  rintro _ ⟨⟩
  exact h

theorem scans_comma : Scans Anything [',', ' '] [.comma] := scans_spaced fun _ => rfl

theorem scans_colon : Scans Anything [':', ' '] [.colon] := scans_spaced fun _ => rfl

theorem scans_intercalate {xs : List α} (h : ∀ x ∈ xs, Scans Follows (f x) (g x)) :
    Scans Follows (List.intercalate [',', ' '] (xs.map f))
      (List.intercalate [.comma] (xs.map g)) := by
  induction xs with
  | nil => exact scans_nil
  | cons x xs ih =>
      obtain ⟨hx, hxs⟩ := List.forall_mem_cons.mp h
      cases xs with
      | nil => simpa using hx
      | cons y ys =>
          rw [List.map_cons, List.map_cons, List.map_cons, List.map_cons,
            List.intercalate_cons_cons, List.intercalate_cons_cons, List.append_assoc,
            List.append_assoc]
          refine hx.append (scans_comma.append (ih hxs) fun _ _ => trivial) fun rest _ => ?_
          exact follows_of_mem (by simp) _

theorem breaks_intercalate {p : α → Prop} {xs : List α}
    (hscans : ∀ x ∈ xs, p x → ∃ ls, Scans Follows (f x) ls)
    (hbreaks : ∀ x ∈ xs, ¬p x → Breaks (f x)) (h : ¬∀ x ∈ xs, p x) :
    Breaks (List.intercalate [',', ' '] (xs.map f)) := by
  induction xs with
  | nil => exact absurd (by simp) h
  | cons x xs ih =>
      obtain ⟨hx, hxs⟩ := List.forall_mem_cons.mp hscans
      obtain ⟨hx', hxs'⟩ := List.forall_mem_cons.mp hbreaks
      rw [List.forall_mem_cons, not_and] at h
      cases xs with
      | nil =>
          have hp : ¬p x := fun hp => h hp (by simp)
          simpa using hx' hp
      | cons y ys =>
          rw [List.map_cons, List.map_cons, List.intercalate_cons_cons]
          -- The scanner gets past `x` if it can be read, and so as far as the item that cannot.
          by_cases hp : p x
          · rw [List.append_assoc]
            have hrest := scans_comma.append_breaks (ih hxs hxs' (h hp)) fun _ => trivial
            obtain ⟨ls, hls⟩ := hx hp
            exact hls.append_breaks hrest fun rest => follows_of_mem (by simp) _
          · exact ((hx' hp).append _).append _

theorem scans_bracketed {c d : Char} {l m : Lexeme} {cs : List Char} {ls : List Lexeme}
    (hc : Scans Anything [c] [l]) (h : Scans Follows cs ls) (hd : Scans Anything [d] [m])
    (hfollows : ∀ rest, Follows (d :: rest)) :
    Scans Follows (c :: cs ++ [d]) (l :: ls ++ [m]) := by
  rw [List.cons_append, List.cons_append, ← List.singleton_append, ← @List.singleton_append _ l]
  refine hc.append (h.append (hd.imp fun _ _ => trivial) ?_) fun _ _ => trivial
  exact fun rest _ => hfollows rest

theorem breaks_bracketed {c : Char} {l : Lexeme} {cs : List Char} (hc : Scans Anything [c] [l])
    (h : Breaks cs) (d : Char) : Breaks (c :: cs ++ [d]) := by
  rw [← List.singleton_append]
  exact (hc.append_breaks h fun _ => trivial).append [d]

theorem scans_entry {s : String} {cs : List Char} {ls : List Lexeme} (hs : OneLine s)
    (h : Scans Follows cs ls) :
    Scans Follows (Value.textChars s ++ ([':', ' '] ++ cs)) ([.string s] ++ ([.colon] ++ ls)) := by
  refine (scans_textChars (oneLine_iff.mp hs)).append ?_ fun rest _ => ?_
  · exact scans_colon.append h fun _ _ => trivial
  · exact follows_of_mem (by simp) _

theorem breaks_of_not_oneLine {s : String} (hs : ¬OneLine s) : Breaks (Value.textChars s) := by
  refine breaks_textChars ?_
  rw [oneLine_iff] at hs
  simpa using hs

theorem breaks_entry {s : String} {cs : List Char} (h : ¬OneLine s ∨ Breaks cs) :
    Breaks (Value.textChars s ++ ([':', ' '] ++ cs)) := by
  by_cases hs : OneLine s
  · have hrest := scans_colon.append_breaks (h.resolve_left (not_not_intro hs)) fun _ => trivial
    exact (scans_textChars (oneLine_iff.mp hs)).append_breaks hrest fun rest =>
      follows_of_mem (by simp) _
  · exact (breaks_of_not_oneLine hs).append _

end Lexer

namespace Value

open Lexer

theorem keyChars_eq_textChars {k : Key} (h : ∃ name, k = .name name) :
    keyChars k = textChars k.asName := by
  obtain ⟨name, rfl⟩ := h
  rfl

/-- A value that keeps to one line is read as its lexemes. -/
theorem Written.scans {v : Value} (h : v.Written) (hv : v.KeepsToLine) :
    Scans Follows v.chars v.lexemes := by
  induction h with
  | int n => exact scans_integerChars n.toInt
  | text s => exact scans_textChars (oneLine_iff.mp (keepsToLine_text.mp hv))
  | vector h ih =>
      rw [keepsToLine_array] at hv
      rw [chars, lexemes, itemChars_eq_map, itemLexemes_eq_map]
      refine scans_bracketed scans_leftBracket ?_ scans_rightBracket (follows_of_mem (by simp))
      exact scans_intercalate fun x hx => ih x hx (hv x hx)
  | record hnames hkeys h ih =>
      rw [keepsToLine_map] at hv
      rw [chars, lexemes, entryChars_eq_map, entryLexemes_eq_map]
      refine scans_bracketed scans_leftBrace ?_ scans_rightBrace (follows_of_mem (by simp))
      refine scans_intercalate fun e he => ?_
      rw [keyChars_eq_textChars (hnames e he)]
      exact scans_entry (hv e he).1 (ih e he (hv e he).2)

/-- A value that does not is not read at all. -/
theorem Written.breaks {v : Value} (h : v.Written) (hv : ¬v.KeepsToLine) : Breaks v.chars := by
  induction h with
  | int n => exact absurd (by simp [KeepsToLine, texts]) hv
  | text s => exact breaks_of_not_oneLine fun hs => hv (keepsToLine_text.mpr hs)
  | vector h ih =>
      rw [keepsToLine_array] at hv
      -- Items in front of the one that breaks off are read as before.
      rw [chars, itemChars_eq_map]
      refine breaks_bracketed scans_leftBracket ?_ ']'
      exact breaks_intercalate (fun x hx hp => ⟨_, (h x hx).scans hp⟩) ih hv
  | record hnames hkeys h ih =>
      rw [keepsToLine_map] at hv
      rw [chars, entryChars_eq_map]
      refine breaks_bracketed scans_leftBrace ?_ '\x7d'
      refine breaks_intercalate (fun e he hp => ?_) (fun e he hp => ?_) hv
      · rw [keyChars_eq_textChars (hnames e he)]
        exact ⟨_, scans_entry hp.1 ((h e he).scans hp.2)⟩
      · rw [keyChars_eq_textChars (hnames e he)]
        refine breaks_entry ?_
        by_cases hs : OneLine e.1.asName
        · exact .inr (ih e he fun hval => hp ⟨hs, hval⟩)
        · exact .inl hs

end Value

/-! ## Parsing a literal -/

section Grammar

variable {α : Type} {f : α → List Lexeme} {xs : List α}

theorem derives_items {g : α → Expr} (hxs : xs ≠ [])
    (h : ∀ x ∈ xs, Derives (f x) (.expression (g x))) :
    Derives (List.intercalate [.comma] (xs.map f)) (.items (xs.map g)) := by
  induction xs with
  | nil => exact absurd rfl hxs
  | cons x xs ih =>
      obtain ⟨hx, hrest⟩ := List.forall_mem_cons.mp h
      cases xs with
      | nil => simpa using Derives.lastItem hx
      | cons y ys =>
          have hitem := Derives.item 0 0 hx (ih (List.cons_ne_nil y ys) hrest)
          simpa [separators] using hitem

theorem derives_entries {k : α → String} {g : α → Expr} (hxs : xs ≠ [])
    (h : ∀ x ∈ xs, Derives (f x) (.expression (g x))) :
    Derives (List.intercalate [.comma] (xs.map fun x => [.string (k x)] ++ ([.colon] ++ f x)))
      (.entries (xs.map fun x => (k x, g x))) := by
  induction xs with
  | nil => exact absurd rfl hxs
  | cons x xs ih =>
      obtain ⟨hx, hrest⟩ := List.forall_mem_cons.mp h
      cases xs with
      | nil => simpa using Derives.lastEntry (k x) hx
      | cons y ys =>
          have hentry := Derives.entry (k x) 0 0 hx (ih (List.cons_ne_nil y ys) hrest)
          simpa [separators] using hentry

theorem readable_singleton {l : Lexeme} (h : l.cls ≠ .number) : Readable [l] := by
  intro n hn
  cases List.mem_singleton.mp hn
  exact absurd rfl h

theorem Readable.append {ls ms : List Lexeme} (hls : Readable ls) (hms : Readable ms) :
    Readable (ls ++ ms) := fun n hn => (List.mem_append.mp hn).elim (hls n) (hms n)

theorem readable_bracketed {l m : Lexeme} {ls : List Lexeme} (hl : l.cls ≠ .number)
    (h : Readable ls) (hm : m.cls ≠ .number) : Readable (l :: ls ++ [m]) :=
  ((readable_singleton hl).append h).append (readable_singleton hm)

theorem readable_intercalate (h : ∀ x ∈ xs, Readable (f x)) :
    Readable (List.intercalate [.comma] (xs.map f)) := by
  induction xs with
  | nil => simp [Readable]
  | cons x xs ih =>
      obtain ⟨hx, hxs⟩ := List.forall_mem_cons.mp h
      cases xs with
      | nil => simpa using hx
      | cons y ys =>
          rw [List.map_cons, List.map_cons, List.intercalate_cons_cons]
          exact (hx.append (readable_singleton (by simp [Lexeme.cls]))).append (ih hxs)

end Grammar

namespace Value

/-- The grammar reads the lexemes of a value as the expression that stands for it. -/
theorem Written.derives {v : Value} (h : v.Written) : Derives v.lexemes (.term v.literal) := by
  induction h with
  | int n =>
      have hint := @Derives.integer (Lexer.numeralOf n.toInt) rfl
      rw [Lexer.intValue_numeralOf] at hint
      exact hint ⟨n.le_toInt, n.toInt_lt⟩
  | text s => exact .string s
  | @vector xs h ih =>
      rw [lexemes, literal, itemLexemes_eq_map, itemLiterals_eq_map]
      cases xs with
      | nil => exact .emptyArray 0
      | cons x xs =>
          have hitems := derives_items (List.cons_ne_nil x xs) fun y hy =>
            (ih y hy).expression_of_term
          simpa [separators] using Derives.array 0 0 hitems
  | @record es hnames hkeys h ih =>
      rw [lexemes, literal, entryLexemes_eq_map, entryLiterals_eq_map]
      cases es with
      | nil => exact .emptyMap 0
      | cons e es =>
          have hentries := @derives_entries _ _ _ (fun e => e.1.asName) _ (List.cons_ne_nil e es)
            fun e he => (ih e he).expression_of_term
          have hnodup :
              (((e :: es).map fun e => (e.1.asName, e.2.literal)).map Prod.fst).Nodup := by
            rw [List.map_map]
            exact Entries.nodup_asName ⟨List.forall_mem_map.mpr hnames, hkeys⟩
          simpa [separators] using Derives.map 0 0 hentries hnodup

theorem Written.valid {v : Value} (h : v.Written) : v.Valid := by
  induction h with
  | int n => exact valid_number _
  | text s => exact valid_text s
  | vector h ih => exact valid_array_iff.mpr ih
  | record hnames hkeys h ih => exact valid_map_iff.mpr fun e he => ⟨hnames e he, ih e he⟩

theorem length_toDigits_le (n : Int64) :
    (Nat.toDigits 10 n.toInt.natAbs).length ≤ Numeral.maxDigits := by
  have hlow := n.le_toInt
  have hhigh := n.toInt_lt
  have hlen : (Nat.toDigits 10 n.toInt.natAbs).length ≤ 19 := by
    rw [Nat.length_toDigits_le_iff (by decide) (by decide)]
    omega
  exact Nat.le_trans hlen (by decide)

theorem Written.readable {v : Value} (h : v.Written) : Readable v.lexemes := by
  induction h with
  | int n =>
      intro m hm _
      cases List.mem_singleton.mp hm
      exact length_toDigits_le n
  | text s => simp [lexemes, Readable]
  | vector h ih =>
      rw [lexemes, itemLexemes_eq_map]
      exact readable_bracketed (by simp [Lexeme.cls]) (readable_intercalate ih)
        (by simp [Lexeme.cls])
  | record hnames hkeys h ih =>
      rw [lexemes, entryLexemes_eq_map]
      refine readable_bracketed (by simp [Lexeme.cls]) (readable_intercalate fun e he => ?_)
        (by simp [Lexeme.cls])
      have hcolon : Readable [.colon] := readable_singleton (by simp [Lexeme.cls])
      exact (readable_singleton (by simp [Lexeme.cls])).append (hcolon.append (ih e he))

theorem Written.parseLine {v : Value} (h : v.Written) (hv : v.KeepsToLine) :
    parseLine v.render = .ok v.literal := by
  have hscans := h.scans hv
  rw [← String.toList_ofList (l := v.chars)] at hscans
  have hlexemes := lexemes?_eq_some_iff.mpr (hscans.tokenize (by simp [Lexer.Follows]))
  refine parseLine_of_derives hlexemes h.readable ?_
  simpa [separators] using Derives.program 0 0 (.lastLine (.plain h.derives.expression_of_term))

theorem Written.parseLine_error {v : Value} (h : v.Written) (hv : ¬v.KeepsToLine) :
    ∃ e, Glyph.parseLine v.render = .error (.malformed (.lexical e)) := by
  have hbreaks := h.breaks hv
  rw [← String.toList_ofList (l := v.chars)] at hbreaks
  obtain ⟨e, he⟩ := hbreaks.tokenize
  exact ⟨e, by rw [Glyph.parseLine, tokensOf, render, he]; rfl⟩

/-! ## Evaluating a literal -/

theorem evalItems_literals {xs : List Value} {env : Env}
    (h : ∀ x ∈ xs, x.literal.eval env = ⟨.ok x, env, []⟩) :
    Expr.evalItems (xs.map literal) env = ⟨.ok xs, env, []⟩ := by
  induction xs with
  | nil => rfl
  | cons x xs ih =>
      obtain ⟨hx, hxs⟩ := List.forall_mem_cons.mp h
      rw [List.map_cons, Expr.evalItems, Action.bind_apply_of_ok hx,
        Action.bind_apply_of_ok (ih hxs)]
      rfl

theorem evalEntries_literals {es : List (Key × Value)} {env : Env}
    (hnames : ∀ e ∈ es, ∃ name, e.1 = .name name)
    (h : ∀ e ∈ es, e.2.literal.eval env = ⟨.ok e.2, env, []⟩) :
    Expr.evalEntries (es.map fun e => (e.1.asName, e.2.literal)) env = ⟨.ok es, env, []⟩ := by
  induction es with
  | nil => rfl
  | cons e es ih =>
      obtain ⟨⟨name, hname⟩, hrest⟩ := List.forall_mem_cons.mp hnames
      obtain ⟨he, hes⟩ := List.forall_mem_cons.mp h
      obtain ⟨k, v⟩ := e
      cases hname
      rw [List.map_cons, Expr.evalEntries, Action.bind_apply_of_ok he,
        Action.bind_apply_of_ok (ih hrest hes)]
      rfl

/-- The expression that stands for a value evaluates to it, and does nothing else. -/
theorem Written.eval_literal {v : Value} (h : v.Written) (env : Env) :
    v.literal.eval env = ⟨.ok v, env, []⟩ := by
  induction h with
  | int n =>
      have hfit : FitsInt64 n.toInt := ⟨n.le_toInt, n.toInt_lt⟩
      rw [literal, Expr.eval, Literal.value, ofInt, int64?, if_pos hfit, Int64.ofInt_toInt]
      rfl
  | text s => rfl
  | vector h ih =>
      rw [literal, Expr.eval, itemLiterals_eq_map, Action.bind_apply_of_ok (evalItems_literals ih)]
      rfl
  | @record es hnames hkeys h ih =>
      have hpairs : Entries.ofPairs es = es :=
        Entries.ofPairs_of_distinctNames ⟨List.forall_mem_map.mpr hnames, hkeys⟩
      rw [literal, Expr.eval, entryLiterals_eq_map,
        Action.bind_apply_of_ok (evalEntries_literals hnames ih), hpairs]
      rfl

/-- A value of integers, texts, arrays and maps is written as a line of source text that is accepted
exactly where no text and no key in it has a line end. Where it is accepted, it evaluates to the
value in every environment, which it does not change, and writes nothing; where it is not, it is
malformed. -/
theorem Written.parseLine_format {v : Value} (h : v.Written) :
    ∃ source, v.format = .ok source ∧
      ((∃ e, Glyph.parseLine source = .ok e) ↔ ∀ s ∈ v.texts, '\n' ∉ s.toList ∧ '\r' ∉ s.toList) ∧
      (∀ e, Glyph.parseLine source = .ok e → ∀ env, e.eval env = ⟨.ok v, env, []⟩) ∧
      ((∀ e, Glyph.parseLine source ≠ .ok e) →
        ∃ e, Glyph.parseLine source = .error (.malformed e)) := by
  refine ⟨v.render, h.valid.format, ?_⟩
  by_cases hv : v.KeepsToLine
  · have hparse := h.parseLine hv
    refine ⟨⟨fun _ => hv, fun _ => ⟨_, hparse⟩⟩, ?_, fun hne => absurd hparse (hne _)⟩
    intro e he env
    rw [hparse] at he
    cases he
    exact h.eval_literal env
  · obtain ⟨e, he⟩ := h.parseLine_error hv
    refine ⟨⟨?_, fun hlines => absurd hlines hv⟩, ?_, fun _ => ⟨_, he⟩⟩
    · rintro ⟨f, hf⟩
      rw [he] at hf
      cases hf
    · intro f hf
      rw [he] at hf
      cases hf

/-- A quotation mark in a key, a mark of comments in a text and the least integer. -/
theorem Written.parseLine_format_record :
    ∃ source e, Glyph.parseLine source = .ok e ∧
      ∀ env, e.eval env =
        ⟨.ok (.record [(.name "it's", .vector [.int Int64.minValue, .text "#"])]), env, []⟩ := by
  have hitems : Written (.vector [.int Int64.minValue, .text "#"]) := by
    refine .vector (List.forall_mem_cons.mpr ⟨.int _, List.forall_mem_singleton.mpr (.text _)⟩)
  have h : Written (.record [(.name "it's", .vector [.int Int64.minValue, .text "#"])]) :=
    .record (by simp) (by simp [Entries.keys]) (List.forall_mem_singleton.mpr hitems)
  obtain ⟨source, -, hiff, heval, -⟩ := h.parseLine_format
  obtain ⟨e, he⟩ := hiff.mpr (by simp [texts, entryTexts, itemTexts, Key.asName, Key.name?])
  exact ⟨source, e, he, heval e he⟩

end Value

end Glyph
