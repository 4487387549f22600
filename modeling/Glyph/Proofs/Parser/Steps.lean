import Glyph.Expr.Parser

/-!
# What each function of the parser takes

The functions of the parser return what is left of the tokens together with the fact that it is
less. `Yields m a r` forgets that fact: the result `m` is a success with the tree `a` that leaves
`r`. For each function one lemma says exactly when it yields a tree, in terms of what the functions
it calls yield. Nothing after this module unfolds the parser.
-/

namespace Glyph.Parser

/-- The result is a success with a tree, and leaves the given tokens. -/
def Yields {α : Type} {p : List Token → Prop} (m : Except Rejection (α × { r // p r })) (a : α)
    (r : List Token) : Prop := ∃ h : p r, m = .ok (a, ⟨r, h⟩)

section Yields

variable {α β : Type} {p q : List Token → Prop}

/-- What is left satisfies what the type of the result says. -/
theorem Yields.rest {m : Except Rejection (α × { r // p r })} {a : α} {r : List Token}
    (h : Yields m a r) : p r := h.elim fun hp _ => hp

theorem Yields.unique {m : Except Rejection (α × { r // p r })} {a b : α} {r s : List Token}
    (h : Yields m a r) (h' : Yields m b s) : a = b ∧ r = s := by
  obtain ⟨_, rfl⟩ := h
  obtain ⟨_, heq⟩ := h'
  cases heq
  exact ⟨rfl, rfl⟩

@[simp] theorem yields_ok_iff {a b : α} {s : { r // p r }} {r : List Token} :
    Yields (.ok (a, s)) b r ↔ a = b ∧ s.1 = r := by
  constructor
  · rintro ⟨_, heq⟩
    cases heq
    exact ⟨rfl, rfl⟩
  · rintro ⟨rfl, rfl⟩
    exact ⟨s.2, rfl⟩

@[simp] theorem yields_pure_iff {a b : α} {s : { r // p r }} {r : List Token} :
    Yields (pure (a, s) : Except Rejection (α × { r // p r })) b r ↔ a = b ∧ s.1 = r :=
  yields_ok_iff

@[simp] theorem not_yields_error {e : Rejection} {a : α} {r : List Token} :
    ¬Yields (.error e : Except Rejection (α × { r // p r })) a r := by
  rintro ⟨_, heq⟩
  cases heq

@[simp] theorem not_yields_refuse {stop : Nat} {ts : List Token} {cs : List TokenClass} {a : α}
    {r : List Token} : ¬Yields (refuse stop ts cs : Except Rejection (α × { r // p r })) a r := by
  cases ts <;> exact not_yields_error

/-- Two steps yield a tree when the first yields one and the second goes on from it. -/
theorem yields_bind_iff {m : Except Rejection (α × { r // p r })}
    {f : α × { r // p r } → Except Rejection (β × { r // q r })} {b : β} {r : List Token} :
    Yields (m >>= f) b r ↔
      ∃ a s, Yields m a s ∧ ∃ h : p s, Yields (f (a, ⟨s, h⟩)) b r := by
  cases m with
  | error e => simp [bind, Except.bind]
  | ok x =>
      obtain ⟨a, s⟩ := x
      constructor
      · intro hf
        exact ⟨a, s.1, yields_ok_iff.mpr ⟨rfl, rfl⟩, s.2, hf⟩
      · rintro ⟨a', s', hm, h, hf⟩
        obtain ⟨rfl, rfl⟩ := yields_ok_iff.mp hm
        exact hf

theorem yields_step_iff {γ : Type} {m : Except Rejection γ}
    {f : γ → Except Rejection (β × { r // q r })} {b : β} {r : List Token} :
    Yields (m >>= f) b r ↔ ∃ c, m = .ok c ∧ Yields (f c) b r := by
  cases m with
  | error e => simp [bind, Except.bind]
  | ok c => simp [bind, Except.bind]

/-- A step after which the tree is put together, and nothing more is taken. -/
theorem exists_yields_iff {m : Except Rejection (α × { r // p r })} {f : α → β} {b : β}
    {r : List Token} :
    (∃ a s, Yields m a s ∧ ∃ _ : p s, f a = b ∧ s = r) ↔ ∃ a, Yields m a r ∧ f a = b := by
  constructor
  · rintro ⟨a, _, ha, _, hb, rfl⟩
    exact ⟨a, ha, hb⟩
  · rintro ⟨a, ha, hb⟩
    exact ⟨a, r, ha, ha.rest, hb, rfl⟩

end Yields

/-! ## Single tokens -/

/-- The one lexeme of a class, where the class has only one. -/
def mark? : TokenClass → Option Lexeme
  | .leftParen => some .leftParen
  | .rightParen => some .rightParen
  | .leftBracket => some .leftBracket
  | .rightBracket => some .rightBracket
  | .leftBrace => some .leftBrace
  | .rightBrace => some .rightBrace
  | .comma => some .comma
  | .colon => some .colon
  | .separator => some .separator
  | .assign => some .assign
  | _ => none

theorem eq_of_cls_eq {l m : Lexeme} {c : TokenClass} (h : l.cls = c) (hc : mark? c = some m) :
    l = m := by
  subst h
  cases l <;> simp_all [mark?, Lexeme.cls]

theorem take?_eq_some_iff {c : TokenClass} {ts : List Token} {s : Less ts} :
    take? c ts = some s ↔ ∃ t, ts = t :: s.1 ∧ t.lexeme.cls = c := by
  cases ts with
  | nil => simp [take?]
  | cons t rest =>
      by_cases hc : t.lexeme.cls = c
      · simp [take?, hc, Subtype.ext_iff, and_assoc]
      · simp [take?, hc, and_assoc]

theorem expect_eq_ok_iff {stop : Nat} {c : TokenClass} {ts : List Token} {s : Less ts} :
    expect stop c ts = .ok s ↔ ∃ t, ts = t :: s.1 ∧ t.lexeme.cls = c := by
  rw [← take?_eq_some_iff, expect]
  cases h : take? c ts with
  | none => cases ts <;> simp [refuse]
  | some s' => simp

theorem dyadic?_eq_some_iff {ts : List Token} {v : Dyadic} {s : Less ts} :
    dyadic? ts = some (v, s) ↔ ∃ t, ts = t :: s.1 ∧ t.lexeme = .dyadic v := by
  cases ts with
  | nil => simp [dyadic?]
  | cons t rest =>
      cases ht : t.lexeme <;> simp [dyadic?, ht, Subtype.ext_iff, and_assoc, and_comm]

theorem monadic?_eq_some_iff {ts : List Token} {v : Monadic} {s : Less ts} :
    monadic? ts = some (v, s) ↔ ∃ t, ts = t :: s.1 ∧ t.lexeme = .monadic v := by
  cases ts with
  | nil => simp [monadic?]
  | cons t rest =>
      cases ht : t.lexeme <;> simp [monadic?, ht, Subtype.ext_iff, and_assoc, and_comm]

theorem target?_eq_some_iff {ts : List Token} {x : String} {s : Less ts} :
    target? ts = some (x, s) ↔
      ∃ t u, ts = t :: u :: s.1 ∧ t.lexeme = .name x ∧ u.lexeme = .assign := by
  match ts, s with
  | [], s => simp [target?]
  | [t], s => simp [target?]
  | t :: u :: rest, s =>
      cases ht : t.lexeme with
      | name y =>
          cases hu : u.lexeme <;> simp [target?, ht, hu, Subtype.ext_iff, and_assoc, and_comm]
      | _ => simp [target?, ht, and_assoc]

theorem reduction?_eq_some_iff {ts : List Token} {v : Dyadic} {s : Less ts} :
    reduction? ts = some (v, s) ↔
      ∃ t u, ts = t :: u :: s.1 ∧ t.lexeme = .dyadic v ∧ u.lexeme = .dyadic .replicate := by
  rw [reduction?]
  constructor
  · intro h
    split at h
    · cases h
    · rename_i w r hw
      obtain ⟨t, hts, ht⟩ := dyadic?_eq_some_iff.mp hw
      split at h
      · rename_i r' hr'
        obtain ⟨u, hr, hu⟩ := dyadic?_eq_some_iff.mp hr'
        cases h
        exact ⟨t, u, hts.trans (congrArg (t :: ·) hr), ht, hu⟩
      · cases h
  · obtain ⟨rest, hrest⟩ := s
    rintro ⟨t, u, hts, ht, hu⟩
    dsimp only at hts
    subst hts
    simp [dyadic?, ht, hu]

/-! ## Separators -/

def AllSeparators (ss : List Token) : Prop := ∀ t ∈ ss, t.lexeme = .separator

theorem exists_skipSeparators (ts : List Token) :
    ∃ ss, AllSeparators ss ∧ ts = ss ++ (skipSeparators ts).1 := by
  refine ⟨ts.takeWhile fun t => t.lexeme.cls = .separator, ?_, ?_⟩
  · intro t ht
    have hcls := List.all_eq_true.mp List.all_takeWhile t ht
    exact eq_of_cls_eq (of_decide_eq_true hcls) rfl
  · exact (List.takeWhile_append_dropWhile).symm

theorem skipSeparators_append {ss : List Token} (hss : AllSeparators ss) {rest : List Token}
    (hrest : ∀ t ∈ rest.head?, t.lexeme ≠ .separator) :
    (skipSeparators (ss ++ rest)).1 = rest := by
  simp only [skipSeparators]
  rw [List.dropWhile_append_of_pos]
  · cases rest with
    | nil => rfl
    | cons t rest =>
        refine List.dropWhile_cons_of_neg fun ht => ?_
        exact hrest t rfl (eq_of_cls_eq (of_decide_eq_true ht) rfl)
  · intro t ht
    simp [hss t ht, Lexeme.cls]

theorem skipSeparators_eq_nil {ss : List Token} (hss : AllSeparators ss) :
    (skipSeparators ss).1 = [] := by
  have h := @skipSeparators_append ss hss [] (by simp)
  rwa [List.append_nil] at h

/-! ## The functions -/

variable {stop : Nat} {ts r : List Token} {e : Expr}

theorem yields_statement_iff :
    Yields (statement stop ts) e r ↔
      (∃ x s e', target? ts = some (x, s) ∧ Yields (expression stop s.1) e' r ∧
        .assign x e' = e) ∨
      (target? ts = none ∧ Yields (expression stop ts) e r) := by
  rw [statement]
  split
  · rename_i x s hx
    simp only [hx, yields_bind_iff, yields_pure_iff, exists_yields_iff]
    simp [and_assoc]
  · rename_i hx
    simp [hx]

theorem yields_expression_iff :
    Yields (expression stop ts) e r ↔
      (∃ v s e', reduction? ts = some (v, s) ∧ Yields (expression stop s.1) e' r ∧
        .operator v .reduce e' = e) ∨
      (∃ v s e', reduction? ts = none ∧ monadic? ts = some (v, s) ∧
        Yields (expression stop s.1) e' r ∧ .monadic v e' = e) ∨
      (∃ left s v s' right, reduction? ts = none ∧ monadic? ts = none ∧
        Yields (terms stop ts) left s ∧ dyadic? s = some (v, s') ∧
        Yields (expression stop s'.1) right r ∧ .dyadic v left right = e) ∨
      (reduction? ts = none ∧ monadic? ts = none ∧ Yields (terms stop ts) e r ∧
        dyadic? r = none) := by
  rw [expression]
  cases hv : reduction? ts with
  | some x =>
      obtain ⟨v, s⟩ := x
      simp only [yields_bind_iff, yields_pure_iff, exists_yields_iff]
      simp [and_assoc]
  | none =>
      cases hw : monadic? ts with
      | some x =>
          obtain ⟨w, s⟩ := x
          simp only [yields_bind_iff, yields_pure_iff, exists_yields_iff]
          simp [and_assoc]
      | none =>
          simp only [yields_bind_iff]
          constructor
          · rintro ⟨left, s, hleft, _, h⟩
            split at h
            · rename_i v s' hs
              simp only [yields_bind_iff, yields_pure_iff, exists_yields_iff] at h
              obtain ⟨right, hright, rfl⟩ := h
              exact .inr (.inr (.inl
                ⟨left, s, v, s', right, trivial, trivial, hleft, hs, hright, rfl⟩))
            · rename_i hs
              obtain ⟨rfl, rfl⟩ := yields_pure_iff.mp h
              exact .inr (.inr (.inr ⟨trivial, trivial, hleft, hs⟩))
          · rintro (⟨_, _, _, heq, -⟩ | ⟨_, _, _, -, heq, -⟩ |
              ⟨left, s, v, s', right, -, -, hleft, hs, hright, rfl⟩ | ⟨-, -, hleft, hs⟩)
            · cases heq
            · cases heq
            · refine ⟨left, s, hleft, hleft.rest, ?_⟩
              simp only [hs, yields_bind_iff, yields_pure_iff, exists_yields_iff]
              exact ⟨right, hright, rfl⟩
            · refine ⟨e, r, hleft, hleft.rest, ?_⟩
              simp only [hs, yields_pure_iff, and_self]

theorem yields_terms_iff :
    Yields (terms stop ts) e r ↔
      ∃ first s more, Yields (term stop ts) first s ∧ Yields (moreTerms stop s) more r ∧
        strand first more = e := by
  rw [terms]
  simp only [yields_bind_iff, yields_pure_iff]
  constructor
  · rintro ⟨first, s, hfirst, -, more, _, hmore, -, rfl, rfl⟩
    exact ⟨first, s, more, hfirst, hmore, rfl⟩
  · rintro ⟨first, s, more, hfirst, hmore, rfl⟩
    exact ⟨first, s, hfirst, hfirst.rest, more, r, hmore, hmore.rest, rfl, rfl⟩

theorem yields_moreTerms_iff {es : List Expr} :
    Yields (moreTerms stop ts) es r ↔
      (∃ e s es', nextStartsTerm ts = true ∧ Yields (term stop ts) e s ∧
        Yields (moreTerms stop s) es' r ∧ e :: es' = es) ∨
      (nextStartsTerm ts = false ∧ es = [] ∧ ts = r) := by
  rw [moreTerms]
  cases hts : nextStartsTerm ts with
  | true =>
      simp only [if_true, yields_bind_iff, yields_pure_iff]
      constructor
      · rintro ⟨e, s, he, -, es', _, hes, -, rfl, rfl⟩
        exact .inl ⟨e, s, es', trivial, he, hes, rfl⟩
      · rintro (⟨e, s, es', -, he, hes, rfl⟩ | ⟨heq, -⟩)
        · exact ⟨e, s, he, he.rest, es', r, hes, hes.rest, rfl, rfl⟩
        · cases heq
  | false => simp [eq_comm]

/-- A number token stands for its value: an integer of at most `maxDigits` digits that fits in 64
bits, or a double. -/
theorem numberLiteral_eq_ok_iff {t : Token} {n : Numeral} :
    numberLiteral t n = .ok e ↔
      (n.isInteger = true ∧ n.whole.length ≤ Numeral.maxDigits ∧ FitsInt64 n.intValue ∧
        .literal (.int n.intValue) = e) ∨
      (n.isInteger = false ∧ .literal (.float n.floatValue) = e) := by
  cases hint : n.isInteger with
  | false => simp [numberLiteral, Numeral.value, hint]
  | true =>
      by_cases hlen : Numeral.maxDigits < n.whole.length
      · have : ¬n.whole.length ≤ Numeral.maxDigits := Nat.not_le.mpr hlen
        simp [numberLiteral, Numeral.value, hint, hlen, this]
      · by_cases hfit : FitsInt64 n.intValue
        · simp [numberLiteral, Numeral.value, hint, hlen, hfit, Nat.not_lt.mp hlen]
        · simp [numberLiteral, Numeral.value, hint, hlen, hfit]

theorem yields_key_iff {seen : List String} {k : String} :
    Yields (key stop seen ts) k r ↔ ∃ t, ts = t :: r ∧ t.lexeme = .string k ∧ k ∉ seen := by
  cases ts with
  | nil => simp [key]
  | cons t rest =>
      cases ht : t.lexeme with
      | string k' =>
          by_cases hk : k' ∈ seen
          · simp only [key, ht, List.contains_iff_mem, hk, if_true, not_yields_error, false_iff]
            rintro ⟨_, heq, ht', hnot⟩
            cases heq
            cases ht.symm.trans ht'
            exact hnot hk
          · simp only [key, ht, List.contains_iff_mem, hk, if_false, yields_ok_iff]
            constructor
            · rintro ⟨rfl, rfl⟩
              exact ⟨t, rfl, ht, hk⟩
            · rintro ⟨_, heq, ht', -⟩
              cases heq
              cases ht.symm.trans ht'
              exact ⟨rfl, rfl⟩
      | _ => simp [key, ht, and_assoc]

/-- Where a literal may close: it does if the closing bracket comes next, and otherwise goes on as
`P` says. -/
theorem yields_close_iff {α : Type} {p : List Token → Prop}
    {m : Except Rejection (α × { r // p r })} {c : TokenClass} {next : List Token} {a b : α}
    {P : Prop} (hsome : ∀ s, take? c next = some s → Yields m a s.1)
    (hnone : take? c next = none → (Yields m b r ↔ P)) :
    Yields m b r ↔
      (∃ u, next = u :: r ∧ u.lexeme.cls = c ∧ a = b) ∨ (take? c next = none ∧ P) := by
  cases hu : take? c next with
  | some s =>
      obtain ⟨u, hs, hc⟩ := take?_eq_some_iff.mp hu
      simp only [reduceCtorEq, false_and, or_false]
      constructor
      · intro h
        obtain ⟨rfl, rfl⟩ := h.unique (hsome s hu)
        exact ⟨u, hs, hc, rfl⟩
      · rintro ⟨u', hs', -, rfl⟩
        obtain rfl : s.1 = r := (List.cons.inj (hs.symm.trans hs')).2
        exact hsome s hu
  | none =>
      rw [hnone hu]
      constructor
      · intro h
        exact .inr ⟨rfl, h⟩
      · rintro (⟨u, rfl, hc, -⟩ | ⟨-, h⟩)
        · simp [take?, hc] at hu
        · exact h

section Term

variable {t : Token} {rest : List Token}

theorem yields_term_number {n : Numeral} (ht : t.lexeme = .number n) :
    Yields (term stop (t :: rest)) e r ↔ numberLiteral t n = .ok e ∧ rest = r := by
  rw [term]
  simp only [ht]
  rw [yields_step_iff]
  constructor
  · rintro ⟨_, he, h⟩
    obtain ⟨rfl, rfl⟩ := yields_pure_iff.mp h
    exact ⟨he, rfl⟩
  · rintro ⟨he, rfl⟩
    exact ⟨e, he, yields_pure_iff.mpr ⟨rfl, rfl⟩⟩

theorem yields_term_string {s : String} (ht : t.lexeme = .string s) :
    Yields (term stop (t :: rest)) e r ↔ .text s = e ∧ rest = r := by
  rw [term]
  simp only [ht, yields_ok_iff]

theorem yields_term_name {x : String} (ht : t.lexeme = .name x) :
    Yields (term stop (t :: rest)) e r ↔ .ref x = e ∧ rest = r := by
  rw [term]
  simp only [ht, yields_ok_iff]

theorem yields_term_leftParen (ht : t.lexeme = .leftParen) :
    Yields (term stop (t :: rest)) e r ↔
      ∃ u, Yields (statement stop rest) e (u :: r) ∧ u.lexeme.cls = .rightParen := by
  rw [term]
  simp only [ht]
  rw [yields_bind_iff]
  simp only [yields_step_iff, yields_pure_iff, expect_eq_ok_iff]
  constructor
  · rintro ⟨e', s, he, -, r', ⟨u, hs, hu⟩, rfl, rfl⟩
    exact ⟨u, hs ▸ he, hu⟩
  · rintro ⟨u, he, hu⟩
    exact ⟨e, u :: r, he, he.rest, ⟨r, by simp⟩, ⟨u, rfl, hu⟩, rfl, rfl⟩

theorem yields_term_leftBracket (ht : t.lexeme = .leftBracket) :
    Yields (term stop (t :: rest)) e r ↔
      (∃ u, (skipSeparators rest).1 = u :: r ∧ u.lexeme.cls = .rightBracket ∧ .array [] = e) ∨
      (take? .rightBracket (skipSeparators rest).1 = none ∧
        ∃ es, Yields (items stop (skipSeparators rest).1) es r ∧ .array es = e) := by
  rw [term]
  simp only [ht]
  refine yields_close_iff (fun s hs => ?_) (fun hs => ?_)
  · simp only [hs, yields_ok_iff, and_self]
  · simp only [hs, yields_bind_iff, yields_pure_iff, exists_yields_iff]

theorem yields_term_leftBrace (ht : t.lexeme = .leftBrace) :
    Yields (term stop (t :: rest)) e r ↔
      (∃ u, (skipSeparators rest).1 = u :: r ∧ u.lexeme.cls = .rightBrace ∧ .map [] = e) ∨
      (take? .rightBrace (skipSeparators rest).1 = none ∧
        ∃ es, Yields (entries stop [] (skipSeparators rest).1) es r ∧ .map es = e) := by
  rw [term]
  simp only [ht]
  refine yields_close_iff (fun s hs => ?_) (fun hs => ?_)
  · simp only [hs, yields_ok_iff, and_self]
  · simp only [hs, yields_bind_iff, yields_pure_iff, exists_yields_iff]

theorem startsTerm_of_yields_term (h : Yields (term stop (t :: rest)) e r) :
    startsTerm t.lexeme = true := by
  cases ht : t.lexeme with
  | number n => rfl
  | string s => rfl
  | name x => rfl
  | leftParen => rfl
  | leftBracket => rfl
  | leftBrace => rfl
  | _ =>
      rw [term] at h
      simp [ht] at h

end Term

theorem yields_items_iff {es : List Expr} :
    Yields (items stop ts) es r ↔
      ∃ e s, Yields (expression stop ts) e s ∧
        ((∃ u, (skipSeparators s).1 = u :: r ∧ u.lexeme.cls = .rightBracket ∧ [e] = es) ∨
          (take? .rightBracket (skipSeparators s).1 = none ∧
            ∃ u s' es', (skipSeparators s).1 = u :: s' ∧ u.lexeme.cls = .comma ∧
              Yields (items stop (skipSeparators s').1) es' r ∧ e :: es' = es)) := by
  rw [items]
  rw [yields_bind_iff]
  refine exists_congr fun e => exists_congr fun s => and_congr_right fun he => ?_
  rw [exists_prop_of_true he.rest]
  refine yields_close_iff (fun s hs => ?_) (fun hs => ?_)
  · simp only [hs, yields_pure_iff, and_self]
  · simp only [hs]
    rw [yields_step_iff]
    simp only [yields_bind_iff, yields_pure_iff, exists_yields_iff, expect_eq_ok_iff]
    constructor
    · rintro ⟨s', ⟨u, hu, hc⟩, es', hes, rfl⟩
      exact ⟨u, s'.1, es', hu, hc, hes, rfl⟩
    · rintro ⟨u, s', es', hu, hc, hes, rfl⟩
      exact ⟨⟨s', by rw [hu]; simp⟩, ⟨u, hu, hc⟩, es', hes, rfl⟩

theorem yields_entries_iff {seen : List String} {es : List (String × Expr)} :
    Yields (entries stop seen ts) es r ↔
      ∃ k rest, Yields (key stop seen ts) k rest ∧
        ∃ inner, expect stop .colon rest = .ok inner ∧
        ∃ v s, Yields (expression stop inner.1) v s ∧
          ((∃ u, (skipSeparators s).1 = u :: r ∧ u.lexeme.cls = .rightBrace ∧ [(k, v)] = es) ∨
            (take? .rightBrace (skipSeparators s).1 = none ∧
              ∃ u s' es', (skipSeparators s).1 = u :: s' ∧ u.lexeme.cls = .comma ∧
                Yields (entries stop (k :: seen) (skipSeparators s').1) es' r ∧
                (k, v) :: es' = es)) := by
  rw [entries]
  rw [yields_bind_iff]
  refine exists_congr fun k => exists_congr fun rest => and_congr_right fun hk => ?_
  rw [exists_prop_of_true hk.rest, yields_step_iff]
  refine exists_congr fun inner => and_congr_right fun _ => ?_
  rw [yields_bind_iff]
  refine exists_congr fun v => exists_congr fun s => and_congr_right fun hv => ?_
  rw [exists_prop_of_true hv.rest]
  refine yields_close_iff (fun s hs => ?_) (fun hs => ?_)
  · simp only [hs, yields_pure_iff, and_self]
  · simp only [hs]
    rw [yields_step_iff]
    simp only [yields_bind_iff, yields_pure_iff, exists_yields_iff, expect_eq_ok_iff]
    constructor
    · rintro ⟨s', ⟨u, hu, hc⟩, es', hes, rfl⟩
      exact ⟨u, s'.1, es', hu, hc, hes, rfl⟩
    · rintro ⟨u, s', es', hu, hc, hes, rfl⟩
      exact ⟨⟨s', by rw [hu]; simp⟩, ⟨u, hu, hc⟩, es', hes, rfl⟩

theorem lines_eq_ok_iff {es : List Expr} :
    lines stop ts = .ok es ↔
      (ts = [] ∧ [] = es) ∨
      (ts ≠ [] ∧ ∃ e, Yields (statement stop ts) e [] ∧ [e] = es) ∨
      (ts ≠ [] ∧ ∃ e u s es', Yields (statement stop ts) e (u :: s) ∧
        u.lexeme.cls = .separator ∧ lines stop (skipSeparators s).1 = .ok es' ∧ e :: es' = es) := by
  rw [lines]
  cases ts with
  | nil => simp
  | cons t rest =>
      cases hst : statement stop (t :: rest) with
      | error x => simp [bind, Except.bind]
      | ok x =>
          obtain ⟨e, r, hr⟩ := x
          cases r with
          | nil => simp [bind, Except.bind, pure, Except.pure, and_comm]
          | cons u s =>
              by_cases hu : u.lexeme.cls = .separator
              · cases hes : lines stop (skipSeparators s).1 <;>
                  simp [bind, Except.bind, pure, Except.pure, expect, take?, hu, hes, and_assoc]
              · simp [bind, Except.bind, expect, take?, hu, refuse]

theorem line_eq_ok_iff {ts : TokenList} :
    line ts = .ok e ↔
      ∃ r, Yields (statement ts.length (skipSeparators ts.tokens).1) e r ∧
        (skipSeparators r).1 = [] := by
  rw [line]
  cases hst : statement ts.length (skipSeparators ts.tokens).1 with
  | error x => simp [bind, Except.bind]
  | ok x =>
      obtain ⟨e', r, hr⟩ := x
      cases hs : (skipSeparators r).1 with
      | nil => simp [bind, Except.bind, pure, Except.pure, hs, and_assoc]
      | cons u s => simp [bind, Except.bind, hs, refuse, and_assoc]

end Glyph.Parser

namespace Glyph

theorem tokensOf_bind {α : Type} {source : String} {ts : TokenList} (h : tokenize source = .ok ts)
    (f : TokenList → Except Rejection α) : (tokensOf source >>= f) = f ts := by
  rw [tokensOf, h]
  rfl

end Glyph
