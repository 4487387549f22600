import Glyph.Proofs.Dyadic.Level
import Glyph.Proofs.Literal.Numeral
import Glyph.Proofs.Literal.Roundtrip
import Glyph.Proofs.Value.Native

/-!
# Written values are unambiguous

Two values without doubles are written alike only where they are alike. This covers more than what
is read back: null has no literal, and a text may have line ends in it. Apostrophes are all that is
escaped in a text, so brackets, commas and digits in it look like those around it; what keeps them
apart is that a written value ends before anything that may follow it in a container
(`Follows`). `Determines` states this of one way of writing: from the characters and whatever
follows them, both what was written and what follows can be told.
-/

namespace Glyph

open Lexer

section Determines

variable {α β : Type} {f : α → List Char} {g : α → β} {x y : α} {xs ys : List α}

/-- Where the characters of `x` and of `y`, each in front of something that may follow, make one
text, `x` and `y` say the same under `g` and the same follows them. -/
def Determines (f : α → List Char) (g : α → β) (x y : α) : Prop :=
  ∀ r s, Follows r → Follows s → f x ++ r = f y ++ s → g x = g y ∧ r = s

def Closes (c : Char) : Prop := c = ']' ∨ c = '\x7d'

/-- The items behind the first one, each with its comma, and the bracket that closes. -/
def tailChars (f : α → List Char) (xs : List α) (c : Char) (r : List Char) : List Char :=
  xs.flatMap (fun x => ',' :: ' ' :: f x) ++ c :: r

@[simp] theorem tailChars_nil (c : Char) (r : List Char) : tailChars f [] c r = c :: r := rfl

theorem tailChars_cons (x : α) (xs : List α) (c : Char) (r : List Char) :
    tailChars f (x :: xs) c r = ',' :: ' ' :: (f x ++ tailChars f xs c r) := by
  simp [tailChars]

theorem intercalate_append (x : α) (xs : List α) (c : Char) (r : List Char) :
    List.intercalate [',', ' '] ((x :: xs).map f) ++ c :: r = f x ++ tailChars f xs c r := by
  induction xs generalizing x with
  | nil => simp
  | cons y ys ih =>
      rw [tailChars_cons, ← ih y, List.map_cons, List.map_cons, List.intercalate_cons_cons]
      simp

theorem Closes.follows_tailChars {c : Char} (hc : Closes c) (xs : List α) (r : List Char) :
    Follows (tailChars f xs c r) := by
  cases xs with
  | nil => exact follows_of_mem (.inr (.inr hc)) r
  | cons x xs =>
      rw [tailChars_cons]
      exact follows_of_mem (.inl rfl) _

/-- Items are determined one by one, up to the bracket behind the last. -/
theorem map_eq_of_tailChars_eq {c : Char} (hc : Closes c) {r s : List Char}
    (h : ∀ a ∈ xs, ∀ b ∈ ys, Determines f g a b) (heq : tailChars f xs c r = tailChars f ys c s) :
    xs.map g = ys.map g ∧ r = s := by
  have hcomma : ∀ cs, ',' :: cs ≠ c :: r ∧ ',' :: cs ≠ c :: s := by
    rcases hc with rfl | rfl <;> simp
  induction xs generalizing ys with
  | nil =>
      cases ys with
      | nil => exact ⟨rfl, (List.cons.inj heq).2⟩
      | cons y ys =>
          rw [tailChars_nil, tailChars_cons] at heq
          exact absurd heq.symm (hcomma _).1
  | cons x xs ih =>
      cases ys with
      | nil =>
          rw [tailChars_nil, tailChars_cons] at heq
          exact absurd heq (hcomma _).2
      | cons y ys =>
          rw [tailChars_cons, tailChars_cons] at heq
          obtain ⟨hg, htail⟩ := h x (List.mem_cons_self ..) y (List.mem_cons_self ..) _ _
            (hc.follows_tailChars xs r) (hc.follows_tailChars ys s)
            (List.cons.inj (List.cons.inj heq).2).2
          obtain ⟨hmap, hrs⟩ := ih (fun a ha b hb =>
            h a (List.mem_cons_of_mem x ha) b (List.mem_cons_of_mem y hb)) htail
          exact ⟨by rw [List.map_cons, hg, hmap]; rfl, hrs⟩

/-- What stands between two brackets is determined, if no item starts with the closing one. -/
theorem map_eq_of_bracketed_eq {c : Char} (hc : Closes c) {r s : List Char}
    (h : ∀ a ∈ xs, ∀ b ∈ ys, Determines f g a b)
    (hxs : ∀ a ∈ xs, ∃ d ds, f a = d :: ds ∧ d ≠ c) (hys : ∀ b ∈ ys, ∃ d ds, f b = d :: ds ∧ d ≠ c)
    (heq : List.intercalate [',', ' '] (xs.map f) ++ c :: r =
      List.intercalate [',', ' '] (ys.map f) ++ c :: s) :
    xs.map g = ys.map g ∧ r = s := by
  -- An item of the one cannot stand where the other closes.
  have hhead : ∀ {z : α} {t u : List Char}, (∃ d ds, f z = d :: ds ∧ d ≠ c) →
      f z ++ t ≠ c :: u := by
    rintro z t u ⟨d, ds, hz, hne⟩ heq
    rw [hz] at heq
    exact hne (List.cons.inj heq).1
  cases xs with
  | nil =>
      cases ys with
      | nil => exact ⟨rfl, (List.cons.inj heq).2⟩
      | cons y ys =>
          rw [intercalate_append] at heq
          exact absurd heq.symm (hhead (hys y (List.mem_cons_self ..)))
  | cons x xs =>
      cases ys with
      | nil =>
          rw [intercalate_append] at heq
          exact absurd heq (hhead (hxs x (List.mem_cons_self ..)))
      | cons y ys =>
          rw [intercalate_append, intercalate_append] at heq
          obtain ⟨hg, htail⟩ := h x (List.mem_cons_self ..) y (List.mem_cons_self ..) _ _
            (hc.follows_tailChars xs r) (hc.follows_tailChars ys s) heq
          obtain ⟨hmap, hrs⟩ := map_eq_of_tailChars_eq hc (fun a ha b hb =>
            h a (List.mem_cons_of_mem x ha) b (List.mem_cons_of_mem y hb)) htail
          exact ⟨by rw [List.map_cons, hg, hmap]; rfl, hrs⟩

end Determines

namespace Value

/-! ## Integers and texts -/

theorem determines_integer (m n : Int64) :
    Determines (fun n : Int64 => Decimal.integerChars highMinus n.toInt) id m n := by
  intro r s hr hs heq
  -- The scanner takes the digits up to what may follow, whichever integer they are of.
  have hscan := (scan_integerChars m.toInt hr).symm.trans
    ((congrArg Numeral.scan heq).trans (scan_integerChars n.toInt hs))
  obtain ⟨hnumeral, hrest⟩ := Prod.mk.inj (Option.some.inj hscan)
  have hvalue := congrArg Numeral.intValue hnumeral
  rw [intValue_numeralOf, intValue_numeralOf] at hvalue
  exact ⟨Int64.toInt_inj.mp hvalue, hrest⟩

theorem not_mem_head?_of_follows {rest : List Char} (h : Follows rest) : '\'' ∉ rest.head? :=
  fun hmem => by simpa using h '\'' hmem

theorem determines_textChars (s t : String) : Determines textChars id s t := by
  intro r u hr hu heq
  rw [textChars_eq, textChars_eq, List.cons_append, List.cons_append, List.append_assoc,
    List.append_assoc] at heq
  obtain ⟨hlist, hrest⟩ := Quotation.doubled_append_inj (not_mem_head?_of_follows hr)
    (not_mem_head?_of_follows hu) (List.cons.inj heq).2
  exact ⟨String.toList_inj.mp hlist, hrest⟩

/-! ## Values -/

/-- The kind of the value that a first character announces. -/
def kindOfHead (c : Char) : Kind :=
  if c = '\'' then .text
  else if c = 'n' then .null
  else if c = '[' then .array
  else if c = '\x7b' then .map
  else .numeric

/-- The first character of a value tells its kind, and closes no container. -/
theorem exists_chars {v : Value} (hv : v.Valid) (hfree : v.FloatFree) :
    ∃ c cs, v.chars = c :: cs ∧ v.kind? = some (kindOfHead c) ∧ ¬Closes c := by
  cases v with
  | number n =>
      obtain ⟨m, rfl⟩ := hfree.exists_int
      obtain ⟨d, ds, hds⟩ := List.exists_cons_of_ne_nil (@Nat.toDigits_ne_nil m.toInt.natAbs 10)
      have hd : d.isDigit = true := isDigit_of_mem_toDigits (hds ▸ List.mem_cons_self ..)
      by_cases hneg : m.toInt < 0
      · refine ⟨highMinus, d :: ds, ?_, rfl, by simp [Closes, highMinus]⟩
        rw [chars, numberChars, Decimal.integerChars, if_pos hneg, hds]
      · have hne : ∀ e : Char, e.isDigit = false → d ≠ e := fun e => ne_of_isDigit hd
        refine ⟨d, ds, ?_, by simp [kindOfHead, kind?, hne], by simp [Closes, hne]⟩
        rw [chars, numberChars, Decimal.integerChars, if_neg hneg, hds]
  | text s => exact ⟨_, _, rfl, rfl, by simp [Closes]⟩
  | null => exact ⟨_, _, rfl, rfl, by simp [Closes]⟩
  | array o xs => exact ⟨_, _, rfl, rfl, by simp [Closes]⟩
  | map o es => exact ⟨_, _, rfl, rfl, by simp [Closes]⟩
  | foreign a => exact absurd hv (not_valid_foreign a)
  | tuple xs => exact absurd hv (not_valid_tuple xs)

theorem kind?_eq_of_chars {v w : Value} {r s : List Char} (hv : v.Valid) (hvf : v.FloatFree)
    (hw : w.Valid) (hwf : w.FloatFree) (h : v.chars ++ r = w.chars ++ s) : v.kind? = w.kind? := by
  obtain ⟨c, cs, hcs, hc, -⟩ := exists_chars hv hvf
  obtain ⟨d, ds, hds, hd, -⟩ := exists_chars hw hwf
  rw [hcs, hds] at h
  rw [hc, hd, (List.cons.inj h).1]

theorem determines_entry {e f : Key × Value} (he : ValidEntry e) (hf : ValidEntry f)
    (h : Determines chars copy e.2 f.2) :
    Determines (fun e : Key × Value => keyChars e.1 ++ ([':', ' '] ++ e.2.chars))
      (fun e => (e.1, e.2.copy)) e f := by
  obtain ⟨k, v⟩ := e
  obtain ⟨l, w⟩ := f
  obtain ⟨⟨m, rfl⟩, -⟩ := he
  obtain ⟨⟨n, rfl⟩, -⟩ := hf
  intro r s hr hs heq
  simp only [keyChars, List.append_assoc, List.cons_append, List.nil_append] at heq
  have hcolon : ∀ rest, Follows (':' :: rest) := follows_of_mem (.inr (.inl rfl))
  obtain ⟨rfl, hrest⟩ := determines_textChars m n _ _ (hcolon _) (hcolon _) heq
  obtain ⟨hvalue, hrs⟩ := h r s hr hs (List.cons.inj (List.cons.inj hrest).2).2
  exact ⟨Prod.ext rfl hvalue, hrs⟩

/-- What is written of two values without doubles, in front of what may follow, tells the values. -/
theorem determines_chars {v w : Value} (hv : v.Valid) (hvf : v.FloatFree) (hw : w.Valid)
    (hwf : w.FloatFree) : Determines chars copy v w := by
  induction v using induct generalizing w with
  | number n =>
      intro r s hr hs heq
      obtain ⟨n', rfl⟩ := eq_number_of_kind? (kind?_eq_of_chars hv hvf hw hwf heq).symm
      obtain ⟨m, rfl⟩ := hvf.exists_int
      obtain ⟨m', rfl⟩ := hwf.exists_int
      obtain ⟨rfl, hrest⟩ := determines_integer m m' r s hr hs heq
      exact ⟨rfl, hrest⟩
  | text t =>
      intro r s hr hs heq
      obtain ⟨t', rfl⟩ : ∃ t', w = .text t' := by
        cases w <;> first | exact ⟨_, rfl⟩ | cases kind?_eq_of_chars hv hvf hw hwf heq
      obtain ⟨rfl, hrest⟩ := determines_textChars t t' r s hr hs heq
      exact ⟨rfl, hrest⟩
  | null =>
      intro r s hr hs heq
      obtain rfl : w = .null := by
        cases w <;> first | rfl | cases kind?_eq_of_chars hv hvf hw hwf heq
      exact ⟨rfl, List.append_cancel_left heq⟩
  | array o xs ih =>
      intro r s hr hs heq
      obtain ⟨p, ys, rfl⟩ := eq_array_of_kind? (kind?_eq_of_chars hv hvf hw hwf heq).symm
      rw [valid_array_iff] at hv hw
      rw [floatFree_array_iff] at hvf hwf
      rw [chars, chars, itemChars_eq_map, itemChars_eq_map, List.append_assoc,
        List.append_assoc] at heq
      have hhead : ∀ zs : List Value, (∀ z ∈ zs, z.Valid) → (∀ z ∈ zs, z.FloatFree) →
          ∀ z ∈ zs, ∃ d ds, z.chars = d :: ds ∧ d ≠ ']' := by
        intro zs hvalid hfree z hz
        obtain ⟨d, ds, hd, -, hclose⟩ := exists_chars (hvalid z hz) (hfree z hz)
        exact ⟨d, ds, hd, fun heq => hclose (.inl heq)⟩
      obtain ⟨hcopy, hrest⟩ := map_eq_of_bracketed_eq (.inl rfl)
        (fun x hx y hy => ih x hx (hv x hx) (hvf x hx) (hw y hy) (hwf y hy))
        (hhead xs hv hvf) (hhead ys hw hwf) (List.cons.inj heq).2
      exact ⟨by rw [copy, copy, copyItems_eq_map, copyItems_eq_map, hcopy], hrest⟩
  | map o es ih =>
      intro r s hr hs heq
      obtain ⟨p, fs, rfl⟩ := eq_map_of_kind? (kind?_eq_of_chars hv hvf hw hwf heq).symm
      rw [valid_map_iff] at hv hw
      rw [floatFree_map_iff] at hvf hwf
      rw [chars, chars, entryChars_eq_map, entryChars_eq_map, List.append_assoc,
        List.append_assoc] at heq
      have hhead : ∀ gs : List (Key × Value), (∀ e ∈ gs, ValidEntry e) →
          ∀ e ∈ gs, ∃ d ds, keyChars e.1 ++ ([':', ' '] ++ e.2.chars) = d :: ds ∧ d ≠ '\x7d' := by
        rintro gs hvalid ⟨k, v⟩ he
        obtain ⟨⟨name, rfl⟩, -⟩ := hvalid _ he
        exact ⟨_, _, rfl, by decide⟩
      obtain ⟨hcopy, hrest⟩ := map_eq_of_bracketed_eq (.inr rfl)
        (fun e he f hf => determines_entry (hv e he) (hw f hf)
          (ih e he (hv e he).2 (hvf e he) (hw f hf).2 (hwf f hf)))
        (hhead es hv) (hhead fs hw) (List.cons.inj heq).2
      exact ⟨by rw [copy, copy, copyEntries_eq_map, copyEntries_eq_map, hcopy], hrest⟩
  | foreign a => exact absurd hv (not_valid_foreign a)
  | tuple xs => exact absurd hv (not_valid_tuple xs)

/-- Valid values without doubles, which are integers, texts, null, arrays and maps, can all be
written. Two of them that are written alike have the same contents, place by place and entry by
entry; if both are values that the language made, they are equal. -/
theorem format_injective {v w : Value} (hv : v.Valid) (hvf : v.FloatFree) (hw : w.Valid)
    (hwf : w.FloatFree) :
    ∃ a b, v.format = .ok a ∧ w.format = .ok b ∧
      (a = b → v.copy = w.copy ∧ (v.Native → w.Native → v = w)) := by
  refine ⟨v.render, w.render, hv.format, hw.format, fun heq => ?_⟩
  have hchars : v.chars ++ [] = w.chars ++ [] := by
    rw [List.append_nil, List.append_nil]
    exact String.ofList_injective heq
  have hnil : Follows [] := by simp [Follows]
  obtain ⟨hcopy, -⟩ := determines_chars hv hvf hw hwf [] [] hnil hnil hchars
  refine ⟨hcopy, fun hnv hnw => ?_⟩
  rw [← hnv.copy_eq, ← hnw.copy_eq, hcopy]

/-- A text that looks like the gap between two texts is not written as two texts are. -/
theorem format_injective_gap :
    ∃ a b, (vector [text "', '", null]).format = .ok a ∧
      (vector [text "", text "", null]).format = .ok b ∧ a ≠ b := by
  have hv : (vector [text "', '", null]).Valid := by simp
  have hw : (vector [text "", text "", null]).Valid := by simp
  have hvf : (vector [text "', '", null]).FloatFree := by
    refine .array (List.forall_mem_cons.mpr ⟨.text _, ?_⟩)
    exact List.forall_mem_singleton.mpr .null
  have hwf : (vector [text "", text "", null]).FloatFree := by
    refine .array (List.forall_mem_cons.mpr ⟨.text _, List.forall_mem_cons.mpr ⟨.text _, ?_⟩⟩)
    exact List.forall_mem_singleton.mpr .null
  obtain ⟨a, b, ha, hb, hinj⟩ := format_injective hv hvf hw hwf
  refine ⟨a, b, ha, hb, fun hab => ?_⟩
  have hcopy := (hinj hab).1
  simp [copy, copyItems] at hcopy

end Value

end Glyph
