import Glyph.Token.Lexer
import Glyph.Value.Render

/-!
# Quoted texts

Between quotation marks a mark that belongs to the text is written twice. `doubled q` is that
writing, for either mark `q`, and `halved q` takes it back. The mark that closes a text is the first
one that is not doubled, so a text is known from its quotation whatever stands behind it, as long as
that is not a mark once more (`doubled_append_inj`).
-/

namespace Glyph

namespace Quotation

variable {q : Char} {cs ds r s : List Char}

/-- The characters with every mark `q` written twice. -/
def doubled (q : Char) : List Char → List Char
  | [] => []
  | c :: cs => if c = q then q :: q :: doubled q cs else c :: doubled q cs

/-- The characters with every pair of marks `q` as one. -/
def halved (q : Char) : List Char → List Char
  | c :: d :: cs => if c = q ∧ d = q then q :: halved q cs else c :: halved q (d :: cs)
  | cs => cs

theorem value_doubled (cs : List Char) : Value.doubled cs = doubled '\'' cs := by
  induction cs with
  | nil => rfl
  | cons c cs ih => rw [Value.doubled, doubled, ih]

theorem doubled_cons (q c : Char) (cs : List Char) :
    doubled q (c :: cs) = c :: ((if c = q then [q] else []) ++ doubled q cs) := by
  rw [doubled]
  by_cases hc : c = q
  · rw [if_pos hc, if_pos hc, hc]
    rfl
  · rw [if_neg hc, if_neg hc]
    rfl

theorem halved_cons_of_ne {c : Char} (hc : c ≠ q) (cs : List Char) :
    halved q (c :: cs) = c :: halved q cs := by
  cases cs with
  | nil => rfl
  | cons d cs => rw [halved, if_neg fun h => hc h.1]

theorem halved_doubled (q : Char) (cs : List Char) : halved q (doubled q cs) = cs := by
  induction cs with
  | nil => rfl
  | cons c cs ih =>
      rw [doubled]
      by_cases hc : c = q
      · rw [if_pos hc, halved, if_pos ⟨rfl, rfl⟩, ih, hc]
      · rw [if_neg hc, halved_cons_of_ne hc, ih]

/-- A mark that no other follows closes a text, and cannot be one of its characters. -/
theorem doubled_cons_append_ne (hr : q ∉ r.head?) (c : Char) :
    doubled q (c :: cs) ++ s ≠ q :: r := by
  rw [doubled_cons]
  rintro heq
  obtain ⟨rfl, hrest⟩ := List.cons.inj heq
  rw [if_pos rfl] at hrest
  exact hr (by rw [← hrest]; rfl)

/-- A text and what follows its closing mark are known from its quotation. -/
theorem doubled_append_inj (hr : q ∉ r.head?) (hs : q ∉ s.head?)
    (h : doubled q cs ++ q :: r = doubled q ds ++ q :: s) : cs = ds ∧ r = s := by
  induction cs generalizing ds with
  | nil =>
      cases ds with
      | nil => exact ⟨rfl, (List.cons.inj h).2⟩
      | cons d ds => exact absurd h.symm (doubled_cons_append_ne hr d)
  | cons c cs ih =>
      cases ds with
      | nil => exact absurd h (doubled_cons_append_ne hs c)
      | cons d ds =>
          rw [doubled_cons, doubled_cons, List.cons_append, List.cons_append] at h
          obtain ⟨rfl, hrest⟩ := List.cons.inj h
          rw [List.append_assoc, List.append_assoc] at hrest
          obtain ⟨rfl, hrs⟩ := ih (List.append_cancel_left hrest)
          exact ⟨rfl, hrs⟩

end Quotation

/-! ## Quoted texts in the lexer -/

namespace Lexer

open Quotation

variable {q : Char} {cs r : List Char}

theorem stringBody_cons {q c : Char} (h : c ≠ q) (cs : List Char) :
    stringBody q (c :: cs) =
      if isLineEnd c then .error 0
      else
        match stringBody q cs with
        | .ok (body, n) => .ok (c :: body, n + 1)
        | .error n => .error (n + 1) := by
  rw [stringBody.eq_def]
  exact if_neg h

theorem stringBody_doubled (hcs : ∀ c ∈ cs, isLineEnd c = false) (hr : q ∉ r.head?) :
    stringBody q (doubled q cs ++ q :: r) = .ok (cs, (doubled q cs).length + 1) := by
  induction cs with
  | nil =>
      cases r with
      | nil => simp [doubled, stringBody]
      | cons d r =>
          have hd : d ≠ q := fun heq => hr (by simp [heq])
          simp [doubled, stringBody, hd]
  | cons c cs ih =>
      obtain ⟨hc, hcs'⟩ := List.forall_mem_cons.mp hcs
      by_cases hq : c = q
      -- A mark that is doubled is one character of the text; any other stands for itself.
      · subst hq
        simp [doubled, stringBody, ih hcs']
      · simp [doubled, stringBody_cons, hq, hc, ih hcs']

theorem exists_of_stringBody {body : List Char} {n : Nat} (h : stringBody q cs = .ok (body, n)) :
    ∃ rest, cs = doubled q body ++ q :: rest ∧ n = (doubled q body).length + 1 ∧
      q ∉ rest.head? ∧ ∀ c ∈ body, c ≠ q → isLineEnd c = false := by
  fun_induction stringBody q cs generalizing body n with
  | case2 es body' n' hes ih =>
      cases h
      obtain ⟨rest, hds, hn, hrest, hbody⟩ := ih hes
      exact ⟨rest, by simp [doubled, hds], by simp [doubled, hn], hrest,
        List.forall_mem_cons.mpr ⟨fun hne => absurd rfl hne, hbody⟩⟩
  | case4 d es hd =>
      cases h
      exact ⟨d :: es, rfl, rfl, by simpa using hd, by simp⟩
  | case5 =>
      cases h
      exact ⟨[], rfl, rfl, by simp, by simp⟩
  | case7 c es hc hline body' n' hes ih =>
      cases h
      obtain ⟨rest, hds, hn, hrest, hbody⟩ := ih hes
      refine ⟨rest, by simp [doubled, hc, hds], by simp [doubled, hc, hn], hrest, ?_⟩
      exact List.forall_mem_cons.mpr ⟨fun _ => by simpa using hline, hbody⟩
  | _ => cases h

end Lexer

end Glyph
