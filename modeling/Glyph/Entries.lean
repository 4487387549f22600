/-!
# Entries in order of insertion

A map and an environment are both lists of pairs in which every key occurs once, in the order in
which the keys were first inserted. Storing under a key that is there keeps its place; a new key
goes to the end. Look-up is `List.lookup`, and `keys` is the view that the order is stated on.
-/

namespace Glyph.Entries

variable {κ ν : Type} [BEq κ]

def keys (es : List (κ × ν)) : List κ := es.map Prod.fst

def has (k : κ) (es : List (κ × ν)) : Bool := (es.lookup k).isSome

/-- Stores a value under a key: in place where the key occurs, at the end otherwise. -/
def insert (k : κ) (v : ν) : List (κ × ν) → List (κ × ν)
  | [] => [(k, v)]
  | (l, w) :: es => if k == l then (l, v) :: es else (l, w) :: insert k v es

def erase (k : κ) (es : List (κ × ν)) : List (κ × ν) := es.filter fun e => !(k == e.1)

/-- The entries that storing a list of pairs one by one gives. -/
def ofPairs (ps : List (κ × ν)) : List (κ × ν) := ps.foldl (fun es p => insert p.1 p.2 es) []

omit [BEq κ] in
@[simp] theorem keys_nil : keys ([] : List (κ × ν)) = [] := rfl

omit [BEq κ] in
@[simp] theorem keys_cons (e : κ × ν) (es : List (κ × ν)) : keys (e :: es) = e.1 :: keys es := rfl

theorem lookup_insert_self [LawfulBEq κ] (k : κ) (v : ν) (es : List (κ × ν)) :
    (insert k v es).lookup k = some v := by
  induction es with
  | nil => rw [insert, List.lookup_cons_self]
  | cons e es ih =>
      obtain ⟨a, b⟩ := e
      by_cases h : k == a
      · rw [insert, if_pos h, List.lookup_cons, h]
      · rw [insert, if_neg h, List.lookup_cons, Bool.eq_false_iff.mpr h]
        exact ih

theorem lookup_insert_of_ne [LawfulBEq κ] {k l : κ} (h : l ≠ k) (v : ν) (es : List (κ × ν)) :
    (insert k v es).lookup l = es.lookup l := by
  have hl : (l == k) = false := beq_eq_false_iff_ne.mpr h
  induction es with
  | nil => rw [insert, List.lookup_cons, hl]
  | cons e es ih =>
      obtain ⟨a, b⟩ := e
      by_cases hk : k == a
      · obtain rfl : k = a := eq_of_beq hk
        rw [insert, if_pos hk, List.lookup_cons, List.lookup_cons, hl]
      · rw [insert, if_neg hk, List.lookup_cons, List.lookup_cons, ih]

/-- Storing under a key that occurs keeps the keys and their order. -/
theorem keys_insert_of_mem [LawfulBEq κ] {k : κ} {es : List (κ × ν)} (h : k ∈ keys es) (v : ν) :
    keys (insert k v es) = keys es := by
  induction es with
  | nil => cases h
  | cons e es ih =>
      obtain ⟨a, b⟩ := e
      by_cases hk : k == a
      · rw [insert, if_pos hk, keys_cons, keys_cons]
      · have hne : k ≠ a := fun he => hk (beq_iff_eq.mpr he)
        have hmem : k ∈ keys es := (List.mem_cons.mp h).resolve_left hne
        rw [insert, if_neg hk, keys_cons, keys_cons, ih hmem]

/-- A new key goes to the end. -/
theorem keys_insert_of_not_mem [LawfulBEq κ] {k : κ} {es : List (κ × ν)} (h : k ∉ keys es)
    (v : ν) : keys (insert k v es) = keys es ++ [k] := by
  induction es with
  | nil => rfl
  | cons e es ih =>
      obtain ⟨a, b⟩ := e
      have hk : ¬(k == a) = true := fun he => h (List.mem_cons.mpr (.inl (eq_of_beq he)))
      have hmem : k ∉ keys es := fun hm => h (List.mem_cons.mpr (.inr hm))
      rw [insert, if_neg hk, keys_cons, keys_cons, ih hmem, List.cons_append]

end Glyph.Entries
