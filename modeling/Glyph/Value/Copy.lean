import Glyph.Value.Basic

/-!
# Copies and equality

A copy of a value has the same contents in native containers, at every depth. What is foreign and no
container is kept as it is.

Equality of values takes the entries of maps in any order, keeps integers and doubles apart, and
compares doubles as numbers.
-/

namespace Glyph.Value

mutual

def copy : Value → Value
  | array _ xs => .vector (copyItems xs)
  | map _ es => .record (copyEntries es)
  | number n => number n
  | text s => text s
  | null => null
  | foreign a => foreign a
  | tuple xs => tuple xs

def copyItems : List Value → List Value
  | [] => []
  | x :: xs => x.copy :: copyItems xs

def copyEntries : List (Key × Value) → List (Key × Value)
  | [] => []
  | (k, v) :: es => (k, v.copy) :: copyEntries es

end

theorem copyItems_eq_map (xs : List Value) : copyItems xs = xs.map copy := by
  induction xs with
  | nil => rfl
  | cons x xs ih => simp [copyItems, ih]

theorem copyEntries_eq_map (es : List (Key × Value)) :
    copyEntries es = es.map fun e => (e.1, e.2.copy) := by
  induction es with
  | nil => rfl
  | cons e es ih => simp [copyEntries, ih]

mutual

theorem copy_copy (v : Value) : v.copy.copy = v.copy := by
  cases v with
  | array o xs => simp only [copy, Value.vector, copyItems_copyItems xs]
  | map o es => simp only [copy, Value.record, copyEntries_copyEntries es]
  | number n => rfl
  | text s => rfl
  | null => rfl
  | foreign a => rfl
  | tuple xs => rfl

theorem copyItems_copyItems (xs : List Value) : copyItems (copyItems xs) = copyItems xs := by
  cases xs with
  | nil => rfl
  | cons x xs => simp only [copyItems, copy_copy x, copyItems_copyItems xs]

theorem copyEntries_copyEntries (es : List (Key × Value)) :
    copyEntries (copyEntries es) = copyEntries es := by
  cases es with
  | nil => rfl
  | cons e es =>
      obtain ⟨k, v⟩ := e
      simp only [copyEntries, copy_copy v, copyEntries_copyEntries es]

end

mutual

def same : Value → Value → Bool
  | number m, number n => m.same n
  | text s, text t => s == t
  | null, null => true
  | array _ xs, array _ ys => sameItems xs ys
  | map _ es, map _ fs => es.length == fs.length && sameEntries es fs
  | foreign a, foreign b => a.same b
  | tuple xs, tuple ys => sameItems xs ys
  | _, _ => false

def sameItems : List Value → List Value → Bool
  | [], [] => true
  | x :: xs, y :: ys => x.same y && sameItems xs ys
  | _, _ => false

/-- Whether every entry of the first map has an equal one in the second. -/
def sameEntries : List (Key × Value) → List (Key × Value) → Bool
  | [], _ => true
  | (k, v) :: es, fs =>
    match fs.lookup k with
    | some w => v.same w && sameEntries es fs
    | none => false

end

end Glyph.Value
