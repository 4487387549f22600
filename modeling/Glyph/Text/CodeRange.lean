/-!
# Ranges of code points

A property of characters is stored as a list of closed ranges of code points. The lists of the
sibling modules start at U+0080: the ASCII part of each property is written out as a test, so that
the common case is short both to run and to reason about.
-/

namespace Glyph

/-- A closed range of code points, first and last. -/
abbrev CodeRange := Nat × Nat

namespace CodeRange

def covers (r : CodeRange) (n : Nat) : Bool := r.1 ≤ n && n ≤ r.2

def anyCovers (rs : List CodeRange) (n : Nat) : Bool := rs.any fun r => r.covers n

theorem anyCovers_iff (rs : List CodeRange) (n : Nat) :
    anyCovers rs n = true ↔ ∃ r ∈ rs, r.1 ≤ n ∧ n ≤ r.2 := by
  simp [anyCovers, covers]

end CodeRange

end Glyph
