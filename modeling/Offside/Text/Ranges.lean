/-!
# Text/Ranges — sets of code points given by ascending ranges

A property of characters is a list of disjoint inclusive ranges in ascending order, so that a
look-up stops at the first range that starts beyond the code point.  The long ones are written by
the lengths of their runs.
-/

namespace Offside.Text

/-- Inclusive ranges of code points, disjoint and in ascending order. -/
abbrev Ranges := List (Nat × Nat)

namespace Ranges

/-- Whether a range holds the code point `n`. -/
def covers : Ranges → Nat → Bool
  | [], _ => false
  | (low, high) :: later, n => decide (low ≤ n) && (decide (n ≤ high) || covers later n)

/-- The ranges from `start` on, given by how many code points lie before a range and how many are in
it, in turn. -/
def ofRuns (start : Nat) : List Nat → Ranges
  | before :: inside :: later =>
    (start + before, start + before + inside - 1) :: ofRuns (start + before + inside) later
  | _ => []

example : ofRuns 0 [65, 26, 6, 26] = [(0x41, 0x5A), (0x61, 0x7A)] := rfl

end Ranges

end Offside.Text
