/-!
# Sets of characters as ranges

A property of characters is kept as the ascending list of the inclusive ranges where it holds.
-/

namespace TagsFile.Text

/-- Ascending inclusive ranges of code points. -/
abbrev Ranges := List (Nat × Nat)

namespace Ranges

/-- The start of the range that holds the code point `n`; the search ends at the first range that
lies beyond it. -/
def search (n : Nat) : Ranges → Option Nat
  | [] => none
  | (lo, hi) :: rest => if n < lo then none else if n ≤ hi then some lo else search n rest

/-- The start of the range that `c` lies in. -/
def find? (r : Ranges) (c : Char) : Option Nat := search c.toNat r

/-- Whether `c` lies in one of the ranges. -/
def contains (r : Ranges) (c : Char) : Bool := (r.find? c).isSome

end Ranges
end TagsFile.Text
