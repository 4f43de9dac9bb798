/-!
Sets of code points, written as ascending lists of disjoint inclusive ranges.
-/
namespace Concordance

/-- Membership in an ascending list of disjoint inclusive ranges: below the first range there is
nothing, above it the rest decides. -/
def inRanges : List (Nat × Nat) → Nat → Bool
  | [], _ => false
  | (low, high) :: rest, n => low ≤ n && (n ≤ high || inRanges rest n)

end Concordance
