/-!
What can be wrong with a query.
-/
namespace Concordance.Query

inductive Error where
  /-- No digits follow a `/`; the position counts the characters up to there. -/
  | missingDistance (position : Nat)
  /-- The digits after a `/` name no number of 32 bits. -/
  | distanceTooLarge (digits : String)
  | orWithoutLeft
  | withinWithoutLeft (distance : UInt32)
  | withinWithoutRight (distance : UInt32)
  deriving DecidableEq, Repr

def Error.message : Error → String
  | .missingDistance position => s!"Expected a distance after '/' at position {position}"
  | .distanceTooLarge digits => s!"Invalid proximity distance: {digits}"
  | .orWithoutLeft => "OR is missing its left operand"
  | .withinWithoutLeft distance => s!"/{distance} must follow a term"
  | .withinWithoutRight distance => s!"/{distance} must be followed by a term"

end Concordance.Query
