import Concordance.Decimal.Shortest
/-!
The settings of a search.
-/
namespace Concordance

/-- The settings of a search. -/
structure Settings where
  /-- The length of the pieces by which misspelt words find their neighbours. -/
  gramSize : Nat := 2
  /-- With fewer documents than this, a term is taken for misspelt. -/
  minResults : Nat := 1
  /-- How slowly repeats of a word stop to add to a score. -/
  saturation : Float := 2.0
  /-- How much longer or shorter than the misspelt word a correction may be. -/
  lengthTolerance : Nat := 3

inductive Settings.Error where
  | gramSizeZero
  | saturationOutside (saturation : Float)

namespace Settings

def minSaturation : Float := 1.2

def maxSaturation : Float := 2.0

def Error.message : Error → String
  | gramSizeZero => "k-gram size must be at least 1"
  | saturationOutside x =>
    s!"saturation constant {Decimal.plain.write x} is outside " ++
      s!"[{Decimal.plain.write minSaturation}, {Decimal.plain.write maxSaturation}]"

/-- Accepts a positive gram size and a saturation within its bounds. -/
def validate (s : Settings) : Except Error Unit :=
  if s.gramSize = 0 then .error .gramSizeZero
  else if minSaturation ≤ s.saturation && s.saturation ≤ maxSaturation then .ok ()
  else .error (.saturationOutside s.saturation)

end Settings
end Concordance
