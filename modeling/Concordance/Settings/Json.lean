import Concordance.Json.Decode
import Concordance.Settings
/-!
Settings written as JSON: a record of all four settings.
-/
namespace Concordance.Settings

/-- Settings of a JSON value, not validated. -/
def ofJson? (value : Json.Value) : Option Settings := do
  match ← value.fields? ["kgram_size", "min_results", "saturation", "length_tolerance"] with
  | [some gramSize, some minResults, some saturation, some lengthTolerance] =>
    return {
      gramSize := ← gramSize.natBelow? UInt64.size
      minResults := ← minResults.natBelow? UInt64.size
      saturation := ← saturation.toFloat?
      lengthTolerance := ← lengthTolerance.natBelow? UInt64.size }
  | _ => none

def readJson? (text : String) : Option Settings := do
  ofJson? (← Json.read? text)

end Concordance.Settings
