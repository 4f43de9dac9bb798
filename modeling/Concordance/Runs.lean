/-!
Runs of equal keys in a list of pairs.
-/
namespace Concordance

/-- Puts a pair in front of a list of runs. -/
def consRun {κ α : Type} [DecidableEq κ] (key : κ) (value : α) :
    List (κ × List α) → List (κ × List α)
  | [] => [(key, [value])]
  | (first, values) :: rest =>
    if key = first then (first, value :: values) :: rest
    else (key, [value]) :: (first, values) :: rest

/-- Neighbouring pairs with the same key, gathered under that key. -/
def runs {κ α : Type} [DecidableEq κ] (pairs : List (κ × α)) : List (κ × List α) :=
  pairs.foldr (fun (key, value) => consRun key value) []

end Concordance
