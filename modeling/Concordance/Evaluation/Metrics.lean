import Concordance.Ascending
import Concordance.DocSet
/-!
How well retrieved documents match the relevant ones. A ratio whose divisor is zero has no value.
-/
namespace Concordance

/-- The outcome of a retrieval, in numbers of documents. -/
structure Confusion where
  /-- Retrieved and relevant. -/
  truePositives : Nat
  /-- Retrieved, but not relevant. -/
  falsePositives : Nat
  /-- Relevant, but not retrieved. -/
  falseNegatives : Nat
  deriving DecidableEq, Repr

def ratio (numerator denominator : Nat) : Option Float :=
  if denominator = 0 then none else some (numerator.toFloat / denominator.toFloat)

namespace Confusion

/-- The share of the retrieved documents that are relevant. -/
def precision (c : Confusion) : Option Float :=
  ratio c.truePositives (c.truePositives + c.falsePositives)

/-- The share of the relevant documents that are retrieved, also called recall. -/
def sensitivity (c : Confusion) : Option Float :=
  ratio c.truePositives (c.truePositives + c.falseNegatives)

/-- The weighted harmonic mean of precision and recall, in which recall counts `beta` times as much
as precision. -/
def fScore (c : Confusion) (beta : Float) : Option Float := do
  let p ← c.precision
  let r ← c.sensitivity
  let weight := beta * beta
  let denominator := weight * p + r
  if denominator == 0.0 then none
  else some ((1.0 + weight) * p * r / denominator)

end Confusion

/-- Compares retrieved with relevant documents. Order and repeats do not matter. -/
def confusion (retrieved relevant : List DocId) : Confusion :=
  let retrieved := ascending retrieved
  let relevant := ascending relevant
  let both := (DocSet.inter retrieved relevant).length
  ⟨both, retrieved.length - both, relevant.length - both⟩

/-- The precision of as many of the first documents as there are judgements. -/
def rPrecision (ranked relevant : List DocId) : Option Float :=
  (confusion (ranked.take relevant.length) relevant).precision

/-- Adds to `sum`, for each relevant document that `seen` does not hold, the precision at its rank,
where `hits` such documents stand among the first `rank`. -/
def precisionSum (relevant : List DocId) :
    (seen : List DocId) → (hits rank : Nat) → (sum : Float) → List DocId → Float
  | _, _, _, sum, [] => sum
  | seen, hits, rank, sum, doc :: ranked =>
    if relevant.contains doc && !seen.contains doc then
      precisionSum relevant (doc :: seen) (hits + 1) (rank + 1)
        (sum + (hits + 1).toFloat / (rank + 1).toFloat) ranked
    else precisionSum relevant seen hits (rank + 1) sum ranked

/-- The mean over the relevant documents of the precision at their ranks. -/
def averagePrecision (ranked relevant : List DocId) : Option Float :=
  if relevant.isEmpty then none
  else some (precisionSum relevant [] 0 0 0.0 ranked / (ascending relevant).length.toFloat)

/-- The mean of some scores. The sum begins with negative zero, which changes no score. -/
def meanAveragePrecision (scores : List Float) : Option Float :=
  if scores.isEmpty then none
  else some (scores.foldl (· + ·) (-0.0) / scores.length.toFloat)

end Concordance
