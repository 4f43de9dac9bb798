import Concordance.Decimal.Places
import Concordance.Evaluation.Judgements
import Concordance.Evaluation.Metrics
import Concordance.Json.Value
/-!
The report on how well a set of queries retrieves what was judged relevant to them.
-/
namespace Concordance

/-- The outcome among the first `cutoff` documents. -/
structure CutoffReport where
  cutoff : Nat
  confusion : Confusion

structure QueryReport where
  query : String
  retrieved : Nat
  relevant : Nat
  averagePrecision : Option Float
  rPrecision : Option Float
  cutoffs : List CutoffReport

structure Report where
  queries : List QueryReport
  meanAveragePrecision : Option Float

/-- The report on one query with its ranked and its relevant documents. -/
def QueryReport.of (cutoffs : List Nat) (query : String) (ranked relevant : List DocId) :
    QueryReport where
  query := query
  retrieved := ranked.length
  relevant := relevant.length
  averagePrecision := Concordance.averagePrecision ranked relevant
  rPrecision := Concordance.rPrecision ranked relevant
  cutoffs := cutoffs.map fun k => ⟨k, Concordance.confusion (ranked.take k) relevant⟩

section
variable {ε : Type} (cutoffs : List Nat) (retrieve : String → Except ε (List DocId))
  (judgements : Judgements)

/-- The reports on the queries that have judgements, where `retrieve` ranks the documents for the
text of one. -/
def QueryReport.all : List (String × String) → Except ε (List QueryReport)
  | [] => .ok []
  | (query, text) :: queries =>
    match judgements[query]? with
    | none => all queries
    | some relevant => do
      let ranked ← retrieve text
      return QueryReport.of cutoffs query ranked relevant :: (← all queries)

/-- The report on the queries that have judgements. There is none where no query has. -/
def Report.of? (queries : List (String × String)) : Except ε (Option Report) := do
  let reports ← QueryReport.all cutoffs retrieve judgements queries
  if reports.isEmpty then return none
  return some ⟨reports, Concordance.meanAveragePrecision (reports.filterMap (·.averagePrecision))⟩

end

/-! ## Text -/

/-- A metric with four decimals. -/
def metricText : Option Float → String
  | some x => Decimal.fixed 4 x
  | none => "-"

def CutoffReport.text (c : CutoffReport) : String :=
  s!"\tP@{c.cutoff}={metricText c.confusion.precision}" ++
    s!"\tR@{c.cutoff}={metricText c.confusion.sensitivity}" ++
    s!"\tF1@{c.cutoff}={metricText (c.confusion.fScore 1.0)}"

def QueryReport.text (q : QueryReport) : String :=
  s!"{q.query}\tAP={metricText q.averagePrecision}\tR-P={metricText q.rPrecision}" ++
    String.join (q.cutoffs.map CutoffReport.text) ++ "\n"

def Report.text (r : Report) : String :=
  String.join (r.queries.map QueryReport.text) ++ s!"MAP\t{metricText r.meanAveragePrecision}\n"

/-! ## JSON -/

open Json (Value)

def Confusion.json (c : Confusion) : Value :=
  .record [("tp", .nat c.truePositives), ("fp", .nat c.falsePositives),
    ("fn_", .nat c.falseNegatives)]

def CutoffReport.json (c : CutoffReport) : Value :=
  .record [("k", .nat c.cutoff), ("confusion", c.confusion.json),
    ("precision", .float? c.confusion.precision), ("recall", .float? c.confusion.sensitivity),
    ("f1", .float? (c.confusion.fScore 1.0))]

def QueryReport.json (q : QueryReport) : Value :=
  .record [("query_id", .text q.query), ("retrieved", .nat q.retrieved),
    ("relevant", .nat q.relevant), ("average_precision", .float? q.averagePrecision),
    ("r_precision", .float? q.rPrecision), ("cutoffs", .array (q.cutoffs.map CutoffReport.json))]

def Report.json (r : Report) : Value :=
  .record [("queries", .array (r.queries.map QueryReport.json)),
    ("mean_average_precision", .float? r.meanAveragePrecision)]

end Concordance
