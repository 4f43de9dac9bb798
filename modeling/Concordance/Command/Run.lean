import Concordance.Command.Arguments
import Concordance.Corpus.Load
import Concordance.Evaluation.Report
import Concordance.Retrieval.Boolean
import Concordance.Retrieval.Score
/-!
The program as a function: from its arguments and the files that it can see to what it prints and
how it ends. It prints only once nothing can fail any more.
-/
namespace Concordance.Command

open Json (Value)

inductive Failure where
  /-- An error, and what was attempted. -/
  | error (attempt : Option String) (cause : Error)
  /-- No query of an evaluation has judgements. -/
  | noJudgedQuery
  /-- The program is stopped, for memory that it needs to rank documents is not there. -/
  | stopped (cause : Shortage)

namespace Failure

/-- The wording of the failure. Where a file cannot be read, its cause is named twice. -/
def message : Failure → String
  | error attempt cause =>
    let reason := match cause with
      | .file e => s!"{cause.message}: {e.message}"
      | _ => cause.message
    match attempt with
    | some attempt => s!"{attempt}: {reason}"
    | none => reason
  | noJudgedQuery => "no query has relevance judgements"
  | stopped cause =>
    if cause.bytes < 1 <<< 63 then s!"memory allocation of {cause.bytes} bytes failed"
    else "capacity overflow"

/-- The exit code: 2 where the user is to blame, and 1 otherwise. A program that is stopped chooses
no code; a request that is too large for any memory ends it with 101, and any other with the signal
6, for which a shell says 134. -/
def exitCode : Failure → UInt8
  | error _ cause => if cause.kind.isUserError then 2 else 1
  | noJudgedQuery => 1
  | stopped cause => if cause.bytes < 1 <<< 63 then 134 else 101

end Failure

inductive Outcome where
  /-- The arguments are malformed. -/
  | usage
  | failed (failure : Failure)
  | printed (output : String)

namespace Outcome

def exitCode : Outcome → UInt8
  | usage => 2
  | failed failure => failure.exitCode
  | printed _ => 0

def output : Outcome → String
  | printed output => output
  | usage | failed _ => ""

end Outcome

/-! ## Printing -/

def document (value : Value) : String := value.pretty 0 ++ "\n"

def showDocs (json : Bool) (docs : List DocId) : String :=
  if json then document (.array (docs.map fun doc => .nat doc.toNat))
  else String.join (docs.map fun doc => s!"{doc}\n")

def showRanked (json : Bool) (results : List Ranked) : String :=
  if json then
    document (.array (results.map fun r =>
      .record [("doc_id", .nat r.doc.toNat), ("score", .float r.score.toFloat)]))
  else String.join (results.map fun r => s!"{r.doc}\t{Decimal.fixed 6 r.score.toFloat}\n")

def showReport (json : Bool) (report : Report) : String :=
  if json then document report.json else report.text

/-! ## Tasks -/

/-- Names what was attempted in the failure. -/
def attempt {α : Type} (what : String) (result : Except Error α) : Except Failure α :=
  result.mapError (.error (some what))

def ranked (memory : Memory) (index : Index) (settings : Settings) (topK : Option Nat)
    (query : String) : Except Failure (List Ranked) :=
  (index.retrieveUpTo memory settings topK query).mapError .stopped

def evaluate (files : Files) (memory : Memory) (index : Index) (settings : Settings)
    (queries judgements : String) (topK : Option Nat) (cutoffs : List Nat) :
    Except Failure Report := do
  let texts ← attempt s!"failed to read queries from {queries}" (files.readQueries queries)
  let judged ← attempt s!"failed to read judgements from {judgements}"
    (files.readJudgements judgements)
  let retrieve := fun text => return (← ranked memory index settings topK text).map (·.doc)
  match ← Report.of? cutoffs retrieve judged texts with
  | some report => .ok report
  | none => .error .noJudgedQuery

def perform (files : Files) (memory : Memory) (index : Index) (settings : Settings)
    (json : Bool) : Task → Except Failure String
  | .search query => do
    return showDocs json (← (index.search settings query).mapError (.error none))
  | .rank query topK => do
    return showRanked json (← ranked memory index settings topK query)
  | .evaluate queries judgements topK cutoffs => do
    return showReport json
      (← evaluate files memory index settings queries judgements topK cutoffs)

/-- What a run meets with beside its files and arguments. -/
structure Machine where
  memory : Memory
  order : TableOrder

/-- The output of the program. The settings are checked before any file is read. -/
def execute (files : Files) (machine : Machine) (arguments : Arguments) :
    Except Failure String := do
  (arguments.settings.validate).mapError fun e => .error none (.settings e)
  let index ← attempt s!"failed to load corpus from {arguments.corpus}"
    (files.loadCorpus machine.order arguments.corpus)
  perform files machine.memory index arguments.settings arguments.json arguments.task

/-- How the program ends for these arguments. -/
def run (files : Files) (machine : Machine) (env : Environment) (args : List String) : Outcome :=
  match Arguments.ofArgs? env args with
  | none => .usage
  | some arguments =>
    match execute files machine arguments with
    | .ok output => .printed output
    | .error failure => .failed failure

end Concordance.Command
