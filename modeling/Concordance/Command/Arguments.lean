import Concordance.Command.Switch
import Concordance.Decimal.Reading
import Concordance.Settings
import Concordance.Text.Pieces
/-!
The arguments of the program. General switches come first, then the name of a task with its own
switches and words. A switch that is not given takes its value from the environment.
-/
namespace Concordance.Command

/-- The environment variables of the program, with their values. -/
abbrev Environment := List (String × String)

/-- What the program is to do. -/
inductive Task where
  /-- Boolean retrieval. -/
  | search (query : String)
  /-- Ranked retrieval. -/
  | rank (query : String) (topK : Option Nat)
  /-- Ranked retrieval of many queries, compared with judgements. -/
  | evaluate (queries judgements : String) (topK : Option Nat) (cutoffs : List Nat)

/-- The arguments of the program. -/
structure Arguments where
  corpus : String
  settings : Settings
  json : Bool
  task : Task

/-! ## Reading values -/

/-- Reads the value of a switch: the one given, else that of its environment variable, else the
default. There is no result where the value found is malformed. -/
def valueOf {α : Type} (read? : String → Option α) (env : Environment) (s : Split)
    (name envName : String) (default : Option α) : Option α :=
  match s.values name, env.lookup ("BOOLSEARCH_" ++ envName) with
  | value :: _, _ => read? value
  | [], some value => read? value
  | [], none => default

/-- Reads a path, which is not empty. -/
def path? (text : String) : Option String := if text = "" then none else some text

/-- Reads a number of 64 bits. -/
def count? (text : String) : Option Nat := Decimal.natBelow? UInt64.size text

def bool? : String → Option Bool
  | "true" => some true
  | "false" => some false
  | _ => none

/-- Reads numbers between commas. -/
def counts? (text : String) : Option (List Nat) :=
  (pieces (· == ',') text.toList).mapM fun piece => count? (String.ofList piece)

/-! ## Tasks -/

def generalSwitches : List Switch := [
  { long := "corpus" },
  { long := "kgram-size", short := some 'k' },
  { long := "min-results", short := some 'r' },
  { long := "saturation" },
  { long := "json", takesValue := false }]

def topKSwitch : Switch := { long := "top-k" }

def evaluationSwitches : List Switch := [
  { long := "queries" },
  { long := "qrels" },
  topKSwitch,
  { long := "cutoffs", repeatable := true }]

def topKOf (env : Environment) (s : Split) : Option (Option Nat) :=
  valueOf (fun text => (count? text).map some) env s "top-k" "TOP_K" (some none)

def cutoffsOf (s : Split) : Option (List Nat) :=
  match s.values "cutoffs" with
  | [] => some [5, 10, 20, 50]
  | texts => (texts.mapM counts?).map List.flatten

def Task.ofArgs? (env : Environment) : List String → Option Task
  | "search" :: args => do
    let (s, _) ← split [] false {} args
    match s.words with
    | [query] => return .search query
    | _ => none
  | "rank" :: args => do
    let (s, _) ← split [topKSwitch] false {} args
    match s.words with
    | [query] => return .rank query (← topKOf env s)
    | _ => none
  | "evaluate" :: args => do
    let (s, _) ← split evaluationSwitches false {} args
    if !s.words.isEmpty then none
    return .evaluate (← valueOf path? env s "queries" "QUERIES" none)
      (← valueOf path? env s "qrels" "QRELS" none) (← topKOf env s) (← cutoffsOf s)
  | _ => none

def Arguments.ofArgs? (env : Environment) (args : List String) : Option Arguments := do
  let (s, rest) ← split generalSwitches true {} args
  let task ← Task.ofArgs? env rest
  let corpus ← valueOf path? env s "corpus" "CORPUS" (some "./corpus")
  let gramSize ← valueOf count? env s "kgram-size" "KGRAM_SIZE" (some 2)
  let minResults ← valueOf count? env s "min-results" "MIN_RESULTS" (some 1)
  let saturation ← valueOf Decimal.float? env s "saturation" "SATURATION" (some 2.0)
  let json ←
    if (s.values "json").isEmpty then valueOf bool? env s "json" "JSON" (some false)
    else some true
  return { corpus, settings := { gramSize, minResults, saturation }, json, task }

end Concordance.Command
