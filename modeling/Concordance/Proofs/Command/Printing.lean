import Concordance.Command.Run
/-!
When the program prints. `Command.execute` gives the whole output at once. In `steps` it is printed
piece by piece, each piece where it is known, and what is on standard output stays there whatever
fails later. The two agree (`prints_steps`): the output is all there, or nothing at all. The rules
of `Prints` say why. A step that can fail may stand in front of what prints, and behind what prints
there may only stand more of it.
-/
namespace Concordance.Command

/-- Steps that print and can fail. A failure takes nothing back that is printed. -/
abbrev Printing := ExceptT Failure (StateM String)

/-- How some steps end, and what is on standard output then, where `out` was there before. -/
def Printing.runOn {α : Type} (steps : Printing α) (out : String) : Except Failure α × String :=
  (steps.run.run out).run

theorem Printing.runOn_bind {α β : Type} (p : Printing α) (f : α → Printing β) (out : String) :
    (p >>= f).runOn out = match p.runOn out with
      | (.ok a, printed) => (f a).runOn printed
      | (.error failure, printed) => (.error failure, printed) := by
  unfold Printing.runOn
  rw [ExceptT.run_bind, StateT.run_bind, Id.run_bind]
  obtain ⟨result, printed⟩ := (p.run.run out).run
  cases result <;> rfl

def print (text : String) : Printing Unit := modify (· ++ text)

/-- A step that prints nothing. -/
def silently {α : Type} (x : Except Failure α) : Printing α := liftExcept x

/-! ## The program step by step -/

/-- Prints some document ids, line by line. -/
def printDocs (json : Bool) (docs : List DocId) : Printing Unit :=
  if json then print (showDocs true docs) else docs.forM fun doc => print s!"{doc}\n"

def printRanked (json : Bool) (results : List Ranked) : Printing Unit :=
  if json then print (showRanked true results)
  else results.forM fun r => print s!"{r.doc}\t{Decimal.fixed 6 r.score.toFloat}\n"

def printQuery (q : QueryReport) : Printing Unit := do
  print s!"{q.query}\tAP={metricText q.averagePrecision}\tR-P={metricText q.rPrecision}"
  q.cutoffs.forM fun cutoff => print cutoff.text
  print "\n"

def printReport (json : Bool) (report : Report) : Printing Unit :=
  if json then print (showReport true report)
  else do
    report.queries.forM printQuery
    print s!"MAP\t{metricText report.meanAveragePrecision}\n"

def taskSteps (files : Files) (memory : Memory) (index : Index) (settings : Settings)
    (json : Bool) : Task → Printing Unit
  | .search query => do
    printDocs json (← silently ((index.search settings query).mapError (.error none)))
  | .rank query topK => do printRanked json (← silently (ranked memory index settings topK query))
  | .evaluate queries judgements topK cutoffs => do
    printReport json
      (← silently (evaluate files memory index settings queries judgements topK cutoffs))

def steps (files : Files) (machine : Machine) (arguments : Arguments) : Printing Unit := do
  silently (arguments.settings.validate.mapError fun e => .error none (.settings e))
  let index ← silently (attempt s!"failed to load corpus from {arguments.corpus}"
    (files.loadCorpus machine.order arguments.corpus))
  taskSteps files machine.memory index arguments.settings arguments.json arguments.task

/-! ## What is printed -/

/-- The steps print the text that `x` gives, and nothing where `x` fails. They fail as `x` does. -/
def Prints (steps : Printing Unit) (x : Except Failure String) : Prop :=
  ∀ out, steps.runOn out = match x with
    | .ok text => (.ok (), out ++ text)
    | .error failure => (.error failure, out)

namespace Prints

variable {p q : Printing Unit} {text text' : String}

theorem print (text : String) : Prints (print text) (.ok text) := fun _ => rfl

theorem append (hp : Prints p (.ok text)) (hq : Prints q (.ok text')) :
    Prints (p >>= fun _ => q) (.ok (text ++ text')) := by
  intro out
  calc (p >>= fun _ => q).runOn out
    _ = q.runOn (out ++ text) := by rw [Printing.runOn_bind, hp out]
    _ = (.ok (), out ++ text ++ text') := hq (out ++ text)
    _ = (.ok (), out ++ (text ++ text')) := by rw [String.append_assoc]

theorem forM {α : Type} {f : α → Printing Unit} {text : α → String}
    (h : ∀ a, Prints (f a) (.ok (text a))) (as : List α) :
    Prints (as.forM f) (.ok (String.join (as.map text))) := by
  induction as with
  | nil =>
    intro out
    exact congrArg (Prod.mk (Except.ok ())) String.append_empty.symm
  | cons a as ih =>
    rw [List.map_cons, String.join_cons, List.forM_eq_forM, List.forM_cons]
    exact (h a).append ih

theorem silently {α : Type} {f : α → Printing Unit} {g : α → Except Failure String}
    (h : ∀ a, Prints (f a) (g a)) (x : Except Failure α) :
    Prints (silently x >>= f) (x >>= g) := by
  cases x with
  | ok a => exact h a
  | error failure => exact fun _ => rfl

end Prints

theorem prints_docs (json : Bool) (docs : List DocId) :
    Prints (printDocs json docs) (.ok (showDocs json docs)) := by
  cases json with
  | true => exact .print _
  | false => exact .forM (fun _ => .print _) docs

theorem prints_ranked (json : Bool) (results : List Ranked) :
    Prints (printRanked json results) (.ok (showRanked json results)) := by
  cases json with
  | true => exact .print _
  | false => exact .forM (fun _ => .print _) results

theorem prints_query (q : QueryReport) : Prints (printQuery q) (.ok q.text) := by
  unfold QueryReport.text
  rw [String.append_assoc]
  exact .append (.print _) (.append (.forM (fun _ => .print _) q.cutoffs) (.print _))

theorem prints_report (json : Bool) (report : Report) :
    Prints (printReport json report) (.ok (showReport json report)) := by
  cases json with
  | true => exact .print _
  | false => exact .append (.forM prints_query report.queries) (.print _)

theorem prints_task (files : Files) (memory : Memory) (index : Index) (settings : Settings)
    (json : Bool) (task : Task) : Prints (taskSteps files memory index settings json task)
      (perform files memory index settings json task) := by
  cases task with
  | search query => exact .silently (prints_docs json) _
  | rank query topK => exact .silently (prints_ranked json) _
  | evaluate queries judgements topK cutoffs => exact .silently (prints_report json) _

/-- The program prints its whole output, or fails before it prints anything. -/
theorem prints_steps (files : Files) (machine : Machine) (arguments : Arguments) :
    Prints (steps files machine arguments) (execute files machine arguments) :=
  .silently (fun _ => .silently (fun index => prints_task files _ index _ _ _) _) _

end Concordance.Command
