import Concordance.Proofs.Command.Printing
import Concordance.Proofs.Evaluation.Grouping
import Concordance.Proofs.Evaluation.Report
import Concordance.Proofs.Retrieval.Combination
/-!
How the program ends. Its steps are taken one after another, and the first that fails decides
(`Fails`, `execute_eq_error_iff`). Only two of them can fail through the fault of the user: the
check of the settings, which is the first, and the reading of a Boolean query. What is read from
files fails for the files alone (`loadCorpus_kind`, `readQueries_kind`, `readJudgements_kind`).
Ranking can want for memory alone, and only where more documents are asked for than there is room
for (`Fails.shortage`). With what is known of the printing, this is all that a caller sees
(`run_ends`).
-/
namespace Concordance

/-! ## Settings -/

namespace Settings

variable {settings : Settings}

open Float.Model (UnpackedFloat) in
theorem not_le_of_isNaN {x : Float} (h : x.isNaN = true) (bound : Float) : ¬bound ≤ x := by
  have hx : x.toModel.unpack = .notANumber := by
    have hmodel : x.toModel.unpack.isNaN = true := h
    revert hmodel
    cases x.toModel.unpack <;> simp [UnpackedFloat.isNaN]
  have hle : bound ≤ x ↔ bound.toModel.unpack.le x.toModel.unpack = true := decide_eq_true_iff
  rw [hle, hx]
  cases bound.toModel.unpack <;> simp [UnpackedFloat.le, UnpackedFloat.compare]

theorem validate_of_gramSize (h : settings.gramSize = 0) :
    settings.validate = .error .gramSizeZero := if_pos h

theorem validate_of_outside (hsize : settings.gramSize ≠ 0)
    (h : ¬(minSaturation ≤ settings.saturation ∧ settings.saturation ≤ maxSaturation)) :
    settings.validate = .error (.saturationOutside settings.saturation) := by
  rw [validate, if_neg hsize, if_neg]
  simpa using h

end Settings

/-! ## Kinds of error -/

section
variable {e : Error} {dir path : String} {files : Files}

namespace Files

theorem kind_of_mapError_file {α : Type} {x : Except FileError α}
    (h : x.mapError Error.file = .error e) : e.kind = .file := by
  obtain ⟨cause, -, rfl⟩ := mapError_eq_error_iff.mp h
  rfl

theorem readDocuments_kind (h : files.readDocuments dir = .error e) :
    e.kind = .file ∨ e.kind = .invalidDocId := by
  obtain hlist | ⟨found, -, hgather⟩ := bind_eq_error_iff.mp h
  · exact .inl (kind_of_mapError_file hlist)
  · obtain ⟨name, rfl⟩ := gather_eq_error hgather
    exact .inr rfl

theorem indexFile_kind {b : Builder} {entry : DocId × DocFile}
    (h : indexFile b entry = .error e) : e.kind = .file := by
  obtain hdecode | ⟨text, -, hindex⟩ := bind_eq_error_iff.mp h
  · exact kind_of_mapError_file hdecode
  · cases hindex

theorem build_kind {b : Builder} {order : TableOrder} (h : b.build order = .error e) :
    e.kind = .emptyCorpus := by
  by_cases hnil : b.lengthTable order = []
  · rw [Builder.build_eq_error_iff.mpr hnil] at h
    obtain rfl := Except.error.inj h
    rfl
  · obtain ⟨index, hbuild⟩ := Builder.exists_build_eq_ok hnil
    rw [hbuild] at h
    cases h

theorem loadCorpus_kind {order : TableOrder} (h : files.loadCorpus order dir = .error e) :
    e.kind = .file ∨ e.kind = .invalidDocId ∨ e.kind = .emptyCorpus := by
  obtain hread | ⟨documents, -, h⟩ := bind_eq_error_iff.mp h
  · obtain hfile | hname := readDocuments_kind hread
    · exact .inl hfile
    · exact .inr (.inl hname)
  · obtain hindex | ⟨b, -, hbuild⟩ := bind_eq_error_iff.mp h
    · obtain ⟨_, _, hfile⟩ := foldlM_eq_error hindex
      exact .inl (indexFile_kind hfile)
    · exact .inr (.inr (build_kind hbuild))

theorem readQueries_kind (h : files.readQueries dir = .error e) : e.kind = .file := by
  obtain hlist | ⟨found, -, hread⟩ := bind_eq_error_iff.mp h
  · exact kind_of_mapError_file hlist
  · obtain hadd | ⟨queries, -, htexts⟩ := bind_eq_error_iff.mp hread
    · obtain ⟨_, _, hfile⟩ := foldlM_eq_error hadd
      obtain hdecode | ⟨text, -, hinsert⟩ := bind_eq_error_iff.mp hfile
      · exact kind_of_mapError_file hdecode
      · cases hinsert
    · cases htexts

theorem readJudgements_kind (h : files.readJudgements path = .error e) :
    e.kind = .file ∨ e.kind = .invalidDocId := by
  obtain htext | ⟨text, -, hparse⟩ := bind_eq_error_iff.mp h
  · exact .inl (kind_of_mapError_file htext)
  · obtain ⟨name, -, rfl⟩ := Judgements.readLines_eq_error_iff.mp hparse
    exact .inr rfl

end Files

theorem Index.search_eq_error_iff {index : Index} {settings : Settings} {query : String}
    (hs : settings.validate = .ok ()) : index.search settings query = .error e ↔
      ∃ cause, Query.parse query = .error cause ∧ .query cause = e := by
  cases hparse : Query.parse query with
  | ok nodes =>
    rw [search_of_parse hs hparse]
    simp
  | error cause =>
    have hsearch : index.search settings query = .error (.query cause) := by
      rw [search, hs, hparse]
      rfl
    rw [hsearch]
    simp

end

theorem Judgements.idsOf_eq_nil_iff {judged : Judgements} {texts : List (String × String)} :
    judged.idsOf texts = [] ↔ ∀ entry ∈ texts, entry.1 ∉ judged := by
  simp [idsOf]

theorem Judgements.idsOf_ne_nil_iff {judged : Judgements} {texts : List (String × String)} :
    judged.idsOf texts ≠ [] ↔ ∃ entry ∈ texts, entry.1 ∈ judged := by
  simp [idsOf_eq_nil_iff]

namespace Command

variable {files : Files} {machine : Machine} {memory : Memory} {a : Arguments} {failure : Failure}
  {index : Index}

/-! ## The step that fails -/

/-- How many documents the task asks for, where it limits them. -/
def Task.topK? : Task → Option Nat
  | search _ => none
  | rank _ topK | evaluate _ _ topK _ => topK

inductive EvaluationFails (files : Files) (memory : Memory) (queries judgements : String) :
    Option Nat → Failure → Prop where
  | queries {topK : Option Nat} {cause : Error} : files.readQueries queries = .error cause →
    EvaluationFails files memory queries judgements topK
      (.error (some s!"failed to read queries from {queries}") cause)
  | judgements {topK : Option Nat} {texts : List (String × String)} {cause : Error} :
    files.readQueries queries = .ok texts → files.readJudgements judgements = .error cause →
    EvaluationFails files memory queries judgements topK
      (.error (some s!"failed to read judgements from {judgements}") cause)
  | unjudged {topK : Option Nat} {texts : List (String × String)} {judged : Judgements} :
    files.readQueries queries = .ok texts → files.readJudgements judgements = .ok judged →
    (∀ entry ∈ texts, entry.1 ∉ judged) →
    EvaluationFails files memory queries judgements topK .noJudgedQuery
  | stopped {k : Nat} {texts : List (String × String)} {judged : Judgements} :
    files.readQueries queries = .ok texts → files.readJudgements judgements = .ok judged →
    (∃ entry ∈ texts, entry.1 ∈ judged) → ¬memory.HasRoom k →
    EvaluationFails files memory queries judgements (some k) (.stopped ⟨queueSize k⟩)

/-- A task fails in this way. Ranked retrieval fails for want of memory only. -/
inductive TaskFails (files : Files) (memory : Memory) : Task → Failure → Prop where
  | search {query : String} {cause : Query.Error} : Query.parse query = .error cause →
    TaskFails files memory (.search query) (.error none (.query cause))
  | rank {query : String} {k : Nat} : ¬memory.HasRoom k →
    TaskFails files memory (.rank query (some k)) (.stopped ⟨queueSize k⟩)
  | evaluate {queries judgements : String} {topK : Option Nat} {cutoffs : List Nat}
    {failure : Failure} : EvaluationFails files memory queries judgements topK failure →
    TaskFails files memory (.evaluate queries judgements topK cutoffs) failure

/-- The program fails in this way. What comes before the step that fails has succeeded. -/
inductive Fails (files : Files) (machine : Machine) (a : Arguments) : Failure → Prop where
  | settings {cause : Settings.Error} : a.settings.validate = .error cause →
    Fails files machine a (.error none (.settings cause))
  | corpus {cause : Error} : a.settings.validate = .ok () →
    files.loadCorpus machine.order a.corpus = .error cause →
    Fails files machine a (.error (some s!"failed to load corpus from {a.corpus}") cause)
  | task {index : Index} {failure : Failure} : a.settings.validate = .ok () →
    files.loadCorpus machine.order a.corpus = .ok index →
    TaskFails files machine.memory a.task failure → Fails files machine a failure

theorem attempt_eq_ok_iff {α : Type} {what : String} {x : Except Error α} {r : α} :
    attempt what x = .ok r ↔ x = .ok r := mapError_eq_ok_iff

theorem attempt_eq_error_iff {α : Type} {what : String} {x : Except Error α} :
    attempt what x = .error failure ↔
      ∃ cause, x = .error cause ∧ .error (some what) cause = failure :=
  mapError_eq_error_iff

theorem evaluate_eq_error_iff {settings : Settings} {queries judgements : String}
    {topK : Option Nat} {cutoffs : List Nat} :
    evaluate files memory index settings queries judgements topK cutoffs = .error failure ↔
      EvaluationFails files memory queries judgements topK failure := by
  constructor
  · intro h
    obtain hfail | ⟨texts, hqueries, hrest⟩ := bind_eq_error_iff.mp h
    · obtain ⟨cause, hqueries, rfl⟩ := attempt_eq_error_iff.mp hfail
      exact .queries hqueries
    obtain hfail | ⟨judged, hjudgements, -⟩ := bind_eq_error_iff.mp hrest
    · obtain ⟨cause, hjudgements, rfl⟩ := attempt_eq_error_iff.mp hfail
      exact .judgements (attempt_eq_ok_iff.mp hqueries) hjudgements
    have hqueries := attempt_eq_ok_iff.mp hqueries
    have hjudgements := attempt_eq_ok_iff.mp hjudgements
    -- all files are read; what can fail now is the report
    by_cases hnil : judged.idsOf texts = []
    · rw [evaluate_of_unjudged hqueries hjudgements hnil] at h
      obtain rfl := Except.error.inj h
      exact .unjudged hqueries hjudgements (Judgements.idsOf_eq_nil_iff.mp hnil)
    obtain ⟨results, hranked⟩ | ⟨k, rfl, hroom⟩ := ranked_cases memory index settings topK
    · obtain ⟨report, hreport, -⟩ := evaluate_of_ranked hqueries hjudgements hnil hranked
      cases h.symm.trans hreport
    · rw [evaluate_of_shortage hqueries hjudgements hnil hroom] at h
      obtain rfl := Except.error.inj h
      exact .stopped hqueries hjudgements (Judgements.idsOf_ne_nil_iff.mp hnil) hroom
  · intro h
    cases h with
    | queries hqueries =>
      exact bind_eq_error_iff.mpr (.inl (attempt_eq_error_iff.mpr ⟨_, hqueries, rfl⟩))
    | judgements hqueries hjudgements =>
      refine bind_eq_error_iff.mpr (.inr ⟨_, attempt_eq_ok_iff.mpr hqueries, ?_⟩)
      exact bind_eq_error_iff.mpr (.inl (attempt_eq_error_iff.mpr ⟨_, hjudgements, rfl⟩))
    | unjudged hqueries hjudgements hnone =>
      exact evaluate_of_unjudged hqueries hjudgements (Judgements.idsOf_eq_nil_iff.mpr hnone)
    | stopped hqueries hjudgements hsome hroom =>
      exact evaluate_of_shortage hqueries hjudgements (Judgements.idsOf_ne_nil_iff.mpr hsome) hroom

theorem ranked_eq_error_iff {settings : Settings} {topK : Option Nat} {query : String} :
    ranked memory index settings topK query = .error failure ↔
      ∃ k, topK = some k ∧ ¬memory.HasRoom k ∧ failure = .stopped ⟨queueSize k⟩ := by
  constructor
  · intro h
    obtain ⟨results, hranked⟩ | ⟨k, rfl, hroom⟩ := ranked_cases memory index settings topK
    · cases h.symm.trans (hranked query)
    · exact ⟨k, rfl, hroom, Except.error.inj (h.symm.trans (ranked_eq_error hroom query))⟩
  · intro h
    obtain ⟨k, rfl, hroom, rfl⟩ := h
    exact ranked_eq_error hroom query

theorem perform_eq_error_iff {settings : Settings} {json : Bool} {task : Task}
    (hs : settings.validate = .ok ()) :
    perform files memory index settings json task = .error failure ↔
      TaskFails files memory task failure := by
  constructor
  · intro h
    cases task with
    | search query =>
      obtain h | ⟨docs, -, h⟩ := bind_eq_error_iff.mp h
      · obtain ⟨e, hsearch, rfl⟩ := mapError_eq_error_iff.mp h
        obtain ⟨cause, hparse, rfl⟩ := (Index.search_eq_error_iff hs).mp hsearch
        exact .search hparse
      · cases h
    | rank query topK =>
      obtain h | ⟨results, -, h⟩ := bind_eq_error_iff.mp h
      · obtain ⟨k, rfl, hroom, rfl⟩ := ranked_eq_error_iff.mp h
        exact .rank hroom
      · cases h
    | evaluate queries judgements topK cutoffs =>
      obtain h | ⟨report, -, h⟩ := bind_eq_error_iff.mp h
      · exact .evaluate (evaluate_eq_error_iff.mp h)
      · cases h
  · intro h
    cases h with
    | search hparse =>
      refine bind_eq_error_iff.mpr (.inl (mapError_eq_error_iff.mpr ⟨_, ?_, rfl⟩))
      exact (Index.search_eq_error_iff hs).mpr ⟨_, hparse, rfl⟩
    | rank hroom =>
      exact bind_eq_error_iff.mpr (.inl (ranked_eq_error_iff.mpr ⟨_, rfl, hroom, rfl⟩))
    | evaluate h => exact bind_eq_error_iff.mpr (.inl (evaluate_eq_error_iff.mpr h))

/-- The program fails as the first of its steps that fails. -/
theorem execute_eq_error_iff :
    execute files machine a = .error failure ↔ Fails files machine a failure := by
  constructor
  · intro h
    obtain h | ⟨_, hs, h⟩ := bind_eq_error_iff.mp h
    · obtain ⟨cause, hs, rfl⟩ := mapError_eq_error_iff.mp h
      exact .settings hs
    have hs := mapError_eq_ok_iff.mp hs
    obtain h | ⟨index, hcorpus, h⟩ := bind_eq_error_iff.mp h
    · obtain ⟨cause, hcorpus, rfl⟩ := attempt_eq_error_iff.mp h
      exact .corpus hs hcorpus
    · exact .task hs (attempt_eq_ok_iff.mp hcorpus) ((perform_eq_error_iff hs).mp h)
  · intro h
    cases h with
    | settings hs => exact bind_eq_error_iff.mpr (.inl (mapError_eq_error_iff.mpr ⟨_, hs, rfl⟩))
    | corpus hs hcorpus =>
      refine bind_eq_error_iff.mpr (.inr ⟨_, mapError_eq_ok_iff.mpr hs, ?_⟩)
      exact bind_eq_error_iff.mpr (.inl (attempt_eq_error_iff.mpr ⟨_, hcorpus, rfl⟩))
    | task hs hcorpus h =>
      refine bind_eq_error_iff.mpr (.inr ⟨_, mapError_eq_ok_iff.mpr hs, ?_⟩)
      refine bind_eq_error_iff.mpr (.inr ⟨_, attempt_eq_ok_iff.mpr hcorpus, ?_⟩)
      exact (perform_eq_error_iff hs).mpr h

/-! ## Want of memory -/

theorem EvaluationFails.shortage {queries judgements : String} {topK : Option Nat}
    {shortage : Shortage}
    (h : EvaluationFails files memory queries judgements topK (.stopped shortage)) :
    ∃ k, topK = some k ∧ ¬memory.HasRoom k ∧ shortage = ⟨queueSize k⟩ := by
  cases h with
  | stopped _ _ _ hroom => exact ⟨_, rfl, hroom, rfl⟩

/-- Only where a task asks for more documents than there is room for is the program stopped. -/
theorem Fails.shortage {shortage : Shortage} (h : Fails files machine a (.stopped shortage)) :
    ∃ k, a.task.topK? = some k ∧ ¬machine.memory.HasRoom k ∧ shortage = ⟨queueSize k⟩ := by
  cases h with
  | task _ _ h =>
    generalize a.task = task at h
    cases h with
    | rank hroom => exact ⟨_, rfl, hroom, rfl⟩
    | evaluate h => exact h.shortage

/-! ## Exit codes -/

namespace Failure

def kind? : Failure → Option ErrorKind
  | error _ cause => some cause.kind
  | noJudgedQuery | stopped _ => none

theorem exitCode_stopped (cause : Shortage) :
    (stopped cause).exitCode = 134 ∨ (stopped cause).exitCode = 101 := by
  rw [exitCode]
  split
  · exact .inl rfl
  · exact .inr rfl

example : (stopped ⟨queueSize 1000000000000000000⟩).exitCode = 101 := by decide

theorem exitCode_stopped_ne {cause : Shortage} {code : UInt8} (hcode : code ≤ 2) :
    (stopped cause).exitCode ≠ code := by
  have hlt : 2 < (stopped cause).exitCode := by
    obtain hstopped | hstopped := exitCode_stopped cause
    · exact hstopped ▸ by decide
    · exact hstopped ▸ by decide
  intro h
  rw [h] at hlt
  exact UInt8.not_le.mpr hlt hcode

theorem exitCode_error (what : Option String) (cause : Error) :
    (error what cause).exitCode = if cause.kind.isUserError then 2 else 1 := rfl

theorem exitCode_ne_zero (failure : Failure) : failure.exitCode ≠ 0 := by
  cases failure with
  | error what cause =>
    rw [exitCode_error]
    split <;> decide
  | noJudgedQuery => decide
  | stopped cause => exact exitCode_stopped_ne (by decide)

theorem exitCode_eq_two_iff :
    failure.exitCode = 2 ↔ failure.kind? = some .query ∨ failure.kind? = some .settings := by
  cases failure with
  | error what cause =>
    rw [exitCode_error, kind?]
    cases cause.kind <;> decide
  | noJudgedQuery => decide
  | stopped cause => exact iff_of_false (exitCode_stopped_ne (by decide)) (by simp [kind?])

theorem exitCode_eq_one_iff : failure.exitCode = 1 ↔ failure.kind? = some .file ∨
    failure.kind? = some .invalidDocId ∨ failure.kind? = some .emptyCorpus ∨
    failure = .noJudgedQuery := by
  cases failure with
  | error what cause =>
    rw [exitCode_error, kind?]
    cases cause.kind <;> simp [ErrorKind.isUserError]
  | noJudgedQuery => simp [exitCode]
  | stopped cause => exact iff_of_false (exitCode_stopped_ne (by decide)) (by simp [kind?])

theorem exitCode_of_kind {what : Option String} {cause : Error} (h : cause.kind = .file ∨
    cause.kind = .invalidDocId ∨ cause.kind = .emptyCorpus) : (error what cause).exitCode = 1 := by
  rw [exitCode_eq_one_iff, kind?]
  simpa using h

end Failure

/-- The user is to blame: for the settings, or for a query where there is a corpus to search. -/
def UserFault (files : Files) (machine : Machine) (a : Arguments) : Prop :=
  (∃ cause, a.settings.validate = .error cause) ∨
  ∃ index query cause, files.loadCorpus machine.order a.corpus = .ok index ∧
    a.task = .search query ∧ Query.parse query = .error cause

theorem EvaluationFails.exitCode_ne_two {queries judgements : String} {topK : Option Nat}
    (h : EvaluationFails files memory queries judgements topK failure) :
    failure.exitCode ≠ 2 := by
  cases h with
  | queries h =>
    rw [Failure.exitCode_of_kind (.inl (Files.readQueries_kind h))]
    decide
  | judgements _ h =>
    rw [Failure.exitCode_of_kind ((Files.readJudgements_kind h).imp_right .inl)]
    decide
  | unjudged => decide
  | stopped => exact Failure.exitCode_stopped_ne (by decide)

theorem Fails.userFault (h : Fails files machine a failure) (hcode : failure.exitCode = 2) :
    UserFault files machine a := by
  cases h with
  | settings hs => exact .inl ⟨_, hs⟩
  | corpus _ hcorpus =>
    rw [Failure.exitCode_of_kind (Files.loadCorpus_kind hcorpus)] at hcode
    exact absurd hcode (by decide)
  | task _ hcorpus h =>
    -- of the tasks, only a Boolean search blames the user
    generalize htask : a.task = task at h
    cases h with
    | search hparse => exact .inr ⟨_, _, _, hcorpus, htask, hparse⟩
    | rank => exact absurd hcode (Failure.exitCode_stopped_ne (by decide))
    | evaluate h => exact absurd hcode h.exitCode_ne_two

theorem UserFault.exists_fails (h : UserFault files machine a) :
    ∃ failure, Fails files machine a failure ∧ failure.exitCode = 2 := by
  cases hs : a.settings.validate with
  | error cause => exact ⟨_, .settings hs, rfl⟩
  | ok accepted =>
    -- a refused query is the failure only where the settings are accepted
    obtain ⟨cause, hcause⟩ | ⟨index, query, cause, hcorpus, htask, hparse⟩ := h
    · rw [hs] at hcause
      cases hcause
    · have htaskFails : TaskFails files machine.memory a.task (.error none (.query cause)) := by
        rw [htask]
        exact .search hparse
      exact ⟨_, .task hs hcorpus htaskFails, rfl⟩

/-! ## How the program ends -/

/-- What a caller sees of the program, where all its arguments are read. -/
structure Ends (files : Files) (machine : Machine) (a : Arguments) (outcome : Outcome) :
    Prop where
  zero_or_silent : outcome.exitCode = 0 ∨ outcome.output = ""
  /-- Whatever is printed step by step, before the program ends as it does, is the output. -/
  printed : ∃ ended, (steps files machine a).runOn "" = (ended, outcome.output) ∧
    ∀ failure, ended = .error failure ↔ outcome = .failed failure
  zero_iff : outcome.exitCode = 0 ↔ ∀ failure, outcome ≠ .failed failure
  two_iff : outcome.exitCode = 2 ↔ ∃ failure, outcome = .failed failure ∧
    (failure.kind? = some .query ∨ failure.kind? = some .settings)
  one_iff : outcome.exitCode = 1 ↔ ∃ failure, outcome = .failed failure ∧
    (failure.kind? = some .file ∨ failure.kind? = some .invalidDocId ∨
      failure.kind? = some .emptyCorpus ∨ failure = .noJudgedQuery)
  /-- Where there is room for the documents that are asked for, all other failures end with 1. -/
  one_iff_of_room : (∀ k, a.task.topK? = some k → machine.memory.HasRoom k) →
    (outcome.exitCode = 1 ↔ ∃ failure, outcome = .failed failure ∧
      failure.kind? ≠ some .query ∧ failure.kind? ≠ some .settings)
  /-- Where there is not, the program may be stopped. -/
  shortage : ∀ cause, outcome = .failed (.stopped cause) → ∃ k, a.task.topK? = some k ∧
    ¬machine.memory.HasRoom k ∧ cause = ⟨queueSize k⟩
  two_iff_userFault : outcome.exitCode = 2 ↔ UserFault files machine a
  failed_iff : ∀ failure, outcome = .failed failure ↔ Fails files machine a failure
  of_gramSize : a.settings.gramSize = 0 →
    outcome = .failed (.error none (.settings .gramSizeZero))
  of_outside : a.settings.gramSize ≠ 0 → a.settings.saturation.isNaN = true ∨
      ¬(1.2 ≤ a.settings.saturation ∧ a.settings.saturation ≤ 2.0) →
    outcome = .failed (.error none (.settings (.saturationOutside a.settings.saturation)))

section
variable {env : Environment} {args : List String}

theorem run_cases (h : Arguments.ofArgs? env args = some a) (files : Files) (machine : Machine) :
    (∃ output, execute files machine a = .ok output ∧
      run files machine env args = .printed output) ∨
    ∃ failure, execute files machine a = .error failure ∧
      run files machine env args = .failed failure := by
  cases hexecute : execute files machine a with
  | ok output => exact .inl ⟨output, rfl, by simp only [run, h, hexecute]⟩
  | error failure => exact .inr ⟨failure, rfl, by simp only [run, h, hexecute]⟩

theorem run_eq_failed_iff (h : Arguments.ofArgs? env args = some a) :
    run files machine env args = .failed failure ↔ Fails files machine a failure := by
  rw [← execute_eq_error_iff]
  obtain ⟨output, hexecute, hrun⟩ | ⟨failure', hexecute, hrun⟩ := run_cases h files machine
  · simp [hexecute, hrun]
  · simp [hexecute, hrun]

theorem run_output (h : Arguments.ofArgs? env args = some a) (files : Files) (machine : Machine) :
    ∃ ended, (steps files machine a).runOn "" = (ended, (run files machine env args).output) ∧
      ∀ failure, ended = .error failure ↔ run files machine env args = .failed failure := by
  have hsteps := prints_steps files machine a ""
  obtain ⟨output, hexecute, hrun⟩ | ⟨failure, hexecute, hrun⟩ := run_cases h files machine
  · rw [hexecute] at hsteps
    refine ⟨.ok (), ?_, ?_⟩
    · rw [hsteps, hrun]
      exact congrArg (Prod.mk (Except.ok ())) String.empty_append
    · simp [hrun]
  · rw [hexecute] at hsteps
    refine ⟨.error failure, ?_, ?_⟩
    · rw [hsteps, hrun]
      rfl
    · simp [hrun]

theorem run_exitCode_iff (h : Arguments.ofArgs? env args = some a) {code : UInt8}
    (hcode : code ≠ 0) : (run files machine env args).exitCode = code ↔
      ∃ failure, run files machine env args = .failed failure ∧ failure.exitCode = code := by
  obtain ⟨output, -, hrun⟩ | ⟨failure, -, hrun⟩ := run_cases h files machine
  · simp [hrun, Outcome.exitCode, hcode.symm]
  · simp [hrun, Outcome.exitCode]

/-- The program ends with the code 0, or it prints nothing, even step by step. The code is 2 where
a query or the settings are refused, which is the fault of the user, and 1 for any other failure;
only without room for the documents that are asked for may the program be stopped instead, with a
code of its own. Settings that are refused are refused in the same way whatever else the program is
asked for. -/
theorem run_ends (h : Arguments.ofArgs? env args = some a) (files : Files) (machine : Machine) :
    Ends files machine a (run files machine env args) where
  zero_or_silent := by
    obtain ⟨output, -, hrun⟩ | ⟨failure, -, hrun⟩ := run_cases h files machine
    · exact .inl (congrArg Outcome.exitCode hrun)
    · exact .inr (congrArg Outcome.output hrun)
  printed := run_output h files machine
  zero_iff := by
    obtain ⟨output, -, hrun⟩ | ⟨failure, -, hrun⟩ := run_cases h files machine
    · refine iff_of_true (congrArg Outcome.exitCode hrun) fun failure hfailed => ?_
      cases hrun.symm.trans hfailed
    · refine iff_of_false (fun hzero => ?_) fun hne => hne failure hrun
      exact failure.exitCode_ne_zero ((congrArg Outcome.exitCode hrun).symm.trans hzero)
  two_iff := by
    rw [run_exitCode_iff h (by decide)]
    simp only [Failure.exitCode_eq_two_iff]
  one_iff := by
    rw [run_exitCode_iff h (by decide)]
    simp only [Failure.exitCode_eq_one_iff]
  one_iff_of_room := by
    intro hroom
    rw [run_exitCode_iff h (by decide)]
    apply exists_congr
    intro failure
    apply and_congr_right
    intro hrun
    rw [← not_or, ← Failure.exitCode_eq_two_iff]
    cases failure with
    | error what cause =>
      rw [Failure.exitCode_error]
      split <;> decide
    | noJudgedQuery => decide
    | stopped cause =>
      obtain ⟨k, htop, hnone, -⟩ := ((run_eq_failed_iff h).mp hrun).shortage
      exact absurd (hroom k htop) hnone
  shortage := fun _ hrun => ((run_eq_failed_iff h).mp hrun).shortage
  two_iff_userFault := by
    rw [run_exitCode_iff h (by decide)]
    simp only [run_eq_failed_iff h]
    constructor
    · intro hend
      obtain ⟨failure, hfail, hcode⟩ := hend
      exact hfail.userFault hcode
    · exact UserFault.exists_fails
  failed_iff := fun _ => run_eq_failed_iff h
  of_gramSize := by
    intro hsize
    exact (run_eq_failed_iff h).mpr (.settings (Settings.validate_of_gramSize hsize))
  of_outside := by
    intro hsize houtside
    have hnot : ¬(Settings.minSaturation ≤ a.settings.saturation ∧
        a.settings.saturation ≤ Settings.maxSaturation) := by
      intro hinside
      obtain hnan | hout := houtside
      · exact Settings.not_le_of_isNaN hnan _ hinside.1
      · exact hout hinside
    exact (run_eq_failed_iff h).mpr (.settings (Settings.validate_of_outside hsize hnot))

/-- Files of which none can be read. -/
def unreadable : Files := fun _ => .error .notFound

def littleMachine : Machine := ⟨⟨1024⟩, .byTerm⟩

/-- Settings are refused before the corpus is missed, and the corpus is missed before the query is
read, which would be refused too. -/
theorem run_ends_unreadable :
    run unreadable littleMachine [] ["-k", "0", "search", "/"] =
      .failed (.error none (.settings .gramSizeZero)) ∧
    run unreadable littleMachine [] ["--saturation", "nan", "search", "/"] =
      .failed (.error none (.settings (.saturationOutside (0.0 / 0.0)))) ∧
    run unreadable littleMachine [] ["search", "/"] =
      .failed (.error (some "failed to load corpus from ./corpus") (.file .notFound)) ∧
    (run unreadable littleMachine [] ["search", "/"]).exitCode = 1 := by
  have hsize : Arguments.ofArgs? [] ["-k", "0", "search", "/"] =
      some ⟨"./corpus", { gramSize := 0 }, false, .search "/"⟩ := by with_unfolding_all rfl
  have hnan : Arguments.ofArgs? [] ["--saturation", "nan", "search", "/"] =
      some ⟨"./corpus", { saturation := 0.0 / 0.0 }, false, .search "/"⟩ := by
    with_unfolding_all rfl
  have hdefault : Arguments.ofArgs? [] ["search", "/"] =
      some ⟨"./corpus", {}, false, .search "/"⟩ := by with_unfolding_all rfl
  have hends := run_ends hdefault unreadable littleMachine
  have hcorpus := (hends.failed_iff _).mpr (.corpus Settings.validate_default rfl)
  refine ⟨?_, ?_, hcorpus, ?_⟩
  · exact (run_ends hsize unreadable littleMachine).of_gramSize rfl
  · exact (run_ends hnan unreadable littleMachine).of_outside (by decide) (.inl (by decide +kernel))
  · exact hends.one_iff.mpr ⟨_, hcorpus, .inl rfl⟩

end

end Command
end Concordance
