import Concordance.Command.Run
import Concordance.Proofs.Evaluation.Judgements
import Concordance.Proofs.Evaluation.Metrics
import Concordance.Proofs.Retrieval.Ranking
import Mathlib.Data.List.Forall2
import Mathlib.Data.List.Sort
import Mathlib.Data.String.Basic
/-!
The report of an evaluation, with and without a limit on the number of documents. The `k` best
documents are the beginning of all of them, and so is what stands above a cutoff, so that a cutoff
of at most `k` cannot tell the two apart (`QueryReport.cut_of_take`). Which queries are reported on
does not depend on the documents at all (`QueryReport.map_query_listed`). Where every retrieval
succeeds, there is a report as soon as one of them is judged, and as such a query has a judgement,
all averages exist (`Report.exists_of?_eq_ok`). Where none does, the first judged query ends the
evaluation (`Report.of?_eq_error`). From these the evaluation of a directory is read off
(`Command.evaluate_topK`).
-/
namespace Concordance

variable {k : Nat} {judged : Judgements} {texts : List (String × String)}

/-! ## One query -/

/-- The report `best` is on the `k` best of the documents that `full` is on. -/
structure QueryReport.Cut (k : Nat) (full best : QueryReport) : Prop where
  query : best.query = full.query
  retrieved : best.retrieved = min k full.retrieved
  relevant : best.relevant = full.relevant
  rPrecision : full.relevant ≤ k → best.rPrecision = full.rPrecision
  cutoffs : List.Forall₂ (fun f b => b.cutoff = f.cutoff ∧ (f.cutoff ≤ k → b = f))
    full.cutoffs best.cutoffs

/-- The report is on a query with judgements, its average exists, and it is scored at the cutoffs. -/
structure QueryReport.Complete (judged : Judgements) (cutoffs : List Nat) (report : QueryReport) :
    Prop where
  relevant : judged[report.query]?.map List.length = some report.relevant
  isSome : report.averagePrecision.isSome
  cutoffs : report.cutoffs.map (·.cutoff) = cutoffs

section
variable {ranked relevant : List DocId}

theorem rPrecision_take (h : relevant.length ≤ k) :
    rPrecision (ranked.take k) relevant = rPrecision ranked relevant := by
  rw [rPrecision, rPrecision, List.take_take, Nat.min_eq_left h]

theorem QueryReport.cut_of_take (k : Nat) (cutoffs : List Nat) (query : String)
    (ranked relevant : List DocId) :
    Cut k (of cutoffs query ranked relevant) (of cutoffs query (ranked.take k) relevant) where
  query := rfl
  retrieved := List.length_take
  relevant := rfl
  rPrecision := rPrecision_take
  cutoffs := by
    refine List.forall₂_map_left_iff.mpr (List.forall₂_map_right_iff.mpr ?_)
    refine List.forall₂_same.mpr fun cutoff _ => ⟨rfl, fun hle => ?_⟩
    rw [List.take_take, Nat.min_eq_left hle]

end

/-! ## All queries -/

def Judgements.idsOf (judged : Judgements) (texts : List (String × String)) : List String :=
  (texts.map (·.1)).filter (· ∈ judged)

/-- The reports on the queries that have judgements, where every retrieval succeeds. -/
def QueryReport.listed (cutoffs : List Nat) (retrieved : String → List DocId) (judged : Judgements)
    (texts : List (String × String)) : List QueryReport :=
  texts.filterMap fun (query, text) =>
    judged[query]?.map fun relevant => QueryReport.of cutoffs query (retrieved text) relevant

/-- The report is on these queries, which all have judgements, and all its averages exist. -/
structure Report.Covers (judged : Judgements) (cutoffs : List Nat) (ids : List String)
    (report : Report) : Prop where
  queries : report.queries.map (·.query) = ids
  complete : ∀ q ∈ report.queries, q.Complete judged cutoffs
  isSome : report.meanAveragePrecision.isSome

section
variable {cutoffs : List Nat} {retrieved : String → List DocId}

theorem Judgements.idsOf_cons (judged : Judgements) (query text : String)
    (texts : List (String × String)) : judged.idsOf ((query, text) :: texts) =
      if judged[query]?.isSome then query :: judged.idsOf texts else judged.idsOf texts := by
  simp only [idsOf, List.map_cons, List.filter_cons, decide_eq_true_eq,
    Std.TreeMap.isSome_getElem?_iff_mem]

theorem Judgements.mem_idsOf {id : String} :
    id ∈ judged.idsOf texts ↔ id ∈ texts.map (·.1) ∧ id ∈ judged := by
  rw [idsOf, List.mem_filter, decide_eq_true_eq]

theorem QueryReport.map_query_listed (cutoffs : List Nat) (retrieved : String → List DocId)
    (judged : Judgements) (texts : List (String × String)) :
    (listed cutoffs retrieved judged texts).map (·.query) = judged.idsOf texts := by
  induction texts with
  | nil => rfl
  | cons entry texts ih =>
    obtain ⟨query, text⟩ := entry
    rw [Judgements.idsOf_cons]
    cases hquery : judged[query]? with
    | none => simpa [listed, hquery] using ih
    | some relevant => simpa [listed, hquery, QueryReport.of] using ih

theorem QueryReport.complete_of_mem_listed (h : judged.Proper) {q : QueryReport}
    (hq : q ∈ listed cutoffs retrieved judged texts) : q.Complete judged cutoffs := by
  obtain ⟨⟨query, text⟩, -, hreport⟩ := List.mem_filterMap.mp hq
  obtain ⟨relevant, hrelevant, rfl⟩ := Option.map_eq_some_iff.mp hreport
  refine ⟨congrArg (Option.map List.length) hrelevant, ?_, ?_⟩
  · exact averagePrecision_isSome _ (h query relevant hrelevant)
  · rw [QueryReport.of, List.map_map]
    exact List.map_id cutoffs

/-- Where fewer documents are retrieved, each report is cut. -/
theorem QueryReport.listed_cut (k : Nat) :
    List.Forall₂ (Cut k) (listed cutoffs retrieved judged texts)
      (listed cutoffs (fun text => (retrieved text).take k) judged texts) := by
  induction texts with
  | nil => exact .nil
  | cons entry texts ih =>
    obtain ⟨query, text⟩ := entry
    cases hquery : judged[query]? with
    | none => simpa [listed, hquery] using ih
    | some relevant =>
      have hcut := cut_of_take k cutoffs query (retrieved text) relevant
      simpa [listed, hquery] using And.intro hcut ih

section
variable {ε : Type} {retrieve : String → Except ε (List DocId)} {e : ε}

theorem QueryReport.all_eq_ok (h : ∀ text, retrieve text = .ok (retrieved text)) :
    all cutoffs retrieve judged texts = .ok (listed cutoffs retrieved judged texts) := by
  induction texts with
  | nil => rfl
  | cons entry texts ih =>
    obtain ⟨query, text⟩ := entry
    rw [all]
    cases hquery : judged[query]? with
    | none => simpa [listed, hquery] using ih
    | some relevant =>
      simp only [h, ih]
      simp [listed, hquery, bind, Except.bind, pure, Except.pure]

theorem Report.of?_eq_error (h : ∀ text, retrieve text = .error e)
    (hne : judged.idsOf texts ≠ []) : of? cutoffs retrieve judged texts = .error e := by
  have hall : QueryReport.all cutoffs retrieve judged texts = .error e := by
    induction texts with
    | nil => exact absurd rfl hne
    | cons entry texts ih =>
      obtain ⟨query, text⟩ := entry
      rw [Judgements.idsOf_cons] at hne
      rw [QueryReport.all]
      cases hquery : judged[query]? with
      | none => exact ih (by simpa [hquery] using hne)
      | some relevant =>
        simp only [h]
        rfl
  rw [of?, hall]
  rfl

theorem QueryReport.all_of_idsOf_eq_nil (h : judged.idsOf texts = []) :
    all cutoffs retrieve judged texts = .ok [] := by
  induction texts with
  | nil => rfl
  | cons entry texts ih =>
    obtain ⟨query, text⟩ := entry
    rw [Judgements.idsOf_cons] at h
    rw [all]
    cases hquery : judged[query]? with
    | none => exact ih (by simpa [hquery] using h)
    | some relevant => simp [hquery] at h

theorem Report.of?_of_idsOf_eq_nil (h : judged.idsOf texts = []) :
    of? cutoffs retrieve judged texts = .ok none := by
  rw [of?, QueryReport.all_of_idsOf_eq_nil h]
  rfl

theorem Report.exists_of?_eq_ok (hproper : judged.Proper) (hne : judged.idsOf texts ≠ [])
    (h : ∀ text, retrieve text = .ok (retrieved text)) :
    ∃ report, of? cutoffs retrieve judged texts = .ok (some report) ∧
      report.queries = QueryReport.listed cutoffs retrieved judged texts ∧
      report.Covers judged cutoffs (judged.idsOf texts) := by
  have hids := QueryReport.map_query_listed cutoffs retrieved judged texts
  have hcomplete : ∀ q ∈ QueryReport.listed cutoffs retrieved judged texts,
      q.Complete judged cutoffs := fun q hq => QueryReport.complete_of_mem_listed hproper hq
  -- one report at least, and its average, keep the mean from being empty
  obtain ⟨q, hq⟩ : ∃ q, q ∈ QueryReport.listed cutoffs retrieved judged texts := by
    apply List.exists_mem_of_ne_nil
    intro hnil
    rw [hnil] at hids
    exact hne hids.symm
  obtain ⟨precision, hprecision⟩ := Option.isSome_iff_exists.mp (hcomplete q hq).isSome
  have hsome : ¬(QueryReport.listed cutoffs retrieved judged texts).isEmpty := by
    rw [List.isEmpty_iff]
    exact List.ne_nil_of_mem hq
  let reports := QueryReport.listed cutoffs retrieved judged texts
  let average := Concordance.meanAveragePrecision (reports.filterMap (·.averagePrecision))
  refine ⟨⟨reports, average⟩, ?_, rfl, hids, hcomplete, ?_⟩
  · rw [of?, QueryReport.all_eq_ok h]
    exact if_neg hsome
  · apply meanAveragePrecision_isSome
    exact List.ne_nil_of_mem (List.mem_filterMap.mpr ⟨q, hq, hprecision⟩)

end

end

/-! ## The evaluation of a directory -/

namespace Command

variable {files : Files} {queries judgements : String} {memory : Memory} {index : Index}
  {settings : Settings}

theorem ranked_none (query : String) :
    ranked memory index settings none query = .ok (index.retrieve settings query) := rfl

theorem ranked_some (hroom : memory.HasRoom k) (query : String) :
    ranked memory index settings (some k) query =
      .ok ((index.retrieve settings query).take k) := by
  rw [ranked, index.retrieveUpTo_some settings hroom]
  rfl

theorem ranked_eq_error (hroom : ¬memory.HasRoom k) (query : String) :
    ranked memory index settings (some k) query = .error (.stopped ⟨queueSize k⟩) := by
  rw [ranked, Index.retrieveUpTo, rankUpTo, topK, if_neg hroom]
  rfl

section
variable {topK : Option Nat} {cutoffs : List Nat}

/-- All queries can be answered, or there is no room for as many documents as are asked for. -/
theorem ranked_cases (memory : Memory) (index : Index) (settings : Settings) (topK : Option Nat) :
    (∃ results : String → List Ranked,
      ∀ query, ranked memory index settings topK query = .ok (results query)) ∨
    ∃ k, topK = some k ∧ ¬memory.HasRoom k := by
  cases topK with
  | none => exact .inl ⟨index.retrieve settings, ranked_none⟩
  | some k =>
    by_cases hroom : memory.HasRoom k
    · exact .inl ⟨fun query => (index.retrieve settings query).take k, ranked_some hroom⟩
    · exact .inr ⟨k, rfl, hroom⟩

theorem evaluate_eq (hqueries : files.readQueries queries = .ok texts)
    (hjudgements : files.readJudgements judgements = .ok judged) :
    evaluate files memory index settings queries judgements topK cutoffs =
      Report.of? cutoffs (fun text => return (← ranked memory index settings topK text).map (·.doc))
        judged texts >>= fun
        | some report => .ok report
        | none => .error .noJudgedQuery := by
  unfold evaluate
  rw [hqueries, hjudgements]
  rfl

variable (hqueries : files.readQueries queries = .ok texts)
  (hjudgements : files.readJudgements judgements = .ok judged)
include hqueries hjudgements

theorem evaluate_of_unjudged (hnil : judged.idsOf texts = []) :
    evaluate files memory index settings queries judgements topK cutoffs =
      .error .noJudgedQuery := by
  rw [evaluate_eq hqueries hjudgements, Report.of?_of_idsOf_eq_nil hnil]
  rfl

theorem evaluate_of_ranked (hne : judged.idsOf texts ≠ []) {results : String → List Ranked}
    (h : ∀ query, ranked memory index settings topK query = .ok (results query)) :
    ∃ report, evaluate files memory index settings queries judgements topK cutoffs = .ok report ∧
      report.queries =
        QueryReport.listed cutoffs (fun text => (results text).map (·.doc)) judged texts ∧
      report.Covers judged cutoffs (judged.idsOf texts) := by
  have hanswer : ∀ text, (do return (← ranked memory index settings topK text).map (·.doc) :
      Except Failure (List DocId)) = .ok ((results text).map (·.doc)) := by
    intro text
    rw [h]
    rfl
  have hproper := Files.proper_readJudgements hjudgements
  obtain ⟨report, hreport, hlisted, hcovers⟩ := Report.exists_of?_eq_ok hproper hne hanswer
  refine ⟨report, ?_, hlisted, hcovers⟩
  rw [evaluate_eq hqueries hjudgements, hreport]
  rfl

theorem evaluate_of_shortage (hne : judged.idsOf texts ≠ []) (hroom : ¬memory.HasRoom k) :
    evaluate files memory index settings queries judgements (some k) cutoffs =
      .error (.stopped ⟨queueSize k⟩) := by
  have hstop : ∀ text, (do return (← ranked memory index settings (some k) text).map (·.doc) :
      Except Failure (List DocId)) = .error (.stopped ⟨queueSize k⟩) := by
    intro text
    rw [ranked_eq_error hroom]
    rfl
  rw [evaluate_eq hqueries hjudgements, Report.of?_eq_error hstop hne]
  rfl

end

/-- An evaluation is of the files of its directory that have judgements, in the order of their
ids, and fails for want of judgements only where there is none. All its averages exist. The `k` best
documents of each query are scored as all of them are, at each cutoff of at most `k`; and so is
their R-precision, where the query has at most `k` judgements. Without room for so many documents,
the program is stopped instead. -/
theorem evaluate_topK (hqueries : files.readQueries queries = .ok texts)
    (hjudgements : files.readJudgements judgements = .ok judged) (memory : Memory) (index : Index)
    (settings : Settings) (cutoffs : List Nat) (k : Nat) :
    let evaluation := fun topK =>
      evaluate files memory index settings queries judgements topK cutoffs
    ∃ entries ids, files queries = .ok (.directory entries) ∧
      (∀ id, id ∈ ids ↔ id ∈ (regularFiles entries).map (·.1.shown) ∧ id ∈ judged) ∧
      ids.Pairwise (· < ·) ∧
      (∃ failure, failure.message = "no query has relevance judgements" ∧
        ∀ topK, evaluation topK = .error failure ↔ ids = []) ∧
      (ids ≠ [] → ∃ full, evaluation none = .ok full ∧ full.Covers judged cutoffs ids ∧
        (memory.HasRoom k → ∃ best, evaluation (some k) = .ok best ∧
          best.Covers judged cutoffs ids ∧
          List.Forall₂ (QueryReport.Cut k) full.queries best.queries) ∧
        (¬memory.HasRoom k → evaluation (some k) = .error (.stopped ⟨queueSize k⟩))) := by
  intro evaluation
  obtain ⟨entries, hdir, hmem, hsorted⟩ := Files.readQueries_eq_ok hqueries
  have hnone : ∀ topK, evaluation topK = .error .noJudgedQuery ↔ judged.idsOf texts = [] := by
    intro topK
    refine ⟨fun h => Decidable.byContradiction fun hne => ?_,
      evaluate_of_unjudged hqueries hjudgements⟩
    -- with a judged query there is a report, or the want of memory is what fails
    obtain ⟨results, hranked⟩ | ⟨k, rfl, hroom⟩ := ranked_cases memory index settings topK
    · obtain ⟨report, hreport, -⟩ := evaluate_of_ranked hqueries hjudgements hne hranked
      cases h.symm.trans hreport
    · cases h.symm.trans (evaluate_of_shortage hqueries hjudgements hne hroom)
  refine ⟨entries, judged.idsOf texts, hdir, fun id => ?_, hsorted.filter _,
    ⟨.noJudgedQuery, rfl, hnone⟩, fun hne => ?_⟩
  · rw [Judgements.mem_idsOf, hmem]
  obtain ⟨full, hfull, hfullQueries, hfullCovers⟩ :=
    evaluate_of_ranked hqueries hjudgements hne ranked_none
  refine ⟨full, hfull, hfullCovers, fun hroom => ?_,
    evaluate_of_shortage hqueries hjudgements hne⟩
  obtain ⟨best, hbest, hbestQueries, hbestCovers⟩ :=
    evaluate_of_ranked hqueries hjudgements hne (ranked_some hroom)
  refine ⟨best, hbest, hbestCovers, ?_⟩
  simp only [List.map_take] at hbestQueries
  rw [hfullQueries, hbestQueries]
  exact QueryReport.listed_cut k

def catCorpus : List (DocId × String) := [(1, "A cat."), (2, "cat, cat"), (3, "dog")]

def catQueries : List (String × String) := [("a", "cat"), ("b", "dog"), ("c", "cat?")]

def catJudged : Judgements := (((∅ : Judgements).record "c" 2).record "a" 1).record "z" 1

/-- A directory with these queries, of which one is not judged, and the file of the judgements. -/
def catEvaluation : Files := fun path =>
  if path = "queries" then
    .ok (.directory (entriesOf (catQueries.map fun (name, text) => (.ofText name, text))))
  else .ok (.file (.ok "c 2\na 1 ?\nz\t1".toUTF8))

theorem evaluate_topK_cat : catEvaluation.readQueries "queries" = .ok catQueries ∧
    catEvaluation.readJudgements "qrels" = .ok catJudged ∧
    ∃ index full best,
      (Builder.ofCalls (documentCalls catCorpus)).build .byTerm = .ok index ∧
      evaluate catEvaluation ⟨64⟩ index {} "queries" "qrels" none [1, 2] = .ok full ∧
      evaluate catEvaluation ⟨64⟩ index {} "queries" "qrels" (some 1) [1, 2] = .ok best ∧
      full.Covers catJudged [1, 2] ["a", "c"] ∧ best.Covers catJudged [1, 2] ["a", "c"] ∧
      List.Forall₂ (QueryReport.Cut 1) full.queries best.queries ∧
      evaluate catEvaluation ⟨64⟩ index {} "queries" "qrels" (some 9) [1, 2] =
        .error (.stopped ⟨160⟩) := by
  have hlist : catEvaluation.list "queries" =
      .ok (catQueries.map fun (name, text) => (.ofText name, .ok text.toUTF8)) :=
    congrArg Except.ok (List.mergeSort_of_pairwise (by decide))
  have hqueries : catEvaluation.readQueries "queries" = .ok catQueries := by
    unfold Files.readQueries
    rw [hlist]
    rfl
  have hjudgements : catEvaluation.readJudgements "qrels" = .ok catJudged := rfl
  obtain ⟨index, hbuild⟩ :=
    Builder.exists_build_ofCalls (not_silent_documentCalls (List.cons_ne_nil _ _)) .byTerm
  obtain ⟨entries, ids, hdir, hmem, hsorted, -, hreports⟩ :=
    evaluate_topK hqueries hjudgements ⟨64⟩ index {} [1, 2] 1
  obtain rfl := Entry.directory.inj (Except.ok.inj hdir)
  have hids : ids = ["a", "c"] := by
    have hjudged : ["a", "c"] = ["a", "b", "c"].filter (· ∈ catJudged) := by decide
    refine hsorted.eq_of_mem_iff (by decide) fun id => ?_
    rw [hmem, hjudged, List.mem_filter, decide_eq_true_eq]
    simp [regularFiles, entriesOf, catQueries, catJudged]
  subst hids
  obtain ⟨full, hfull, hfullCovers, hroom, -⟩ := hreports (List.cons_ne_nil _ _)
  obtain ⟨best, hbest, hbestCovers, hcut⟩ := hroom (by decide)
  exact ⟨hqueries, hjudgements, index, full, best, hbuild, hfull, hbest, hfullCovers,
    hbestCovers, hcut, evaluate_of_shortage hqueries hjudgements (by decide) (by decide)⟩

end Command
end Concordance
