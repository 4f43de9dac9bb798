import Concordance.Main
import Concordance.Proofs.Command.Outcome
import Concordance.Proofs.Corpus.Load
import Concordance.Proofs.Evaluation.AveragePrecision
import Concordance.Proofs.Evaluation.Grouping
import Concordance.Proofs.Evaluation.Metrics
import Concordance.Proofs.Evaluation.Report
import Concordance.Proofs.Index.Lengths
import Concordance.Proofs.Index.Matches
import Concordance.Proofs.Index.Texts
import Concordance.Proofs.Index.Weights
import Concordance.Proofs.Query.Acceptance
import Concordance.Proofs.Query.Grammar
import Concordance.Proofs.Query.Mentions
import Concordance.Proofs.Query.Negation
import Concordance.Proofs.Query.Progress
import Concordance.Proofs.Query.Recovery
import Concordance.Proofs.Query.Separation
import Concordance.Proofs.Query.Sought
import Concordance.Proofs.Query.Spacing
import Concordance.Proofs.Retrieval.Correction
import Concordance.Proofs.Retrieval.Phrase
import Concordance.Proofs.Retrieval.Quoting
import Concordance.Proofs.Retrieval.Scoring
import Concordance.Proofs.Spelling.Script
import Concordance.Proofs.Text.Parts
import Concordance.Query.Json
import Concordance.Settings.Json
