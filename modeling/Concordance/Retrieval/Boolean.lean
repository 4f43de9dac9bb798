import Concordance.Error
import Concordance.Index.Window
import Concordance.Query.Parse
import Concordance.Retrieval.Ranking
import Concordance.Spelling.Correction
/-!
Boolean retrieval: the documents that satisfy a query.
-/
namespace Concordance

open Query (Leaf Node)

namespace Index

variable (index : Index) (settings : Settings)

/-- The documents that hold a term, or its corrections where these documents are too few. -/
def lookup (term : Term) : List DocId :=
  let exact := index.docs term
  if settings.minResults ≤ exact.length then exact
  else index.resolve settings.gramSize settings.lengthTolerance term

/-- The occurrences of the first of some terms at which all of them follow one another. -/
def phrasePostings : List Term → List Posting
  | [] => []
  | [term] => index.postings term
  | term :: rest => nearPostings .following 1 (index.postings term) (phrasePostings rest)

/-- The documents that satisfy a leaf. A phrase of one word is looked up as that word is. -/
def leafDocs : Leaf → List DocId
  | .term word => index.lookup settings word
  | .phrase [] => []
  | .phrase [word] => index.lookup settings word
  | .phrase words => docsOf (index.phrasePostings words)
  | .proximity left right distance =>
    docsOf (nearPostings .either distance (index.postings left) (index.postings right))

/-- The given documents, or all others where `negated` holds. -/
def signed (negated : Bool) (docs : List DocId) : List DocId :=
  if negated then DocSet.diff index.docIds docs else docs

mutual

/-- The documents that satisfy a node. -/
def nodeDocs : Node → List DocId
  | .leaf negated leaf => index.signed negated (index.leafDocs settings leaf)
  | .or negated operands => index.signed negated (DocSet.unionAll (operandDocs operands))
  | .group negated children => index.signed negated (evaluate children)

def operandDocs : List Node → List (List DocId)
  | [] => []
  | node :: nodes => nodeDocs node :: operandDocs nodes

/-- The documents that satisfy all nodes of a list. No document satisfies the empty list. -/
def evaluate : List Node → List DocId
  | [] => []
  | node :: nodes => restrict (nodeDocs node) nodes

/-- The given documents that satisfy all nodes. Once none is left, no further node is looked at. -/
def restrict (docs : List DocId) : List Node → List DocId
  | [] => docs
  | node :: nodes => if docs.isEmpty then [] else restrict (DocSet.inter docs (nodeDocs node)) nodes

end

/-- The documents that satisfy a query. The settings are checked before the query. -/
def search (query : String) : Except Error (List DocId) := do
  settings.validate.mapError .settings
  let nodes ← (Query.parse query).mapError .query
  return index.evaluate settings nodes

/-- The documents that satisfy a query, all with the score 1, or only the first `k` of them. -/
def retrieveMatches (k : Option Nat) (query : String) : Except Error (List Ranked) := do
  let results := (← index.search settings query).map (⟨·, .ofFloat 1.0⟩)
  return match k with
    | some k => results.take k
    | none => results

end Index
end Concordance
