import Concordance.Bisect
import Concordance.Text.Occurrence
/-!
Postings: where a term stands, document by document.
-/
namespace Concordance

/-- The places of a term in one document, ascending. -/
structure Posting where
  doc : DocId
  positions : List Position
  deriving DecidableEq, Repr

def docsOf (postings : List Posting) : List DocId := postings.map (·.doc)

/-- The weight of a term that stands `count` times in a text: log₁₀ (count + 1). -/
def tfWeight (count : Nat) : Float := (count.toFloat + 1.0).log10

/-- A term and its postings, ascending by document. Its weights are kept beside the postings. -/
structure PostingList where
  term : Term
  postings : Array Posting
  /-- The weight of the term in the document of each posting, at the place of the posting. -/
  tfWeights : Array Float
  size_tfWeights : tfWeights.size = postings.size
  deriving DecidableEq, Repr

namespace PostingList

/-- The entry of a term with these postings. Each is weighed by the number of its positions. -/
def ofPostings (term : Term) (postings : List Posting) : PostingList where
  term := term
  postings := postings.toArray
  tfWeights := (postings.map fun p => tfWeight p.positions.length).toArray
  size_tfWeights := by simp

/-- The number of documents that hold the term. -/
def docFrequency (l : PostingList) : Nat := l.postings.size

/-- Each document that holds the term, with the weight of the term there. -/
def weights (l : PostingList) : List (DocId × Float) :=
  (docsOf l.postings.toList).zip l.tfWeights.toList

/-- The weight of the term in a document, at the place where bisection finds the document. -/
def weight? (l : PostingList) (doc : DocId) : Option Float :=
  (bisectPlace (fun p => compare p.doc doc) l.postings).map fun place =>
    l.tfWeights[place.cast l.size_tfWeights.symm]

end PostingList
end Concordance
