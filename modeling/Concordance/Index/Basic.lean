import Concordance.Index.Posting
/-!
The index of a collection of documents. It is built once (`Concordance.Index.Builder`) and then
only asked.
-/
namespace Concordance

/-- An index. -/
structure Index where
  /-- One entry for every indexed term, ascending by term. -/
  lists : Array PostingList
  /-- The documents that hold a word, ascending. -/
  docIds : List DocId
  /-- The lengths of all documents, those without a word included, ascending by document. -/
  lengths : Array (DocId × Length)
  averageLength : Float

namespace Index

def find? (index : Index) (term : Term) : Option PostingList :=
  bisect (fun l => compare l.term term) index.lists

/-- The postings of a term, none where it is unknown. -/
def postings (index : Index) (term : Term) : List Posting :=
  match index.find? term with
  | some l => l.postings.toList
  | none => []

/-- The indexed terms, ascending. -/
def vocabulary (index : Index) : List Term := index.lists.toList.map (·.term)

def docLength? (index : Index) (doc : DocId) : Option Length :=
  (bisect (fun entry => compare entry.1 doc) index.lengths).map (·.2)

def numTerms (index : Index) : Nat := index.lists.size

/-- The number of documents that hold a word. -/
def numDocs (index : Index) : Nat := index.docIds.length

end Index
end Concordance
