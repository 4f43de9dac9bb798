import Concordance.Error
import Concordance.Index.Basic
import Concordance.Runs
import Std.Data.TreeMap
import Std.Data.TreeSet
/-!
Building an index. A builder collects observations, each a term at a place of a document, and the
lengths of documents. Observing the same place twice is observing it once.
-/
namespace Concordance

/-- A term at a place of a document. -/
structure Observation where
  term : Term
  doc : DocId
  position : Position
  deriving DecidableEq, Repr

/-- By term, then by document, then by position. -/
def Observation.order : Observation → Observation → Ordering :=
  compareLex (compareOn term) (compareLex (compareOn doc) (compareOn position))

/-- The length that a posting implies for its document: one more than the last position. -/
def Posting.impliedLength (posting : Posting) : Length :=
  (posting.positions.getLast?.map (· + 1)).getD 0

/-- The order in which the entries of a table are visited. It is that of their hashes, which differ
from run to run, so that nothing is known of it but that no entry is left out or visited twice. -/
structure TableOrder where
  visit : List PostingList → List PostingList
  visit_perm : ∀ lists, (visit lists).Perm lists

/-- The entries as they stand in the index, by term. -/
def TableOrder.byTerm : TableOrder := ⟨id, .refl⟩

abbrev Lengths := Std.TreeMap DocId Length

/-- What has been observed of a collection of documents. -/
structure Builder where
  observations : Std.TreeSet Observation Observation.order := ∅
  lengths : Lengths := ∅

namespace Builder

/-- Observes a term at a place of a document. -/
def add (b : Builder) (term : Term) (doc : DocId) (position : Position) : Builder :=
  { b with observations := b.observations.insert ⟨term, doc, position⟩ }

/-- Registers the length of a document. A later length replaces an earlier one. -/
def setLength (b : Builder) (doc : DocId) (length : Length) : Builder :=
  { b with lengths := b.lengths.insert doc length }

def lengthOf (text : String) : Length := .ofNat (words text).length

/-- Observes all words of a document and registers its length. -/
def addDocument (b : Builder) (doc : DocId) (text : String) : Builder :=
  ((occurrences text).foldl (fun b o => b.add o.term doc o.position) b).setLength doc
    (lengthOf text)

def numTerms (b : Builder) : Nat := (ascending (b.observations.toList.map (·.term))).length

/-- The entries of the index: the observations, gathered by term and then by document. -/
def postingLists (b : Builder) : List PostingList :=
  (runs (b.observations.toList.map fun o => (o.term, o.doc, o.position))).map
    fun (term, places) =>
      .ofPostings term ((runs places).map fun (doc, positions) => Posting.mk doc positions)

/-- The documents with an observation, ascending. -/
def observedDocs (b : Builder) : List DocId := ascending (b.observations.toList.map (·.doc))

/-- Gives each document of an entry the length that its posting implies, unless it has a length
already. -/
def addImplied (lengths : Lengths) (l : PostingList) : Lengths :=
  l.postings.foldl (fun lengths posting => lengths.insertIfNew posting.doc posting.impliedLength)
    lengths

/-- The lengths of all documents, registered or else implied, ascending by document. Where the terms
of a document imply different lengths, it is the first entry visited that counts. -/
def lengthTable (b : Builder) (order : TableOrder) : List (DocId × Length) :=
  ((order.visit b.postingLists).foldl addImplied b.lengths).toList

/-- The sum of the lengths, in 64 bits. -/
def totalLength (lengths : List (DocId × Length)) : UInt64 :=
  lengths.foldl (fun total entry => total + entry.2.toUInt64) 0

/-- The index of what has been observed. There is none where no document is known. -/
def build (b : Builder) (order : TableOrder) : Except Error Index :=
  let lengths := b.lengthTable order
  if lengths.isEmpty then .error .emptyCorpus
  else .ok {
    lists := b.postingLists.toArray
    docIds := b.observedDocs
    lengths := lengths.toArray
    averageLength := (totalLength lengths).toFloat / lengths.length.toFloat }

end Builder
end Concordance
