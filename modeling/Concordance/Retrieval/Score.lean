import Concordance.Error
import Concordance.Index.Basic
import Concordance.Retrieval.Ranking
import Std.Data.TreeMap
/-!
Ranked retrieval: how well documents match the words of a query. A word counts more the rarer it
is, and less the longer the document; repeats of a word add less and less.
-/
namespace Concordance

/-- The weight of rarity: the natural logarithm of the number of documents per document with the
term. -/
def idf (numDocs docFrequency : Nat) : Float :=
  if docFrequency = 0 || numDocs = 0 then 0.0
  else (numDocs.toFloat / docFrequency.toFloat).log

def termScore (tfQuery tfDoc idf docLength averageLength saturation : Float) : Float :=
  let norm := if 0.0 < averageLength then docLength / averageLength else 1.0
  tfQuery * (tfDoc / (tfDoc + saturation * norm)) * idf

namespace Index

/-- The length of a document as a divisor: at least one. -/
def divisor (index : Index) (doc : DocId) : Float :=
  (max ((index.docLength? doc).getD 1) 1).toNat.toFloat

/-- What a query has added up so far for each document. -/
abbrev Sums := Std.TreeMap DocId Float

/-- What a term that stands `n` times in the query adds to the score of a document in which it has
the weight `tfDoc`. -/
def contribution (index : Index) (settings : Settings) (n : UInt32) (l : PostingList)
    (doc : DocId) (tfDoc : Float) : Float :=
  termScore (tfWeight n.toNat) tfDoc (idf index.numDocs l.docFrequency) (index.divisor doc)
    index.averageLength settings.saturation

/-- Adds to the sum of a document, which is zero where there is none yet. -/
def Sums.add (sums : Sums) (doc : DocId) (x : Float) : Sums :=
  sums.insert doc (sums.getD doc 0.0 + x)

/-- Adds what a term of the query gives to each document that holds it. A term that is not indexed
gives nothing. -/
def addTerm (index : Index) (settings : Settings) (sums : Sums) (term : Term) (n : UInt32) :
    Sums :=
  match index.find? term with
  | none => sums
  | some l => l.weights.foldl
      (fun sums (doc, tfDoc) => sums.add doc (index.contribution settings n l doc tfDoc)) sums

/-- The order in which the terms of a query add to the sums: by term, then by number. -/
def entryOrder : Term × UInt32 → Term × UInt32 → Ordering :=
  compareLex (compareOn (·.1)) (compareOn (·.2))

/-- The sums for the terms of a query with their numbers. In whatever order these are given, they
are added in one order, for sums of doubles depend on it. -/
def sums (index : Index) (settings : Settings) (entries : List (Term × UInt32)) : Sums :=
  (inOrder entryOrder entries).foldl (fun sums (term, n) => index.addTerm settings sums term n) ∅

/-- The documents that hold a term of a query, with their scores, in no order of rank. -/
def scoreTerms (index : Index) (settings : Settings) (entries : List (Term × UInt32)) :
    List Ranked :=
  (index.sums settings entries).toList.map fun (doc, sum) =>
    ⟨doc, .ofFloat (sum / index.divisor doc)⟩

def score (index : Index) (settings : Settings) (query : String) : List Ranked :=
  index.scoreTerms settings (counts (words query))

/-- The documents that hold a word of the query, ranked. -/
def retrieve (index : Index) (settings : Settings) (query : String) : List Ranked :=
  rank (index.score settings query)

/-- The documents that hold a word of the query, ranked, all or only the `k` best. -/
def retrieveUpTo (index : Index) (memory : Memory) (settings : Settings) (k : Option Nat)
    (query : String) : Except Shortage (List Ranked) :=
  rankUpTo memory k (index.score settings query)

end Index
end Concordance
