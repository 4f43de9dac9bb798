import Concordance.DocSet
import Concordance.Index.Basic
import Concordance.Spelling.Distance
import Concordance.Spelling.Gram
/-!
Spelling correction. For each gram of a misspelt word, the indexed terms that share the gram and
have about the length of the word are candidates; of these, the nearest by edit distance are chosen.
-/
namespace Concordance

/-- Whether a term holds the gram. -/
def holdsGram (gram : List Char) (term : Term) : Bool :=
  (slices gram.length term.toList).contains gram

def similarLength (tolerance : Nat) (word term : Term) : Bool :=
  term.length - word.length ≤ tolerance && word.length - term.length ≤ tolerance

/-- The elements with the least measure. -/
def leastBy {α : Type} (measure : α → Nat) (xs : List α) : List α :=
  xs.filter fun x => xs.all fun y => measure x ≤ measure y

/-- The terms of the vocabulary that are nearest to `word` among those with the gram, each with its
distance. -/
def candidates (tolerance : Nat) (word : Term) (vocabulary : List Term) (gram : List Char) :
    List (Term × Nat) :=
  leastBy (·.2) <|
    (vocabulary.filter fun t => similarLength tolerance word t && holdsGram gram t).map fun t =>
      (t, editDistance word t)

/-- The terms that stand in for a misspelt word, ascending. -/
def corrections (gramSize tolerance : Nat) (word : Term) (vocabulary : List Term) : List Term :=
  ascending ((grams gramSize word).flatMap fun gram =>
    (candidates tolerance word vocabulary gram).map (·.1))

namespace Index

def docs (index : Index) (term : Term) : List DocId := docsOf (index.postings term)

/-- The documents that hold a term that stands in for a misspelt word. -/
def resolve (index : Index) (gramSize tolerance : Nat) (word : Term) : List DocId :=
  DocSet.unionAll ((corrections gramSize tolerance word index.vocabulary).map index.docs)

end Index
end Concordance
