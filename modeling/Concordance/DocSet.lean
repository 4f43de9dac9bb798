import Concordance.Document
/-!
Sets of documents, written as ascending lists of ids without repeats. Each operation is one merge
of its operands.
-/
namespace Concordance.DocSet

def inter : List DocId → List DocId → List DocId
  | a :: as, b :: bs =>
    if a < b then inter as (b :: bs)
    else if b < a then inter (a :: as) bs
    else a :: inter as bs
  | [], _ => []
  | _, [] => []
termination_by as bs => as.length + bs.length

def union : List DocId → List DocId → List DocId
  | a :: as, b :: bs =>
    if a < b then a :: union as (b :: bs)
    else if b < a then b :: union (a :: as) bs
    else a :: union as bs
  | [], bs => bs
  | as, [] => as
termination_by as bs => as.length + bs.length

def diff : List DocId → List DocId → List DocId
  | a :: as, b :: bs =>
    if a < b then a :: diff as (b :: bs)
    else if b < a then diff (a :: as) bs
    else diff as bs
  | [], _ => []
  | as, [] => as
termination_by as bs => as.length + bs.length

/-- The documents in at least one set of the list. -/
def unionAll (sets : List (List DocId)) : List DocId := sets.foldl union []

end Concordance.DocSet
