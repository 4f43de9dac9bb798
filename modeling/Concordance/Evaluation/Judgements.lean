import Concordance.Decimal.Digits
import Concordance.Document
import Concordance.Error
import Concordance.Text.Blank
import Concordance.Text.Pieces
import Std.Data.TreeMap
/-!
Judgements: which documents are relevant to which query. Each line of the text names a query and a
document; what follows on the line does not matter, and a line with fewer fields says nothing.
-/
namespace Concordance

/-- For each query with a judgement the documents that are relevant to it, in the order in which
they were judged. -/
abbrev Judgements := Std.TreeMap String (List DocId)

def docId? (text : String) : Option DocId :=
  (Decimal.natBelow? UInt32.size text).map UInt32.ofNat

namespace Judgements

def fields (line : List Char) : List String :=
  ((pieces isBlank line).filter (!·.isEmpty)).map String.ofList

/-- The judgement that a line states, if it states one. -/
def ofLine (line : List Char) : Except Error (Option (String × DocId)) :=
  match fields line with
  | query :: name :: _ =>
    match docId? name with
    | some doc => .ok (some (query, doc))
    | none => .error (.invalidDocId name)
  | _ => .ok none

def record (judgements : Judgements) (query : String) (doc : DocId) : Judgements :=
  judgements.alter query fun docs => some (docs.getD [] ++ [doc])

/-- Reads a line onto what the lines before it state. -/
def readLine (judgements : Judgements) (line : List Char) : Except Error Judgements := do
  match ← ofLine line with
  | some (query, doc) => return judgements.record query doc
  | none => return judgements

/-- Reads judgements. -/
def parse (text : String) : Except Error Judgements :=
  (pieces (· == '\n') text.toList).foldlM readLine ∅

end Judgements
end Concordance
