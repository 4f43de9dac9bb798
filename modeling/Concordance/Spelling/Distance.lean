/-!
Edit distance: the least number of insertions, deletions and substitutions of single characters
that turn one word into another. It stands in the last cell of a table with a column for each
beginning of the one word and a row for each beginning of the other. Of the table no more than one
row is kept, from which the next one is computed.
-/
namespace Concordance

/-- The cells of a row behind its first one, from left to right, by those of the row above: `left`
and `corner` are the cells to the left of the next one and above that. -/
def nextCells (c : Char) (left corner : Nat) : List Char → List Nat → List Nat
  | d :: columns, up :: above =>
    let cell := min (min (up + 1) (left + 1)) (corner + if c = d then 0 else 1)
    cell :: nextCells c cell up columns above
  | _, _ => []

def nextRow (columns : List Char) (row : List Nat) (c : Char) : List Nat :=
  match row with
  | [] => []
  | first :: above => (first + 1) :: nextCells c (first + 1) first columns above

def lastRow (columns rows : List Char) : List Nat :=
  rows.foldl (nextRow columns) (List.range (columns.length + 1))

/-- The edit distance of two lists of characters. The columns are those of the shorter one. -/
def distance : List Char → List Char → Nat
  | [], target => target.length
  | source, [] => source.length
  | source, target =>
    if source.length ≤ target.length then (lastRow source target).getLastD 0
    else (lastRow target source).getLastD 0

/-- The edit distance of two words. -/
def editDistance (source target : String) : Nat := distance source.toList target.toList

end Concordance
